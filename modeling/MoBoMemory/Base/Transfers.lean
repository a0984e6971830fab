import Mathlib.Data.List.Basic

/-!
# Transfers in pieces

A reader takes a text through a file that remembers its position.  Each call brings a piece of the text and
moves the position behind it, finds the end, or fails and changes nothing.  A copy to or from a user buffer may
stop early, and tells how many bytes are missing.
-/

namespace MoBoMemory.Base

variable {α : Type*} {text bytes : List α} {room len : Nat}

/-- The bytes that do not fit into the room, counted, and those that do. -/
def copyUser (room : Nat) (bytes : List α) : Nat × List α := (bytes.length - room, bytes.take room)

theorem copyUser_of_le (h : bytes.length ≤ room) : copyUser room bytes = (0, bytes) :=
  Prod.ext (Nat.sub_eq_zero_of_le h) (List.take_of_length_le h)

theorem copyUser_eq_zero_iff : (copyUser room bytes).1 = 0 ↔ bytes.length ≤ room := Nat.sub_eq_zero_iff_le

/-- What a call returns, the bytes it brings, and the position it leaves. -/
structure Delivery (α : Type*) where
  ret : Int
  bytes : List α
  offset : Nat

/-- The position of a file, and what its successful calls have brought since it was opened. -/
structure Reader (α : Type*) where
  offset : Nat
  got : List α

namespace Reader

variable {s : Reader α} {o : Delivery α}

def opened : Reader α := ⟨0, []⟩

def after (s : Reader α) (o : Delivery α) : Reader α := ⟨o.offset, if 0 ≤ o.ret then s.got ++ o.bytes else s.got⟩

/-- The reader has the text up to its position. -/
structure Within (text : List α) (s : Reader α) : Prop where
  offset : s.offset ≤ text.length
  got : s.got = text.take s.offset

theorem opened_within : opened.Within text := ⟨Nat.zero_le _, rfl⟩

/-- A call returns the number of bytes that it brings and moves by it, or an error without moving; the text comes
in its order, and its end is not announced before it is there. -/
structure Served (text : List α) (len : Nat) (s : Reader α) (o : Delivery α) : Prop where
  returns : (o.ret = o.bytes.length ∧ o.offset = s.offset + o.bytes.length) ∨ (o.ret < 0 ∧ o.offset = s.offset)
  within : (s.after o).Within text
  eof : 0 < len → o.ret = 0 → (s.after o).got = text

theorem served_eof (hs : s.Within text) (hend : text.length ≤ s.offset) : s.Served text len ⟨0, [], s.offset⟩ := by
  have hstays : s.after ⟨0, [], s.offset⟩ = s := by simp [after]
  refine ⟨Or.inl ⟨rfl, rfl⟩, hstays.symm ▸ hs, fun _ _ => ?_⟩
  rw [hstays, hs.got, List.take_of_length_le hend]

theorem served_error {ret : Int} (hs : s.Within text) (hret : ret < 0) : s.Served text len ⟨ret, [], s.offset⟩ := by
  have hstays : s.after ⟨ret, [], s.offset⟩ = s := by simp [after]
  refine ⟨Or.inr ⟨hret, rfl⟩, hstays.symm ▸ hs, fun _ (hzero : ret = 0) => ?_⟩
  omega

-- A piece from the position on, as long as the call asks for or the text has.
theorem served_piece (hs : s.Within text) (hmore : s.offset < text.length) {sz : Nat}
    (hsz : sz = min len (text.length - s.offset)) :
    s.Served text len ⟨sz, (text.drop s.offset).take sz, s.offset + sz⟩ := by
  have hpiece : ((text.drop s.offset).take sz).length = sz := by
    rw [List.length_take, List.length_drop]
    omega
  have hgot : (s.after ⟨sz, (text.drop s.offset).take sz, s.offset + sz⟩).got = text.take (s.offset + sz) := by
    rw [after, if_pos (Int.natCast_nonneg sz), hs.got, List.take_add]
  refine ⟨Or.inl ⟨by rw [hpiece], by rw [hpiece]⟩, ⟨?_, hgot⟩, ?_⟩
  · show s.offset + sz ≤ text.length
    omega
  · intro hlen hzero
    have hnothing : sz = 0 := Int.natCast_eq_zero.mp hzero
    omega

-- A positive number and a position that stays do not go together.
theorem not_served_of_pos (hret : 0 < o.ret) (hoffset : o.offset = s.offset) : ¬ s.Served text len o := by
  intro h
  rcases h.returns with ⟨hbytes, hmoved⟩ | ⟨hneg, -⟩
  · omega
  · omega

end Reader

end MoBoMemory.Base
