import Mathlib.Algebra.Order.Ring.Int
import MoBoMemory.Base.Keyed
import MoBoMemory.Driver.UserArgs

/-!
# The entries of the e820 map

`e820AddEntry` fills the slot that its caller names and counts a slot when it finds its size 0.  The
readers of `mye820map` take the count for a bound on the slots.  The two readings agree when the
accepted indices have no gap and no accepted range is the whole address space, whose size wraps to 0.
-/

namespace MoBoMemory.App

open Base Driver

/-- The arguments of a call, as their types bound them. -/
structure E820Call where
  start : Nat
  stop : Nat
  type : Int
  entry : Nat
  start_lt : start < 2 ^ 64
  stop_lt : stop < 2 ^ 64
  entry_lt : entry < 2 ^ 31
deriving DecidableEq

/-- An `int` in a field of type `__u32`. -/
def u32 (type : Int) : Nat := (type % 2 ^ 32).toNat

/-- `e820AddEntry` on a map: the return value and the map after it.  `xMax` is `E820_X_MAX`. -/
def e820AddEntry (xMax : Nat) (m : Mye820Map) (start stop : Nat) (type : Int) (entry : Nat) :
    Int × Mye820Map :=
  if xMax ≤ entry then (-1, m)
  else if stop ≤ start then (-1, m)
  else
    (0, { nrMap := if (m.map entry).size = 0 then (m.nrMap + 1) % 2 ^ 32 else m.nrMap
          map := Function.update m.map entry ⟨start, (stop - start + 1) % 2 ^ 64, u32 type⟩ })

def E820Call.add (xMax : Nat) (m : Mye820Map) (c : E820Call) : Int × Mye820Map :=
  e820AddEntry xMax m c.start c.stop c.type c.entry

/-- `mye820map` before any call. -/
def emptyE820Map : Mye820Map := ⟨0, fun _ => ⟨0, 0, 0⟩⟩

/-- `mye820map` after a sequence of calls. -/
def e820MapOf (xMax : Nat) (cs : List E820Call) : Mye820Map :=
  cs.foldl (fun m c => (c.add xMax m).2) emptyE820Map

/-- The call returns 0. -/
def E820Call.Accepted (xMax : Nat) (c : E820Call) : Prop := c.entry < xMax ∧ c.start < c.stop

instance (xMax : Nat) (c : E820Call) : Decidable (c.Accepted xMax) :=
  inferInstanceAs (Decidable (_ ∧ _))

def accepted (xMax : Nat) (cs : List E820Call) : List E820Call := cs.filter fun c => c.Accepted xMax

/-- The range of the call is the whole address space. -/
def E820Call.Whole (c : E820Call) : Prop := c.start = 0 ∧ c.stop = 2 ^ 64 - 1

instance (c : E820Call) : Decidable c.Whole := inferInstanceAs (Decidable (_ ∧ _))

/-- The last call for an index. -/
def lastFor (cs : List E820Call) (i : Nat) : Option E820Call := lastWith E820Call.entry cs i

/-- How many of the calls `cs`, which follow the calls `before`, replace the whole address space. -/
def wholesReplaced : List E820Call → List E820Call → Nat
  | _, [] => 0
  | before, c :: cs =>
      wholesReplaced (before ++ [c]) cs + if ∃ d ∈ lastFor before c.entry, d.Whole then 1 else 0

/-- Every accepted entry can be seen below the count, and nothing else. -/
structure NothingHidden (xMax : Nat) (cs : List E820Call) : Prop where
  visible : ∀ c ∈ accepted xMax cs, c.entry < (e820MapOf xMax cs).nrMap
  contents : ∀ i c, lastFor (accepted xMax cs) i = some c →
    (e820MapOf xMax cs).map i = ⟨c.start, c.stop - c.start + 1, u32 c.type⟩
  filled : ∀ i < (e820MapOf xMax cs).nrMap, ∃ c ∈ accepted xMax cs, c.entry = i

/-- Below an accepted index all indices are accepted. -/
def NoIndexMissing (xMax : Nat) (cs : List E820Call) : Prop :=
  ∀ c ∈ accepted xMax cs, ∀ j < c.entry, ∃ d ∈ accepted xMax cs, d.entry = j

/-- No index is left with the whole address space. -/
def NoWholeLeft (xMax : Nat) (cs : List E820Call) : Prop :=
  ∀ i, ∀ c ∈ lastFor (accepted xMax cs) i, ¬ c.Whole

/-! ## One call -/

section Add

variable {xMax : Nat} {m : Mye820Map} {c : E820Call}

theorem E820Call.add_returns : (c.add xMax m).1 = if c.Accepted xMax then 0 else -1 := by
  simp only [E820Call.add, e820AddEntry, E820Call.Accepted]
  split_ifs <;> first | rfl | omega

theorem E820Call.add_of_not_accepted (hc : ¬ c.Accepted xMax) : (c.add xMax m).2 = m := by
  simp only [E820Call.add, e820AddEntry, E820Call.Accepted] at hc ⊢
  split_ifs <;> first | rfl | omega

/-- The slot after an accepted call. -/
def E820Call.slot (c : E820Call) : E820Entry := ⟨c.start, (c.stop - c.start + 1) % 2 ^ 64, u32 c.type⟩

theorem E820Call.add_of_accepted (hc : c.Accepted xMax) : (c.add xMax m).2 =
    { nrMap := if (m.map c.entry).size = 0 then (m.nrMap + 1) % 2 ^ 32 else m.nrMap
      map := Function.update m.map c.entry c.slot } := by
  rw [E820Call.add, e820AddEntry, if_neg (Nat.not_le.mpr hc.1), if_neg (Nat.not_le.mpr hc.2)]
  rfl

theorem E820Call.slot_size_eq_zero (hc : c.Accepted xMax) : c.slot.size = 0 ↔ c.Whole := by
  have hstop := c.stop_lt
  have hlt := hc.2
  simp only [E820Call.slot, E820Call.Whole]
  omega

-- The slot holds the range of the call unless its size wraps.
theorem E820Call.slot_eq (hc : c.Accepted xMax) :
    c.slot = ⟨c.start, c.stop - c.start + 1, u32 c.type⟩ ↔ ¬ c.Whole := by
  have hstop := c.stop_lt
  have hlt := hc.2
  simp only [E820Call.slot, E820Call.Whole, E820Entry.mk.injEq, true_and, and_true]
  omega

end Add

/-! ## The map after a sequence of calls -/

section Sequence

variable {xMax : Nat} {cs before : List E820Call} {c : E820Call} {i : Nat}

theorem mem_accepted : c ∈ accepted xMax cs ↔ c ∈ cs ∧ c.Accepted xMax := by simp [accepted]

theorem accepted_of_lastFor (h : lastFor (accepted xMax cs) i = some c) : c.Accepted xMax :=
  (mem_accepted.mp (mem_of_lastWith h).1).2

-- Calls that are refused leave no trace.
theorem e820MapOf_accepted : e820MapOf xMax (accepted xMax cs) = e820MapOf xMax cs := by
  rw [e820MapOf, accepted, List.foldl_filter, e820MapOf]
  congr 1
  funext m c
  by_cases hc : c.Accepted xMax
  · simp only [decide_eq_true hc, if_true]
  · simp only [decide_eq_false hc, Bool.false_eq_true, if_false, E820Call.add_of_not_accepted hc]

theorem e820MapOf_snoc : e820MapOf xMax (cs ++ [c]) = (c.add xMax (e820MapOf xMax cs)).2 := by
  rw [e820MapOf, List.foldl_append, List.foldl_cons, List.foldl_nil, ← e820MapOf]

theorem wholesReplaced_snoc : wholesReplaced before (cs ++ [c]) =
    wholesReplaced before cs + if ∃ d ∈ lastFor (before ++ cs) c.entry, d.Whole then 1 else 0 := by
  induction cs generalizing before with
  | nil => simp [wholesReplaced]
  | cons b cs ih =>
      rw [List.cons_append, wholesReplaced, ih, wholesReplaced, List.append_assoc,
        List.singleton_append]
      omega

-- The slots hold what the last accepted calls put there.
theorem e820MapOf_map (hcs : ∀ c ∈ cs, c.Accepted xMax) :
    (e820MapOf xMax cs).map i = ((lastFor cs i).map E820Call.slot).getD ⟨0, 0, 0⟩ := by
  induction cs using List.reverseRecOn with
  | nil => rfl
  | append_singleton cs c ih =>
      have hc : c.Accepted xMax := hcs c (by simp)
      have hrest := ih fun d hd => hcs d (by simp [hd])
      rw [e820MapOf_snoc, E820Call.add_of_accepted hc, lastFor, lastWith_snoc]
      by_cases hi : c.entry = i
      · subst hi
        simp
      · simp only [Function.update_of_ne (Ne.symm hi), hrest, if_neg hi, lastFor]

-- The count is the number of indices, and one more for each slot whose size was found to be 0 again.
theorem e820MapOf_nrMap (hcs : ∀ c ∈ cs, c.Accepted xMax) : (e820MapOf xMax cs).nrMap =
    ((keys E820Call.entry cs).card + wholesReplaced [] cs) % 2 ^ 32 := by
  induction cs using List.reverseRecOn with
  | nil => rfl
  | append_singleton cs c ih =>
      have hc : c.Accepted xMax := hcs c (by simp)
      have hrest : ∀ d ∈ cs, d.Accepted xMax := fun d hd => hcs d (by simp [hd])
      rw [e820MapOf_snoc, E820Call.add_of_accepted hc, e820MapOf_map hrest, ih hrest, keys_snoc,
        wholesReplaced_snoc, List.nil_append]
      cases hlast : lastFor cs c.entry with
      | none =>
          rw [Finset.card_insert_of_notMem (lastWith_eq_none.mp hlast)]
          simp only [Option.map_none, Option.getD_none, if_true, Option.not_mem_none, false_and,
            exists_false, if_false]
          omega
      | some d =>
          have hd : d ∈ cs ∧ d.entry = c.entry := mem_of_lastWith hlast
          rw [Finset.insert_eq_of_mem (mem_keys.mpr ⟨d, hd⟩)]
          simp only [Option.map_some, Option.getD_some, E820Call.slot_size_eq_zero (hrest d hd.1),
            Option.mem_some_iff, exists_eq_left']
          split_ifs <;> omega

-- There are fewer indices than an `int` has values.
theorem card_keys_entry_lt : (keys E820Call.entry cs).card < 2 ^ 32 := by
  have hsub : keys E820Call.entry cs ⊆ Finset.range (2 ^ 31) := by
    intro i hi
    obtain ⟨c, -, rfl⟩ := mem_keys.mp hi
    exact Finset.mem_range.mpr c.entry_lt
  have hcard := Finset.card_le_card hsub
  rw [Finset.card_range] at hcard
  omega

-- Where no index comes twice, nothing is replaced.
theorem wholesReplaced_of_nodup (hcs : ((before ++ cs).map E820Call.entry).Nodup) :
    wholesReplaced before cs = 0 := by
  induction cs generalizing before with
  | nil => rfl
  | cons c cs ih =>
      have hfresh : ∀ d ∈ before, d.entry ≠ c.entry := by
        rw [List.map_append, List.nodup_append] at hcs
        intro d hd
        exact hcs.2.2 _ (List.mem_map_of_mem hd) _ (by simp)
      have hlast : lastFor before c.entry = none := lastWith_eq_none.mpr (by simpa using hfresh)
      rw [wholesReplaced, ih (by simpa using hcs), hlast]
      simp

/-! ## What the readers see -/

-- The slots below the count are the accepted ones exactly if there is no gap and no surplus.
theorem keys_eq_range_iff :
    keys E820Call.entry (accepted xMax cs) = Finset.range (e820MapOf xMax cs).nrMap ↔
    NoIndexMissing xMax cs ∧ 2 ^ 32 ∣ wholesReplaced [] (accepted xMax cs) := by
  have hcard := @card_keys_entry_lt (accepted xMax cs)
  have hacc : ∀ c ∈ accepted xMax cs, c.Accepted xMax := fun c hc => (mem_accepted.mp hc).2
  rw [eq_range_iff, ← e820MapOf_accepted, e820MapOf_nrMap hacc]
  apply and_congr
  · simp only [NoIndexMissing, mem_keys, forall_exists_index, and_imp, forall_apply_eq_imp_iff₂]
  · omega

theorem nothingHidden_iff : NothingHidden xMax cs ↔
    NoIndexMissing xMax cs ∧ NoWholeLeft xMax cs ∧ 2 ^ 32 ∣ wholesReplaced [] (accepted xMax cs) := by
  have hacc : ∀ c ∈ accepted xMax cs, c.Accepted xMax := fun c hc => (mem_accepted.mp hc).2
  have hslots : (∀ i c, lastFor (accepted xMax cs) i = some c →
      (e820MapOf xMax cs).map i = ⟨c.start, c.stop - c.start + 1, u32 c.type⟩) ↔
        NoWholeLeft xMax cs := by
    apply forall_congr'
    intro i
    apply forall_congr'
    intro c
    apply forall_congr'
    intro hlast
    rw [← e820MapOf_accepted, e820MapOf_map hacc, hlast, Option.map_some, Option.getD_some,
      E820Call.slot_eq (accepted_of_lastFor hlast)]
  constructor
  · intro h
    have hkeys : keys E820Call.entry (accepted xMax cs) = Finset.range (e820MapOf xMax cs).nrMap := by
      ext i
      rw [mem_keys, Finset.mem_range]
      constructor
      · rintro ⟨c, hc, rfl⟩
        exact h.visible c hc
      · exact h.filled i
    obtain ⟨hgap, hcount⟩ := keys_eq_range_iff.mp hkeys
    exact ⟨hgap, hslots.mp h.contents, hcount⟩
  · rintro ⟨hgap, hleft, hcount⟩
    have hkeys := keys_eq_range_iff.mpr ⟨hgap, hcount⟩
    refine ⟨?_, hslots.mpr hleft, ?_⟩
    · intro c hc
      exact Finset.mem_range.mp (hkeys ▸ mem_keys.mpr ⟨c, hc, rfl⟩)
    · intro i hi
      exact mem_keys.mp (hkeys ▸ Finset.mem_range.mpr hi)

-- The map depends on the order of the calls only through repeated indices.
theorem e820MapOf_perm {cs' : List E820Call} (hperm : cs.Perm cs')
    (hdistinct : ((accepted xMax cs).map E820Call.entry).Nodup) :
    e820MapOf xMax cs' = e820MapOf xMax cs := by
  have hperm' : (accepted xMax cs).Perm (accepted xMax cs') := hperm.filter _
  have hdistinct' := (hperm'.map E820Call.entry).nodup_iff.mp hdistinct
  have hacc : ∀ cs, ∀ c ∈ accepted xMax cs, c.Accepted xMax := fun cs c hc => (mem_accepted.mp hc).2
  have hkeys : keys E820Call.entry (accepted xMax cs') = keys E820Call.entry (accepted xMax cs) :=
    (List.toFinset_eq_of_perm _ _ (hperm'.map E820Call.entry)).symm
  have hnone : wholesReplaced [] (accepted xMax cs) = 0 := wholesReplaced_of_nodup hdistinct
  have hnone' : wholesReplaced [] (accepted xMax cs') = 0 := wholesReplaced_of_nodup hdistinct'
  have hcount : (e820MapOf xMax cs').nrMap = (e820MapOf xMax cs).nrMap := by
    rw [← e820MapOf_accepted, e820MapOf_nrMap (hacc cs'), ← e820MapOf_accepted,
      e820MapOf_nrMap (hacc cs), hnone, hnone', hkeys]
  have hslots : (e820MapOf xMax cs').map = (e820MapOf xMax cs).map := by
    funext i
    rw [← e820MapOf_accepted, e820MapOf_map (hacc cs'), ← e820MapOf_accepted, e820MapOf_map (hacc cs),
      lastFor, lastWith_perm hperm' hdistinct, ← lastFor]
  calc e820MapOf xMax cs' = ⟨(e820MapOf xMax cs').nrMap, (e820MapOf xMax cs').map⟩ := rfl
    _ = e820MapOf xMax cs := by rw [hcount, hslots]

-- The driver is given the ranges of the last accepted calls, each under its index.
theorem NothingHidden.mem_entries (h : NothingHidden xMax cs) (ei : E820Entry) :
    ei ∈ (e820MapOf xMax cs).entries ↔
      ∃ i c, lastFor (accepted xMax cs) i = some c ∧
        ei = ⟨c.start, c.stop - c.start + 1, u32 c.type⟩ := by
  simp only [Mye820Map.entries, List.mem_map, List.mem_range]
  constructor
  · rintro ⟨i, hi, rfl⟩
    obtain ⟨c, hc, hentry⟩ := h.filled i hi
    cases hlast : lastFor (accepted xMax cs) i with
    | none => exact absurd (mem_keys.mpr ⟨c, hc, hentry⟩) (lastWith_eq_none.mp hlast)
    | some d => exact ⟨i, d, hlast, h.contents i d hlast⟩
  · rintro ⟨i, c, hlast, rfl⟩
    obtain ⟨hc, rfl⟩ := mem_of_lastWith hlast
    exact ⟨c.entry, h.visible c hc, h.contents _ c hlast⟩

end Sequence

-- What the readers see is what was accepted exactly when the accepted indices have no gap, no slot is
-- left with the whole address space and no slot that was is counted again; the order in which the
-- entries of a directory come plays no part.
theorem e820Entries_visible_iff (xMax : Nat) (cs : List E820Call) :
    (NothingHidden xMax cs ↔
      NoIndexMissing xMax cs ∧ NoWholeLeft xMax cs ∧ 2 ^ 32 ∣ wholesReplaced [] (accepted xMax cs)) ∧
    ∀ cs' : List E820Call, cs.Perm cs' → ((accepted xMax cs).map E820Call.entry).Nodup →
      e820MapOf xMax cs' = e820MapOf xMax cs :=
  ⟨nothingHidden_iff, fun _ hperm hdistinct => e820MapOf_perm hperm hdistinct⟩

/-- A RAM entry, a range of one byte and another RAM entry. -/
def gappedCalls : List E820Call :=
  [⟨0x0, 0x9fbff, 1, 0, by omega, by omega, by omega⟩,
   ⟨0x9fc00, 0x9fc00, 2, 1, by omega, by omega, by omega⟩,
   ⟨0x100000, 0x7ffeffff, 1, 2, by omega, by omega, by omega⟩]

-- The one-byte range is refused: the count stays at 2, below which slot 1 is empty and slot 2 is not.
theorem entry_past_gap_hidden : ¬ NothingHidden 128 gappedCalls := by
  intro h
  have hvisible := h.visible ⟨0x100000, 0x7ffeffff, 1, 2, by omega, by omega, by omega⟩ (by decide)
  revert hvisible
  decide

end MoBoMemory.App
