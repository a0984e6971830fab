import Mathlib.Data.List.Induction
import Mathlib.Data.Nat.Digits.Defs
import Mathlib.Tactic.IntervalCases
import Mathlib.Tactic.Ring

/-!
# Numerals

What a string of digits denotes in a base up to 16, most significant digit first, with both letter
cases for the digits from ten on.  `Nat.toDigits` is the printing that goes with it.
-/

namespace MoBoMemory.Base

/-- The value of a digit. -/
def digitValue (c : Char) : Option Nat :=
  if c ≤ '9' ∧ '0' ≤ c then some (c.toNat - '0'.toNat)
  else if c ≤ 'f' ∧ 'a' ≤ c then some (c.toNat - 'a'.toNat + 10)
  else if c ≤ 'F' ∧ 'A' ≤ c then some (c.toNat - 'A'.toNat + 10)
  else none

/-- A digit of base `b`. -/
def IsDigit (b : Nat) (c : Char) : Prop := ∃ d ∈ digitValue c, d < b

instance (b : Nat) (c : Char) : Decidable (IsDigit b c) :=
  inferInstanceAs (Decidable (∃ d ∈ digitValue c, d < b))

/-- The number that a string of digits denotes. -/
def numeral (b : Nat) (cs : List Char) : Nat := cs.foldl (fun v c => v * b + (digitValue c).getD 0) 0

/-- The number that a whole string denotes, if it is a numeral. -/
def numeral? (b : Nat) (cs : List Char) : Option Nat :=
  if cs ≠ [] ∧ cs.all fun c => IsDigit b c then some (numeral b cs) else none

section Numeral

variable {b v : Nat} {c : Char} {cs ds : List Char}

theorem numeral?_eq_some :
    numeral? b cs = some v ↔ cs ≠ [] ∧ (∀ c ∈ cs, IsDigit b c) ∧ numeral b cs = v := by
  simp only [numeral?, Option.ite_none_right_eq_some, Option.some.injEq, List.all_eq_true,
    decide_eq_true_eq, and_assoc]

@[simp] theorem numeral_nil : numeral b [] = 0 := rfl

theorem numeral_snoc : numeral b (cs ++ [c]) = numeral b cs * b + (digitValue c).getD 0 := by
  simp [numeral]

theorem numeral_append : numeral b (cs ++ ds) = numeral b cs * b ^ ds.length + numeral b ds := by
  induction ds using List.reverseRecOn with
  | nil => simp
  | append_singleton ds c ih =>
      rw [← List.append_assoc, numeral_snoc, numeral_snoc, ih, List.length_append,
        List.length_singleton, pow_succ]
      ring

-- What is left of a numeral that is cut short denotes less, if anything.
theorem numeral_cut (hb : 1 < b) (hds : ds ≠ []) :
    numeral b cs = 0 ∨ numeral b cs < numeral b (cs ++ ds) := by
  rcases Nat.eq_zero_or_pos (numeral b cs) with hzero | hpos
  · exact Or.inl hzero
  · right
    have hpow : 1 < b ^ ds.length := Nat.one_lt_pow (by simpa using hds) hb
    calc numeral b cs = numeral b cs * 1 := (Nat.mul_one _).symm
      _ < numeral b cs * b ^ ds.length := Nat.mul_lt_mul_of_pos_left hpow hpos
      _ ≤ numeral b (cs ++ ds) := by rw [numeral_append]; exact Nat.le_add_right _ _

-- Only zeros denote zero.
theorem zeros_of_numeral (hb : 0 < b) (hcs : ∀ c ∈ cs, IsDigit b c) (hzero : numeral b cs = 0) :
    ∀ c ∈ cs, digitValue c = some 0 := by
  induction cs using List.reverseRecOn with
  | nil => simp
  | append_singleton cs c ih =>
      rw [numeral_snoc, Nat.add_eq_zero_iff, Nat.mul_eq_zero] at hzero
      intro e he
      rcases List.mem_append.mp he with he | he
      · exact ih (fun e he => hcs e (by simp [he])) (hzero.1.resolve_right (by omega)) e he
      · obtain ⟨d, hd, -⟩ := hcs c (by simp)
        obtain rfl : d = 0 := by simpa [Option.mem_def.mp hd] using hzero.2
        rw [List.mem_singleton.mp he, Option.mem_def.mp hd]

theorem digitValue_lt {d : Nat} (hd : digitValue c = some d) : d < 16 := by
  have hle : ∀ {x y : Char}, x ≤ y ↔ x.toNat ≤ y.toNat := Iff.rfl
  simp only [digitValue, hle] at hd
  split_ifs at hd <;> simp only [Option.some.injEq, Char.reduceToNat] at * <;> omega

theorem isDigit_sixteen : IsDigit 16 c ↔ digitValue c ≠ none := by
  constructor
  · rintro ⟨d, hd, -⟩
    simp [Option.mem_def.mp hd]
  · intro h
    obtain ⟨d, hd⟩ := Option.ne_none_iff_exists'.mp h
    exact ⟨d, hd, digitValue_lt hd⟩

theorem isDigit_ten : IsDigit 10 c ↔ c ≤ '9' ∧ '0' ≤ c := by
  have hle : ∀ {x y : Char}, x ≤ y ↔ x.toNat ≤ y.toNat := Iff.rfl
  simp only [IsDigit, digitValue, hle, Option.mem_def, Char.reduceToNat]
  constructor
  · rintro ⟨d, hd, hlt⟩
    split_ifs at hd <;> simp only [Option.some.injEq] at hd <;> omega
  · intro h
    exact ⟨c.toNat - 48, if_pos h, by omega⟩

theorem digitValue_digitChar {d : Nat} (hd : d < 16) : digitValue (Nat.digitChar d) = some d := by
  interval_cases d <;> decide

theorem isDigit_digitChar {d : Nat} (hb : b ≤ 16) (hd : d < b) : IsDigit b (Nat.digitChar d) :=
  ⟨d, digitValue_digitChar (by omega), hd⟩

-- Reading back what was printed.
theorem numeral?_toDigits {n : Nat} (hb : 1 < b) (hb16 : b ≤ 16) :
    numeral? b (Nat.toDigits b n) = some n := by
  rw [numeral?_eq_some]
  refine ⟨Nat.toDigits_ne_nil, ?_⟩
  induction n using Nat.base_induction b hb with
  | single m hm =>
      rw [Nat.toDigits_of_lt_base hm]
      refine ⟨?_, ?_⟩
      · simpa using isDigit_digitChar hb16 hm
      · simp [numeral, digitValue_digitChar (by omega : m < 16)]
  | digit m k hk hm ih =>
      rw [← Nat.toDigits_append_toDigits hb hm hk, Nat.toDigits_of_lt_base hk, numeral_snoc, ih.2,
        digitValue_digitChar (by omega), Option.getD_some]
      refine ⟨?_, by ring⟩
      intro c hc
      rcases List.mem_append.mp hc with hc | hc
      · exact ih.1 c hc
      · rw [List.mem_singleton.mp hc]
        exact isDigit_digitChar hb16 hk

end Numeral

end MoBoMemory.Base
