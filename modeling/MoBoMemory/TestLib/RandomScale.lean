import MoBoMemory.Base.Rounding
import MoBoMemory.TestLib.Aliases
import MoBoMemory.TestLib.Unflagged

/-!
# The random addresses of a bank

Item 2 scales a random number to the words of a bank.  The number becomes a `float` first, which rounds the
largest ones up to RAND_MAX + 1, so that they are scaled to the word behind the bank.
-/

namespace MoBoMemory.TestLib

open Base

def randMax : Nat := 2147483647

/-- A conversion to `float`, which has 24 significant bits. -/
def toFloat (n : Nat) : Nat := roundBits 24 n

/-- `(UL)((n * (float)rand_array[i][j])/(RAND_MAX+1.0))`; the product is a `float`, and the quotient, a
`double`, is exact. -/
def randVal (randArray : Nat → Nat → Nat) (n i j : Nat) : Nat :=
  toFloat (toFloat n * toFloat (randArray i j)) / (randMax + 1)

/-- `bank_size / sizeof(*test_buf)` -/
def cntPerBank : Nat := memBankSize / 8

/-! ## One number -/

section Number

variable (randArray : Nat → Nat → Nat) (i j : Nat)

-- A bank has a power of two of words, so that only the first rounding matters.
theorem randVal_bank :
    randVal randArray cntPerBank i j = cntPerBank * toFloat (randArray i j) / (randMax + 1) := by
  have hbank : toFloat cntPerBank = 2 ^ 17 := by decide
  have hproduct : toFloat (2 ^ 17 * toFloat (randArray i j)) = 2 ^ 17 * toFloat (randArray i j) := by
    unfold toFloat
    rw [roundBits_two_pow_mul (by decide), roundBits_roundBits (by decide)]
  rw [randVal, hbank, hproduct]
  rfl

theorem randVal_lt_iff :
    randVal randArray cntPerBank i j < cntPerBank ↔ randArray i j + 64 < randMax + 1 := by
  have hround := @roundBits_lt_two_pow_iff 24 (randArray i j) (by decide) 31 (by decide)
  rw [randVal_bank]
  unfold toFloat randMax cntPerBank memBankSize
  omega

-- And the word behind the bank is the only other one.
theorem randVal_le (hr : randArray i j ≤ randMax) : randVal randArray cntPerBank i j ≤ cntPerBank := by
  have hround : roundBits 24 (randArray i j) ≤ 2 ^ 31 := by
    by_cases hzero : randArray i j = 0
    · rw [hzero]
      decide
    · have hlog : (randArray i j).log2 < 31 := by
        rw [Nat.log2_lt hzero]
        unfold randMax at hr
        omega
      exact (roundBits_le (by decide) _).trans (Nat.pow_le_pow_right (by decide) hlog)
  rw [randVal_bank]
  unfold toFloat randMax cntPerBank memBankSize
  omega

end Number

/-! ## The words that are inverted -/

-- The record of a loop whose turns record some addresses each.
theorem mem_foldl_record {α : Type} {f : (Nat → UL) × List Nat → α → (Nat → UL) × List Nat}
    {A : α → Nat → Prop} (hf : ∀ s x p, p ∈ (f s x).2 ↔ p ∈ s.2 ∨ A x p) (xs : List α)
    (s : (Nat → UL) × List Nat) (p : Nat) :
    p ∈ (xs.foldl f s).2 ↔ p ∈ s.2 ∨ ∃ x ∈ xs, A x p := by
  induction xs generalizing s with
  | nil => simp
  | cons x xs ih =>
      rw [List.foldl_cons, ih, hf, List.exists_mem_cons_iff, or_assoc]

theorem mem_invert_record (s : (Nat → UL) × List Nat) (pa p : Nat) :
    p ∈ (invert recordingBus pa s).2 ↔ p ∈ s.2 ∨ p = pa := by
  rw [invert]
  exact List.mem_cons.trans or_comm

theorem mem_nested_record (addr : Nat → Nat → Nat → Nat) (xs is js : List Nat)
    (s : (Nat → UL) × List Nat) (p : Nat) :
    p ∈ (xs.foldl (fun mem x => is.foldl (fun mem i => js.foldl (fun mem j =>
        invert recordingBus (addr x i j) mem) mem) mem) s).2 ↔
      p ∈ s.2 ∨ ∃ x ∈ xs, ∃ i ∈ is, ∃ j ∈ js, p = addr x i j :=
  mem_foldl_record (fun s x p => mem_foldl_record (fun s i p =>
    mem_foldl_record (fun s j p => mem_invert_record s (addr x i j) p) js s p) is s p) xs s p

section Inverted

variable (b : Block) (randArray : Nat → Nat → Nat)

-- With whole banks nothing is left for the loops behind them.
theorem randaddrTest_record (hbanks : cntPerBank ∣ b.cnt) (mem : Nat → UL) (p : Nat) :
    p ∈ (randaddrTest recordingBus (randVal randArray) b.start b.cnt cntPerBank (mem, [])).2 ↔
      ∃ ibank < b.cnt / cntPerBank, ∃ i < randArrayNum, ∃ j < randNumSize,
        p = ptrAdd (ptrAdd b.start (ibank * cntPerBank)) (randVal randArray cntPerBank i j) := by
  have hremain : b.cnt - b.cnt / cntPerBank * cntPerBank = 0 := by
    rw [Nat.div_mul_cancel hbanks, Nat.sub_self]
  have hrest : ∀ s, (sweep (fun i => sweep (fun j mem =>
      if 0 ≤ randArrayNum * i + j then (mem, true)
      else (invert recordingBus (ptrAdd (ptrAdd b.start (b.cnt / cntPerBank * cntPerBank))
        (randVal randArray 0 i j)) mem, false)) (List.range randNumSize))
      (List.range randArrayNum) s).1 = s := fun s =>
    sweep_preserves (· = s)
      (fun i s' hs => sweep_preserves (· = s) (fun j s' hs => by simpa using hs) _ s' hs) _ s rfl
  rw [randaddrTest]
  simp only [hremain, hrest]
  rw [mem_nested_record fun ibank i j =>
    ptrAdd (ptrAdd b.start (ibank * cntPerBank)) (randVal randArray cntPerBank i j)]
  simp only [List.not_mem_nil, false_or, List.mem_range]

-- The last bank shows it: the word behind each other bank is in the block too.
theorem inverted_inside_iff (hbanks : cntPerBank ∣ b.cnt)
    (hrand : ∀ i < randArrayNum, ∀ j < randNumSize, randArray i j ≤ randMax) (mem : Nat → UL) :
    (∀ p ∈ (randaddrTest recordingBus (randVal randArray) b.start b.cnt cntPerBank (mem, [])).2,
        p ∈ b.addrs) ↔
      ∀ i < randArrayNum, ∀ j < randNumSize, randArray i j + 64 < randMax + 1 := by
  have hpos := b.cnt_pos
  have hwrap := b.noWrap
  have haligned := b.aligned
  obtain ⟨banks, hcnt⟩ := hbanks
  have hdiv : b.cnt / cntPerBank = banks := by
    rw [hcnt, Nat.mul_div_cancel_left _ (by decide)]
  constructor
  · intro hinside i hi j hj
    rw [← randVal_lt_iff]
    by_contra hout
    have heq : randVal randArray cntPerBank i j = cntPerBank :=
      Nat.le_antisymm (randVal_le randArray i j (hrand i hi j hj)) (Nat.not_lt.mp hout)
    have hbank : banks - 1 < b.cnt / cntPerBank := by
      rw [hdiv]
      unfold cntPerBank memBankSize at hcnt
      omega
    have hlast := hinside _ ((randaddrTest_record b randArray ⟨banks, hcnt⟩ mem _).mpr
      ⟨banks - 1, hbank, i, hi, j, hj, rfl⟩)
    rw [heq, b.mem_addrs] at hlast
    unfold ptrAdd cntPerBank memBankSize at *
    omega
  · intro hsmall p hp
    obtain ⟨ibank, hbank, i, hi, j, hj, rfl⟩ := (randaddrTest_record b randArray ⟨banks, hcnt⟩ mem p).mp hp
    have hlt := (randVal_lt_iff randArray i j).mpr (hsmall i hi j hj)
    rw [hdiv] at hbank
    rw [b.mem_addrs]
    generalize randVal randArray cntPerBank i j = off at hlt
    unfold ptrAdd cntPerBank memBankSize at *
    omega

end Inverted

/-- The offset is in the bank, and every word that is inverted is in a block of whole banks, just where no
number is among the 64 largest ones. -/
theorem randaddr_stays_iff (b : Block) (hbanks : cntPerBank ∣ b.cnt) (randArray : Nat → Nat → Nat)
    (hrand : ∀ i < randArrayNum, ∀ j < randNumSize, randArray i j ≤ randMax) (mem : Nat → UL) :
    (∀ i < randArrayNum, ∀ j < randNumSize,
      randVal randArray cntPerBank i j < cntPerBank ↔ randArray i j + 64 < randMax + 1) ∧
    ((∀ p ∈ (randaddrTest recordingBus (randVal randArray) b.start b.cnt cntPerBank (mem, [])).2,
        p ∈ b.addrs) ↔
      ∀ i < randArrayNum, ∀ j < randNumSize, randArray i j + 64 < randMax + 1) :=
  ⟨fun i _ j _ => randVal_lt_iff randArray i j, inverted_inside_iff b randArray hbanks hrand mem⟩

/-- One bank of memory. -/
def oneBank : Block := ⟨0x200000, 131072, by decide, by decide, by decide, by decide⟩

theorem randaddr_stays_iff_half :
    (∀ i < randArrayNum, ∀ j < randNumSize,
      randVal (fun _ _ => 0x40000000) cntPerBank i j < cntPerBank ↔ 0x40000000 + 64 < randMax + 1) ∧
    ((∀ p ∈ (randaddrTest recordingBus (randVal fun _ _ => 0x40000000) oneBank.start oneBank.cnt cntPerBank
        (fun _ => 0, [])).2, p ∈ oneBank.addrs) ↔
      ∀ i < randArrayNum, ∀ j < randNumSize, 0x40000000 + 64 < randMax + 1) :=
  randaddr_stays_iff oneBank (by decide) (fun _ _ => 0x40000000) (fun _ _ _ _ => by decide) fun _ => 0

/-- A single draw of RAND_MAX. -/
def oneDraw (i j : Nat) : Nat := if i = 0 ∧ j = 0 then randMax else 0

theorem oneDraw_leaves :
    randVal oneDraw cntPerBank 0 0 = cntPerBank ∧
      ∃ p ∈ (randaddrTest recordingBus (randVal oneDraw) oneBank.start oneBank.cnt cntPerBank
        (fun _ => 0, [])).2, p ∉ oneBank.addrs := by
  refine ⟨by decide, ?_⟩
  by_contra hinside
  have hsmall := (inverted_inside_iff oneBank oneDraw (by decide)
    (fun i _ j _ => by unfold oneDraw; split <;> decide) fun _ => 0).mp
    (fun p hp => not_not.mp fun hout => hinside ⟨p, hp, hout⟩) 0 (by decide) 0 (by decide)
  exact absurd hsmall (by decide)

end MoBoMemory.TestLib
