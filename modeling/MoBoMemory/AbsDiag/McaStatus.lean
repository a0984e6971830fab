import MoBoMemory.AbsDiag.Mcamce

/-!
# The classes of machine check errors

`mcamce_check` tells the errors by masks over the lower half of a status.  The masks cut the bits of an
error code out as they should, but the tag parity bit is compared with 1, so that this class is never found.
-/

namespace MoBoMemory.AbsDiag

open Base

/-! ## Masks -/

-- A mask of `n` ones from bit `k` on.
theorem toNat_and_mask {w : Nat} (x : BitVec w) {k n : Nat} (hk : k + n ≤ w) :
    (x &&& BitVec.ofNat w ((2 ^ n - 1) * 2 ^ k)).toNat = x.toNat / 2 ^ k % 2 ^ n * 2 ^ k := by
  have hmask : (2 ^ n - 1) * 2 ^ k < 2 ^ w := by
    have hlt : (2 ^ n - 1) * 2 ^ k < 2 ^ n * 2 ^ k :=
      Nat.mul_lt_mul_of_pos_right (Nat.sub_lt (Nat.two_pow_pos n) (by decide)) (Nat.two_pow_pos k)
    rw [← Nat.pow_add] at hlt
    exact lt_of_lt_of_le hlt (Nat.pow_le_pow_right (by decide) (by omega))
  rw [BitVec.toNat_and, BitVec.toNat_ofNat, Nat.mod_eq_of_lt hmask]
  apply Nat.eq_of_testBit_eq
  intro i
  rw [← Nat.shiftLeft_eq, ← Nat.shiftLeft_eq, ← Nat.shiftRight_eq_div_pow]
  simp only [Nat.testBit_and, Nat.testBit_shiftLeft, Nat.testBit_mod_two_pow, Nat.testBit_shiftRight,
    Nat.testBit_two_pow_sub_one]
  by_cases hi : k ≤ i
  · simp [hi, Bool.and_comm, Nat.add_sub_cancel' hi]
  · simp [hi]

theorem and_mask_eq_iff {w : Nat} (x : BitVec w) {k n c : Nat} (hk : k + n ≤ w) (hc : c < 2 ^ n) :
    x &&& BitVec.ofNat w ((2 ^ n - 1) * 2 ^ k) = BitVec.ofNat w (c * 2 ^ k) ↔
      x.extractLsb' k n = BitVec.ofNat n c := by
  have hfield : c * 2 ^ k < 2 ^ w := by
    have hlt := Nat.mul_lt_mul_of_pos_right hc (Nat.two_pow_pos k)
    rw [← Nat.pow_add] at hlt
    exact lt_of_lt_of_le hlt (Nat.pow_le_pow_right (by decide) (by omega))
  rw [← BitVec.toNat_inj, ← BitVec.toNat_inj, toNat_and_mask x hk, BitVec.extractLsb'_toNat,
    Nat.shiftRight_eq_div_pow, BitVec.toNat_ofNat, BitVec.toNat_ofNat, Nat.mod_eq_of_lt hfield,
    Nat.mod_eq_of_lt hc, Nat.mul_left_inj (Nat.two_pow_pos k).ne']

/-! ## The classes -/

/-- VAL, bit 63. -/
def McaStatus.Val (st : McaStatus) : Prop := st.hi.extractLsb' 31 1 = 1

/-- Bits 15:8 are 0x01. -/
def McaStatus.MemoryError (st : McaStatus) : Prop := st.Val ∧ st.lo.extractLsb' 8 8 = 0x01

/-- Bits 15:8 are 0, and bits 7:0 are not. -/
def McaStatus.TlbError (st : McaStatus) : Prop :=
  st.Val ∧ st.lo.extractLsb' 8 8 = 0 ∧ st.lo.extractLsb' 0 8 ≠ 0

/-- Bits 15:0 are 0, and bit 16 is set. -/
def McaStatus.TagParityError (st : McaStatus) : Prop :=
  st.Val ∧ st.lo.extractLsb' 0 16 = 0 ∧ st.lo.extractLsb' 16 1 = 1

instance (st : McaStatus) : Decidable st.Val := inferInstanceAs (Decidable (_ = _))
instance (st : McaStatus) : Decidable st.MemoryError := inferInstanceAs (Decidable (_ ∧ _))
instance (st : McaStatus) : Decidable st.TlbError := inferInstanceAs (Decidable (_ ∧ _))
instance (st : McaStatus) : Decidable st.TagParityError := inferInstanceAs (Decidable (_ ∧ _))

theorem valid_iff_val (st : McaStatus) : st.Valid ↔ st.Val := by
  have hzero : st.hi &&& 1#32 <<< 31 = 0 ↔ st.hi.extractLsb' 31 1 = 0 :=
    and_mask_eq_iff st.hi (k := 31) (n := 1) (c := 0) (by decide) (by decide)
  rw [McaStatus.Valid, McaStatus.Val, Ne, hzero]
  rcases BitVec.eq_zero_or_eq_one (st.hi.extractLsb' 31 1) with hbit | hbit <;> simp [hbit]

-- Bits 15:0 are bits 15:8 and 7:0.
theorem simple_eq_zero_iff (lo : BitVec 32) :
    lo.extractLsb' 0 16 = 0 ↔ lo.extractLsb' 8 8 = 0 ∧ lo.extractLsb' 0 8 = 0 := by
  simp only [← BitVec.toNat_inj, BitVec.extractLsb'_toNat, Nat.shiftRight_eq_div_pow,
    BitVec.ofNat_eq_ofNat, BitVec.toNat_ofNat]
  omega

theorem and_ffff_eq_zero_iff (lo : BitVec 32) : lo &&& 0xffff = 0 ↔ lo.extractLsb' 0 16 = 0 :=
  and_mask_eq_iff lo (k := 0) (n := 16) (c := 0) (by decide) (by decide)

theorem and_ff00_eq_iff (lo : BitVec 32) {c : Nat} (hc : c < 2 ^ 8) :
    lo &&& 0xff00 = BitVec.ofNat 32 (c * 2 ^ 8) ↔ lo.extractLsb' 8 8 = BitVec.ofNat 8 c :=
  and_mask_eq_iff lo (k := 8) (n := 8) (by decide) hc

theorem countsIn_mecc_iff (st : McaStatus) : st.CountsIn .mecc ↔ st.MemoryError := by
  have hmemory : st.lo &&& 0xff00 = 0x0100 ↔ st.lo.extractLsb' 8 8 = 0x01 :=
    and_ff00_eq_iff st.lo (c := 1) (by decide)
  rw [McaStatus.CountsIn, McaStatus.MemoryError, valid_iff_val, and_congr_right_iff]
  intro _
  by_cases hsimple : st.lo &&& 0xffff = 0
  · rw [countedIn_of_no_simple hsimple]
    rw [and_ffff_eq_zero_iff, simple_eq_zero_iff] at hsimple
    exact iff_of_false (by simp) (by simp [hsimple.1])
  · rw [countedIn, if_pos hsimple, simpleError, ← hmemory]
    by_cases hmem : st.lo &&& 0xff00 = 0x0100
    · rw [if_pos hmem]
      exact iff_of_true rfl hmem
    · rw [if_neg hmem]
      refine iff_of_false ?_ hmem
      split_ifs <;> simp

-- A status with 0x11 in bits 15:11 has something in bits 15:8.
theorem bus_of_high_zero {lo : BitVec 32} (h : lo.extractLsb' 8 8 = 0) : ¬ lo &&& 0xf800 = 0x8800 := by
  have hbus : lo &&& 0xf800 = 0x8800 ↔ lo.extractLsb' 11 5 = 0x11 :=
    and_mask_eq_iff lo (k := 11) (n := 5) (c := 0x11) (by decide) (by decide)
  rw [hbus]
  simp only [← BitVec.toNat_inj, BitVec.extractLsb'_toNat, Nat.shiftRight_eq_div_pow,
    BitVec.ofNat_eq_ofNat, BitVec.toNat_ofNat] at h ⊢
  omega

theorem countsIn_cecc_iff (st : McaStatus) : st.CountsIn .cecc ↔ st.TlbError := by
  have hmemory : st.lo &&& 0xff00 = 0x0100 ↔ st.lo.extractLsb' 8 8 = 0x01 :=
    and_ff00_eq_iff st.lo (c := 1) (by decide)
  have htlb : st.lo &&& 0xff00 = 0 ↔ st.lo.extractLsb' 8 8 = 0 :=
    and_ff00_eq_iff st.lo (c := 0) (by decide)
  rw [McaStatus.CountsIn, McaStatus.TlbError, valid_iff_val, and_congr_right_iff]
  intro _
  by_cases hsimple : st.lo &&& 0xffff = 0
  · rw [countedIn_of_no_simple hsimple]
    rw [and_ffff_eq_zero_iff, simple_eq_zero_iff] at hsimple
    exact iff_of_false (by simp) fun h => h.2 hsimple.2
  · rw [countedIn, if_pos hsimple, simpleError]
    rw [and_ffff_eq_zero_iff, simple_eq_zero_iff] at hsimple
    by_cases hhigh : st.lo.extractLsb' 8 8 = 0
    · have hnot : ¬ st.lo &&& 0xff00 = 0x0100 := by
        rw [hmemory, hhigh]
        decide
      rw [if_neg hnot, if_neg (bus_of_high_zero hhigh), if_pos (htlb.mpr hhigh)]
      exact iff_of_true rfl ⟨hhigh, fun hlow => hsimple ⟨hhigh, hlow⟩⟩
    · rw [if_neg (mt htlb.mp hhigh)]
      refine iff_of_false ?_ fun h => hhigh h.1
      split_ifs <;> simp

/-! ## One poll -/

theorem mcamceCheckBank_ret (acc : Int × (EccFile → Nat)) (st : McaStatus) :
    (mcamceCheckBank acc st).1 = if st.Valid then 1 else acc.1 := by
  obtain ⟨ret, gCnt⟩ := acc
  unfold mcamceCheckBank
  by_cases hvalid : st.Valid
  · simp only [if_pos hvalid]
    cases countedIn st.lo <;> rfl
  · simp only [if_neg hvalid]

theorem mcamceCheck_ret (banks : List McaStatus) (gCnt : EccFile → Nat) :
    (mcamceCheck banks gCnt).1 = if ∃ st ∈ banks, st.Val then 1 else 0 := by
  have hloop : ∀ (acc : Int × (EccFile → Nat)),
      (banks.foldl mcamceCheckBank acc).1 = if ∃ st ∈ banks, st.Val then 1 else acc.1 := by
    induction banks with
    | nil => simp
    | cons st banks ih =>
        intro acc
        rw [List.foldl_cons, ih, mcamceCheckBank_ret]
        by_cases hval : st.Val
        · simp [valid_iff_val, hval]
        · simp [valid_iff_val, hval]
  exact hloop (0, gCnt)

/-- One poll adds the valid banks to the counters by their classes, in 64 bits, and returns whether
there are any. -/
structure Classifies (banks : List McaStatus) (gCnt : EccFile → BitVec 64) : Prop where
  mecc : (mcamceCheck banks fun file => (gCnt file).toNat).2 .mecc =
    ((gCnt .mecc).toNat + banks.countP McaStatus.MemoryError) % 2 ^ 64
  cecc : (mcamceCheck banks fun file => (gCnt file).toNat).2 .cecc =
    ((gCnt .cecc).toNat + (banks.countP McaStatus.TlbError + banks.countP McaStatus.TagParityError)) % 2 ^ 64
  ret : (mcamceCheck banks fun file => (gCnt file).toNat).1 = if ∃ st ∈ banks, st.Val then 1 else 0

/-- `mcamce_check` classifies its banks exactly if there is no tag parity error among them; `banks_cnt` is an
unsigned short. -/
theorem classifies_iff (banks : List McaStatus) (gCnt : EccFile → BitVec 64) (hcnt : banks.length < 2 ^ 16) :
    Classifies banks gCnt ↔ ∀ st ∈ banks, ¬ st.TagParityError := by
  have hmecc := @mcamceCheck_apply banks (fun file => (gCnt file).toNat) .mecc (gCnt .mecc).isLt
  have hcecc := @mcamceCheck_apply banks (fun file => (gCnt file).toNat) .cecc (gCnt .cecc).isLt
  simp only [countsIn_mecc_iff, countsIn_cecc_iff] at hmecc hcecc
  have hfew : banks.countP McaStatus.TagParityError < 2 ^ 16 := lt_of_le_of_lt List.countP_le_length hcnt
  have hnone : (∀ st ∈ banks, ¬ st.TagParityError) ↔ banks.countP McaStatus.TagParityError = 0 := by
    simp [List.countP_eq_zero]
  rw [hnone]
  constructor
  · intro h
    have hsum := h.cecc
    rw [hcecc] at hsum
    omega
  · intro h
    refine ⟨hmecc, ?_, mcamceCheck_ret _ _⟩
    rw [hcecc, h, Nat.add_zero]

/-- A bank with a memory error and one with nothing. -/
theorem classifies_iff_two :
    Classifies [⟨0x0100, 0x80000000⟩, ⟨0, 0⟩] (fun _ => 0) ↔
      ∀ st ∈ [⟨0x0100, 0x80000000⟩, ⟨0, 0⟩], ¬ McaStatus.TagParityError st :=
  classifies_iff _ _ (by decide)

/-- A tag parity error is in none of the counters. -/
theorem tagParity_dropped :
    (mcamceCheck [⟨0x10000, 0x80000000⟩] fun _ => 0).2 .cecc = 0 ∧
      ¬ Classifies [⟨0x10000, 0x80000000⟩] fun _ => 0 := by
  have hnothing : (mcamceCheck [⟨0x10000, 0x80000000⟩] fun _ => 0).2 .cecc = 0 := by decide
  refine ⟨hnothing, ?_⟩
  intro h
  have hone : (mcamceCheck [⟨0x10000, 0x80000000⟩] fun _ => 0).2 .cecc = 1 := h.cecc
  rw [hnothing] at hone
  cases hone

end MoBoMemory.AbsDiag
