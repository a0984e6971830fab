import Mathlib.Tactic.NormNum.Prime
import Mathlib.Tactic.ReduceModChar
import MoBoMemory.Base.MultiplyWithCarry
import MoBoMemory.TestLib.MovInvLong

/-!
# Bit columns of the random words

`rand_function` makes its 64 bits of two generators of the kind multiply with carry, 16 bits of each, and
shifts them up by 32 bits.  The lower half of what it returns is always 0; in the upper half each bit keeps
changing, unless the generator behind it has come to a fixed point.
-/

namespace MoBoMemory.TestLib

open Base

/-! ## The moduli -/

theorem prime_294911999 : Nat.Prime 294911999 := by
  refine @prime_of_factors _ 7 [2, 1399, 105401] ?_ (by norm_num) (by reduce_mod_char) ?_
  · simp only [List.mem_cons, List.not_mem_nil, or_false, forall_eq_or_imp, forall_eq]
    norm_num
  · simp only [List.mem_cons, List.not_mem_nil, or_false, forall_eq_or_imp, forall_eq]
    norm_num
    reduce_mod_char
    decide

theorem prime_589823999 : Nat.Prime 589823999 := by
  refine @prime_of_half _ _ 7 prime_294911999 (by norm_num) (by reduce_mod_char) ?_ ?_
  · decide
  · reduce_mod_char
    decide

theorem prime_1179647999 : Nat.Prime 1179647999 := by
  refine @prime_of_half _ _ 31 prime_589823999 (by norm_num) (by reduce_mod_char) ?_ ?_
  · decide
  · reduce_mod_char
    decide

theorem prime_506314751 : Nat.Prime 506314751 := by
  refine @prime_of_factors _ 17 [2, 5, 5, 5, 2025259] ?_ (by norm_num) (by reduce_mod_char) ?_
  · simp only [List.mem_cons, List.not_mem_nil, or_false, forall_eq_or_imp, forall_eq]
    norm_num
  · simp only [List.mem_cons, List.not_mem_nil, or_false, forall_eq_or_imp, forall_eq]
    norm_num
    reduce_mod_char
    decide

theorem prime_1012629503 : Nat.Prime 1012629503 := by
  refine @prime_of_half _ _ 5 prime_506314751 (by norm_num) (by reduce_mod_char) ?_ ?_
  · decide
  · reduce_mod_char
    decide

theorem prime_2025259007 : Nat.Prime 2025259007 := by
  refine @prime_of_half _ _ 5 prime_1012629503 (by norm_num) (by reduce_mod_char) ?_ ?_
  · decide
  · reduce_mod_char
    decide

/-! ## Bits that keep changing -/

/-- Again and again the bit is set, and again and again it is clear. -/
def Changes (bit : Nat → Bool) : Prop := ∀ n, (∃ t, n ≤ t ∧ bit t = true) ∧ ∃ t, n ≤ t ∧ bit t = false

theorem changes_succ_iff (bit : Nat → Bool) : Changes (fun t => bit (t + 1)) ↔ Changes bit := by
  constructor
  · intro h n
    obtain ⟨⟨t, ht, hset⟩, u, hu, hclear⟩ := h n
    exact ⟨⟨t + 1, by omega, hset⟩, u + 1, by omega, hclear⟩
  · intro h n
    obtain ⟨⟨t, ht, hset⟩, u, hu, hclear⟩ := h (n + 1)
    obtain ⟨t, rfl⟩ : ∃ t', t = t' + 1 := ⟨t - 1, by omega⟩
    obtain ⟨u, rfl⟩ : ∃ u', u = u' + 1 := ⟨u - 1, by omega⟩
    exact ⟨⟨t, by omega, hset⟩, u, by omega, hclear⟩

theorem testBit_modulus_sub {a i j : Nat} (ha : 0 < a) (hi : i < 16) (hj : j < 16) :
    (a * 2 ^ 16 - 1 - 2 ^ i).testBit j = !decide (i = j) := by
  have hlt : 2 ^ i < 2 ^ 16 := Nat.pow_lt_pow_right (by decide) hi
  have hpos := Nat.two_pow_pos i
  have hsplit : a * 2 ^ 16 - 1 - 2 ^ i = 2 ^ 16 * (a - 1) + (2 ^ 16 - (2 ^ i + 1)) := by omega
  rw [hsplit, Nat.testBit_two_pow_mul_add _ (by omega), if_pos hj, Nat.testBit_two_pow_sub_succ hlt,
    Nat.testBit_two_pow]
  simp [hj]

theorem testBit_modulus {a j : Nat} (ha : 0 < a) (hj : j < 16) : (a * 2 ^ 16 - 1).testBit j = true := by
  have hsplit : a * 2 ^ 16 - 1 = 2 ^ 16 * (a - 1) + (2 ^ 16 - 1) := by omega
  rw [hsplit, Nat.testBit_two_pow_mul_add _ (by decide), if_pos hj, Nat.testBit_two_pow_sub_one]
  simpa using hj

section Generator

variable {a q : Nat} [Fact (a * 2 ^ 16 - 1).Prime] [Fact q.Prime]

-- The low digit of a power of 2 has one bit set, and that of its negative one bit clear.
theorem mwc_bit_changes (ha : 1 < a) (hq : a * 2 ^ 16 - 1 = 2 * q + 1) {s : Nat}
    (hs : ¬ a * 2 ^ 16 - 1 ∣ s) {j : Nat} (hj : j < 16) :
    Changes fun t => ((mwc a (2 ^ 16))^[t] s).testBit j := by
  intro n
  have hs' := hs
  rw [← dvd_mwc_iterate_iff (by omega) (by decide) s n] at hs'
  have hlater : ∀ t, (mwc a (2 ^ 16))^[t] ((mwc a (2 ^ 16))^[n] s) = (mwc a (2 ^ 16))^[t + n] s :=
    fun t => (Function.iterate_add_apply _ t n s).symm
  have hsmall : ∀ i < 16, 2 ^ i < a * 2 ^ 16 - 1 := by
    intro i hi
    have hlt : 2 ^ i < 2 ^ 16 := Nat.pow_lt_pow_right (by decide) hi
    omega
  obtain ⟨i, hi, hij⟩ : ∃ i < 16, i ≠ j := ⟨if j = 0 then 1 else 0, by split <;> omega, by split <;> omega⟩
  rcases mwc_reaches (by omega) (by decide) hq (by omega) (by rw [Nat.mod_eq_of_lt] <;> omega) hs'
    with hall | hall
  · obtain ⟨t, ht⟩ := hall j (hsmall j hj)
    obtain ⟨u, hu⟩ := hall i (hsmall i hi)
    rw [hlater] at ht hu
    refine ⟨⟨t + n, by omega, ?_⟩, u + n, by omega, ?_⟩
    · simp only [ht, Nat.testBit_two_pow_self]
    · simp only [hu, Nat.testBit_two_pow, decide_eq_false hij]
  · obtain ⟨t, ht⟩ := hall i (hsmall i hi)
    obtain ⟨u, hu⟩ := hall j (hsmall j hj)
    rw [hlater] at ht hu
    refine ⟨⟨t + n, by omega, ?_⟩, u + n, by omega, ?_⟩
    · simp only [ht, testBit_modulus_sub (show 0 < a by omega) hi hj, decide_eq_false hij, Bool.not_false]
    · simp only [hu, testBit_modulus_sub (show 0 < a by omega) hj hj, decide_true, Bool.not_true]

end Generator

-- A multiple of the modulus ends in a fixed point, whose low digit is 0 or all ones.
theorem mwc_bit_stays {a : Nat} (ha : 0 < a) {s : Nat} (hs : a * 2 ^ 16 - 1 ∣ s) {j : Nat} (hj : j < 16) :
    ¬ Changes fun t => ((mwc a (2 ^ 16))^[t] s).testBit j := by
  intro hchanges
  rcases mwc_ends ha (show 1 < 2 ^ 16 by decide) s with rfl | ⟨-, -, n, hn⟩ | ⟨hnot, -⟩
  · obtain ⟨⟨t, -, hset⟩, -⟩ := hchanges 0
    dsimp only at hset
    rw [Function.iterate_fixed mwc_zero, Nat.zero_testBit] at hset
    cases hset
  · obtain ⟨-, t, ht, hclear⟩ := hchanges n
    have hfixed : (mwc a (2 ^ 16))^[t] s = a * 2 ^ 16 - 1 := by
      rw [← Nat.sub_add_cancel ht, Function.iterate_add_apply, hn]
      exact Function.iterate_fixed (mwc_modulus ha (by decide)) _
    dsimp only at hclear
    rw [hfixed, testBit_modulus ha hj] at hclear
    cases hclear
  · exact hnot hs

/-! ## The two generators -/

theorem getLsbD_low16 (i : Nat) : (0xFFFF : UL).getLsbD i = decide (i < 16) := by
  have hmask := @Nat.testBit_two_pow_sub_one 16 i
  rw [← hmask]
  show (BitVec.ofNat 64 65535).getLsbD i = _
  rw [BitVec.getLsbD_ofNat]
  by_cases hi : i < 64
  · simp [hi]
  · rw [Nat.testBit_two_pow_sub_one]
    simp [hi]
    omega

theorem upper_bit (s0 s1 : UL) {b : Nat} (hb : b < 64) :
    (((s0 <<< 16) + (s1 &&& 0xFFFF)) <<< 32 : UL).getLsbD b =
      if b < 32 then false
      else if b < 48 then s1.getLsbD (b - 32) else s0.getLsbD (b - 48) := by
  have hapart : (s0 <<< 16) &&& (s1 &&& 0xFFFF) = 0#64 := by
    apply BitVec.eq_of_getLsbD_eq
    intro i hi
    rw [BitVec.getLsbD_and, BitVec.getLsbD_and, BitVec.getLsbD_shiftLeft, getLsbD_low16, BitVec.getLsbD_zero]
    by_cases hlow : i < 16 <;> simp [hlow]
  rw [BitVec.add_eq_or_of_and_eq_zero _ _ hapart, BitVec.getLsbD_shiftLeft, BitVec.getLsbD_or,
    BitVec.getLsbD_and, BitVec.getLsbD_shiftLeft, getLsbD_low16]
  by_cases hlow : b < 32
  · simp [hlow]
  · by_cases hmid : b < 48
    · have h16 : b - 32 < 16 := by omega
      simp [hb, hlow, hmid, h16]
    · have h16 : ¬ b - 32 < 16 := by omega
      have h64 : b - 32 < 64 := by omega
      simp [hb, hlow, hmid, h16, h64, Nat.sub_sub]

theorem toNat_mwc {a : Nat} (ha : a < 2 ^ 16) (s : UL) :
    (BitVec.ofNat 64 a * (s &&& (0xFFFF : UL)) + (s >>> 16)).toNat = mwc a (2 ^ 16) s.toNat := by
  have hlow : (s &&& 0xFFFF).toNat = s.toNat % 2 ^ 16 := by
    rw [BitVec.toNat_and]
    exact Nat.and_two_pow_sub_one_eq_mod s.toNat 16
  have hmod : s.toNat % 2 ^ 16 ≤ 2 ^ 16 - 1 := Nat.le_sub_one_of_lt (Nat.mod_lt _ (by decide))
  have hs := s.isLt
  have hmul : a * (s.toNat % 2 ^ 16) ≤ (2 ^ 16 - 1) * (2 ^ 16 - 1) :=
    Nat.mul_le_mul (Nat.le_sub_one_of_lt ha) hmod
  rw [BitVec.toNat_add, BitVec.toNat_mul, BitVec.toNat_ofNat, BitVec.toNat_ushiftRight, hlow,
    Nat.shiftRight_eq_div_pow, Nat.mod_eq_of_lt (show a < 2 ^ 64 by omega), Nat.mod_eq_of_lt (by omega),
    Nat.mod_eq_of_lt (by omega), mwc]

theorem nextRandom_iterate (p : Prandr) (t : Nat) :
    (nextRandom^[t] p).s0.toNat = (mwc 18000 (2 ^ 16))^[t] p.s0.toNat ∧
      (nextRandom^[t] p).s1.toNat = (mwc 30903 (2 ^ 16))^[t] p.s1.toNat := by
  induction t with
  | zero => exact ⟨rfl, rfl⟩
  | succ t ih =>
      rw [Function.iterate_succ_apply', Function.iterate_succ_apply', Function.iterate_succ_apply',
        ← ih.1, ← ih.2]
      exact ⟨toNat_mwc (by decide) _, toNat_mwc (by decide) _⟩

/-- What call number `t` of `rand_function` returns, from the state `p` on. -/
def output (p : Prandr) (t : Nat) : UL := (randFunction (nextRandom^[t] p)).1

theorem output_bit (p : Prandr) (t : Nat) {b : Nat} (hb : b < 64) :
    (output p t).getLsbD b =
      if b < 32 then false
      else if b < 48 then ((mwc 30903 (2 ^ 16))^[t + 1] p.s1.toNat).testBit (b - 32)
      else ((mwc 18000 (2 ^ 16))^[t + 1] p.s0.toNat).testBit (b - 48) := by
  obtain ⟨h0, h1⟩ := nextRandom_iterate p (t + 1)
  rw [← h0, ← h1, Function.iterate_succ_apply', BitVec.testBit_toNat, BitVec.testBit_toNat]
  exact upper_bit _ _ hb

/-- From every state that follows, a later output has bit `b` set and a later output has it clear. -/
def Exercised (p : Prandr) (b : Nat) : Prop := Changes fun t => (output p t).getLsbD b

-- A bit of the lower half is 0 from the first call on.
theorem not_exercised_low (p : Prandr) {b : Nat} (hb : b < 32) : ¬ Exercised p b := by
  intro h
  obtain ⟨⟨t, -, hset⟩, -⟩ := h 0
  dsimp only at hset
  rw [output_bit p t (by omega), if_pos hb] at hset
  cases hset

-- So have all words that `movinvr` fills a block with.
theorem randomWord_low (b : Block) (i : Nat) {k : Nat} (hk : k < 32) : (randomWord b i).getLsbD k = false := by
  have hbit := output_bit ⟨movinvrSeed1 b.cnt, movinvrSeed2 b.cnt⟩ i (show k < 64 by omega)
  rwa [if_pos hk] at hbit

instance fact_1179647999 : Fact (Nat.Prime (18000 * 2 ^ 16 - 1)) := ⟨prime_1179647999⟩
instance fact_2025259007 : Fact (Nat.Prime (30903 * 2 ^ 16 - 1)) := ⟨prime_2025259007⟩
instance fact_589823999 : Fact (Nat.Prime 589823999) := ⟨prime_589823999⟩
instance fact_1012629503 : Fact (Nat.Prime 1012629503) := ⟨prime_1012629503⟩

/-- The bits of the upper half are exercised, those of each generator as long as its state is no multiple of
its modulus; the bits of the lower half are not. -/
theorem exercised_iff (p : Prandr) {b : Nat} (hb : b < 64) :
    Exercised p b ↔ 32 ≤ b ∧ (b < 48 → ¬ 30903 * 2 ^ 16 - 1 ∣ p.s1.toNat) ∧
      (48 ≤ b → ¬ 18000 * 2 ^ 16 - 1 ∣ p.s0.toNat) := by
  by_cases hlow : b < 32
  · exact iff_of_false (not_exercised_low p hlow) fun h => absurd h.1 (by omega)
  by_cases hmid : b < 48
  · have hbit : (fun t => (output p t).getLsbD b) =
        fun t => ((mwc 30903 (2 ^ 16))^[t + 1] p.s1.toNat).testBit (b - 32) := by
      funext t
      rw [output_bit p t hb, if_neg hlow, if_pos hmid]
    rw [Exercised, hbit, changes_succ_iff fun t => ((mwc 30903 (2 ^ 16))^[t] p.s1.toNat).testBit (b - 32)]
    constructor
    · intro hchanges
      exact ⟨by omega, fun _ hdvd => mwc_bit_stays (by decide) hdvd (by omega) hchanges, fun h => by omega⟩
    · rintro ⟨-, hnot, -⟩
      exact @mwc_bit_changes 30903 1012629503 _ _ (by decide) (by decide) _ (hnot hmid) _ (by omega)
  · have hbit : (fun t => (output p t).getLsbD b) =
        fun t => ((mwc 18000 (2 ^ 16))^[t + 1] p.s0.toNat).testBit (b - 48) := by
      funext t
      rw [output_bit p t hb, if_neg hlow, if_neg hmid]
    rw [Exercised, hbit, changes_succ_iff fun t => ((mwc 18000 (2 ^ 16))^[t] p.s0.toNat).testBit (b - 48)]
    constructor
    · intro hchanges
      exact ⟨by omega, fun h => by omega, fun _ hdvd => mwc_bit_stays (by decide) hdvd (by omega) hchanges⟩
    · rintro ⟨-, -, hnot⟩
      exact @mwc_bit_changes 18000 589823999 _ _ (by decide) (by decide) _ (hnot (by omega)) _ (by omega)

theorem exercised_iff_top :
    Exercised randFunctionInit 63 ↔ 32 ≤ 63 ∧
      (63 < 48 → ¬ 30903 * 2 ^ 16 - 1 ∣ randFunctionInit.s1.toNat) ∧
      (48 ≤ 63 → ¬ 18000 * 2 ^ 16 - 1 ∣ randFunctionInit.s0.toNat) :=
  exercised_iff randFunctionInit (by decide)

theorem lowest_bit_constant : ¬ Exercised randFunctionInit 0 :=
  not_exercised_low randFunctionInit (by decide)

end MoBoMemory.TestLib
