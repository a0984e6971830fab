import Mathlib.Data.List.Prime
import Mathlib.NumberTheory.LegendreSymbol.QuadraticReciprocity
import Mathlib.NumberTheory.LucasPrimality

/-!
# Multiply with carry

The generator that multiplies the lowest digit of its state by `a` and adds the other digits as the carry.
With `m = a * b - 1` a step divides the state by the base `b` modulo `m`.  Where `m` is a safe prime of the
right kind, the states that follow run through every power of 2 or through the negative of every one.
-/

namespace MoBoMemory.Base

def mwc (a b s : Nat) : Nat := a * (s % b) + s / b

/-! ## Steps -/

section Steps

variable {a b s : Nat}

theorem mwc_mul (hab : 0 < a * b) : mwc a b s * b = s + (a * b - 1) * (s % b) := by
  have hs := Nat.div_add_mod s b
  have hsub : (a * b - 1) * (s % b) + s % b = a * b * (s % b) := by
    rw [← Nat.succ_mul, Nat.succ_eq_add_one, Nat.sub_add_cancel hab]
  have hleft : mwc a b s * b = a * b * (s % b) + b * (s / b) := by
    unfold mwc
    ring
  omega

theorem mwc_zero : mwc a b 0 = 0 := by simp [mwc]

theorem mod_base_le (hb : 1 < b) : (a * b - 1) * (s % b) ≤ (a * b - 1) * (b - 1) :=
  Nat.mul_le_mul_left _ (Nat.le_sub_one_of_lt (Nat.mod_lt _ (by omega)))

theorem mul_base_sub_one (hb : 1 < b) (n : Nat) : n * (b - 1) + n = n * b := by
  rw [← Nat.mul_succ, Nat.succ_eq_add_one, Nat.sub_add_cancel (by omega)]

variable (ha : 0 < a) (hb : 1 < b)
include ha hb

-- Below the modulus a state stays below it, and above it it falls.
theorem mwc_lt (hs : s < a * b - 1) : mwc a b s < a * b - 1 := by
  have hmul := @mwc_mul a b s (Nat.mul_pos ha (by omega))
  have hrest := @mod_base_le a b s hb
  have hsplit := mul_base_sub_one hb (a * b - 1)
  refine Nat.lt_of_mul_lt_mul_right (a := b) ?_
  omega

theorem mwc_falls (hs : a * b - 1 < s) : mwc a b s < s := by
  have hmul := @mwc_mul a b s (Nat.mul_pos ha (by omega))
  have hrest := @mod_base_le a b s hb
  have hsplit := mul_base_sub_one hb s
  have hless : (a * b - 1) * (b - 1) < s * (b - 1) := Nat.mul_lt_mul_of_pos_right hs (by omega)
  refine Nat.lt_of_mul_lt_mul_right (a := b) ?_
  omega

theorem mwc_modulus : mwc a b (a * b - 1) = a * b - 1 := by
  have hab : 0 < a * b := Nat.mul_pos ha (by omega)
  have hdigit : (a * b - 1) % b = b - 1 := by
    obtain ⟨c, rfl⟩ : ∃ c, a = c + 1 := ⟨a - 1, by omega⟩
    rw [Nat.succ_mul, Nat.add_sub_assoc (by omega), Nat.mul_add_mod_of_lt (by omega)]
  have hmul := @mwc_mul a b (a * b - 1) hab
  have hsplit := mul_base_sub_one hb (a * b - 1)
  rw [hdigit] at hmul
  refine Nat.eq_of_mul_eq_mul_right (show 0 < b by omega) ?_
  omega

-- Multiples of the modulus stay multiples, and the others stay others.
theorem dvd_mwc_iff (s : Nat) : a * b - 1 ∣ mwc a b s ↔ a * b - 1 ∣ s := by
  have hab : 0 < a * b := Nat.mul_pos ha (by omega)
  have hmul := @mwc_mul a b s hab
  have hcoprime : Nat.Coprime (a * b - 1) b := by
    refine Nat.Coprime.symm (Nat.Coprime.coprime_mul_left (k := a) ?_)
    exact (Nat.coprime_self_sub_right hab).mpr (Nat.coprime_one_right _)
  constructor
  · intro h
    have hsum : a * b - 1 ∣ s + (a * b - 1) * (s % b) := by
      rw [← hmul]
      exact h.mul_right b
    exact (Nat.dvd_add_left (Nat.dvd_mul_right _ _)).mp hsum
  · intro h
    refine hcoprime.dvd_of_dvd_mul_right ?_
    rw [hmul]
    exact Nat.dvd_add h (Nat.dvd_mul_right _ _)

theorem dvd_mwc_iterate_iff (s n : Nat) : a * b - 1 ∣ (mwc a b)^[n] s ↔ a * b - 1 ∣ s := by
  induction n with
  | zero => rfl
  | succ n ih => rw [Function.iterate_succ_apply', dvd_mwc_iff ha hb, ih]

theorem mwc_pos (hs : 0 < s) : 0 < mwc a b s := by
  have hmul := @mwc_mul a b s (Nat.mul_pos ha (by omega))
  refine Nat.pos_of_ne_zero fun hzero => ?_
  rw [hzero, Nat.zero_mul] at hmul
  omega

theorem mwc_iterate_pos (hs : 0 < s) (n : Nat) : 0 < (mwc a b)^[n] s := by
  induction n with
  | zero => exact hs
  | succ n ih =>
      rw [Function.iterate_succ_apply']
      exact mwc_pos ha hb ih

theorem mwc_iterate_lt (hs : s < a * b - 1) (n : Nat) : (mwc a b)^[n] s < a * b - 1 := by
  induction n with
  | zero => exact hs
  | succ n ih =>
      rw [Function.iterate_succ_apply']
      exact mwc_lt ha hb ih

theorem exists_mwc_iterate_le (s : Nat) : ∃ n, (mwc a b)^[n] s ≤ a * b - 1 := by
  induction s using Nat.strong_induction_on with
  | h s ih =>
      by_cases hs : s ≤ a * b - 1
      · exact ⟨0, hs⟩
      · obtain ⟨n, hn⟩ := ih _ (mwc_falls ha hb (Nat.not_le.mp hs))
        exact ⟨n + 1, hn⟩

-- Where it ends: at 0, at the modulus or below it for ever.
theorem mwc_ends (s : Nat) :
    s = 0 ∨ (0 < s ∧ a * b - 1 ∣ s ∧ ∃ n, (mwc a b)^[n] s = a * b - 1) ∨
      (¬ a * b - 1 ∣ s ∧ ∃ n, (mwc a b)^[n] s < a * b - 1) := by
  obtain ⟨n, hn⟩ := exists_mwc_iterate_le ha hb s
  by_cases hdvd : a * b - 1 ∣ s
  · rcases Nat.eq_zero_or_pos s with hs | hs
    · exact Or.inl hs
    · have hend := Nat.le_of_dvd (mwc_iterate_pos ha hb hs n) ((dvd_mwc_iterate_iff ha hb s n).mpr hdvd)
      exact Or.inr (Or.inl ⟨hs, hdvd, n, Nat.le_antisymm hn hend⟩)
  · refine Or.inr (Or.inr ⟨hdvd, n, Nat.lt_of_le_of_ne hn fun heq => hdvd ?_⟩)
    rw [← dvd_mwc_iterate_iff ha hb s n, heq]

end Steps

/-! ## Safe primes -/

section SafePrime

variable {p q : Nat}

theorem zmod_pow_eq_one_iff (hp : 1 < p) (a n : Nat) : (a : ZMod p) ^ n = 1 ↔ a ^ n % p = 1 := by
  rw [← Nat.cast_pow, ← Nat.cast_one, ZMod.natCast_eq_natCast_iff', Nat.mod_eq_of_lt hp]

-- The test of Lucas with the prime factors of `p - 1`.
theorem prime_of_factors {a : ZMod p} {rs : List Nat} (hrs : ∀ r ∈ rs, r.Prime) (hprod : rs.prod = p - 1)
    (hfull : a ^ (p - 1) = 1) (hpart : ∀ r ∈ rs, a ^ ((p - 1) / r) ≠ 1) : p.Prime := by
  refine lucas_primality p a hfull fun r hr hdvd => ?_
  rw [← hprod] at hdvd
  obtain ⟨r', hr', hdvd⟩ := (Prime.dvd_prod_iff hr.prime).mp hdvd
  obtain rfl := (Nat.prime_dvd_prime_iff_eq hr (hrs r' hr')).mp hdvd
  exact hpart r hr'

theorem prime_of_half {a : ZMod p} (hq : q.Prime) (hp : p - 1 = 2 * q) (hfull : a ^ (p - 1) = 1) (htwo : a ^ 2 ≠ 1)
    (hhalf : a ^ q ≠ 1) : p.Prime := by
  refine @prime_of_factors p a [2, q] ?_ (by simp [hp]) hfull ?_
  · simp only [List.mem_cons, List.not_mem_nil, or_false, forall_eq_or_imp, forall_eq]
    exact ⟨Nat.prime_two, hq⟩
  · simp only [List.mem_cons, List.not_mem_nil, or_false, forall_eq_or_imp, forall_eq]
    rw [hp, Nat.mul_div_cancel_left q (by decide), Nat.mul_div_cancel 2 hq.pos]
    exact ⟨hhalf, htwo⟩

variable [Fact p.Prime] [Fact q.Prime] (hp : p = 2 * q + 1)

include hp in
theorem index_zpowers_of_half {g : (ZMod p)ˣ} (hg : g ^ q = 1) (hne : g ≠ 1) :
    (Subgroup.zpowers g).index = 2 := by
  have hpos := (Fact.out : q.Prime).pos
  have hcard := Subgroup.index_mul_card (Subgroup.zpowers g)
  rw [Nat.card_zpowers, orderOf_eq_prime hg hne, Nat.card_eq_fintype_card, ZMod.card_units] at hcard
  refine Nat.eq_of_mul_eq_mul_right hpos ?_
  omega

-- 2 is a square and -1 is none.
theorem exists_sq_eq_two (h7 : p % 8 = 7) : ∃ x : (ZMod p)ˣ, ((x ^ 2 : (ZMod p)ˣ) : ZMod p) = 2 := by
  obtain ⟨r, hr⟩ := (ZMod.exists_sq_eq_two_iff (p := p) (by omega)).mpr (Or.inr h7)
  have hne : r ≠ 0 := by
    rintro rfl
    rw [mul_zero] at hr
    have hdvd := (ZMod.natCast_eq_zero_iff 2 p).mp (by exact_mod_cast hr)
    have hle := Nat.le_of_dvd (by decide) hdvd
    omega
  exact ⟨Units.mk0 r hne, by rw [Units.val_pow_eq_pow_val, Units.val_mk0, hr, sq]⟩

theorem neg_one_not_sq (h7 : p % 8 = 7) (x : (ZMod p)ˣ) : x ^ 2 ≠ -1 := by
  intro hx
  have hsq : IsSquare (-1 : ZMod p) := by
    refine ⟨x, ?_⟩
    rw [← sq, ← Units.val_pow_eq_pow_val, hx, Units.val_neg, Units.val_one]
  exact absurd (ZMod.exists_sq_eq_neg_one_iff.mp hsq) (by omega)

include hp in
-- The powers of a power of 2 reach each number from all the powers of 2, or else from all their negatives.
theorem two_pow_powers {t : (ZMod p)ˣ} (h7 : p % 8 = 7) (ht : (t : ZMod p) = 2) {k : Nat} (hk : t ^ k ≠ 1)
    (r : (ZMod p)ˣ) : (∀ i, ∃ n : Nat, (t ^ k) ^ n * t ^ i = r) ∨ ∀ i, ∃ n : Nat, (t ^ k) ^ n * -t ^ i = r := by
  obtain ⟨x, hx⟩ := exists_sq_eq_two h7
  obtain rfl : x ^ 2 = t := Units.ext (hx.trans ht.symm)
  have hfermat : x ^ (2 * q) = 1 := by
    have hunits := ZMod.units_pow_card_sub_one_eq_one p x
    rwa [show p - 1 = 2 * q by omega] at hunits
  have hindex : (Subgroup.zpowers ((x ^ 2) ^ k)).index = 2 := by
    refine index_zpowers_of_half hp ?_ hk
    rw [← pow_mul, ← pow_mul, Nat.mul_comm k, ← Nat.mul_assoc, pow_mul, hfermat, one_pow]
  have htwo : ∀ i : Nat, (x ^ 2) ^ i ∈ Subgroup.zpowers ((x ^ 2) ^ k) :=
    fun i => pow_mem (Subgroup.sq_mem_of_index_two hindex x) i
  have hneg : (-1 : (ZMod p)ˣ) ∉ Subgroup.zpowers ((x ^ 2) ^ k) := by
    rintro ⟨n, hn⟩
    refine neg_one_not_sq h7 ((x ^ k) ^ n) ?_
    rw [← hn, ← zpow_natCast, ← zpow_mul, mul_comm, zpow_mul, zpow_natCast]
    dsimp only
    rw [pow_right_comm]
  have hpowers : ∀ y, r * y⁻¹ ∈ Subgroup.zpowers ((x ^ 2) ^ k) → ∃ n : Nat, ((x ^ 2) ^ k) ^ n * y = r := by
    intro y hy
    obtain ⟨n, hn⟩ := mem_powers_iff_mem_zpowers.mpr hy
    exact ⟨n, by rw [show ((x ^ 2) ^ k) ^ n = r * y⁻¹ from hn, inv_mul_cancel_right]⟩
  by_cases hr : r ∈ Subgroup.zpowers ((x ^ 2) ^ k)
  · exact Or.inl fun i => hpowers _ (mul_mem hr (inv_mem (htwo i)))
  · refine Or.inr fun i => hpowers _ ?_
    have hout : -(x ^ 2) ^ i ∉ Subgroup.zpowers ((x ^ 2) ^ k) := by
      rw [← neg_one_mul, Subgroup.mul_mem_iff_of_index_two hindex]
      exact fun h => hneg (h.mpr (htwo i))
    rw [Subgroup.mul_mem_iff_of_index_two hindex, Subgroup.inv_mem_iff]
    exact iff_of_false hr hout

end SafePrime

/-! ## Where a safe prime is the modulus -/

section Reaches

variable {a b : Nat} (ha : 0 < a) (hb : 1 < b)

include ha hb in
-- A step divides by the base.
theorem mwc_iterate_cast (s n : Nat) :
    (((mwc a b)^[n] s : Nat) : ZMod (a * b - 1)) * (b : ZMod (a * b - 1)) ^ n = s := by
  induction n with
  | zero => simp
  | succ n ih =>
      have hmul := congrArg (Nat.cast : Nat → ZMod (a * b - 1))
        (@mwc_mul a b ((mwc a b)^[n] s) (Nat.mul_pos ha (by omega)))
      simp only [Nat.cast_mul, Nat.cast_add, ZMod.natCast_self, zero_mul, add_zero] at hmul
      rw [Function.iterate_succ_apply', pow_succ', ← mul_assoc, hmul, ih]

-- The recurrence multiplies by the inverse of its base, so `y` is reached where a power of the base times `y` is the
-- state.
theorem mwc_reaches_of_mul {a k : Nat} (ha : 0 < a) (hb : 1 < 2 ^ k) [Fact (a * 2 ^ k - 1).Prime]
    (htwo : ((2 : Nat) : ZMod (a * 2 ^ k - 1)) ≠ 0) {s : Nat} (hs : s < a * 2 ^ k - 1) {n x : Nat}
    (hx : x < a * 2 ^ k - 1)
    (hpow : (((2 : Nat) : ZMod (a * 2 ^ k - 1)) ^ k) ^ n * ((x : Nat) : ZMod (a * 2 ^ k - 1)) = (s : Nat)) :
    (mwc a (2 ^ k))^[n] s = x := by
  have hlt := mwc_iterate_lt ha hb hs n
  have heq : (((mwc a (2 ^ k))^[n] s : Nat) : ZMod (a * 2 ^ k - 1)) = ((x : Nat) : ZMod (a * 2 ^ k - 1)) := by
    have hcast := mwc_iterate_cast ha hb s n
    rw [Nat.cast_pow] at hcast
    refine mul_left_cancel₀ (pow_ne_zero n (pow_ne_zero k htwo)) ?_
    rw [hpow, ← hcast]
    exact mul_comm _ _
  rwa [ZMod.natCast_eq_natCast_iff', Nat.mod_eq_of_lt hlt, Nat.mod_eq_of_lt hx] at heq

theorem mwc_reaches_of_lt {a k q : Nat} (ha : 0 < a) (hb : 1 < 2 ^ k) [Fact (a * 2 ^ k - 1).Prime]
    [Fact q.Prime] (hq : a * 2 ^ k - 1 = 2 * q + 1) (h7 : (a * 2 ^ k - 1) % 8 = 7)
    (hone : 2 ^ k % (a * 2 ^ k - 1) ≠ 1) {s : Nat} (hlt : s < a * 2 ^ k - 1) (hs : ¬ a * 2 ^ k - 1 ∣ s) :
    (∀ i, 2 ^ i < a * 2 ^ k - 1 → ∃ n, (mwc a (2 ^ k))^[n] s = 2 ^ i) ∨
      ∀ i, 2 ^ i < a * 2 ^ k - 1 → ∃ n, (mwc a (2 ^ k))^[n] s = a * 2 ^ k - 1 - 2 ^ i := by
  have hreach (htwo : ((2 : Nat) : ZMod (a * 2 ^ k - 1)) ≠ 0) {n x : Nat} :=
    @mwc_reaches_of_mul a k ha hb _ htwo s hlt n x
  generalize a * 2 ^ k - 1 = p at *
  have htwo : ((2 : Nat) : ZMod p) ≠ 0 := by
    rw [Ne, ZMod.natCast_eq_zero_iff]
    intro hdvd
    have hle := Nat.le_of_dvd (by decide) hdvd
    omega
  have hr : ((s : Nat) : ZMod p) ≠ 0 := by rwa [Ne, ZMod.natCast_eq_zero_iff]
  have hpow : (Units.mk0 ((2 : Nat) : ZMod p) htwo) ^ k ≠ 1 := by
    intro h
    have hval := congrArg Units.val h
    rw [Units.val_pow_eq_pow_val, Units.val_mk0, Units.val_one, zmod_pow_eq_one_iff (by omega)] at hval
    exact hone hval
  rcases two_pow_powers hq h7 (t := Units.mk0 _ htwo) Nat.cast_two hpow (Units.mk0 _ hr) with hall | hall
  · refine Or.inl fun i hi => ?_
    obtain ⟨n, hn⟩ := hall i
    have hval := congrArg Units.val hn
    simp only [Units.val_mul, Units.val_pow_eq_pow_val, Units.val_mk0] at hval
    exact ⟨n, hreach htwo hi (by rwa [Nat.cast_pow])⟩
  · refine Or.inr fun i hi => ?_
    obtain ⟨n, hn⟩ := hall i
    have hval := congrArg Units.val hn
    simp only [Units.val_mul, Units.val_neg, Units.val_pow_eq_pow_val, Units.val_mk0] at hval
    have hpos := Nat.two_pow_pos i
    refine ⟨n, hreach htwo (by omega) ?_⟩
    rwa [Nat.cast_sub (Nat.le_of_lt hi), ZMod.natCast_self, zero_sub, Nat.cast_pow]

theorem mwc_reaches {a k q : Nat} (ha : 0 < a) (hk : 0 < k) [Fact (a * 2 ^ k - 1).Prime]
    [Fact q.Prime] (hq : a * 2 ^ k - 1 = 2 * q + 1) (h7 : (a * 2 ^ k - 1) % 8 = 7)
    (hone : 2 ^ k % (a * 2 ^ k - 1) ≠ 1) {s : Nat} (hs : ¬ a * 2 ^ k - 1 ∣ s) :
    (∀ i, 2 ^ i < a * 2 ^ k - 1 → ∃ n, (mwc a (2 ^ k))^[n] s = 2 ^ i) ∨
      ∀ i, 2 ^ i < a * 2 ^ k - 1 → ∃ n, (mwc a (2 ^ k))^[n] s = a * 2 ^ k - 1 - 2 ^ i := by
  have hb : 1 < 2 ^ k := Nat.one_lt_two_pow hk.ne'
  obtain ⟨n₀, hbelow⟩ : ∃ n, (mwc a (2 ^ k))^[n] s < a * 2 ^ k - 1 := by
    rcases mwc_ends ha hb s with rfl | ⟨-, hdvd, -⟩ | ⟨-, hbelow⟩
    · exact absurd (Nat.dvd_zero _) hs
    · exact absurd hdvd hs
    · exact hbelow
  rw [← dvd_mwc_iterate_iff ha hb s n₀] at hs
  -- what is reached from there is reached from the start
  have hlater {x : Nat} (h : ∃ n, (mwc a (2 ^ k))^[n] ((mwc a (2 ^ k))^[n₀] s) = x) :
      ∃ n, (mwc a (2 ^ k))^[n] s = x := by
    obtain ⟨n, hn⟩ := h
    exact ⟨n + n₀, by rw [Function.iterate_add_apply, hn]⟩
  rcases mwc_reaches_of_lt ha hb hq h7 hone hbelow hs with hall | hall
  · exact Or.inl fun i hi => hlater (hall i hi)
  · exact Or.inr fun i hi => hlater (hall i hi)

end Reaches

end MoBoMemory.Base
