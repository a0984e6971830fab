import Mathlib.Algebra.Order.Ring.Int
import Mathlib.Tactic.Ring

/-!
# Rounding to significant bits

What a floating point format with `k` bits makes of a natural number: the nearest number that consists of at
most `k` bits and zeros behind them, and between two of them the one with the even bits.
-/

namespace MoBoMemory.Base

/-- How many bits `n` has behind its first `k`. -/
def bitsBehind (k n : Nat) : Nat := n.log2 + 1 - k

def roundBits (k n : Nat) : Nat :=
  let e := bitsBehind k n
  let q := n / 2 ^ e
  let r := n % 2 ^ e
  (if 2 * r < 2 ^ e ∨ (2 * r = 2 ^ e ∧ q % 2 = 0) then q else q + 1) * 2 ^ e

section RoundBits

variable {k n : Nat}

theorem lt_two_pow_bitsBehind : n < 2 ^ k * 2 ^ bitsBehind k n := by
  rw [← Nat.pow_add]
  refine lt_of_lt_of_le Nat.lt_log2_self (Nat.pow_le_pow_right (by decide) ?_)
  unfold bitsBehind
  omega

theorem bitsBehind_of_lt (hk : 0 < k) (hn : n < 2 ^ k) : bitsBehind k n = 0 := by
  unfold bitsBehind
  by_cases hzero : n = 0
  · rw [hzero, Nat.log2_zero]
    omega
  · have hlog := (Nat.log2_lt hzero).mpr hn
    omega

theorem roundBits_of_dvd (hn : 2 ^ bitsBehind k n ∣ n) : roundBits k n = n := by
  have hrest : n % 2 ^ bitsBehind k n = 0 := Nat.mod_eq_zero_of_dvd hn
  have hpos := Nat.two_pow_pos (bitsBehind k n)
  unfold roundBits
  simp only [hrest]
  rw [if_pos (Or.inl (by omega)), Nat.div_mul_cancel hn]

theorem roundBits_of_lt (hk : 0 < k) (hn : n < 2 ^ k) : roundBits k n = n := by
  refine roundBits_of_dvd ?_
  rw [bitsBehind_of_lt hk hn]
  exact Nat.one_dvd n

theorem roundBits_eq (k n : Nat) : roundBits k n =
    (if 2 * (n % 2 ^ bitsBehind k n) < 2 ^ bitsBehind k n ∨
        (2 * (n % 2 ^ bitsBehind k n) = 2 ^ bitsBehind k n ∧ n / 2 ^ bitsBehind k n % 2 = 0)
      then n / 2 ^ bitsBehind k n else n / 2 ^ bitsBehind k n + 1) * 2 ^ bitsBehind k n := rfl

-- The first `k` bits, or one more.
theorem roundBits_cases (k n : Nat) : roundBits k n = n / 2 ^ bitsBehind k n * 2 ^ bitsBehind k n ∨
    roundBits k n = (n / 2 ^ bitsBehind k n + 1) * 2 ^ bitsBehind k n := by
  rw [roundBits_eq]
  split
  · exact Or.inl rfl
  · exact Or.inr rfl

/-! ## Scaling -/

theorem roundBits_two_pow_mul (hk : 0 < k) (j n : Nat) :
    roundBits k (2 ^ j * n) = 2 ^ j * roundBits k n := by
  by_cases hzero : n = 0
  · simp [hzero, roundBits]
  · have hlog : (2 ^ j * n).log2 = j + n.log2 := by
      rw [Nat.log2_eq_iff (Nat.mul_ne_zero (Nat.two_pow_pos j).ne' hzero)]
      have hlow := Nat.log2_self_le hzero
      have hhigh := @Nat.lt_log2_self n
      rw [Nat.pow_add, Nat.add_assoc, Nat.pow_add 2 j]
      exact ⟨Nat.mul_le_mul_left _ hlow, Nat.mul_lt_mul_of_pos_left hhigh (Nat.two_pow_pos j)⟩
    by_cases hsmall : n < 2 ^ k
    · rw [roundBits_of_lt hk hsmall]
      refine roundBits_of_dvd ((Nat.pow_dvd_pow 2 ?_).mul_right n)
      have hlt := (Nat.log2_lt hzero).mpr hsmall
      unfold bitsBehind
      omega
    · have hge := (Nat.le_log2 hzero).mpr (Nat.not_lt.mp hsmall)
      have hbits : bitsBehind k (2 ^ j * n) = j + bitsBehind k n := by
        unfold bitsBehind
        omega
      have hpos := Nat.two_pow_pos j
      unfold roundBits
      rw [hbits]
      generalize bitsBehind k n = e
      simp only [Nat.pow_add, Nat.mul_div_mul_left _ _ hpos, Nat.mul_mod_mul_left,
        Nat.mul_left_comm 2 (2 ^ j), Nat.mul_lt_mul_left hpos, Nat.mul_right_inj hpos.ne']
      split <;> ring

-- What is rounded stays as it is.
theorem roundBits_roundBits (hk : 0 < k) (n : Nat) : roundBits k (roundBits k n) = roundBits k n := by
  have hlt : n / 2 ^ bitsBehind k n < 2 ^ k := by
    rw [Nat.div_lt_iff_lt_mul (Nat.two_pow_pos _)]
    exact lt_two_pow_bitsBehind
  obtain ⟨q, hq, hround⟩ : ∃ q ≤ 2 ^ k, roundBits k n = 2 ^ bitsBehind k n * q := by
    rcases roundBits_cases k n with h | h
    · exact ⟨_, Nat.le_of_lt hlt, h.trans (Nat.mul_comm _ _)⟩
    · exact ⟨_, hlt, h.trans (Nat.mul_comm _ _)⟩
  rw [hround, roundBits_two_pow_mul hk]
  congr 1
  rcases Nat.lt_or_eq_of_le hq with hq | rfl
  · exact roundBits_of_lt hk hq
  · refine roundBits_of_dvd (Nat.pow_dvd_pow 2 ?_)
    unfold bitsBehind
    rw [Nat.log2_two_pow]
    omega

/-! ## Where it reaches the next power of two -/

theorem two_pow_log2_le_roundBits (hk : 0 < k) (hn : n ≠ 0) : 2 ^ n.log2 ≤ roundBits k n := by
  have hbits : bitsBehind k n ≤ n.log2 := by
    unfold bitsBehind
    omega
  have hpow : 2 ^ n.log2 = 2 ^ (n.log2 - bitsBehind k n) * 2 ^ bitsBehind k n := by
    rw [← Nat.pow_add, Nat.sub_add_cancel hbits]
  have hfirst : 2 ^ (n.log2 - bitsBehind k n) ≤ n / 2 ^ bitsBehind k n := by
    rw [Nat.le_div_iff_mul_le (Nat.two_pow_pos _), ← hpow]
    exact Nat.log2_self_le hn
  rw [hpow]
  rcases roundBits_cases k n with h | h
  · rw [h]
    exact Nat.mul_le_mul_right _ hfirst
  · rw [h]
    exact Nat.mul_le_mul_right _ (Nat.le_succ_of_le hfirst)

theorem roundBits_le (hk : 0 < k) (n : Nat) : roundBits k n ≤ 2 ^ (n.log2 + 1) := by
  by_cases hsmall : n < 2 ^ k
  · rw [roundBits_of_lt hk hsmall]
    exact Nat.le_of_lt Nat.lt_log2_self
  · have hzero : n ≠ 0 := by
      rintro rfl
      exact hsmall (Nat.two_pow_pos k)
    have hge := (Nat.le_log2 hzero).mpr (Nat.not_lt.mp hsmall)
    have hpow : 2 ^ (n.log2 + 1) = 2 ^ k * 2 ^ bitsBehind k n := by
      rw [← Nat.pow_add]
      unfold bitsBehind
      congr 1
      omega
    have hlt : n / 2 ^ bitsBehind k n + 1 ≤ 2 ^ k := by
      rw [Nat.succ_le_iff, Nat.div_lt_iff_lt_mul (Nat.two_pow_pos _)]
      exact lt_two_pow_bitsBehind
    rw [hpow]
    rcases roundBits_cases k n with h | h
    · rw [h]
      exact Nat.mul_le_mul_right _ (Nat.le_of_succ_le hlt)
    · rw [h]
      exact Nat.mul_le_mul_right _ hlt

-- Below `top` places, the nearest place is `top` exactly from half a place before it on.
theorem nearest_lt_iff {half place top q r : Nat} (hplace : place = 2 * half) (hhalf : 0 < half)
    (heven : top % 2 = 0) (hr : r < place) (hq : q < top) :
    (if 2 * r < place ∨ (2 * r = place ∧ q % 2 = 0) then q else q + 1) * place < top * place ↔
      place * q + r + half < top * place := by
  have hsucc : (q + 1) * place = place * q + place := by rw [Nat.succ_mul, Nat.mul_comm]
  rcases Nat.lt_or_eq_of_le (Nat.succ_le_of_lt hq) with hbelow | hlast
  · have hmul : (q + 1 + 1) * place ≤ top * place := Nat.mul_le_mul_right _ hbelow
    rw [Nat.succ_mul, hsucc] at hmul
    refine iff_of_true ?_ (by omega)
    split
    · rw [Nat.mul_comm q]
      omega
    · rw [hsucc]
      omega
  · rw [← hlast, show q.succ = q + 1 from rfl, hsucc]
    by_cases hdown : 2 * r < place ∨ (2 * r = place ∧ q % 2 = 0)
    · rw [if_pos hdown, Nat.mul_comm q]
      omega
    · rw [if_neg hdown, hsucc]
      omega

-- A number with `m` bits is rounded up to the next power of two from half a place before it on.
theorem roundBits_lt_iff_of_log2 (hk : 0 < k) {m : Nat} (hkm : k < m) (hm : n.log2 + 1 = m) :
    roundBits k n < 2 ^ m ↔ n + 2 ^ (m - k - 1) < 2 ^ m := by
  have hbits : bitsBehind k n = m - k - 1 + 1 := by
    unfold bitsBehind
    omega
  have hpow : 2 ^ m = 2 ^ k * 2 ^ (m - k - 1 + 1) := by
    rw [← Nat.pow_add]
    congr 1
    omega
  have heven : 2 ^ k % 2 = 0 := by
    obtain ⟨j, rfl⟩ : ∃ j, k = j + 1 := ⟨k - 1, by omega⟩
    rw [Nat.pow_succ, Nat.mul_mod_left]
  have hq : n / 2 ^ (m - k - 1 + 1) < 2 ^ k := by
    have hlt := @lt_two_pow_bitsBehind k n
    rw [hbits] at hlt
    exact Nat.div_lt_of_lt_mul (by rwa [Nat.mul_comm])
  have hn := Nat.div_add_mod n (2 ^ (m - k - 1 + 1))
  rw [roundBits_eq, hbits, hpow, nearest_lt_iff Nat.pow_succ' (Nat.two_pow_pos _) heven
    (Nat.mod_lt n (Nat.two_pow_pos _)) hq, hn]

-- A number is rounded up to `2 ^ m` from half a last place below it on, for the last bit is odd there.
theorem roundBits_lt_two_pow_iff (hk : 0 < k) {m : Nat} (hkm : k < m) :
    roundBits k n < 2 ^ m ↔ n + 2 ^ (m - k - 1) < 2 ^ m := by
  by_cases hzero : n = 0
  · rw [hzero, roundBits_of_lt hk (Nat.two_pow_pos k), Nat.zero_add]
    exact iff_of_true (Nat.two_pow_pos m) (Nat.pow_lt_pow_right (by decide) (by omega))
  rcases Nat.lt_trichotomy (n.log2 + 1) m with hless | hm | hmore
  · -- far below it
    have hround := (roundBits_le hk n).trans (Nat.pow_le_pow_right (by decide) (Nat.le_sub_one_of_lt hless))
    have hn := (@Nat.lt_log2_self n).trans_le (Nat.pow_le_pow_right (by decide) (Nat.le_sub_one_of_lt hless))
    have hplace : 2 ^ (m - k - 1) ≤ 2 ^ (m - 1) := Nat.pow_le_pow_right (by decide) (by omega)
    have hdouble : 2 ^ m = 2 ^ (m - 1) * 2 := by
      rw [← Nat.pow_succ]
      congr 1
      omega
    omega
  · exact roundBits_lt_iff_of_log2 hk hkm hm
  · -- beyond it
    have hge : 2 ^ m ≤ 2 ^ n.log2 := Nat.pow_le_pow_right (by decide) (by omega)
    have hround := two_pow_log2_le_roundBits hk hzero
    have hn := Nat.log2_self_le hzero
    have hpos := Nat.two_pow_pos (m - k - 1)
    omega

end RoundBits

end MoBoMemory.Base
