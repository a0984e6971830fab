import Mathlib.Algebra.Order.Ring.Int
import MoBoMemory.Base.Digits
import MoBoMemory.TestLib.Block

/-!
# Addresses on the command line

`get_hex_address` reads the characters after `0x` from the right and ORs every digit in with a shift
that grows by four.  Nothing counts the digits: none at all make 0, and from the seventeenth on the
shift is one that C leaves open.
-/

namespace MoBoMemory.App

open Base TestLib

def errParam : Nat := 0xA0000003

/-- `v << i` on an `UL`, which C defines for counts below 64.  Whatever a machine does with other
counts, 0 stays 0. -/
structure Shifter where
  shl : Nat → Nat → Nat
  shl_of_lt : ∀ v i, i < 64 → shl v i = v * 2 ^ i % 2 ^ 64
  shl_zero : ∀ i, shl 0 i = 0

/-- The x86-64 instruction takes the count modulo 64. -/
def x86Shifter : Shifter where
  shl v i := v * 2 ^ (i % 64) % 2 ^ 64
  shl_of_lt v i hi := by rw [Nat.mod_eq_of_lt hi]
  shl_zero i := by rw [Nat.zero_mul, Nat.zero_mod]

/-- `(int) (cptr - str)`. -/
def lenOf (str : List Char) : Int := ((str.length : Int) + 2 ^ 31) % 2 ^ 32 - 2 ^ 31

/-- The characters that the loop reads, `str[2]` to `str[len - 1]`. -/
def scannedChars (str : List Char) : List Char := (str.take (lenOf str).toNat).drop 2

/-- The loop over the characters from the last one on, with `i` and `sysaddr`. -/
def hexLoop (sh : Shifter) : List Char → Nat → Nat → Option Nat
  | [], _, sysaddr => some sysaddr
  | c :: cs, i, sysaddr =>
      match digitValue c with
      | some nbl => hexLoop sh cs (i + 4) (sysaddr ||| sh.shl nbl i)
      | none => none

/-- The string starts with `0x` or `0X`. -/
def HexPrefixed (str : List Char) : Prop :=
  str[0]? = some '0' ∧ (str[1]? = some 'x' ∨ str[1]? = some 'X')

instance (str : List Char) : Decidable (HexPrefixed str) := inferInstanceAs (Decidable (_ ∧ _))

/-- The return value and `*address` after the call. -/
def getHexAddress (sh : Shifter) (str : List Char) (address : Nat) : Nat × Nat :=
  if HexPrefixed str then
    match hexLoop sh (scannedChars str).reverse 0 0 with
    | some sysaddr => (errSuccess, sysaddr)
    | none => (errParam, address)
  else (errParam, address)

/-! ## What the option asks for -/

/-- The address that a string denotes: the prefix, then digits with a value of 64 bits. -/
def hexAddress (str : List Char) : Option Nat :=
  if HexPrefixed str then (numeral? 16 (str.drop 2)).filter (· < 2 ^ 64) else none

/-- The call stores what the string denotes, and otherwise refuses and stores nothing. -/
def ReadsExactly (sh : Shifter) (str : List Char) : Prop :=
  ∀ address, getHexAddress sh str address =
    (hexAddress str).elim (errParam, address) fun v => (errSuccess, v)

/-- The digits that are read are the digits of a number of 64 bits, or something is in the way. -/
def NothingSlips (str : List Char) : Prop :=
  ¬ HexPrefixed str ∨ (∃ c ∈ scannedChars str, digitValue c = none) ∨
    ∃ v, hexAddress str = some v ∧ (scannedChars str = str.drop 2 ∨ v = 0)

/-! ## The loop -/

section Loop

variable {sh : Shifter} {cs ds : List Char} {i a : Nat}

theorem hexLoop_append : hexLoop sh (cs ++ ds) i a =
    (hexLoop sh cs i a).bind fun a' => hexLoop sh ds (i + 4 * cs.length) a' := by
  induction cs generalizing i a with
  | nil => simp [hexLoop]
  | cons c cs ih =>
      rw [List.cons_append, hexLoop, hexLoop]
      cases digitValue c with
      | none => rfl
      | some d =>
          rw [List.length_cons, show i + 4 * (cs.length + 1) = i + 4 + 4 * cs.length by omega]
          exact ih

theorem hexLoop_eq_none : hexLoop sh cs i a = none ↔ ∃ c ∈ cs, digitValue c = none := by
  induction cs generalizing i a with
  | nil => simp [hexLoop]
  | cons c cs ih =>
      rw [hexLoop]
      cases hc : digitValue c with
      | none => simp [hc]
      | some d => simp [hc, ih]

-- ORing a digit in above the bits that are there adds it.
theorem or_nibble (sh : Shifter) {d : Nat} (hd : d < 16) (hi : i + 4 ≤ 64) (ha : a < 2 ^ i) :
    a ||| sh.shl d i = a + d * 2 ^ i ∧ a + d * 2 ^ i < 2 ^ (i + 4) := by
  have hle : d * 2 ^ i + 2 ^ i ≤ 2 ^ (i + 4) := by
    calc d * 2 ^ i + 2 ^ i = (d + 1) * 2 ^ i := (Nat.add_one_mul d (2 ^ i)).symm
      _ ≤ 2 ^ 4 * 2 ^ i := Nat.mul_le_mul_right _ (by omega)
      _ = 2 ^ (i + 4) := by rw [← pow_add, Nat.add_comm]
  have hpow : 2 ^ (i + 4) ≤ 2 ^ 64 := Nat.pow_le_pow_right (by omega) hi
  have hpos : 0 < 2 ^ i := Nat.two_pow_pos i
  constructor
  · rw [sh.shl_of_lt d i (by omega), Nat.mod_eq_of_lt (by omega), Nat.or_comm, Nat.mul_comm d,
      ← Nat.two_pow_add_eq_or_of_lt ha d, Nat.add_comm]
  · omega

-- Sixteen digits fit: the loop adds up what they denote.
theorem hexLoop_digits (hcs : ∀ c ∈ cs, IsDigit 16 c) (hfits : i + 4 * cs.length ≤ 64)
    (ha : a < 2 ^ i) :
    hexLoop sh cs i a = some (a + numeral 16 cs.reverse * 2 ^ i) := by
  induction cs generalizing i a with
  | nil => simp [hexLoop]
  | cons c cs ih =>
      obtain ⟨d, hd, hlt⟩ := hcs c (by simp)
      rw [List.length_cons] at hfits
      obtain ⟨hor, hbound⟩ := or_nibble sh hlt (by omega) ha
      rw [hexLoop, Option.mem_def.mp hd]
      simp only []
      rw [hor, ih (fun e he => hcs e (by simp [he])) (by omega) hbound, List.reverse_cons, numeral_snoc,
        Option.mem_def.mp hd, Option.getD_some]
      congr 1
      ring

-- Zeros change nothing, wherever they are shifted to.
theorem hexLoop_zeros (hcs : ∀ c ∈ cs, digitValue c = some 0) : hexLoop sh cs i a = some a := by
  induction cs generalizing i with
  | nil => rfl
  | cons c cs ih =>
      rw [hexLoop, hcs c (by simp)]
      simp only [sh.shl_zero, Nat.or_zero]
      exact ih fun e he => hcs e (by simp [he])

-- More than sixteen digits are as good as sixteen if the number has 64 bits.
theorem hexLoop_numeral (hcs : ∀ c ∈ cs, IsDigit 16 c) (hlt : numeral 16 cs < 2 ^ 64) :
    hexLoop sh cs.reverse 0 0 = some (numeral 16 cs) := by
  obtain ⟨high, low, rfl, hlow, hhigh⟩ : ∃ high low, cs = high ++ low ∧ low.length ≤ 16 ∧
      (high = [] ∨ low.length = 16) := by
    refine ⟨cs.take (cs.length - 16), cs.drop (cs.length - 16), (List.take_append_drop _ _).symm,
      ?_, ?_⟩
    · rw [List.length_drop]
      omega
    · rw [List.take_eq_nil_iff, List.length_drop]
      omega
  rw [numeral_append] at hlt ⊢
  have hzero : numeral 16 high = 0 := by
    rcases hhigh with rfl | hsixteen
    · rfl
    · rw [hsixteen] at hlt
      omega
  have hdigits : ∀ c ∈ low.reverse, IsDigit 16 c := fun c hc => hcs c (by simp_all)
  have hzeros : ∀ c ∈ high.reverse, digitValue c = some 0 := by
    intro c hc
    exact zeros_of_numeral (by omega) (fun c hc => hcs c (List.mem_append_left _ hc)) hzero c
      (List.mem_reverse.mp hc)
  rw [List.reverse_append, hexLoop_append,
    hexLoop_digits hdigits (by rw [List.length_reverse]; omega) (by simp), Option.bind_some,
    hexLoop_zeros hzeros, hzero, List.reverse_reverse]
  simp

end Loop

/-! ## The string -/

section Str

variable {sh : Shifter} {str : List Char} {v r : Nat}

theorem scannedChars_eq (hlen : str.length < 2 ^ 31) : scannedChars str = str.drop 2 := by
  have hlenOf : lenOf str = str.length := by
    rw [lenOf]
    omega
  rw [scannedChars, hlenOf, Int.toNat_natCast, List.take_length]

-- A string that is too long for an `int` is read without its last characters.
theorem scannedChars_append (str : List Char) :
    scannedChars str = str.drop 2 ∨ ∃ more, str.drop 2 = scannedChars str ++ more ∧
      16 ≤ more.length := by
  by_cases hlen : str.length < 2 ^ 31
  · exact Or.inl (scannedChars_eq hlen)
  · right
    have hshort : (lenOf str).toNat + 2 ^ 31 ≤ str.length := by
      rw [lenOf]
      omega
    rw [scannedChars]
    generalize (lenOf str).toNat = l at hshort
    by_cases hl : l < 2
    · have hnone : (str.take l).drop 2 = [] := by
        apply List.drop_eq_nil_of_le
        rw [List.length_take]
        omega
      refine ⟨str.drop 2, ?_, ?_⟩
      · rw [hnone, List.nil_append]
      · rw [List.length_drop]
        omega
    · refine ⟨str.drop l, ?_, ?_⟩
      · conv_lhs => rw [← List.take_append_drop l str]
        rw [List.drop_append_of_le_length (by rw [List.length_take]; omega)]
      · rw [List.length_drop]
        omega

theorem scannedChars_subset {c : Char} (hc : c ∈ scannedChars str) : c ∈ str.drop 2 := by
  rcases scannedChars_append str with heq | ⟨more, heq, -⟩
  · exact heq ▸ hc
  · exact heq ▸ List.mem_append_left _ hc

theorem hexAddress_eq_some (hpre : HexPrefixed str) : hexAddress str = some v ↔
    str.drop 2 ≠ [] ∧ (∀ c ∈ str.drop 2, IsDigit 16 c) ∧ numeral 16 (str.drop 2) = v ∧ v < 2 ^ 64 := by
  rw [hexAddress, if_pos hpre, Option.filter_eq_some_iff, numeral?_eq_some, decide_eq_true_iff,
    and_assoc, and_assoc]

-- A string that denotes 0 is read as 0, whole or not.
theorem hexLoop_scanned_zero (hdigits : ∀ c ∈ str.drop 2, IsDigit 16 c)
    (hzero : numeral 16 (scannedChars str) = 0 ∨ numeral 16 (str.drop 2) = 0) :
    hexLoop sh (scannedChars str).reverse 0 0 = some 0 := by
  apply hexLoop_zeros
  intro c hc
  rw [List.mem_reverse] at hc
  rcases hzero with hzero | hzero
  · exact zeros_of_numeral (by omega) (fun c hc => hdigits c (scannedChars_subset hc)) hzero c hc
  · exact zeros_of_numeral (by omega) hdigits hzero c (scannedChars_subset hc)

-- Where the loop gets through, its result is what the string denotes in two cases.
theorem hexAddress_eq_iff (hpre : HexPrefixed str)
    (hloop : hexLoop sh (scannedChars str).reverse 0 0 = some r) :
    hexAddress str = some r ↔
      ∃ v, hexAddress str = some v ∧ (scannedChars str = str.drop 2 ∨ v = 0) := by
  constructor
  · intro haddr
    refine ⟨r, haddr, ?_⟩
    obtain ⟨-, hdigits, hnum, hlt⟩ := (hexAddress_eq_some hpre).mp haddr
    apply (scannedChars_append str).imp_right
    rintro ⟨more, heq, hmore⟩
    -- the characters left out are sixteen at least, so those that are read are zeros
    have hpow : 16 ^ 16 ≤ 16 ^ more.length := Nat.pow_le_pow_right (by omega) hmore
    have hzero : numeral 16 (scannedChars str) = 0 := by
      rw [heq, numeral_append] at hnum
      by_contra hne
      have hmul := Nat.le_mul_of_pos_left (16 ^ more.length) (Nat.pos_of_ne_zero hne)
      omega
    exact Option.some.inj (hloop.symm.trans (hexLoop_scanned_zero hdigits (Or.inl hzero)))
  · rintro ⟨v, haddr, hcase⟩
    obtain ⟨-, hdigits, hnum, hlt⟩ := (hexAddress_eq_some hpre).mp haddr
    suffices hsame : hexLoop sh (scannedChars str).reverse 0 0 = some v by
      rw [haddr, ← hloop, hsame]
    rcases hcase with heq | rfl
    · rw [heq, hexLoop_numeral hdigits (hnum ▸ hlt), hnum]
    · exact hexLoop_scanned_zero hdigits (Or.inr hnum)

theorem readsExactly_iff : ReadsExactly sh str ↔ NothingSlips str := by
  by_cases hpre : HexPrefixed str
  · cases hloop : hexLoop sh (scannedChars str).reverse 0 0 with
    | none =>
        obtain ⟨c, hc, hnone⟩ := hexLoop_eq_none.mp hloop
        rw [List.mem_reverse] at hc
        have hrefused : hexAddress str = none := by
          rw [Option.eq_none_iff_forall_ne_some]
          intro v haddr
          obtain ⟨-, hdigits, -⟩ := (hexAddress_eq_some hpre).mp haddr
          exact isDigit_sixteen.mp (hdigits c (scannedChars_subset hc)) hnone
        refine ⟨fun _ => Or.inr (Or.inl ⟨c, hc, hnone⟩), fun _ address => ?_⟩
        rw [getHexAddress, if_pos hpre, hloop, hrefused, Option.elim_none]
    | some r =>
        have hstored : ReadsExactly sh str ↔ hexAddress str = some r := by
          simp only [ReadsExactly, getHexAddress, if_pos hpre, hloop]
          cases hexAddress str with
          | none => simp [errSuccess, errParam]
          | some v => simp [eq_comm]
        have hall : ¬ ∃ c ∈ scannedChars str, digitValue c = none := by
          intro ⟨c, hc, hnone⟩
          have hstop : hexLoop sh (scannedChars str).reverse 0 0 = none :=
            hexLoop_eq_none.mpr ⟨c, List.mem_reverse.mpr hc, hnone⟩
          exact absurd (hloop.symm.trans hstop) (by simp)
        rw [hstored, hexAddress_eq_iff hpre hloop, NothingSlips]
        simp only [hpre, not_true_eq_false, hall, false_or]
  · have hrefused : hexAddress str = none := if_neg hpre
    refine ⟨fun _ => Or.inl hpre, fun _ address => ?_⟩
    rw [getHexAddress, if_neg hpre, hrefused, Option.elim_none]

-- What slips through, where an `int` holds the length: no digits, and digits of 2^64 or more.
theorem nothingSlips_iff (hlen : str.length < 2 ^ 31) : NothingSlips str ↔
    ¬ (HexPrefixed str ∧ (∀ c ∈ str.drop 2, IsDigit 16 c) ∧
      (str.drop 2 = [] ∨ 2 ^ 64 ≤ numeral 16 (str.drop 2))) := by
  rw [NothingSlips, scannedChars_eq hlen]
  by_cases hpre : HexPrefixed str
  · have hbad : (∃ c ∈ str.drop 2, digitValue c = none) ↔ ¬ ∀ c ∈ str.drop 2, IsDigit 16 c := by
      simp only [isDigit_sixteen, not_forall, not_not, exists_prop]
    have hgood : (∃ v, hexAddress str = some v) ↔ str.drop 2 ≠ [] ∧
        (∀ c ∈ str.drop 2, IsDigit 16 c) ∧ numeral 16 (str.drop 2) < 2 ^ 64 := by
      simp only [hexAddress_eq_some hpre, exists_and_left, exists_eq_left']
    rw [hbad]
    simp only [true_or, and_true, hgood, hpre, not_true_eq_false, false_or, true_and]
    grind
  · simp only [hpre, not_false_eq_true, true_or, false_and]

-- A printed address is read back.
theorem getHexAddress_printed {address : Nat} (hv : v < 2 ^ 64) :
    getHexAddress sh ('0' :: 'x' :: Nat.toDigits 16 v) address = (errSuccess, v) := by
  have hlen : (Nat.toDigits 16 v).length ≤ 16 := by
    rw [Nat.length_toDigits_le_iff (by omega) (by omega)]
    omega
  have hpre : HexPrefixed ('0' :: 'x' :: Nat.toDigits 16 v) := ⟨rfl, Or.inl rfl⟩
  have haddr : hexAddress ('0' :: 'x' :: Nat.toDigits 16 v) = some v := by
    rw [hexAddress, if_pos hpre, List.drop_succ_cons, List.drop_succ_cons, List.drop_zero,
      numeral?_toDigits (by omega) (by omega), Option.filter_some, decide_eq_true hv]
    rfl
  have hscanned : scannedChars ('0' :: 'x' :: Nat.toDigits 16 v) =
      ('0' :: 'x' :: Nat.toDigits 16 v).drop 2 := by
    apply scannedChars_eq
    simp only [List.length_cons]
    omega
  have hexact : ReadsExactly sh ('0' :: 'x' :: Nat.toDigits 16 v) :=
    readsExactly_iff.mpr (Or.inr (Or.inr ⟨v, haddr, Or.inl hscanned⟩))
  rw [hexact address, haddr, Option.elim_some]

end Str

-- An address is read exactly unless digits that denote no address of 64 bits go through; every
-- address that was printed with %lx is read back.
theorem getHexAddress_exact_iff (sh : Shifter) (str : List Char) :
    (ReadsExactly sh str ↔ NothingSlips str) ∧
    ∀ v < 2 ^ 64, ∀ address, getHexAddress sh ('0' :: 'x' :: Nat.toDigits 16 v) address =
      (errSuccess, v) :=
  ⟨readsExactly_iff, fun _ hv _ => getHexAddress_printed hv⟩

/-- `0x` and seventeen digits, which denote 2^64. -/
def seventeenDigits : List Char := '0' :: 'x' :: '1' :: List.replicate 16 '0'

-- No digit is taken for the address 0, and seventeen digits for the address 1.
theorem digits_not_counted :
    ¬ ReadsExactly x86Shifter ['0', 'x'] ∧ ¬ ReadsExactly x86Shifter seventeenDigits := by
  constructor
  · intro h
    exact absurd (h 7) (by decide)
  · intro h
    have hrefused : hexAddress seventeenDigits = none := by
      rw [Option.eq_none_iff_forall_ne_some]
      intro v haddr
      obtain ⟨-, -, hnum, hlt⟩ := (hexAddress_eq_some (by decide)).mp haddr
      have hvalue : numeral 16 (seventeenDigits.drop 2) = 18446744073709551616 := by decide
      omega
    have hstored := h 7
    rw [hrefused, Option.elim_none] at hstored
    exact absurd hstored (by decide)

end MoBoMemory.App
