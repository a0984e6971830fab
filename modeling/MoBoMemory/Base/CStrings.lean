import Mathlib.Algebra.Order.Ring.Int
import Mathlib.Data.List.Basic
import Mathlib.Data.List.TakeWhile
import MoBoMemory.Base.Digits

/-!
# C strings

The functions of the C library that the parsers of the command lines use, on the list of the
characters of a string without the terminator: `fgets`, `strstr`, `strtol` with base 0, `atoi` and
`strtok`.
-/

namespace MoBoMemory.Base

/-- What `fgets` puts into a buffer of `size` characters: up to a newline, that one included. -/
def fgetsLine : Nat → List Char → List Char
  | 0, _ | 1, _ | _, [] => []
  | size + 2, c :: cs => if c = '\n' then ['\n'] else c :: fgetsLine (size + 1) cs

/-- The rest of the string from the first occurrence of `needle` on. -/
def strstr (needle : List Char) : List Char → Option (List Char)
  | [] => if needle = [] then some [] else none
  | c :: cs => if needle.isPrefixOf (c :: cs) then some (c :: cs) else strstr needle cs

def isspace (c : Char) : Bool :=
  c = ' ' || c = '\t' || c = '\n' || c = '\x0b' || c = '\x0c' || c = '\r'

/-- The base that a numeral announces, and where its digits begin. -/
def detectBase (s : List Char) : Nat × List Char :=
  if s[0]? = some '0' ∧ (s[1]? = some 'x' ∨ s[1]? = some 'X') ∧ s[2]?.any fun d => IsDigit 16 d
  then (16, s.drop 2)
  else if s[0]? = some '0' then (8, s)
  else (10, s)

/-- The unsigned numeral at the start of a string and what follows it. -/
def scanNumber (s : List Char) : Option (Nat × List Char) :=
  let (b, cs) := detectBase s
  let ds := cs.takeWhile fun c => IsDigit b c
  if ds = [] then none else some (numeral b ds, cs.dropWhile fun c => IsDigit b c)

/-- The number at the start of a string, without a bound, and what follows it. -/
def scanSigned (s : List Char) : Int × List Char :=
  let t := s.dropWhile isspace
  let minus := t.head? = some '-'
  let u := if t.head? = some '-' ∨ t.head? = some '+' then t.drop 1 else t
  match scanNumber u with
  | some (n, rest) => (if minus then -n else n, rest)
  | none => (0, s)

/-- A number out of the range of `long` becomes the bound of the range. -/
def clampLong (x : Int) : Int := max (-2 ^ 63) (min x (2 ^ 63 - 1))

/-- `strtol(s, &rest, 0)`. -/
def strtol (s : List Char) : Int × List Char := (clampLong (scanSigned s).1, (scanSigned s).2)

/-- A `long` in an `int`. -/
def asInt (x : Int) : Int := (x + 2 ^ 31) % 2 ^ 32 - 2 ^ 31

/-- The number in decimal digits at the start of a string; none make 0. -/
def leadingNumber (s : List Char) : Nat := numeral 10 (s.takeWhile fun c => IsDigit 10 c)

/-- `atoi`, which is `strtol` with base 10 as an `int`. -/
def atoi (s : List Char) : Int :=
  let t := s.dropWhile isspace
  let u := if t.head? = some '-' ∨ t.head? = some '+' then t.drop 1 else t
  asInt (clampLong (if t.head? = some '-' then -(leadingNumber u : Int) else leadingNumber u))

/-- What `strtok` returns one after another: the runs without a delimiter. -/
def strtok (delim : Char) (s : List Char) : List (List Char) := (s.splitOn delim).filter (· ≠ [])

/-- The number that a whole string denotes in the notation of `strtol` with base 0, without sign. -/
def number? (s : List Char) : Option Nat :=
  if s[0]? = some '0' ∧ (s[1]? = some 'x' ∨ s[1]? = some 'X') then numeral? 16 (s.drop 2)
  else if s[0]? = some '0' then numeral? 8 s
  else numeral? 10 s

/-! ## Reading a line -/

section Fgets

variable {size : Nat} {cs ds : List Char}

theorem length_fgetsLine_le : (fgetsLine size cs).length ≤ size - 1 := by
  fun_induction fgetsLine size cs with
  | case4 => simp
  | case5 size c cs hc ih =>
      rw [List.length_cons]
      omega
  | _ => simp

-- Characters that fit and are no newlines come through.
theorem fgetsLine_append (hline : '\n' ∉ cs) (hfits : cs.length < size) :
    fgetsLine size (cs ++ ds) = cs ++ fgetsLine (size - cs.length) ds := by
  induction cs generalizing size with
  | nil => simp
  | cons c cs ih =>
      obtain ⟨size, rfl⟩ : ∃ n, size = n + 2 := ⟨size - 2, by simp at hfits; omega⟩
      rw [List.mem_cons, not_or] at hline
      rw [List.length_cons] at hfits
      rw [List.cons_append, fgetsLine, if_neg (Ne.symm hline.1), ih hline.2 (by omega), List.length_cons,
        List.cons_append, show size + 2 - (cs.length + 1) = size + 1 - cs.length by omega]

-- The characters of the buffer are those of the text, as many as fit before a newline.
theorem fgetsLine_prefix : fgetsLine size cs <+: cs := by
  fun_induction fgetsLine size cs with
  | case4 size cs => exact List.prefix_append ['\n'] cs
  | case5 size c cs hc ih => exact (List.prefix_cons_inj c).mpr ih
  | _ => exact List.nil_prefix

theorem fgetsLine_prefix_of_newline (hline : '\n' ∈ cs) : fgetsLine size (cs ++ ds) <+: cs := by
  induction cs generalizing size with
  | nil => simp at hline
  | cons c cs ih =>
      rcases size with _ | _ | size
      · exact List.nil_prefix
      · exact List.nil_prefix
      · rw [List.cons_append, fgetsLine]
        split_ifs with hc
        · exact hc ▸ List.prefix_append ['\n'] cs
        · exact (List.prefix_cons_inj c).mpr (ih ((List.mem_cons.mp hline).resolve_left (Ne.symm hc)))

theorem fgetsLine_take (hline : '\n' ∉ cs) (hfull : size ≤ cs.length) :
    fgetsLine size (cs ++ ds) = cs.take (size - 1) := by
  induction cs generalizing size with
  | nil =>
      obtain rfl : size = 0 := by simpa using hfull
      rfl
  | cons c cs ih =>
      rw [List.mem_cons, not_or] at hline
      rcases size with _ | _ | size
      · rfl
      · rfl
      · rw [List.cons_append, fgetsLine, if_neg (Ne.symm hline.1), ih hline.2 (by simpa using hfull)]
        rfl

theorem fgetsLine_newline :
    fgetsLine size ('\n' :: cs) = [] ∨ fgetsLine size ('\n' :: cs) = ['\n'] := by
  rcases size with _ | _ | size <;> simp [fgetsLine]

theorem head?_fgetsLine {c : Char} :
    fgetsLine size (c :: cs) = [] ∨ (fgetsLine size (c :: cs)).head? = some c := by
  rcases size with _ | _ | size
  · exact Or.inl rfl
  · exact Or.inl rfl
  · rw [fgetsLine]
    split_ifs with hc
    · exact Or.inr (hc ▸ rfl)
    · exact Or.inr rfl

end Fgets

/-! ## Searching -/

section Strstr

variable {needle u t : List Char} {x : Char}

theorem strstr_of_prefix (hpre : needle <+: t) : strstr needle t = some t := by
  cases t with
  | nil => simp [strstr, List.prefix_nil.mp hpre]
  | cons c cs => rw [strstr, if_pos (List.isPrefixOf_iff_prefix.mpr hpre)]

-- A place of the string is found if there is one.
theorem strstr_eq_none : strstr needle t = none ↔ ¬ needle <:+: t := by
  induction t with
  | nil => simp [strstr, List.infix_nil]
  | cons c cs ih =>
      rw [strstr, List.infix_cons_iff, not_or, ← List.isPrefixOf_iff_prefix, ← ih]
      split_ifs with hpre <;> simp [hpre]

-- Nothing is found across a character that does not occur in the needle.
theorem strstr_skip (hneedle : needle ≠ []) (hx : x ∉ needle) (hu : ¬ needle <:+: u) :
    strstr needle (u ++ x :: t) = strstr needle t := by
  induction u with
  | nil =>
      rw [List.nil_append, strstr, if_neg]
      rw [List.isPrefixOf_iff_prefix]
      rintro ⟨rest, hrest⟩
      obtain ⟨c, needle, rfl⟩ := List.exists_cons_of_ne_nil hneedle
      obtain ⟨rfl, -⟩ := List.cons.inj hrest
      simp at hx
  | cons c u ih =>
      rw [List.cons_append, strstr, if_neg, ih]
      · exact fun h => hu (h.trans (List.suffix_cons c u).isInfix)
      · rw [List.isPrefixOf_iff_prefix, ← List.cons_append]
        rintro ⟨rest, hrest⟩
        rcases List.append_eq_append_iff.mp hrest with ⟨as, has, -⟩ | ⟨bs, hbs, hrest'⟩
        · exact hu (has ▸ (List.prefix_append needle as).isInfix)
        · cases bs with
          | nil => exact hu (by simp [hbs])
          | cons b bs =>
              obtain ⟨rfl, -⟩ := List.cons.inj hrest'
              exact hx (by simp [hbs])

-- A piece stands between two delimiters or at an end of the string.
theorem split_of_mem_splitOn {w : List Char} (hw : w ∈ u.splitOn x) :
    ∃ pre post, u = pre ++ (w ++ post) ∧ (pre = [] ∨ ∃ a, pre = a ++ [x]) ∧
      (post = [] ∨ ∃ b, post = x :: b) ∧ x ∉ w := by
  induction hlen : u.length using Nat.strong_induction_on generalizing u with
  | _ n ih =>
      by_cases hx : x ∈ u
      · obtain ⟨a, b, rfl, ha⟩ := List.eq_append_cons_of_mem hx
        rw [List.splitOn_append_cons_self_of_not_mem ha] at hw
        rcases List.mem_cons.mp hw with rfl | hw
        · exact ⟨[], x :: b, rfl, Or.inl rfl, Or.inr ⟨b, rfl⟩, ha⟩
        · obtain ⟨pre, post, rfl, hpre, hpost, hxw⟩ := ih b.length (by simp at hlen; omega) hw rfl
          refine ⟨a ++ x :: pre, post, by simp, Or.inr ?_, hpost, hxw⟩
          rcases hpre with rfl | ⟨c, rfl⟩
          · exact ⟨a, rfl⟩
          · exact ⟨a ++ x :: c, by simp⟩
      · rw [List.splitOn_eq_singleton hx, List.mem_singleton] at hw
        exact ⟨[], [], by simp [hw], Or.inl rfl, Or.inl rfl, hw ▸ hx⟩

theorem infix_of_mem_splitOn {w : List Char} (hw : w ∈ u.splitOn x) : w <:+: u := by
  obtain ⟨pre, post, hu, -⟩ := split_of_mem_splitOn hw
  exact ⟨pre, post, by rw [hu, List.append_assoc]⟩

end Strstr

/-! ## Reading a number -/

section Number

variable {num t : List Char} {b n : Nat}

/-- The string does not continue a numeral. -/
def EndsNumber (t : List Char) : Prop := ∀ c ∈ t.head?, ¬ IsDigit 16 c ∧ c ≠ 'x' ∧ c ≠ 'X'

theorem IsDigit.mono {b' : Nat} {c : Char} (h : IsDigit b c) (hle : b ≤ b') : IsDigit b' c := by
  obtain ⟨d, hd, hlt⟩ := h
  exact ⟨d, hd, by omega⟩

-- A digit is neither a blank nor a sign.
theorem IsDigit.plain {c : Char} (h : IsDigit b c) : isspace c = false ∧ c ≠ '-' ∧ c ≠ '+' := by
  obtain ⟨d, hd, -⟩ := h
  have hne : ∀ e, digitValue e = none → c ≠ e := by
    rintro e he rfl
    simp [he] at hd
  simp only [isspace, Bool.or_eq_false_iff, decide_eq_false_iff_not]
  refine ⟨⟨⟨⟨⟨⟨?_, ?_⟩, ?_⟩, ?_⟩, ?_⟩, ?_⟩, ?_, ?_⟩ <;> exact hne _ (by decide)

theorem scan_digits (hb : b ≤ 16) (hnum : numeral? b num = some n) (ht : EndsNumber t) :
    (num ++ t).takeWhile (fun c => IsDigit b c) = num ∧
      (num ++ t).dropWhile (fun c => IsDigit b c) = t := by
  obtain ⟨-, hdigits, -⟩ := numeral?_eq_some.mp hnum
  have hstop : t.takeWhile (fun c => IsDigit b c) = [] ∧ t.dropWhile (fun c => IsDigit b c) = t := by
    cases t with
    | nil => exact ⟨rfl, rfl⟩
    | cons c cs =>
        have hc : ¬ IsDigit b c := fun h => (ht c rfl).1 (h.mono hb)
        simp [hc]
  have hall : ∀ c ∈ num, decide (IsDigit b c) = true := by simpa using hdigits
  rw [List.takeWhile_append_of_pos hall, List.dropWhile_append_of_pos hall, hstop.1, hstop.2,
    List.append_nil]
  exact ⟨rfl, rfl⟩

-- The base is the one that the numeral announces, and its digits are those of the numeral.
theorem detectBase_append (hnum : number? num = some n) (ht : EndsNumber t) :
    ∃ b ds, detectBase (num ++ t) = (b, ds ++ t) ∧ b ≤ 16 ∧ numeral? b ds = some n := by
  rw [number?] at hnum
  split_ifs at hnum with hhex hoct
  · obtain ⟨hzero, hx⟩ := hhex
    obtain ⟨c, d, ds, rfl⟩ : ∃ c d ds, num = c :: d :: ds := by
      match num, hzero, hx with
      | [_], _, hx => simp at hx
      | c :: d :: ds, _, _ => exact ⟨c, d, ds, rfl⟩
    obtain ⟨hne, hdigits, -⟩ := numeral?_eq_some.mp hnum
    obtain ⟨e, es, rfl⟩ := List.exists_cons_of_ne_nil hne
    refine ⟨16, e :: es, ?_, le_rfl, hnum⟩
    rw [detectBase, if_pos]
    · rfl
    · exact ⟨hzero, hx, decide_eq_true (hdigits e (by simp))⟩
  · refine ⟨8, num, ?_, by omega, hnum⟩
    obtain ⟨c, cs, rfl⟩ := List.exists_cons_of_ne_nil (numeral?_eq_some.mp hnum).1
    rw [detectBase, if_neg, if_pos (by simpa using hoct)]
    rintro ⟨-, hx, -⟩
    -- what would make it hexadecimal is in the numeral or right behind it
    cases cs with
    | nil =>
        rw [List.cons_append, List.nil_append, List.getElem?_cons_succ, ← List.head?_eq_getElem?] at hx
        rcases hx with hx | hx
        · exact (ht 'x' hx).2.1 rfl
        · exact (ht 'X' hx).2.2 rfl
    | cons d cs => exact hhex ⟨hoct, hx⟩
  · refine ⟨10, num, ?_, by omega, hnum⟩
    obtain ⟨c, cs, rfl⟩ := List.exists_cons_of_ne_nil (numeral?_eq_some.mp hnum).1
    have hfirst : ((c :: cs) ++ t)[0]? ≠ some '0' := hoct
    rw [detectBase, if_neg (fun h => hfirst h.1), if_neg hfirst]

-- A numeral that nothing continues is scanned as a whole.
theorem scanNumber_append (hnum : number? num = some n) (ht : EndsNumber t) :
    scanNumber (num ++ t) = some (n, t) := by
  obtain ⟨b, ds, hbase, hb, hds⟩ := detectBase_append hnum ht
  obtain ⟨htake, hdrop⟩ := scan_digits hb hds ht
  obtain ⟨hne, -, hvalue⟩ := numeral?_eq_some.mp hds
  simp only [scanNumber, hbase, htake, hdrop, if_neg hne, hvalue]

theorem number?_head {c : Char} (hnum : number? num = some n) (hc : c ∈ num.head?) : IsDigit 10 c := by
  obtain ⟨cs, rfl⟩ := List.head?_eq_some_iff.mp hc
  rw [number?] at hnum
  split_ifs at hnum with hhex hoct
  · obtain rfl : c = '0' := by simpa using hhex.1
    decide
  · obtain rfl : c = '0' := by simpa using hoct
    decide
  · exact (numeral?_eq_some.mp hnum).2.1 c (by simp)

-- The characters of a number.
theorem number?_chars {c : Char} (hnum : number? num = some n) (hc : c ∈ num) :
    IsDigit 16 c ∨ c = 'x' ∨ c = 'X' := by
  rw [number?] at hnum
  split_ifs at hnum with hhex hoct
  · obtain ⟨hzero, hx⟩ := hhex
    match num, hzero, hx, hc with
    | [_], _, hx, _ => simp at hx
    | a :: b :: ds, hzero, hx, hc =>
        simp only [List.mem_cons] at hc
        rcases hc with rfl | rfl | hc
        · obtain rfl : c = '0' := by simpa using hzero
          exact Or.inl (by decide)
        · exact Or.inr (by simpa using hx)
        · exact Or.inl ((numeral?_eq_some.mp hnum).2.1 c hc)
  · exact Or.inl (((numeral?_eq_some.mp hnum).2.1 c hc).mono (by omega))
  · exact Or.inl (((numeral?_eq_some.mp hnum).2.1 c hc).mono (by omega))

-- There is no blank and no sign before a numeral to skip.
theorem scanSigned_append (hnum : number? num = some n) (ht : EndsNumber t) :
    scanSigned (num ++ t) = ((n : Int), t) := by
  have hne : num ≠ [] := by
    rintro rfl
    simp [number?, numeral?] at hnum
  obtain ⟨c, cs, rfl⟩ := List.exists_cons_of_ne_nil hne
  obtain ⟨hblank, hminus, hplus⟩ := (number?_head hnum rfl).plain
  have hskip : ((c :: cs) ++ t).dropWhile isspace = (c :: cs) ++ t := by
    rw [List.cons_append, List.dropWhile_cons, if_neg (by simp [hblank])]
  rw [scanSigned, hskip]
  simp only [List.cons_append, List.head?_cons, Option.some.injEq, hminus, hplus, or_self, if_false]
  rw [← List.cons_append, scanNumber_append hnum ht]

-- What is left of a numeral that is cut short is a smaller number, or the announcement of its base.
theorem number?_cut (hnum : number? (num ++ t) = some n) (hne : num ≠ []) (ht : t ≠ []) :
    (∃ m, number? num = some m ∧ (m = 0 ∨ m < n)) ∨ num = ['0', 'x'] ∨ num = ['0', 'X'] := by
  have hcut : ∀ b ds, 1 < b → ds ≠ [] → numeral? b (ds ++ t) = some n →
      ∃ m, numeral? b ds = some m ∧ (m = 0 ∨ m < n) := by
    intro b ds hb hds hread
    obtain ⟨-, hdigits, rfl⟩ := numeral?_eq_some.mp hread
    exact ⟨_, numeral?_eq_some.mpr ⟨hds, fun c hc => hdigits c (List.mem_append_left t hc), rfl⟩,
      numeral_cut hb ht⟩
  match num, hne with
  | [c], _ =>
      left
      by_cases hc : c = '0'
      · subst hc
        exact ⟨0, by decide, Or.inl rfl⟩
      · have hread : numeral? 10 ([c] ++ t) = some n := by simpa [number?, hc] using hnum
        simpa [number?, hc] using hcut 10 [c] (by decide) (by simp) hread
  | [c, d], _ =>
      by_cases hhex : c = '0' ∧ (d = 'x' ∨ d = 'X')
      · obtain ⟨rfl, rfl | rfl⟩ := hhex
        · exact Or.inr (Or.inl rfl)
        · exact Or.inr (Or.inr rfl)
      · left
        simp only [number?, List.cons_append, List.nil_append, List.getElem?_cons_zero,
          List.getElem?_cons_succ, Option.some.injEq, if_neg hhex] at hnum ⊢
        split_ifs at hnum ⊢ with hoct
        · exact hcut 8 [c, d] (by decide) (by simp) hnum
        · exact hcut 10 [c, d] (by decide) (by simp) hnum
  | c :: d :: e :: ds, _ =>
      left
      simp only [number?, List.cons_append, List.getElem?_cons_zero, List.getElem?_cons_succ,
        Option.some.injEq, List.drop_succ_cons, List.drop_zero] at hnum ⊢
      split_ifs at hnum ⊢ with hhex hoct
      · exact hcut 16 (e :: ds) (by decide) (by simp) hnum
      · exact hcut 8 (c :: d :: e :: ds) (by decide) (by simp) hnum
      · exact hcut 10 (c :: d :: e :: ds) (by decide) (by simp) hnum

theorem scanSigned_cut (hnum : number? (num ++ t) = some n) (ht : t ≠ []) :
    ∃ m : Nat, ∃ rest, scanSigned num = ((m : Int), rest) ∧ (m = 0 ∨ m < n) ∧
      (rest = [] ∨ rest = ['x'] ∨ rest = ['X']) := by
  by_cases hne : num = []
  · exact ⟨0, [], by rw [hne]; rfl, Or.inl rfl, Or.inl rfl⟩
  · rcases number?_cut hnum hne ht with ⟨m, hm, hle⟩ | rfl | rfl
    · have hscan := scanSigned_append hm (t := []) (fun c hc => by simp at hc)
      rw [List.append_nil] at hscan
      exact ⟨m, [], hscan, hle, Or.inl rfl⟩
    · exact ⟨0, ['x'], by decide, Or.inl rfl, Or.inr (Or.inl rfl)⟩
    · exact ⟨0, ['X'], by decide, Or.inl rfl, Or.inr (Or.inr rfl)⟩

end Number

/-! ## Tokens -/

section Tokens

variable {s w : List Char} {delim c : Char}

theorem atoi_eq (hs : ∀ c ∈ s.head?, isspace c = false ∧ c ≠ '-' ∧ c ≠ '+') :
    atoi s = asInt (clampLong (leadingNumber s)) := by
  cases s with
  | nil => rfl
  | cons c cs =>
      obtain ⟨hblank, hminus, hplus⟩ := hs c rfl
      have hskip : (c :: cs).dropWhile isspace = c :: cs := by
        rw [List.dropWhile_cons, if_neg (by simp [hblank])]
      simp only [atoi, hskip, List.head?_cons, Option.some.injEq, hminus, hplus, or_self, if_false]

-- The numbers that `atoi` makes into an `int` below a bound, and into which.
theorem asInt_clampLong (v : Nat) {bound : Nat} (hbound : bound ≤ 2 ^ 31) :
    (0 ≤ asInt (clampLong v) ∧ asInt (clampLong v) < bound ↔ v < 2 ^ 63 ∧ v % 2 ^ 32 < bound) ∧
    (v < 2 ^ 63 ∧ v % 2 ^ 32 < bound → asInt (clampLong v) = (v % 2 ^ 32 : Nat)) := by
  rw [asInt, clampLong]
  omega

theorem leadingNumber_eq (hs : ∀ c ∈ s, IsDigit 10 c) : leadingNumber s = numeral 10 s := by
  rw [leadingNumber, List.takeWhile_eq_self_iff.mpr (by simpa using hs)]

-- `atoi` reads back what `%d` prints.
theorem atoi_toDigits {n : Nat} (hn : n < 2 ^ 31) : atoi (Nat.toDigits 10 n) = n := by
  have hread : numeral? 10 (Nat.toDigits 10 n) = some n := numeral?_toDigits (by decide) (by decide)
  obtain ⟨-, hdigits, hnum⟩ := numeral?_eq_some.mp hread
  rw [atoi_eq fun c hc => (hdigits c (List.mem_of_mem_head? hc)).plain, leadingNumber_eq hdigits, hnum,
    asInt, clampLong]
  omega

theorem mem_strtok : w ∈ strtok delim s ↔ w ∈ s.splitOn delim ∧ w ≠ [] := by simp [strtok]

theorem infix_of_mem_strtok (hw : w ∈ strtok delim s) : w <:+: s :=
  infix_of_mem_splitOn (mem_strtok.mp hw).1

-- Pieces with a delimiter behind each of them come back one by one.
theorem strtok_pieces {ws : List (List Char)} (hws : ∀ w ∈ ws, w ≠ [] ∧ delim ∉ w) (s : List Char) :
    strtok delim (ws.flatMap (fun w => w ++ [delim]) ++ s) = ws ++ strtok delim s := by
  induction ws with
  | nil => rfl
  | cons w ws ih =>
      obtain ⟨hne, hno⟩ := hws w List.mem_cons_self
      have hrest := ih fun v hv => hws v (List.mem_cons_of_mem w hv)
      rw [List.flatMap_cons, List.append_assoc, List.append_assoc, List.singleton_append, strtok,
        List.splitOn_append_cons_self_of_not_mem hno, List.filter_cons_of_pos (by simpa using hne)]
      exact congrArg (w :: ·) hrest

-- A character is the delimiter or in one of the parts.
theorem mem_splitOn_of_mem (delim : Char) (hc : c ∈ s) : c = delim ∨ ∃ w ∈ s.splitOn delim, c ∈ w := by
  induction hlen : s.length using Nat.strong_induction_on generalizing s with
  | _ n ih =>
      by_cases hx : delim ∈ s
      · obtain ⟨a, b, rfl, ha⟩ := List.eq_append_cons_of_mem hx
        rw [List.splitOn_append_cons_self_of_not_mem ha]
        rcases List.mem_append.mp hc with hc | hc
        · exact Or.inr ⟨a, by simp, hc⟩
        · rcases List.mem_cons.mp hc with rfl | hc
          · exact Or.inl rfl
          · rcases ih b.length (by simp at hlen; omega) hc rfl with h | ⟨w, hw, hcw⟩
            · exact Or.inl h
            · exact Or.inr ⟨w, by simp [hw], hcw⟩
      · rw [List.splitOn_eq_singleton hx]
        exact Or.inr ⟨s, by simp, hc⟩

end Tokens

end MoBoMemory.Base
