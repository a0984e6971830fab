import MoBoMemory.Base.CStrings

/-!
# The memory limit on the kernel command line

`ParseCmdLineParaMem` takes the first `mem=` anywhere in the first line that fits into 511 characters,
reads a number up to the next blank and scales it by the character behind the number.  The limit is
exact when that occurrence is a whole word of the form that the kernel reads, and refused when the number
comes to 0; with one `mem=` on the line there is no other case in which it is right.
-/

namespace MoBoMemory.App

open Base

def memEq : List Char := ['m', 'e', 'm', '=']

/-- What `getFileString` delivers of `/proc/cmdline`, which ends the command line with a newline, for a
buffer of 512 characters. -/
def getFileString (line : List Char) : List Char := fgetsLine 512 (line ++ ['\n'])

/-- The powers of two that the letters stand for. -/
def sizeSuffix (c : Char) : Option Nat :=
  if c = 'G' ∨ c = 'g' then some 30
  else if c = 'M' ∨ c = 'm' then some 20
  else if c = 'K' ∨ c = 'k' then some 10
  else none

/-- The shift for what follows the number. -/
def sizeShift (pTemp : List Char) : Nat := (pTemp.head?.bind sizeSuffix).getD 0

/-- `size` after the shift, for the number that `strtol` returned. -/
def scaledSize (value : Int) (shift : Nat) : Nat := (value % 2 ^ 64).toNat * 2 ^ shift % 2 ^ 64

/-- The text between `mem=` and the next blank. -/
def memField (pMemPara : List Char) : List Char := (pMemPara.drop 4).takeWhile (· ≠ ' ')

def parseCmdLineParaMem (cmdline : List Char) : Nat :=
  match strstr memEq cmdline with
  | none => 0
  | some pMemPara =>
      scaledSize (strtol (memField pMemPara)).1 (sizeShift (strtol (memField pMemPara)).2)

/-! ## What the option denotes -/

/-- The value of a number, or of a number and one letter. -/
def sizeValue (body : List Char) : Option Nat :=
  match number? body with
  | some n => some n
  | none => body.getLast?.bind fun c => (sizeSuffix c).bind fun k =>
      (number? body.dropLast).map fun n => n * 2 ^ k

/-- The value of a word `mem=...` of the form that the kernel reads. -/
def memWord (w : List Char) : Option Nat := if memEq <+: w then sizeValue (w.drop 4) else none

/-- The value of the first such word of a command line. -/
def firstMemWord (line : List Char) : Option Nat := (line.splitOn ' ').findSome? memWord

/-- The command line is refused, or its first word of the form denotes what is returned. -/
def LimitExact (line : List Char) : Prop :=
  parseCmdLineParaMem (getFileString line) = 0 ∨
    (firstMemWord line = some (parseCmdLineParaMem (getFileString line)) ∧
      parseCmdLineParaMem (getFileString line) < 2 ^ 63)

/-! ## When it is exact -/

/-- The first `mem=` of the line begins a word with the value `v`, and the word is in the buffer. -/
def ReadsWord (line : List Char) (v : Nat) : Prop :=
  ∃ pre body post, line = pre ++ (memEq ++ (body ++ post)) ∧
    (pre = [] ∨ ∃ u, pre = u ++ [' ']) ∧ (post = [] ∨ ∃ u, post = ' ' :: u) ∧ ' ' ∉ body ∧
    ¬ memEq <:+: pre ∧ '\n' ∉ pre ∧ pre.length + 4 + body.length < 512 ∧
    sizeValue body = some v ∧ v < 2 ^ 63

/-- The number behind the first `mem=` of the buffer, without a bound, and the shift. -/
def scannedSize (line : List Char) : Option (Int × Nat) :=
  (strstr memEq (getFileString line)).map fun pMemPara =>
    ((scanSigned (memField pMemPara)).1, sizeShift (scanSigned (memField pMemPara)).2)

/-- The scaled number is 0 on 64 bits. -/
def Vanishes (x : Int) (shift : Nat) : Prop :=
  (-2 ^ 63 ≤ x ∧ x < 2 ^ 63 ∧ 2 ^ 64 ∣ x * 2 ^ shift) ∨ (x < -2 ^ 63 ∧ 0 < shift)

/-- There is no `mem=` in the buffer, the first one is a whole word in range, or the number behind it is
refused. -/
def LimitSafe (line : List Char) : Prop :=
  ¬ memEq <:+: getFileString line ∨ (∃ v, ReadsWord line v) ∨
    ∃ x shift, scannedSize line = some (x, shift) ∧ Vanishes x shift

/-- The line has `mem=` at one place at most. -/
def MemOnce (line : List Char) : Prop :=
  ∀ u v, (u ++ memEq) <+: line → (v ++ memEq) <+: line → u = v

/-! ## The number -/

section Size

variable {x : Int} {shift : Nat}

theorem sizeSuffix_eq {c : Char} (h : sizeSuffix c = some shift) :
    shift = 10 ∨ shift = 20 ∨ shift = 30 := by
  rw [sizeSuffix] at h
  split_ifs at h <;> simp_all

theorem sizeShift_eq (pTemp : List Char) :
    sizeShift pTemp = 0 ∨ sizeShift pTemp = 10 ∨ sizeShift pTemp = 20 ∨ sizeShift pTemp = 30 := by
  rw [sizeShift]
  cases h : pTemp.head?.bind sizeSuffix with
  | none => exact Or.inl rfl
  | some k =>
      obtain ⟨c, -, hc⟩ := Option.bind_eq_some_iff.mp h
      exact Or.inr (sizeSuffix_eq hc)

theorem scaledSize_eq_zero (hshift : shift = 0 ∨ shift = 10 ∨ shift = 20 ∨ shift = 30) :
    scaledSize (clampLong x) shift = 0 ↔ Vanishes x shift := by
  rw [scaledSize, clampLong, Vanishes]
  rcases hshift with rfl | rfl | rfl | rfl <;> omega

end Size

/-! ## The text -/

section Text

variable {line pre body post num rest : List Char} {v n : Nat} {x : Int} {shift : Nat}

-- The copy to `cmdlineTemp`, which has 512 characters, fits.
theorem getFileString_fits (line : List Char) : (getFileString line).length < 512 := by
  have hlen := @length_fgetsLine_le 512 (line ++ ['\n'])
  rw [getFileString]
  omega

theorem parse_of_scanned (h : scannedSize line = some (x, shift)) :
    parseCmdLineParaMem (getFileString line) = scaledSize (clampLong x) shift := by
  rw [scannedSize, Option.map_eq_some_iff] at h
  obtain ⟨found, hfound, hpair⟩ := h
  obtain ⟨rfl, rfl⟩ := Prod.mk.inj hpair
  rw [parseCmdLineParaMem, hfound]
  rfl

theorem scannedSize_eq_none : scannedSize line = none ↔ ¬ memEq <:+: getFileString line := by
  rw [scannedSize, Option.map_eq_none_iff, strstr_eq_none]

theorem parse_of_not_found (h : ¬ memEq <:+: getFileString line) :
    parseCmdLineParaMem (getFileString line) = 0 := by
  rw [parseCmdLineParaMem, strstr_eq_none.mpr h]

theorem scannedSize_shift (h : scannedSize line = some (x, shift)) :
    shift = 0 ∨ shift = 10 ∨ shift = 20 ∨ shift = 30 := by
  rw [scannedSize, Option.map_eq_some_iff] at h
  obtain ⟨found, -, hpair⟩ := h
  obtain ⟨-, rfl⟩ := Prod.mk.inj hpair
  exact sizeShift_eq _

-- A size is a number with at most one letter behind it.
theorem sizeValue_eq_some (h : sizeValue body = some v) : ∃ num n rest, body = num ++ rest ∧
    number? num = some n ∧ v = n * 2 ^ sizeShift rest ∧
    (rest = [] ∨ ∃ c k, rest = [c] ∧ sizeSuffix c = some k) := by
  rw [sizeValue] at h
  cases hnum : number? body with
  | some n =>
      rw [hnum] at h
      refine ⟨body, n, [], (List.append_nil body).symm, hnum, ?_, Or.inl rfl⟩
      simpa [sizeShift] using h.symm
  | none =>
      rw [hnum] at h
      obtain ⟨c, hc, h⟩ := Option.bind_eq_some_iff.mp h
      obtain ⟨k, hk, h⟩ := Option.bind_eq_some_iff.mp h
      obtain ⟨n, hn, rfl⟩ := Option.map_eq_some_iff.mp h
      refine ⟨body.dropLast, n, [c], (List.dropLast_append_getLast? c hc).symm, hn, ?_,
        Or.inr ⟨c, k, rfl, hk⟩⟩
      simp [sizeShift, hk]

theorem sizeValue_line (h : sizeValue body = some v) : '\n' ∉ body := by
  obtain ⟨num, n, rest, rfl, hnum, -, hrest⟩ := sizeValue_eq_some h
  rw [List.mem_append]
  rintro (hc | hc)
  · rcases number?_chars hnum hc with h | h | h <;> revert h <;> decide
  · rcases hrest with rfl | ⟨c, k, rfl, hk⟩
    · simp at hc
    · obtain rfl : '\n' = c := by simpa using hc
      revert hk
      simp [sizeSuffix]

-- Neither a letter for the size nor the end of the line continues a number.
theorem endsNumber_suffix {tail : List Char}
    (hrest : rest = [] ∨ ∃ c k, rest = [c] ∧ sizeSuffix c = some k)
    (htail : tail = [] ∨ tail = ['\n']) : EndsNumber (rest ++ tail) := by
  intro c hc
  rcases hrest with rfl | ⟨d, k, rfl, hk⟩
  · rcases htail with rfl | rfl
    · simp at hc
    · obtain rfl : c = '\n' := by simpa using hc.symm
      decide
  · obtain rfl : d = c := by simpa using hc
    rw [sizeSuffix] at hk
    split_ifs at hk with hG hM hK
    · rcases hG with rfl | rfl <;> decide
    · rcases hM with rfl | rfl <;> decide
    · rcases hK with rfl | rfl <;> decide

theorem sizeShift_append {tail : List Char} (htail : tail = [] ∨ tail = ['\n']) :
    sizeShift (rest ++ tail) = sizeShift rest := by
  cases rest with
  | nil => rcases htail with rfl | rfl <;> rfl
  | cons c rest => rfl

-- The buffer holds the line up to the end of the word, and at most the newline before a blank.
theorem getFileString_word (hline : line = pre ++ (memEq ++ (body ++ post))) (hpre : '\n' ∉ pre)
    (hbody : '\n' ∉ body) (hpost : post = [] ∨ ∃ u, post = ' ' :: u)
    (hfits : pre.length + 4 + body.length < 512) :
    ∃ tail, getFileString line = pre ++ (memEq ++ (body ++ tail)) ∧
      (tail = [] ∨ tail = ['\n'] ∨ tail.head? = some ' ') := by
  have hplain : '\n' ∉ pre ++ (memEq ++ body) := by simp [hpre, hbody, memEq]
  have hlen : (pre ++ (memEq ++ body)).length < 512 := by
    simp only [List.length_append, memEq, List.length_cons, List.length_nil]
    omega
  have hsplit : line ++ ['\n'] = (pre ++ (memEq ++ body)) ++ (post ++ ['\n']) := by simp [hline]
  refine ⟨fgetsLine (512 - (pre ++ (memEq ++ body)).length) (post ++ ['\n']), ?_, ?_⟩
  · rw [getFileString, hsplit, fgetsLine_append hplain hlen]
    simp
  · rcases hpost with rfl | ⟨u, rfl⟩
    · rw [List.nil_append]
      rcases fgetsLine_newline with h | h
      · exact Or.inl h
      · exact Or.inr (Or.inl h)
    · rcases head?_fgetsLine with h | h
      · exact Or.inl h
      · exact Or.inr (Or.inr h)

theorem memField_append {t : List Char} (hbody : ' ' ∉ body) :
    memField (memEq ++ (body ++ t)) = body ++ t.takeWhile (· ≠ ' ') := by
  have hall : ∀ c ∈ body, decide (c ≠ ' ') = true := by
    intro c hc
    simp only [decide_eq_true_eq]
    rintro rfl
    exact hbody hc
  have hdrop : (memEq ++ (body ++ t)).drop 4 = body ++ t := rfl
  rw [memField, hdrop, List.takeWhile_append_of_pos hall]

theorem memField_plain (hbody : ' ' ∉ body) : memField (memEq ++ body) = body := by
  simpa using memField_append (t := []) hbody

-- The field is the word without its blank.
theorem memField_word {tail : List Char} (hbody : ' ' ∉ body)
    (htail : tail = [] ∨ tail = ['\n'] ∨ tail.head? = some ' ') :
    ∃ t, memField (memEq ++ (body ++ tail)) = body ++ t ∧ (t = [] ∨ t = ['\n']) := by
  refine ⟨tail.takeWhile (· ≠ ' '), memField_append hbody, ?_⟩
  rcases htail with rfl | rfl | hblank
  · exact Or.inl rfl
  · exact Or.inr (by decide)
  · obtain ⟨u, rfl⟩ := List.head?_eq_some_iff.mp hblank
    exact Or.inl (by simp)

-- The first occurrence begins the word, for there is no blank in `mem=`.
theorem strstr_word (hpre : pre = [] ∨ ∃ u, pre = u ++ [' ']) (hfirst : ¬ memEq <:+: pre) :
    strstr memEq (pre ++ (memEq ++ rest)) = some (memEq ++ rest) := by
  have hfound : strstr memEq (memEq ++ rest) = some (memEq ++ rest) :=
    strstr_of_prefix (List.prefix_append _ _)
  rcases hpre with rfl | ⟨u, rfl⟩
  · exact hfound
  · have hu : ¬ memEq <:+: u := fun h => hfirst (h.trans (List.prefix_append u [' ']).isInfix)
    rw [List.append_assoc, List.singleton_append, strstr_skip (by decide) (by decide) hu, hfound]

-- No word before it has the form, so the first word of the form is this one.
theorem firstMemWord_word (hpre : pre = [] ∨ ∃ u, pre = u ++ [' ']) (hfirst : ¬ memEq <:+: pre)
    (hpost : post = [] ∨ ∃ u, post = ' ' :: u) (hbody : ' ' ∉ body) (hsize : sizeValue body = some v) :
    firstMemWord (pre ++ (memEq ++ (body ++ post))) = some v := by
  have hword : memWord (memEq ++ body) = some v := by
    rw [memWord, if_pos (List.prefix_append _ _)]
    exact hsize
  have hplain : ' ' ∉ memEq ++ body := by simp [memEq, hbody]
  have hrest : firstMemWord (memEq ++ (body ++ post)) = some v := by
    rw [firstMemWord, ← List.append_assoc]
    rcases hpost with rfl | ⟨u, rfl⟩
    · rw [List.append_nil, List.splitOn_eq_singleton hplain]
      simp [hword]
    · rw [List.splitOn_append_cons_self_of_not_mem hplain]
      simp [hword]
  rcases hpre with rfl | ⟨u, rfl⟩
  · exact hrest
  · have hnone : (u.splitOn ' ').findSome? memWord = none := by
      rw [List.findSome?_eq_none_iff]
      intro w hw
      rw [memWord, if_neg]
      intro hmem
      exact hfirst ((hmem.isInfix.trans (infix_of_mem_splitOn hw)).trans (List.prefix_append u [' ']).isInfix)
    rw [List.append_assoc, List.singleton_append, firstMemWord, List.splitOn_append_cons_self,
      List.findSome?_append, hnone, Option.none_or]
    exact hrest

-- A word that is read whole is read as what it denotes.
theorem ReadsWord.parse (h : ReadsWord line v) :
    parseCmdLineParaMem (getFileString line) = v ∧ firstMemWord line = some v := by
  obtain ⟨pre, body, post, rfl, hpre, hpost, hbody, hfirst, hnl, hfits, hsize, hlt⟩ := h
  refine ⟨?_, firstMemWord_word hpre hfirst hpost hbody hsize⟩
  obtain ⟨num, n, rest, hsplit, hnum, hv, hrest⟩ := sizeValue_eq_some hsize
  obtain ⟨tail, hbuf, htail⟩ := getFileString_word rfl hnl (sizeValue_line hsize) hpost hfits
  obtain ⟨t, hfield, ht⟩ := memField_word hbody htail
  have hscan : scannedSize (pre ++ (memEq ++ (body ++ post))) = some ((n : Int), sizeShift rest) := by
    rw [scannedSize, hbuf, strstr_word hpre hfirst, Option.map_some, hfield, hsplit, List.append_assoc,
      scanSigned_append hnum (endsNumber_suffix hrest ht), sizeShift_append ht]
  have hshift := sizeShift_eq rest
  rw [parse_of_scanned hscan, scaledSize, clampLong, hv]
  rw [hv] at hlt
  rcases hshift with h | h | h | h <;> rw [h] at hlt ⊢ <;> omega

-- Each of the three is enough.
theorem LimitSafe.exact (h : LimitSafe line) : LimitExact line := by
  rcases h with hnone | ⟨v, hword⟩ | ⟨x, shift, hscan, hzero⟩
  · exact Or.inl (parse_of_not_found hnone)
  · obtain ⟨hparse, hfirst⟩ := hword.parse
    obtain ⟨-, -, -, -, -, -, -, -, -, -, -, hlt⟩ := hword
    rw [LimitExact, hparse]
    exact Or.inr ⟨hfirst, hlt⟩
  · left
    rw [parse_of_scanned hscan]
    exact (scaledSize_eq_zero (scannedSize_shift hscan)).mpr hzero

/-! ### One `mem=` -/

-- The word that denotes the value, between its blanks.
theorem firstMemWord_eq_some (h : firstMemWord line = some v) :
    ∃ pre body post, line = pre ++ (memEq ++ (body ++ post)) ∧ (pre = [] ∨ ∃ u, pre = u ++ [' ']) ∧
      (post = [] ∨ ∃ u, post = ' ' :: u) ∧ ' ' ∉ body ∧ sizeValue body = some v := by
  obtain ⟨w, hw, hvalue⟩ := List.exists_of_findSome?_eq_some h
  rw [memWord] at hvalue
  split_ifs at hvalue with hmem
  obtain ⟨body, rfl⟩ := hmem
  obtain ⟨pre, post, hline, hpre, hpost, hblank⟩ := split_of_mem_splitOn hw
  exact ⟨pre, body, post, by rw [hline, List.append_assoc], hpre, hpost,
    fun hc => hblank (List.mem_append_right _ hc), hvalue⟩

theorem MemOnce.first (honce : MemOnce line) (hline : line = pre ++ (memEq ++ rest)) :
    ¬ memEq <:+: pre := by
  rintro ⟨u, t, rfl⟩
  have hu : u = (u ++ memEq) ++ t :=
    honce u _ ⟨t ++ (memEq ++ rest), by simp [hline]⟩ ⟨rest, by simp [hline]⟩
  have hlen := congrArg List.length hu
  simp [memEq] at hlen

-- What is found in the buffer is the one occurrence of the line.
theorem MemOnce.buffer (honce : MemOnce line) (hline : line = pre ++ (memEq ++ rest))
    (hfound : memEq <:+: getFileString line) : (pre ++ memEq) <+: getFileString line := by
  obtain ⟨u, t, hbuf⟩ := hfound
  have hplace : (u ++ memEq) <+: getFileString line := ⟨t, hbuf⟩
  have hshort : (u ++ memEq) <+: line := by
    have hpre : getFileString line <+: line ++ ['\n'] := fgetsLine_prefix
    rcases List.prefix_concat_iff.mp (hplace.trans hpre) with hwhole | hpre
    · have hlast := congrArg List.getLast? hwhole
      simp [memEq] at hlast
    · exact hpre
  rw [honce pre u ⟨rest, by simp [hline]⟩ hshort]
  exact hplace

-- The number without its letter, or with fewer digits, is smaller, if it is not zero.
theorem sizeValue_cut (hsize : sizeValue (num ++ rest) = some v) (hrest : rest ≠ []) (hlt : v < 2 ^ 63) :
    scaledSize (clampLong (scanSigned num).1) (sizeShift (scanSigned num).2) = 0 ∨
      scaledSize (clampLong (scanSigned num).1) (sizeShift (scanSigned num).2) < v := by
  obtain ⟨digits, n, suffix, hsplit, hnum, rfl, hsuffix⟩ := sizeValue_eq_some hsize
  have hcases : (num = digits ∧ suffix ≠ []) ∨ ∃ cut, digits = num ++ cut ∧ cut ≠ [] := by
    rcases List.append_eq_append_iff.mp hsplit with ⟨cut, hdigits, hcut⟩ | ⟨c, hnum', hc⟩
    · by_cases hnil : cut = []
      · rw [hnil, List.append_nil] at hdigits
        rw [hnil, List.nil_append] at hcut
        exact Or.inl ⟨hdigits.symm, hcut ▸ hrest⟩
      · exact Or.inr ⟨cut, hdigits, hnil⟩
    · -- at most one character is behind the digits, and something of the word is cut
      left
      rcases hsuffix with rfl | ⟨d, k, rfl, -⟩
      · exact absurd (List.append_eq_nil_iff.mp hc.symm).2 hrest
      · rcases List.append_eq_singleton_iff.mp hc.symm with ⟨rfl, -⟩ | ⟨-, hnil⟩
        · exact ⟨by simpa using hnum', by simp⟩
        · exact absurd hnil hrest
  rcases hcases with ⟨rfl, hne⟩ | ⟨cut, rfl, hne⟩
  · have hscan := scanSigned_append hnum (endsNumber_suffix (Or.inl rfl) (Or.inl rfl))
    rw [List.append_nil, List.append_nil] at hscan
    obtain ⟨c, k, rfl, hk⟩ := hsuffix.resolve_left hne
    have hshift : sizeShift [c] = k := by simp [sizeShift, hk]
    rw [hscan, scaledSize, clampLong, show sizeShift [] = 0 from rfl]
    rw [hshift] at hlt ⊢
    rcases sizeSuffix_eq hk with rfl | rfl | rfl <;> omega
  · obtain ⟨m, t, hscan, hm, ht⟩ := scanSigned_cut hnum hne
    have hshift : sizeShift t = 0 := by rcases ht with rfl | rfl | rfl <;> rfl
    have hle : n ≤ n * 2 ^ sizeShift suffix := Nat.le_mul_of_pos_right n (Nat.two_pow_pos _)
    rw [hscan, hshift, scaledSize, clampLong]
    omega

-- The buffer ends in a word that goes on behind it.
theorem getFileString_cut (hline : line = pre ++ (memEq ++ (body ++ post))) (hpre : '\n' ∉ pre)
    (hbody : '\n' ∉ body) (hplace : pre.length + 4 < 512) (hcut : 512 ≤ pre.length + 4 + body.length) :
    ∃ num rest, body = num ++ rest ∧ rest ≠ [] ∧ getFileString line = pre ++ (memEq ++ num) := by
  have hplain : '\n' ∉ pre ++ (memEq ++ body) := by simp [hpre, hbody, memEq]
  have hword : (pre ++ memEq).length = pre.length + 4 := by simp [memEq]
  have hfull : 512 ≤ (pre ++ (memEq ++ body)).length := by
    rw [← List.append_assoc, List.length_append, hword]
    exact hcut
  have hsplit : line ++ ['\n'] = (pre ++ (memEq ++ body)) ++ (post ++ ['\n']) := by simp [hline]
  refine ⟨body.take (507 - pre.length), body.drop (507 - pre.length), (List.take_append_drop _ _).symm,
    ?_, ?_⟩
  · rw [Ne, List.drop_eq_nil_iff]
    omega
  · rw [getFileString, hsplit, fgetsLine_take hplain hfull, ← List.append_assoc, List.take_append, hword,
      List.take_of_length_le (by omega), List.append_assoc,
      show 512 - 1 - (pre.length + 4) = 507 - pre.length by omega]

-- The one occurrence is on the first line and in the buffer.
theorem MemOnce.place (honce : MemOnce line) (hline : line = pre ++ (memEq ++ rest))
    (hfound : memEq <:+: getFileString line) : '\n' ∉ pre ∧ pre.length + 4 < 512 := by
  have hbuffer := honce.buffer hline hfound
  have hlen : (pre ++ memEq).length = pre.length + 4 := by simp [memEq]
  constructor
  · intro hnl
    have hbuf : getFileString line <+: pre := by
      rw [getFileString, hline, List.append_assoc]
      exact fgetsLine_prefix_of_newline hnl
    have hle := (hbuffer.trans hbuf).length_le
    omega
  · have hle := hbuffer.length_le.trans_lt (getFileString_fits line)
    omega

-- The word that denotes the value returned is the one that was read, and it was read whole.
theorem MemOnce.readsWord (honce : MemOnce line) (hscan : scannedSize line = some (x, shift))
    (hword : firstMemWord line = some (scaledSize (clampLong x) shift))
    (hne : scaledSize (clampLong x) shift ≠ 0) (hlt : scaledSize (clampLong x) shift < 2 ^ 63) :
    ReadsWord line (scaledSize (clampLong x) shift) := by
  have hfound : memEq <:+: getFileString line := by
    by_contra hnone
    rw [scannedSize_eq_none.mpr hnone] at hscan
    cases hscan
  obtain ⟨pre, body, post, hline, hpre, hpost, hblank, hsize⟩ := firstMemWord_eq_some hword
  have hfirst := honce.first hline
  obtain ⟨hnl, hplace⟩ := honce.place hline hfound
  refine ⟨pre, body, post, hline, hpre, hpost, hblank, hfirst, hnl, ?_, hsize, hlt⟩
  by_contra hcut
  obtain ⟨num, rest, rfl, hrest, hbuf⟩ :=
    getFileString_cut hline hnl (sizeValue_line hsize) hplace (not_lt.mp hcut)
  have hscan' : scannedSize line = some ((scanSigned num).1, sizeShift (scanSigned num).2) := by
    rw [scannedSize, hbuf, strstr_word hpre hfirst, Option.map_some,
      memField_plain fun hc => hblank (List.mem_append_left _ hc)]
  obtain ⟨rfl, rfl⟩ := Prod.mk.inj (Option.some.inj (hscan.symm.trans hscan'))
  rcases sizeValue_cut hsize hrest hlt with hzero | hless
  · exact hne hzero
  · exact lt_irrefl _ hless

theorem MemOnce.safe (honce : MemOnce line) (hexact : LimitExact line) : LimitSafe line := by
  cases hscan : scannedSize line with
  | none => exact Or.inl (scannedSize_eq_none.mp hscan)
  | some p =>
      obtain ⟨x, shift⟩ := p
      rw [LimitExact, parse_of_scanned hscan] at hexact
      by_cases hzero : scaledSize (clampLong x) shift = 0
      · exact Or.inr (Or.inr ⟨x, shift, hscan, (scaledSize_eq_zero (scannedSize_shift hscan)).mp hzero⟩)
      · obtain ⟨hword, hlt⟩ := hexact.resolve_left hzero
        exact Or.inr (Or.inl ⟨_, honce.readsWord hscan hword hzero hlt⟩)

end Text

-- The limit is exact or refused in these cases, and in no others where the line has one `mem=`; a whole
-- word in range gives what it denotes.
theorem parseCmdLineParaMem_exact (line : List Char) :
    (LimitSafe line → LimitExact line) ∧ (MemOnce line → (LimitExact line ↔ LimitSafe line)) ∧
      ∀ v, ReadsWord line v → parseCmdLineParaMem (getFileString line) = v :=
  ⟨LimitSafe.exact, fun honce => ⟨honce.safe, LimitSafe.exact⟩, fun _ hword => hword.parse.1⟩

theorem parseCmdLineParaMem_exact_gigabyte : LimitExact (memEq ++ ['1', 'G']) := by
  have hword : ReadsWord (memEq ++ ['1', 'G']) (2 ^ 30) :=
    ⟨[], ['1', 'G'], [], rfl, Or.inl rfl, Or.inl rfl, by decide, by decide, by decide, by decide, by decide,
      by decide⟩
  exact (parseCmdLineParaMem_exact _).1 (Or.inr (Or.inl ⟨2 ^ 30, hword⟩))

/-- `highmem=1G` has no word of the form. -/
def longerName : List Char := ['h', 'i', 'g', 'h', 'm', 'e', 'm', '=', '1', 'G']

-- The option with the longer name gives the limit 2^30.
theorem longer_name_accepted : ¬ LimitExact longerName := by
  have hvalue : parseCmdLineParaMem (getFileString longerName) = 2 ^ 30 := by decide
  have hnone : firstMemWord longerName = none := by decide
  rw [LimitExact, hvalue, hnone]
  simp

-- With a second `mem=` the word behind may denote what was read before it.
example : LimitExact (longerName ++ ' ' :: (memEq ++ ['1', 'G'])) := Or.inr ⟨by decide, by decide⟩

end MoBoMemory.App
