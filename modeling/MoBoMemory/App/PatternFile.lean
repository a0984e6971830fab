import Mathlib.Algebra.BigOperators.Group.List.Basic
import Mathlib.Algebra.Group.Action.Defs
import Mathlib.Algebra.Order.BigOperators.Group.List
import Mathlib.Data.List.TakeWhile
import MoBoMemory.App.RandomPattern
import MoBoMemory.Base.CStrings

/-!
# The numbers in the pattern file

The random-pattern stage with `rand_array`: a run that finds no file fills the array with `rand` and
writes it down, a row a line and a comma behind each number; a later run reads it back.  But the size
that it asks for first is the size of the array, not that of the text.
-/

namespace MoBoMemory.App

open Base

/-- `rand_array`, of which `randArrayNum` rows of `randNumSize` numbers exist. -/
abbrev RandArray := Nat → Nat → Nat

/-- The string in `buf`, which was cleared before. -/
def bufString (line : List UInt8) : List Char :=
  (line.takeWhile (· ≠ 0)).map fun b => Char.ofNat b.toNat

/-- The row of `rand_array` that a line is read into: the pieces between the commas, as far as they go,
over zeros. -/
def randRow (line : List UInt8) : Nat → Nat := fun j =>
  match (strtok ',' (bufString line))[j]? with
  | some tempP => (atoi tempP % 2 ^ 32).toNat
  | none => 0

/-- `readPattern` with `rand_array`. -/
def readRandArray (readError : Nat → Option Errno) (errno : Option Errno) :
    Nat → Nat → List UInt8 → RandArray → Except UInt32 RandArray
  | 0, _, _, randArray => .ok randArray
  | count + 1, i, s, randArray =>
      match readError i with
      | some e => .error e.val
      | none =>
          match fgets patternBufSize s with
          | none => .error (errnoValue errno)
          | some (buf, rest) =>
              readRandArray readError errno count (i + 1) rest
                (Function.update randArray i (randRow buf))

/-- `loadPattern` with `rand_array`, which is cleared first. -/
def loadRandArray (env : PatternEnv) (n : Nat) (content : List UInt8) (s : PatternState) :
    Except UInt32 RandArray :=
  match env.stat n with
  | some e => .error e.val
  | none =>
      if content.length < patternMinSize then .error errReadRandPattern
      else
        match env.openRead n with
        | some e => .error e.val
        | none => readRandArray (env.fgets n) s.errno randArrayNum 0 content fun _ _ => 0

/-- The numbers that `rand` returns. -/
def generatedArray (env : PatternEnv) (n : Nat) : RandArray := fun i j => (env.rand n i j).val

/-- `randomPattern` with `rand_array`. -/
def randomPatternArray (env : PatternEnv) (n : Nat) (s : PatternState) :
    Except UInt32 (PatternState × RandArray) :=
  match env.access n, s.file with
  | none, some content => (loadRandArray env n content s).map fun randArray => (s, randArray)
  | none, none =>
      (generatePattern env n { s with errno := some enoent }).map fun s => (s, generatedArray env n)
  | some e, _ =>
      (generatePattern env n { s with errno := some e }).map fun s => (s, generatedArray env n)

/-- No call fails when the stage reads the file or writes it. -/
structure PatternEnv.Quiet (env : PatternEnv) (n : Nat) : Prop where
  access : env.access n = none
  stat : env.stat n = none
  openRead : env.openRead n = none
  fgets : ∀ i, env.fgets n i = none
  openWrite : env.openWrite n = none
  write : env.write n = none

/-- A run that finds no file, and then one that finds the file of the first, end with the same array. -/
def RoundTrip (env env' : PatternEnv) (n n' : Nat) (errno errno' : Option Errno) : Prop :=
  ∃ s s' randArray randArray', randomPatternArray env n ⟨none, errno⟩ = .ok (s, randArray) ∧
    randomPatternArray env' n' ⟨s.file, errno'⟩ = .ok (s', randArray') ∧
    ∀ i < randArrayNum, ∀ j < randNumSize, randArray' i j = randArray i j

/-! ## The stage without its array -/

section Stage

variable {env : PatternEnv} {n : Nat} {s : PatternState}

theorem map_map_eq {ε α β γ : Type*} (f : α → β) (g : β → γ) (x : Except ε α) :
    (x.map f).map g = x.map fun a => g (f a) := by
  cases x <;> rfl

theorem readRandArray_forget {readError : Nat → Option Errno} {errno : Option Errno} {count i : Nat}
    {content : List UInt8} {randArray : RandArray} :
    (readRandArray readError errno count i content randArray).map (fun _ => ()) =
      readPattern readError errno count i content := by
  induction count generalizing i content randArray with
  | zero => rfl
  | succ count ih =>
      rw [readRandArray, readPattern]
      cases readError i with
      | some e => rfl
      | none =>
          cases fgets patternBufSize content with
          | none => rfl
          | some line => exact ih

theorem loadRandArray_forget (content : List UInt8) :
    (loadRandArray env n content s).map (fun _ => s) = loadPattern env n content s := by
  rw [loadRandArray, loadPattern]
  cases env.stat n with
  | some e => rfl
  | none =>
      simp only
      split_ifs
      · rfl
      · cases env.openRead n with
        | some e => rfl
        | none =>
            simp only
            rw [← readRandArray_forget, map_map_eq]

-- The array changes nothing in how the stage ends.
theorem randomPatternArray_fst :
    (randomPatternArray env n s).map Prod.fst = randomPattern env n s := by
  rw [randomPatternArray, randomPattern]
  have hid : ∀ x : Except UInt32 PatternState, x.map (fun s => s) = x := fun x => by cases x <;> rfl
  cases env.access n with
  | some e => simp only [map_map_eq, hid]
  | none =>
      cases s.file with
      | none => simp only [map_map_eq, hid]
      | some content => simp only [map_map_eq, loadRandArray_forget]

end Stage

/-! ## A line -/

section Line

variable {line rest : List UInt8} {size : Nat} {row : Nat → Nat} {b : UInt8}

theorem takeLine_append (hline : newline ∉ line) (hlen : line.length < size) :
    takeLine size (line ++ newline :: rest) = (line ++ [newline], rest) := by
  induction line generalizing size with
  | nil =>
      obtain ⟨size, rfl⟩ := Nat.exists_eq_succ_of_ne_zero hlen.ne'
      rfl
  | cons c line ih =>
      obtain ⟨size, rfl⟩ := Nat.exists_eq_succ_of_ne_zero (Nat.ne_zero_of_lt hlen)
      rw [List.mem_cons, not_or] at hline
      rw [List.length_cons] at hlen
      rw [List.cons_append, takeLine, if_neg (Ne.symm hline.1), ih hline.2 (by omega)]
      rfl

/-- The numbers of a row with their commas. -/
def rowNumbers (row : Nat → Nat) : List UInt8 :=
  (List.range randNumSize).flatMap fun j => decimal (row j) ++ [comma]

/-- The text of a row. -/
def rowText (row : Nat → Nat) : List UInt8 := rowNumbers row ++ [newline]

theorem writtenPattern_eq (rand : Nat → Nat → Fin (2 ^ 31)) :
    writtenPattern rand = (List.range randArrayNum).flatMap fun i => rowText fun j => (rand i j).val :=
  rfl

theorem digit_toNat {c : Char} (hc : c.isDigit) :
    c.val.toUInt8.toNat = c.toNat ∧ 48 ≤ c.toNat ∧ c.toNat ≤ 57 := by
  simp only [Char.isDigit, Bool.and_eq_true, decide_eq_true_eq, UInt32.le_iff_toNat_le] at hc
  have hmod : c.val.toUInt8.toNat = c.val.toNat % 2 ^ 8 := UInt32.toNat_toUInt8 _
  have hval : c.val.toNat = c.toNat := rfl
  have hlow : '0'.val.toNat = 48 := rfl
  have hhigh : '9'.val.toNat = 57 := rfl
  omega

-- The bytes of a number are digits.
theorem mem_decimal {x : Nat} (hb : b ∈ decimal x) : 48 ≤ b.toNat ∧ b.toNat ≤ 57 := by
  obtain ⟨c, hc, rfl⟩ := List.mem_map.mp hb
  have hdigit := digit_toNat (Nat.isDigit_of_mem_toDigits (by decide) le_rfl hc)
  omega

theorem decimal_chars (x : Nat) :
    (decimal x).map (fun b => Char.ofNat b.toNat) = Nat.toDigits 10 x := by
  rw [decimal, List.map_map]
  conv_rhs => rw [← List.map_id (Nat.toDigits 10 x)]
  apply List.map_congr_left
  intro c hc
  have hdigit := digit_toNat (Nat.isDigit_of_mem_toDigits (by decide) le_rfl hc)
  rw [Function.comp_apply, hdigit.1, Char.ofNat_toNat, id]

theorem mem_rowNumbers (hb : b ∈ rowNumbers row) : b = comma ∨ 48 ≤ b.toNat ∧ b.toNat ≤ 57 := by
  obtain ⟨j, -, hmem⟩ := List.mem_flatMap.mp hb
  rcases List.mem_append.mp hmem with hdigit | hcomma
  · exact Or.inr (mem_decimal hdigit)
  · exact Or.inl (List.mem_singleton.mp hcomma)

theorem newline_not_mem_rowNumbers : newline ∉ rowNumbers row := by
  intro hmem
  rcases mem_rowNumbers hmem with hcomma | hdigit
  · exact absurd hcomma (by decide)
  · exact absurd hdigit (by decide)

theorem bufString_rowText (row : Nat → Nat) : bufString (rowText row) =
    ((List.range randNumSize).map fun j => Nat.toDigits 10 (row j)).flatMap (fun w => w ++ [',']) ++
      ['\n'] := by
  have hplain : ∀ b ∈ rowText row, b ≠ 0 := by
    intro b hb
    rcases List.mem_append.mp hb with hmem | hnewline
    · rcases mem_rowNumbers hmem with rfl | hdigit
      · decide
      · rintro rfl
        exact absurd hdigit (by decide)
    · rw [List.mem_singleton.mp hnewline]
      decide
  rw [bufString, List.takeWhile_eq_self_iff.mpr fun b hb => decide_eq_true (hplain b hb), rowText,
    rowNumbers, List.map_append, List.map_flatMap, List.flatMap_map]
  simp only [List.map_append, decimal_chars]
  rfl

-- The pieces of a row are its numbers, and the newline behind its last comma.
theorem strtok_rowText (row : Nat → Nat) : strtok ',' (bufString (rowText row)) =
    ((List.range randNumSize).map fun j => Nat.toDigits 10 (row j)) ++ [['\n']] := by
  rw [bufString_rowText, strtok_pieces]
  · rfl
  · intro w hw
    obtain ⟨j, -, rfl⟩ := List.mem_map.mp hw
    refine ⟨Nat.toDigits_ne_nil, fun hmem => ?_⟩
    exact absurd (Nat.isDigit_of_mem_toDigits (by decide) le_rfl hmem) (by decide)

theorem randRow_rowText (hrow : ∀ j, row j < 2 ^ 31) {j : Nat} (hj : j < randNumSize) :
    randRow (rowText row) j = row j := by
  have hpiece : (strtok ',' (bufString (rowText row)))[j]? = some (Nat.toDigits 10 (row j)) := by
    rw [strtok_rowText, List.getElem?_append_left (by simpa using hj), List.getElem?_map,
      List.getElem?_range hj]
    rfl
  have := hrow j
  simp only [randRow, hpiece, atoi_toDigits (hrow j)]
  omega

/-- The number of digits in a row. -/
def rowDigits (row : Nat → Nat) : Nat :=
  ((List.range randNumSize).map fun j => (decimal (row j)).length).sum

theorem length_rowNumbers (row : Nat → Nat) :
    (rowNumbers row).length = rowDigits row + randNumSize := by
  rw [rowNumbers, List.length_flatMap]
  simp only [List.length_append, List.length_singleton]
  rw [List.sum_map_add, List.map_const', List.length_range, List.sum_replicate, smul_eq_mul, mul_one,
    rowDigits]

-- Ten digits and a comma for each number fit into the buffer.
theorem length_rowNumbers_lt (hrow : ∀ j, row j < 2 ^ 31) :
    (rowNumbers row).length < patternBufSize - 1 := by
  have hdigits : rowDigits row ≤ ((List.range randNumSize).map
      fun j => (decimal (row j)).length).length • 10 := by
    apply List.sum_le_card_nsmul
    intro len hlen
    obtain ⟨j, -, rfl⟩ := List.mem_map.mp hlen
    have := hrow j
    rw [decimal, List.length_map, Nat.length_toDigits_le_iff (by decide) (by decide)]
    omega
  rw [List.length_map, List.length_range, smul_eq_mul] at hdigits
  rw [length_rowNumbers, patternBufSize]
  unfold randNumSize at *
  omega

theorem fgets_rowText (hrow : ∀ j, row j < 2 ^ 31) (rest : List UInt8) :
    fgets patternBufSize (rowText row ++ rest) = some (rowText row, rest) := by
  have htext : rowText row ++ rest = rowNumbers row ++ newline :: rest := by
    rw [rowText, List.append_assoc, List.singleton_append]
  have hne : rowNumbers row ++ newline :: rest ≠ [] := by simp
  rw [htext, fgets, if_neg hne, takeLine_append newline_not_mem_rowNumbers (length_rowNumbers_lt hrow)]
  rfl

end Line

/-! ## The file -/

section File

variable {env env' : PatternEnv} {n n' : Nat} {randArray : RandArray}

/-- The number of digits in the file. -/
def digitCount (randArray : RandArray) : Nat :=
  ((List.range randArrayNum).map fun i => rowDigits (randArray i)).sum

theorem length_writtenPattern (rand : Nat → Nat → Fin (2 ^ 31)) : (writtenPattern rand).length =
    digitCount (fun i j => (rand i j).val) + randArrayNum * (randNumSize + 1) := by
  rw [writtenPattern_eq, List.length_flatMap]
  simp only [rowText, List.length_append, List.length_singleton, length_rowNumbers, Nat.add_assoc]
  rw [List.sum_map_add, List.map_const', List.length_range, List.sum_replicate, smul_eq_mul, digitCount]

-- Row by row the reading loop puts back what was written.
theorem readRandArray_written {readError : Nat → Option Errno} (hread : ∀ i, readError i = none)
    (errno : Option Errno) (hrand : ∀ i j, randArray i j < 2 ^ 31) (count i : Nat) (before : RandArray) :
    ∃ after, readRandArray readError errno count i
        ((List.range' i count).flatMap fun i => rowText (randArray i)) before = .ok after ∧
      (∀ k < i, after k = before k) ∧
      ∀ k, i ≤ k → k < i + count → ∀ j < randNumSize, after k j = randArray k j := by
  induction count generalizing i before with
  | zero => exact ⟨before, rfl, fun k _ => rfl, fun k hi hk => absurd hk (by omega)⟩
  | succ count ih =>
      obtain ⟨after, hrun, hframe, hrows⟩ :=
        ih (i + 1) (Function.update before i (randRow (rowText (randArray i))))
      refine ⟨after, ?_, ?_, ?_⟩
      · rw [List.range'_succ, List.flatMap_cons, readRandArray, hread]
        simp only [fgets_rowText (hrand i)]
        exact hrun
      · intro k hk
        rw [hframe k (by omega), Function.update_of_ne (by omega)]
      · intro k hi hk j hj
        rcases hi.lt_or_eq with hlt | rfl
        · exact hrows k hlt (by omega) j hj
        · rw [hframe i (by omega), Function.update_self]
          exact randRow_rowText (hrand i) hj

theorem randomPatternArray_written (hquiet : env.Quiet n) (errno : Option Errno) :
    randomPatternArray env n ⟨none, errno⟩ =
      .ok (⟨some (writtenPattern (env.rand n)), some enoent⟩, generatedArray env n) := by
  rw [randomPatternArray]
  simp only [hquiet.access, generatePattern, hquiet.openWrite, hquiet.write]
  rfl

theorem randomPatternArray_refused (hquiet : env.Quiet n) {content : List UInt8}
    (hshort : content.length < patternMinSize) (errno : Option Errno) :
    randomPatternArray env n ⟨some content, errno⟩ = .error errReadRandPattern := by
  rw [randomPatternArray]
  simp only [hquiet.access, loadRandArray, hquiet.stat, if_pos hshort]
  rfl

theorem randomPatternArray_read (hquiet : env.Quiet n) (rand : Nat → Nat → Fin (2 ^ 31))
    (hlong : patternMinSize ≤ (writtenPattern rand).length) (errno : Option Errno) :
    ∃ s after, randomPatternArray env n ⟨some (writtenPattern rand), errno⟩ = .ok (s, after) ∧
      ∀ i < randArrayNum, ∀ j < randNumSize, after i j = (rand i j).val := by
  have hrand : ∀ i j, (fun i j => (rand i j).val) i j < 2 ^ 31 := fun i j => (rand i j).isLt
  obtain ⟨after, hrun, -, hrows⟩ := readRandArray_written hquiet.fgets errno hrand randArrayNum 0
    fun _ _ => 0
  refine ⟨⟨some (writtenPattern rand), errno⟩, after, ?_, ?_⟩
  · rw [← List.range_eq_range', ← writtenPattern_eq] at hrun
    rw [randomPatternArray]
    simp only [hquiet.access, loadRandArray, hquiet.stat, if_neg (Nat.not_lt.mpr hlong),
      hquiet.openRead, hrun]
    rfl
  · exact fun i hi j hj => hrows i (Nat.zero_le i) (by omega) j hj

end File

-- The file is taken and read back right exactly if its text is as long as the array.
theorem roundTrip_iff (env env' : PatternEnv) (n n' : Nat) (errno errno' : Option Errno)
    (hwrite : env.Quiet n) (hread : env'.Quiet n') : RoundTrip env env' n n' errno errno' ↔
      patternMinSize ≤ digitCount (generatedArray env n) + randArrayNum * (randNumSize + 1) := by
  have hlen : (writtenPattern (env.rand n)).length =
      digitCount (generatedArray env n) + randArrayNum * (randNumSize + 1) := length_writtenPattern _
  rw [RoundTrip, randomPatternArray_written hwrite, ← hlen]
  constructor
  · rintro ⟨s, s', randArray, randArray', hfirst, hnext, -⟩
    obtain ⟨rfl, -⟩ := Prod.mk.inj (Except.ok.inj hfirst)
    by_contra hshort
    rw [randomPatternArray_refused hread (Nat.not_le.mp hshort)] at hnext
    cases hnext
  · intro hlong
    obtain ⟨s', after, hnext, hrows⟩ := randomPatternArray_read hread (env.rand n) hlong errno'
    exact ⟨_, s', _, after, rfl, hnext, hrows⟩

/-- Every call succeeds and `rand` always returns the same number. -/
def sameNumber (x : Fin (2 ^ 31)) : PatternEnv :=
  ⟨fun _ => none, fun _ => none, fun _ => none, fun _ _ => none, fun _ => none, fun _ _ _ => x,
    fun _ => none⟩

theorem sameNumber_quiet (x : Fin (2 ^ 31)) (n : Nat) : (sameNumber x).Quiet n :=
  ⟨rfl, rfl, rfl, fun _ => rfl, rfl, rfl⟩

theorem digitCount_sameNumber (x : Fin (2 ^ 31)) (n : Nat) :
    digitCount (generatedArray (sameNumber x) n) =
      randArrayNum * (randNumSize * (decimal x.val).length) := by
  rw [digitCount]
  simp only [rowDigits, generatedArray, sameNumber, List.map_const', List.length_range,
    List.sum_replicate, smul_eq_mul]

theorem roundTrip_thousand : RoundTrip (sameNumber 1000) (sameNumber 0) 0 0 none none := by
  refine (roundTrip_iff _ _ _ _ _ _ (sameNumber_quiet _ _) (sameNumber_quiet _ _)).mpr ?_
  rw [digitCount_sameNumber, show (decimal (1000 : Fin (2 ^ 31)).val).length = 4 from rfl, patternMinSize]
  unfold randArrayNum randNumSize
  omega

-- An array of zeros is written to 262272 bytes, and refused.
theorem roundTrip_zeros : ¬ RoundTrip (sameNumber 0) (sameNumber 0) 0 0 none none := by
  rintro ⟨s, s', randArray, randArray', hfirst, hnext, -⟩
  rw [randomPatternArray_written (sameNumber_quiet _ _)] at hfirst
  obtain ⟨rfl, -⟩ := Prod.mk.inj (Except.ok.inj hfirst)
  have hshort : (writtenPattern ((sameNumber 0).rand 0)).length < patternMinSize := by
    have hdigits : digitCount (fun i j => ((sameNumber 0).rand 0 i j).val) = _ :=
      digitCount_sameNumber 0 0
    rw [length_writtenPattern, hdigits, show (decimal (0 : Fin (2 ^ 31)).val).length = 1 from rfl,
      patternMinSize]
    unfold randArrayNum randNumSize
    omega
  rw [randomPatternArray_refused (sameNumber_quiet _ _) hshort] at hnext
  cases hnext

end MoBoMemory.App
