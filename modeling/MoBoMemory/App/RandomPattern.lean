import Mathlib.Algebra.Order.Ring.Int
import Mathlib.Data.List.Basic

/-!
# The random-pattern stage

Before it tests anything, `read_write_test` loads (or generates) the numbers of the random-address
test, once for every time the item is on the list.  The numbers themselves go to `rand_array`, which
`read_write_test` does not look at; what matters here is how the stage ends.  Result: exactly when it
gives up with the code 0.
-/

namespace MoBoMemory.App

def errReadRandPattern : UInt32 := 0xA000000e
def memRandomAddress : Int := 2
def randArrayNum : Nat := 128
def randNumSize : Nat := 1024
/-- `sizeof(buf)`. -/
def patternBufSize : Nat := randNumSize * 8 * 2
/-- `sizeof(unsigned int) * RAND_ARRAY_NUM * RAND_NUM_SIZE`. -/
def patternMinSize : Nat := 4 * randArrayNum * randNumSize

def newline : UInt8 := 10
def comma : UInt8 := 44

/-- A value that a failing library call leaves in `errno`. -/
structure Errno where
  val : UInt32
  ne_zero : val ≠ 0
  le_max : val ≤ 133
deriving DecidableEq

attribute [simp] Errno.ne_zero

def enoent : Errno := ⟨2, by decide, by decide⟩

/-- What `return errno` returns; `none` is an `errno` that nothing has set. -/
def errnoValue : Option Errno → UInt32
  | none => 0
  | some e => e.val

/-- How the library calls for entry `n` of the item list end: `none` is success. -/
structure PatternEnv where
  /-- A reason for `access` to fail other than that the file is missing. -/
  access : Nat → Option Errno
  stat : Nat → Option Errno
  openRead : Nat → Option Errno
  /-- A read error in call `i` of `fgets`. -/
  fgets : Nat → Nat → Option Errno
  openWrite : Nat → Option Errno
  rand : Nat → Nat → Nat → Fin (2 ^ 31)
  /-- A failure in writing the new file, with what the file contains then. -/
  write : Nat → Option (Errno × List UInt8)

/-- `RAND_PATTERN` (`none` when it does not exist) and `errno`. -/
structure PatternState where
  file : Option (List UInt8)
  errno : Option Errno

/-- The line that `fgets` stores when it may take `n` bytes, and what is left in the file. -/
def takeLine : Nat → List UInt8 → List UInt8 × List UInt8
  | 0, s => ([], s)
  | _ + 1, [] => ([], [])
  | n + 1, c :: s =>
      if c = newline then ([c], s) else (c :: (takeLine n s).1, (takeLine n s).2)

/-- `fgets(buf, size, fp)`; `none` is NULL at the end of the file. -/
def fgets (size : Nat) (s : List UInt8) : Option (List UInt8 × List UInt8) :=
  if s = [] then none else some (takeLine (size - 1) s)

/-- The reading loop from turn `i` on, with `count` turns to go. -/
def readPattern (readError : Nat → Option Errno) (errno : Option Errno) :
    Nat → Nat → List UInt8 → Except UInt32 Unit
  | 0, _, _ => .ok ()
  | count + 1, i, s =>
      match readError i with
      | some e => .error e.val
      | none =>
          match fgets patternBufSize s with
          -- at the end of the file errno is whatever it was
          | none => .error (errnoValue errno)
          | some (_, rest) => readPattern readError errno count (i + 1) rest

/-- `%d` of a number that `rand` returned. -/
def decimal (x : Nat) : List UInt8 := (Nat.toDigits 10 x).map fun c => c.val.toUInt8

def writtenPattern (rand : Nat → Nat → Fin (2 ^ 31)) : List UInt8 :=
  (List.range randArrayNum).flatMap fun i =>
    ((List.range randNumSize).flatMap fun j => decimal (rand i j).val ++ [comma]) ++ [newline]

def loadPattern (env : PatternEnv) (n : Nat) (content : List UInt8) (s : PatternState) :
    Except UInt32 PatternState :=
  match env.stat n with
  | some e => .error e.val
  | none =>
      if content.length < patternMinSize then .error errReadRandPattern
      else
        match env.openRead n with
        | some e => .error e.val
        | none => (readPattern (env.fgets n) s.errno randArrayNum 0 content).map fun _ => s

def generatePattern (env : PatternEnv) (n : Nat) (s : PatternState) : Except UInt32 PatternState :=
  match env.openWrite n with
  | some e => .error e.val
  | none =>
      match env.write n with
      | none => .ok { s with file := some (writtenPattern (env.rand n)) }
      -- the results of fprintf and fclose are not looked at
      | some (e, content) => .ok ⟨some content, some e⟩

/-- The stage for entry `n` of the item list. -/
def randomPattern (env : PatternEnv) (n : Nat) (s : PatternState) : Except UInt32 PatternState :=
  match env.access n, s.file with
  | none, some content => loadPattern env n content s
  | none, none => generatePattern env n { s with errno := some enoent }
  | some e, _ => generatePattern env n { s with errno := some e }

def patternStep (env : PatternEnv) (s : PatternState) (entry : Int × Nat) :
    Except UInt32 PatternState :=
  if entry.1 = memRandomAddress then randomPattern env entry.2 s else .ok s

def patternStage (env : PatternEnv) (items : List Int) (s : PatternState) :
    Except UInt32 PatternState :=
  items.zipIdx.foldlM (patternStep env) s

/-! ## The end of the file -/

/-- The file without its first `d` lines, as `fgets` counts them. -/
def dropLines : Nat → List UInt8 → List UInt8
  | 0, s => s
  | d + 1, s => dropLines d (takeLine (patternBufSize - 1) s).2

theorem takeLine_nil (n : Nat) : takeLine n [] = ([], []) := by
  cases n <;> rfl

-- Without newlines every call of `fgets` fills the buffer.
theorem dropLines_replicate {c : UInt8} (hc : c ≠ newline) (d len : Nat) :
    dropLines d (List.replicate len c) = List.replicate (len - d * (patternBufSize - 1)) c := by
  have htake : ∀ n len, (takeLine n (List.replicate len c)).2 = List.replicate (len - n) c := by
    intro n
    induction n with
    | zero => exact fun _ => rfl
    | succ n ih =>
        intro len
        cases len with
        | zero => rw [List.replicate_zero, takeLine_nil, Nat.zero_sub, List.replicate_zero]
        | succ len =>
            rw [List.replicate_succ, takeLine, if_neg hc, Nat.succ_sub_succ]
            exact ih len
  induction d generalizing len with
  | zero => rw [Nat.zero_mul]; rfl
  | succ d ih =>
      have hlen : ∀ w, len - w - d * w = len - (d + 1) * w := by
        intro w
        rw [Nat.succ_mul]
        omega
      rw [dropLines, htake, ih, hlen]

/-- The file ends before the `count` lines are read, and no read error comes first. -/
def EndsEarly (readError : Nat → Option Errno) (count : Nat) (s : List UInt8) : Prop :=
  ∃ d < count, (∀ i ≤ d, readError i = none) ∧ dropLines d s = []

theorem endsEarly_succ {readError : Nat → Option Errno} {count : Nat} {s : List UInt8} :
    EndsEarly readError (count + 1) s ↔ readError 0 = none ∧
      (s = [] ∨ EndsEarly (fun i => readError (i + 1)) count (takeLine (patternBufSize - 1) s).2) := by
  constructor
  · intro h
    obtain ⟨d, hd, hreads, hend⟩ := h
    refine ⟨hreads 0 (by omega), ?_⟩
    cases d with
    | zero => exact Or.inl hend
    | succ d =>
        right
        exact ⟨d, by omega, fun i hi => hreads (i + 1) (by omega), by rwa [← dropLines]⟩
  · intro h
    obtain ⟨hfirst, hend⟩ := h
    rcases hend with hnil | hrest
    · refine ⟨0, by omega, fun i hi => ?_, hnil⟩
      rw [Nat.le_zero.mp hi]
      exact hfirst
    · obtain ⟨d, hd, hreads, hend⟩ := hrest
      refine ⟨d + 1, by omega, fun i hi => ?_, by rwa [dropLines]⟩
      cases i with
      | zero => exact hfirst
      | succ i => exact hreads i (by omega)

theorem errnoValue_eq_zero {errno : Option Errno} : errnoValue errno = 0 ↔ errno = none := by
  cases errno with
  | none => simp [errnoValue]
  | some e => simp [errnoValue]

theorem error_val_ne_zero {α : Type*} {e : Errno} :
    ¬ (Except.error e.val : Except UInt32 α) = .error 0 := by
  intro h
  exact e.ne_zero (Except.error.inj h)

-- The reading loop answers 0 exactly for a file that ends early while `errno` is 0.
theorem readPattern_eq_error_zero {readError : Nat → Option Errno} {errno : Option Errno}
    {count i : Nat} {s : List UInt8} : readPattern readError errno count i s = .error 0 ↔
      errno = none ∧ EndsEarly (fun k => readError (i + k)) count s := by
  induction count generalizing i s with
  | zero =>
      constructor
      · intro h
        cases h
      · intro h
        obtain ⟨-, d, hd, -⟩ := h
        omega
  | succ count ih =>
      rw [readPattern, endsEarly_succ, Nat.add_zero]
      cases hread : readError i with
      | some e => simp
      | none =>
          by_cases hnil : s = []
          · simp [fgets, hnil, errnoValue_eq_zero]
          · have hshift : (fun k => readError (i + (k + 1))) = fun k => readError (i + 1 + k) := by
              funext k
              rw [Nat.add_comm k, Nat.add_assoc]
            simp only [fgets, hnil, false_or, true_and, hshift]
            exact ih

/-! ## The stage -/

/-- The numbers can be read to the last line, or a failure would leave a trace in `errno`. -/
def PatternState.Complete (s : PatternState) : Prop :=
  s.errno ≠ none ∨ ∃ content, s.file = some content ∧ ∀ d < randArrayNum, dropLines d content ≠ []

/-- The library calls for entry `n` lead to the reading loop, and the file is too short for it. -/
def PatternState.CutShort (env : PatternEnv) (n : Nat) (s : PatternState) : Prop :=
  s.errno = none ∧ env.access n = none ∧ ∃ content, s.file = some content ∧ env.stat n = none ∧
    patternMinSize ≤ content.length ∧ env.openRead n = none ∧
    EndsEarly (env.fgets n) randArrayNum content

section Stage

variable {env : PatternEnv} {n : Nat} {s s' : PatternState}

theorem map_eq_error_iff {ε α β : Type*} {f : α → β} {x : Except ε α} {e : ε} :
    x.map f = .error e ↔ x = .error e := by
  cases x <;> simp [Except.map]

theorem generatePattern_ne_error_zero : generatePattern env n s ≠ .error 0 := by
  unfold generatePattern
  split
  · exact error_val_ne_zero
  · split <;> exact fun h => nomatch h

theorem randomPattern_eq_error_zero : randomPattern env n s = .error 0 ↔ s.CutShort env n := by
  unfold randomPattern PatternState.CutShort
  cases haccess : env.access n with
  | some e => simp [generatePattern_ne_error_zero]
  | none =>
      cases hfile : s.file with
      | none => simp [generatePattern_ne_error_zero]
      | some content =>
          simp only [loadPattern, true_and, Option.some.injEq, exists_eq_left']
          cases hstat : env.stat n with
          | some e => simp
          | none =>
              by_cases hsize : content.length < patternMinSize
              · simp [if_pos hsize, Nat.not_le.mpr hsize, errReadRandPattern]
              · cases hopen : env.openRead n with
                | some e => simp [if_neg hsize]
                | none =>
                    simp only [if_neg hsize, map_eq_error_iff, readPattern_eq_error_zero,
                      Nat.zero_add, Nat.not_lt.mp hsize, true_and]

-- A reading loop that ends well has found a line at each turn.
theorem dropLines_ne_nil_of_ok {readError : Nat → Option Errno} {errno : Option Errno} {count i : Nat}
    {content : List UInt8} (hok : readPattern readError errno count i content = .ok ()) :
    ∀ d < count, dropLines d content ≠ [] := by
  induction count generalizing i content with
  | zero => exact fun d hd => absurd hd (Nat.not_lt_zero d)
  | succ count ih =>
      rw [readPattern] at hok
      cases hread : readError i with
      | some e => simp [hread] at hok
      | none =>
          by_cases hnil : content = []
          · simp [hread, fgets, hnil] at hok
          · simp only [hread, fgets, if_neg hnil] at hok
            intro d hd
            cases d with
            | zero => exact hnil
            | succ d =>
                rw [dropLines]
                exact ih hok d (by omega)

theorem generatePattern_complete (herrno : s.errno ≠ none) (hok : generatePattern env n s = .ok s') :
    s'.Complete := by
  unfold generatePattern at hok
  split at hok
  · cases hok
  · split at hok
    · obtain rfl := Except.ok.inj hok
      exact Or.inl herrno
    · obtain rfl := Except.ok.inj hok
      exact Or.inl (by simp)

-- After one successful turn of the stage no later turn can run into the end of the file unseen.
theorem randomPattern_complete (hok : randomPattern env n s = .ok s') : s'.Complete := by
  unfold randomPattern at hok
  split at hok
  · next content haccess hfile =>
      unfold loadPattern at hok
      split at hok
      · cases hok
      split at hok
      · cases hok
      split at hok
      · cases hok
      cases hread : readPattern (env.fgets n) s.errno randArrayNum 0 content with
      | error e => simp [hread, Except.map] at hok
      | ok u =>
          rw [hread] at hok
          obtain rfl := Except.ok.inj hok
          exact Or.inr ⟨content, hfile, dropLines_ne_nil_of_ok hread⟩
  · exact generatePattern_complete (by simp) hok
  · exact generatePattern_complete (by simp) hok

theorem PatternState.Complete.not_cutShort (h : s.Complete) : ¬ s.CutShort env n := by
  intro hcut
  obtain ⟨herrno, -, content, hfile, -, -, -, d, hd, -, hend⟩ := hcut
  rcases h with h | ⟨content', hfile', hlines⟩
  · exact h herrno
  · rw [hfile] at hfile'
    obtain rfl := Option.some.inj hfile'
    exact hlines d hd hend

variable (env) in
theorem patternStage_of_complete (entries : List (Int × Nat)) (hs : s.Complete) :
    entries.foldlM (patternStep env) s ≠ .error 0 := by
  induction entries generalizing s with
  | nil => exact fun h => nomatch h
  | cons entry entries ih =>
      rw [List.foldlM_cons, patternStep]
      by_cases hitem : entry.1 = memRandomAddress
      · rw [if_pos hitem]
        cases hstep : randomPattern env entry.2 s with
        | error e =>
            intro h
            have hzero : e = 0 := Except.error.inj h
            rw [hzero, randomPattern_eq_error_zero] at hstep
            exact hs.not_cutShort hstep
        | ok s' => exact ih (randomPattern_complete hstep)
      · rw [if_neg hitem]
        exact ih hs

/-- The first entry of the list that asks for the random-address test. -/
def firstRandom (items : List Int) : Option Nat := items.findIdx? (· = memRandomAddress)

/-- The stage gives up with the code 0 exactly when its first turn does. -/
theorem patternStage_eq_error_zero {items : List Int} :
    patternStage env items s = .error 0 ↔
      ∃ n, firstRandom items = some n ∧ s.CutShort env n := by
  -- induction on the list, at any starting index
  have hgeneral : ∀ k, (items.zipIdx k).foldlM (patternStep env) s = .error 0 ↔
      ∃ n, firstRandom items = some n ∧ s.CutShort env (k + n) := by
    induction items with
    | nil => simp [firstRandom, pure, Except.pure]
    | cons item items ih =>
        intro k
        rw [List.zipIdx_cons, List.foldlM_cons, patternStep]
        by_cases hitem : item = memRandomAddress
        · have hfirst : firstRandom (item :: items) = some 0 := by
            simp [firstRandom, List.findIdx?_cons, hitem]
          simp only [if_pos hitem, hfirst, Option.some.injEq, exists_eq_left', Nat.add_zero,
            ← randomPattern_eq_error_zero]
          -- the first turn decides: a later one cannot meet the end of the file unseen
          cases hstep : randomPattern env k s with
          | error e => simp [bind, Except.bind]
          | ok s' =>
              have hrest := patternStage_of_complete env (items.zipIdx (k + 1))
                (randomPattern_complete hstep)
              simpa [bind, Except.bind] using hrest
        · have hfirst : firstRandom (item :: items) = (firstRandom items).map (· + 1) := by
            simp [firstRandom, List.findIdx?_cons, hitem]
          rw [if_neg hitem, hfirst]
          show (items.zipIdx (k + 1)).foldlM (patternStep env) s = .error 0 ↔ _
          rw [ih (k + 1)]
          simp only [Option.map_eq_some_iff]
          constructor
          · intro h
            obtain ⟨n, hn, hcut⟩ := h
            exact ⟨n + 1, ⟨n, hn, rfl⟩, by rwa [← Nat.add_assoc, Nat.add_right_comm]⟩
          · intro h
            obtain ⟨_, ⟨n, hn, rfl⟩, hcut⟩ := h
            exact ⟨n, hn, by rwa [Nat.add_right_comm, Nat.add_assoc]⟩
  simpa [patternStage] using hgeneral 0

/-! ## The codes the stage gives up with -/

def PatternCode (code : UInt32) : Prop :=
  code = errReadRandPattern ∨ ∃ errno, code = errnoValue errno

theorem readPattern_code {readError : Nat → Option Errno} {errno : Option Errno} {count i : Nat}
    {content : List UInt8} {code : UInt32}
    (h : readPattern readError errno count i content = .error code) :
    ∃ errno, code = errnoValue errno := by
  induction count generalizing i content with
  | zero => cases h
  | succ count ih =>
      rw [readPattern] at h
      split at h
      · next e _ => exact ⟨some e, (Except.error.inj h).symm⟩
      · split at h
        · exact ⟨errno, (Except.error.inj h).symm⟩
        · exact ih h

theorem generatePattern_code {code : UInt32} (h : generatePattern env n s = .error code) :
    PatternCode code := by
  unfold generatePattern at h
  split at h
  · next e _ => exact Or.inr ⟨some e, (Except.error.inj h).symm⟩
  · split at h <;> cases h

theorem loadPattern_code {content : List UInt8} {code : UInt32}
    (h : loadPattern env n content s = .error code) : PatternCode code := by
  unfold loadPattern at h
  split at h
  · next e _ => exact Or.inr ⟨some e, (Except.error.inj h).symm⟩
  split at h
  · exact Or.inl (Except.error.inj h).symm
  split at h
  · next e _ => exact Or.inr ⟨some e, (Except.error.inj h).symm⟩
  · exact Or.inr (readPattern_code (map_eq_error_iff.mp h))

theorem randomPattern_code {code : UInt32} (h : randomPattern env n s = .error code) :
    PatternCode code := by
  unfold randomPattern at h
  split at h
  · exact loadPattern_code h
  · exact generatePattern_code h
  · exact generatePattern_code h

theorem patternStage_code {items : List Int} {code : UInt32}
    (h : patternStage env items s = .error code) : PatternCode code := by
  unfold patternStage at h
  generalize items.zipIdx = entries at h
  induction entries generalizing s with
  | nil => cases h
  | cons entry entries ih =>
      rw [List.foldlM_cons, patternStep] at h
      split at h
      · cases hstep : randomPattern env entry.2 s with
        | error e =>
            rw [hstep] at h
            have hcode : e = code := Except.error.inj h
            exact randomPattern_code (hcode ▸ hstep)
        | ok s' =>
            rw [hstep] at h
            exact ih h
      · exact ih h

end Stage

end MoBoMemory.App
