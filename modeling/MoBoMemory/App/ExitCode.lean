import MoBoMemory.App.NoFalsePass

/-!
# From a failing thread to the exit status

A failure code of a thread passes through `exit` and `waitpid` of the test child, the offset in
`module_test`, the table in `return_cli_error_code` and the exit status of `main`.  The runs here are
those without machine-check events in which fork, wait and kill succeed.  Results: the exit status is
0 exactly when nothing failed, failures of different test functions have different CLI codes, and
exactly which last failures have no CLI code.
-/

namespace MoBoMemory.App

open Base

/-- The code with which a test function reports a mismatch. -/
def TestFunction.error : TestFunction → UInt32
  | .addrWalkOnes => 0x10200010
  | .addrWalkOwn => 0x10200011
  | .cacheRandaddr => 0x10100026
  | .movinv10 => 0x10200012
  | .movinv8bit => 0x10200013
  | .movinvRandom => 0x10200014
  | .blockMove => 0x10200015
  | .movinvLong => 0x10200016
  | .randomNumSequence => 0x10200017
  | .memModulo => 0x10200018
  | .marchC => 0x1020001A
  | .bitFade => 0x10200019

def codeMap : List (UInt32 × Int) := [
  (0xA0000001, 1), (0xA0000002, 502), (0xA0000003, 22), (0xA0000004, 504), (0xA0000005, 505),
  (0xA0000006, 6), (0xA0000007, 507), (0xA0000008, 508), (0xA0000009, 509), (0xA000000a, 510),
  (0xA000000b, 511), (0xA000000c, 512), (0xA000000d, 513), (0xA000000e, 514), (0xA000000f, 515),
  (0xA1000010, 520), (0xA1000011, 521), (0xA1000012, 522), (0xA1000013, 523), (0xA1000014, 524),
  (0xA1000015, 525), (0xA1000016, 526), (0xA1000017, 527), (0xA1000018, 528), (0xA1000019, 529),
  (0xA1000020, 530), (0xA1000021, 531), (0xA1000022, 532), (0xA1000023, 533), (0xA1000024, 534),
  (0xA1000025, 535), (0xA1000026, 536), (0xA100000a, 537), (0xAAAAAAAA, 555), (0xffffffff, -1)]

/-- `return_cli_error_code`; the search stops in front of the entry with the CLI code -1. -/
def returnCliErrorCode (errorCode : UInt32) : Int :=
  if 0xA0000000 ≤ errorCode then
    match (codeMap.takeWhile fun e => e.2 ≠ -1).find? fun e => e.1 = errorCode with
    | some e => e.2
    | none => -1
  else errorCode.toInt32.toInt

/-- The status that `waitpid` stores after `exit(code)`. -/
def exitStatus (code : UInt32) : UInt32 := code % 256 * 256

/-- `pr_exit`, with the masks of the `sys/wait.h` macros as remainders. -/
def prExit (status : UInt32) : UInt32 :=
  if status % 128 = 0 then status / 256 % 256
  else if status % 128 ≠ 127 then 1
  else if status % 256 = 127 then 1
  else status

/-- `read_only_test`, for the errno with which the mapping of each range fails. -/
def readOnlyTest (mode : TestMode) (bind : Bool) (mmap : List (Option Errno)) : UInt32 :=
  if mode = .specific ∧ bind = false then errBindCpu
  else
    match mmap.findSome? id with
    | some e => e.val
    | none => 0

/-- What the parts of a run return: the two lists that were chosen, how the read-only test fares
with each of its ranges, and what happens to the threads of the read/write test. -/
structure TestRun where
  mode : TestMode
  bindReadOnly : Bool
  rdList : List (RDRange × Option Errno)
  env : RWEnv
  pattern : PatternState
  noComp : Int
  testItem : List Int
  rwList : List SlicedRange
  fits : FitsTables rwList
  ownError : ∀ n j k f, (env.round n j).testRet k f = 0 ∨ (env.round n j).testRet k f = f.error
  noStaleJoin : ∀ n j k, (env.round n j).staleJoin k = none

theorem readWriteTest_isSome {env : RWEnv} {pattern : PatternState} {noComp : Int}
    {testItem : List Int} {rwList : List SlicedRange} (hfits : FitsTables rwList) :
    (readWriteTest env pattern noComp testItem rwList).isSome := by
  cases hpattern : patternStage env.pattern (testItems testItem) pattern with
  | error code => rw [readWriteTest_gaveUp hfits hpattern]; rfl
  | ok pattern' => rw [readWriteTest_tested hfits hpattern]; rfl

namespace TestRun

variable (run : TestRun)

/-- `RD_empty`, which counts the read-only ranges that are not empty. -/
def rdEmpty : Nat := run.rdList.countP fun r => r.1.start ≠ r.1.stop

def rwEmpty : Nat := run.rwList.countP fun r => r.range.start ≠ r.range.stop

def readOnlyCode : UInt32 :=
  if run.rdEmpty = 0 then 0 else readOnlyTest run.mode run.bindReadOnly (run.rdList.map Prod.snd)

/-- The read/write test as it goes if the test child comes to it. -/
def readWrite : RWResult :=
  (readWriteTest run.env run.pattern run.noComp run.testItem run.rwList).get
    (readWriteTest_isSome run.fits)

/-- What the test child exits with, and what its threads did. -/
def testChild : RWResult :=
  if run.readOnlyCode ≠ 0 then ⟨run.readOnlyCode, []⟩
  else if run.rwEmpty = 0 then ⟨0, []⟩
  else run.readWrite

def moduleTest : UInt32 :=
  let retFlag := prExit (exitStatus run.testChild.ret)
  if retFlag ≠ 0 then retFlag + 0xA1000000 else 0

def cliCode : Int := returnCliErrorCode run.moduleTest

/-- The exit status of `main`: `close_module` always succeeds, so success stays 0. -/
def shellStatus : Nat := (run.cliCode % 256).toNat

/-! ## The property -/

def AllSucceeded : Prop :=
  run.readOnlyCode = 0 ∧
    (run.rwEmpty ≠ 0 → run.readWrite.ret = 0 ∧ ∀ e ∈ run.readWrite.trace, e.code = 0)

/-- Some thread of the run reported a mismatch found by `f`. -/
def Failed (f : TestFunction) : Prop :=
  ∃ slot info ret, .joined slot info (.tested f ret) ∈ run.testChild.trace ∧ ret ≠ 0

/-- Mismatches found by `f` are the only failures of the run. -/
def OnlyFailed (f : TestFunction) : Prop :=
  run.Failed f ∧ ∀ e ∈ run.testChild.trace, e.code ≠ 0 →
    ∃ slot info ret, e = .joined slot info (.tested f ret)

structure FailureSurvives : Prop where
  status : run.shellStatus = 0 ↔ run.AllSucceeded
  found : (∃ f, run.Failed f) → run.cliCode ≠ -1
  distinct : ∀ (run' : TestRun) f f', f ≠ f' → run.OnlyFailed f → run'.OnlyFailed f' →
    run.cliCode ≠ run'.cliCode

/-! ## The codes along the way -/

/-- The CLI code for a test child that exits with `code`. -/
def childCli (code : UInt32) : Int :=
  let retFlag := prExit (exitStatus code)
  returnCliErrorCode (if retFlag ≠ 0 then retFlag + 0xA1000000 else 0)

theorem cliCode_eq : run.cliCode = childCli run.testChild.ret := rfl

theorem prExit_exitStatus (code : UInt32) : prExit (exitStatus code) = code % 256 := by
  have hbyte : (code % 256).toNat = code.toNat % 256 := by simp
  have hstatus : (exitStatus code).toNat = code.toNat % 256 * 256 := by
    rw [exitStatus, UInt32.toNat_mul, hbyte]
    simp only [UInt32.reduceToNat]
    omega
  have hexited : exitStatus code % 128 = 0 := by
    apply UInt32.toNat_inj.mp
    rw [UInt32.toNat_mod, hstatus]
    simp only [UInt32.reduceToNat]
    omega
  rw [prExit, if_pos hexited]
  apply UInt32.toNat_inj.mp
  rw [UInt32.toNat_mod, UInt32.toNat_div, hstatus, hbyte]
  simp only [UInt32.reduceToNat]
  omega

theorem codeMap_offset : ∀ e ∈ codeMap, 0xA1000000 ≤ e.1 → e.2 % 256 ≠ 0 := by decide

-- Every code whose low byte is not 0 ends in a CLI code that the shell can see.
theorem childCli_mod {code : UInt32} (hbyte : code % 256 ≠ 0) : childCli code % 256 ≠ 0 := by
  have hoffset : 0xA1000000 ≤ code % 256 + 0xA1000000 := by
    rw [UInt32.le_iff_toNat_le, UInt32.toNat_add, UInt32.toNat_mod]
    simp only [UInt32.reduceToNat]
    omega
  have hlarge : 0xA0000000 ≤ code % 256 + 0xA1000000 := by
    rw [UInt32.le_iff_toNat_le] at hoffset ⊢
    exact le_trans (by decide) hoffset
  simp only [childCli, prExit_exitStatus, if_pos hbyte, returnCliErrorCode, if_pos hlarge]
  split
  · next e hfind =>
      have hcode : e.1 = code % 256 + 0xA1000000 := by simpa using List.find?_some hfind
      have hmem : e ∈ codeMap := (List.takeWhile_sublist _).mem (List.mem_of_find?_eq_some hfind)
      exact codeMap_offset e hmem (hcode ▸ hoffset)
  · decide

theorem childCli_zero : childCli 0 = 0 := by decide

/-- The CLI codes of the test functions; the entry for 0xA100001A is missing from `code_map`. -/
def functionCli : TestFunction → Int
  | .addrWalkOnes => 520
  | .addrWalkOwn => 521
  | .cacheRandaddr => 536
  | .movinv10 => 522
  | .movinv8bit => 523
  | .movinvRandom => 524
  | .blockMove => 525
  | .movinvLong => 526
  | .randomNumSequence => 527
  | .memModulo => 528
  | .marchC => -1
  | .bitFade => 529

theorem childCli_error (f : TestFunction) : childCli f.error = functionCli f := by
  cases f <;> decide

theorem functionCli_injective {f f' : TestFunction} (h : functionCli f = functionCli f') :
    f = f' := by
  cases f <;> cases f' <;> first | rfl | exact absurd h (by decide)

theorem error_mod (f : TestFunction) : f.error % 256 ≠ 0 := by
  cases f <;> decide

theorem errno_mod (e : Errno) : e.val % 256 ≠ 0 := by
  have hle : e.val.toNat ≤ 133 := UInt32.le_iff_toNat_le.mp e.le_max
  have hmod : e.val % 256 = e.val := by
    apply UInt32.toNat_inj.mp
    rw [UInt32.toNat_mod]
    exact Nat.mod_eq_of_lt (lt_of_le_of_lt hle (by decide))
  rw [hmod]
  exact e.ne_zero

/-! ## What the test child exits with -/

/-- The run comes to the rounds of the read/write test. -/
def Tests : Prop :=
  run.readOnlyCode = 0 ∧ run.rwEmpty ≠ 0 ∧
    ∃ pattern, patternStage run.env.pattern (testItems run.testItem) run.pattern = .ok pattern

def reports : List UInt32 :=
  runReports run.env.round run.noComp (testItems run.testItem) (sortedTable run.rwList)

def events : List ThreadEvent :=
  runEvents run.env.round run.noComp (testItems run.testItem) (sortedTable run.rwList)

variable {run}

theorem readWrite_eq {result : RWResult}
    (h : readWriteTest run.env run.pattern run.noComp run.testItem run.rwList = some result) :
    run.readWrite = result := by
  simp only [readWrite, h, Option.get_some]

theorem testChild_of_tests (h : run.Tests) :
    run.testChild = ⟨run.reports.foldl laterFailure 0, run.events⟩ := by
  obtain ⟨hreadOnly, hrw, pattern, hpattern⟩ := h
  rw [testChild, if_neg (not_not.mpr hreadOnly), if_neg hrw]
  exact readWrite_eq (readWriteTest_tested run.fits hpattern)

variable (run) in
theorem readOnlyCode_cases :
    run.readOnlyCode = 0 ∨ run.readOnlyCode = errBindCpu ∨ ∃ e : Errno, run.readOnlyCode = e.val := by
  unfold readOnlyCode readOnlyTest
  split
  · exact Or.inl rfl
  split
  · exact Or.inr (Or.inl rfl)
  split
  · next e _ => exact Or.inr (Or.inr ⟨e, rfl⟩)
  · exact Or.inl rfl

theorem readOnlyCode_mod (h : run.readOnlyCode ≠ 0) : run.readOnlyCode % 256 ≠ 0 := by
  rcases readOnlyCode_cases run with hzero | hbind | ⟨e, he⟩
  · exact absurd hzero h
  · rw [hbind]
    decide
  · rw [he]
    exact errno_mod e

theorem patternCode_mod {code : UInt32} (h : PatternCode code) : code = 0 ∨ code % 256 ≠ 0 := by
  rcases h with rfl | ⟨errno, rfl⟩
  · right
    decide
  · cases errno with
    | none => exact Or.inl rfl
    | some e => exact Or.inr (errno_mod e)

theorem testChild_of_not_tests (h : ¬ run.Tests) :
    run.testChild.trace = [] ∧ (run.testChild.ret = 0 ∨ run.testChild.ret % 256 ≠ 0) := by
  by_cases hreadOnly : run.readOnlyCode = 0
  · by_cases hrw : run.rwEmpty = 0
    · rw [testChild, if_neg (not_not.mpr hreadOnly), if_pos hrw]
      exact ⟨rfl, Or.inl rfl⟩
    · rw [testChild, if_neg (not_not.mpr hreadOnly), if_neg hrw]
      cases hpattern : patternStage run.env.pattern (testItems run.testItem) run.pattern with
      | error code =>
          rw [readWrite_eq (readWriteTest_gaveUp run.fits hpattern)]
          exact ⟨rfl, patternCode_mod (patternStage_code hpattern)⟩
      | ok pattern => exact absurd ⟨hreadOnly, hrw, pattern, hpattern⟩ h
  · rw [testChild, if_pos hreadOnly]
    exact ⟨rfl, Or.inr (readOnlyCode_mod hreadOnly)⟩

-- What the events of a run can be.
theorem event_cases {e : ThreadEvent} (he : e ∈ run.events) :
    e.code = 0 ∨ (∃ slot info, e = .notCreated slot info) ∨
      (∃ slot info, e = .joined slot info .bindFailed) ∨
      (∃ slot info, e = .joined slot info .wrongItem) ∨
      ∃ slot info f, e = .joined slot info (.tested f f.error) := by
  obtain ⟨item, hitem, he⟩ := List.mem_flatMap.mp he
  obtain ⟨r, hr, he⟩ := List.mem_flatMap.mp he
  obtain ⟨slot, hslot, he⟩ := mem_roundEvents.mp he
  rcases he with rfl | he
  · unfold createEvent
    split
    · exact Or.inl rfl
    · exact Or.inr (Or.inl ⟨_, _, rfl⟩)
  · unfold joinEvents at he
    split at he
    · rw [List.mem_singleton] at he
      subst he
      generalize houtcome : sliceOutcome _ _ _ slot = outcome
      unfold sliceOutcome runTestSlice at houtcome
      -- the branches of run_test_slice, innermost first
      split at houtcome
      · split at houtcome
        · split at houtcome
          · next f _ =>
              subst houtcome
              rcases run.ownError item.2 r.2 slot.2 f with hzero | herror
              · exact Or.inl hzero
              · rw [herror]
                exact Or.inr (Or.inr (Or.inr (Or.inr ⟨_, _, f, rfl⟩)))
          · subst houtcome
            exact Or.inr (Or.inr (Or.inr (Or.inl ⟨_, _, rfl⟩)))
        · subst houtcome
          exact Or.inl rfl
      · subst houtcome
        exact Or.inr (Or.inr (Or.inl ⟨_, _, rfl⟩))
    · cases he

/-- `c` is the last code of the list that is not 0. -/
def LastFailure (codes : List UInt32) (c : UInt32) : Prop :=
  ∃ pre post, codes = pre ++ c :: post ∧ c ≠ 0 ∧ ∀ d ∈ post, d = 0

theorem LastFailure.foldl_eq {codes : List UInt32} {c : UInt32} (h : LastFailure codes c)
    (ret : UInt32) : codes.foldl laterFailure ret = c := by
  obtain ⟨pre, post, rfl, hc, hpost⟩ := h
  have hkeep : post.foldl laterFailure c = c := by
    clear hc
    induction post with
    | nil => rfl
    | cons d post ih =>
        rw [List.foldl_cons, laterFailure, if_neg (not_not.mpr (hpost d (by simp)))]
        exact ih fun d hd => hpost d (by simp [hd])
  rw [List.foldl_append, List.foldl_cons, laterFailure, if_pos hc, hkeep]

theorem lastFailure_or_zero (codes : List UInt32) :
    (∀ c ∈ codes, c = 0) ∨ ∃ c, LastFailure codes c := by
  induction codes with
  | nil => exact Or.inl (by simp)
  | cons c codes ih =>
      rcases ih with hzero | ⟨d, pre, post, rfl, hd, hpost⟩
      · by_cases hc : c = 0
        · exact Or.inl (List.forall_mem_cons.mpr ⟨hc, hzero⟩)
        · exact Or.inr ⟨c, [], codes, rfl, hc, hzero⟩
      · exact Or.inr ⟨d, c :: pre, post, rfl, hd, hpost⟩

-- The last failure of a run is the failure of one of its events.
theorem LastFailure.exists_event {c : UInt32} (h : LastFailure run.reports c) :
    ∃ e ∈ run.events, e.code = c ∧ e.code ≠ 0 := by
  obtain ⟨pre, post, hreports, hc, -⟩ := h
  have hmem : c ∈ run.reports := by
    rw [hreports]
    simp
  obtain ⟨e, he, hcode⟩ := exists_event_of_runReport run.noStaleJoin hmem hc
  exact ⟨e, he, hcode, hcode ▸ hc⟩

theorem testChild_of_last (htests : run.Tests) {c : UInt32} (hlast : LastFailure run.reports c) :
    run.testChild.ret = c := by
  rw [testChild_of_tests htests]
  exact hlast.foldl_eq 0

-- A run in which something failed exits with the last failure.
theorem testChild_of_failure (htests : run.Tests) {e : ThreadEvent} (he : e ∈ run.events)
    (hfailed : e.code ≠ 0) : LastFailure run.reports run.testChild.ret := by
  rcases lastFailure_or_zero run.reports with hzero | ⟨c, hlast⟩
  · exact absurd (hzero _ (code_mem_runReports he)) hfailed
  · rwa [testChild_of_last htests hlast]

theorem tests_of_mem {e : ThreadEvent} (he : e ∈ run.testChild.trace) :
    run.Tests ∧ e ∈ run.events := by
  by_cases htests : run.Tests
  · rw [testChild_of_tests htests] at he
    exact ⟨htests, he⟩
  · rw [(testChild_of_not_tests htests).1] at he
    cases he

variable (run) in
theorem testChild_mod : run.testChild.ret = 0 ∨ run.testChild.ret % 256 ≠ 0 := by
  by_cases htests : run.Tests
  · rcases lastFailure_or_zero run.reports with hzero | ⟨c, hlast⟩
    · left
      rw [testChild_of_tests htests]
      exact foldl_laterFailure_eq_zero.mpr ⟨rfl, hzero⟩
    · obtain ⟨e, he, hcode, -⟩ := hlast.exists_event
      rw [testChild_of_last htests hlast, ← hcode]
      rcases event_cases he with h | ⟨_, _, rfl⟩ | ⟨_, _, rfl⟩ | ⟨_, _, rfl⟩ | ⟨_, _, f, rfl⟩
      · exact Or.inl h
      · exact Or.inr (show errCreateThread % 256 ≠ 0 by decide)
      · exact Or.inr (show errBindCpu % 256 ≠ 0 by decide)
      · exact Or.inr (show errTestItem % 256 ≠ 0 by decide)
      · exact Or.inr (error_mod f)
  · exact (testChild_of_not_tests htests).2

/-! ## The three parts of the property -/

theorem shellStatus_eq_zero : run.shellStatus = 0 ↔ run.testChild.ret = 0 := by
  rw [shellStatus, cliCode_eq]
  constructor
  · intro h
    rcases testChild_mod run with hzero | hbyte
    · exact hzero
    · exact absurd (show childCli run.testChild.ret % 256 = 0 by omega) (childCli_mod hbyte)
  · intro h
    rw [h, childCli_zero]
    rfl

theorem readWrite_codes (hzero : run.readWrite.ret = 0) :
    ∀ e ∈ run.readWrite.trace, e.code = 0 := by
  cases hpattern : patternStage run.env.pattern (testItems run.testItem) run.pattern with
  | error code =>
      rw [readWrite_eq (readWriteTest_gaveUp run.fits hpattern)]
      exact fun e he => nomatch he
  | ok pattern =>
      rw [readWrite_eq (readWriteTest_tested run.fits hpattern)] at hzero ⊢
      intro e he
      exact (foldl_laterFailure_eq_zero.mp hzero).2 _ (code_mem_runReports he)

theorem testChild_eq_zero : run.testChild.ret = 0 ↔ run.AllSucceeded := by
  unfold AllSucceeded
  by_cases hreadOnly : run.readOnlyCode = 0
  · by_cases hrw : run.rwEmpty = 0
    · rw [testChild, if_neg (not_not.mpr hreadOnly), if_pos hrw]
      simp [hreadOnly, hrw]
    · rw [testChild, if_neg (not_not.mpr hreadOnly), if_neg hrw]
      simp only [hreadOnly, hrw, ne_eq, not_false_eq_true, true_and, forall_true_left]
      exact ⟨fun h => ⟨h, readWrite_codes h⟩, fun h => h.1⟩
  · rw [testChild, if_pos hreadOnly]
    simp [hreadOnly]

theorem cliCode_of_onlyFailed {f : TestFunction} (h : run.OnlyFailed f) :
    run.cliCode = functionCli f := by
  obtain ⟨⟨slot, info, ret, he, hret⟩, honly⟩ := h
  obtain ⟨htests, he⟩ := tests_of_mem he
  obtain ⟨e, he, hcode, hne⟩ := (testChild_of_failure htests he hret).exists_event
  have htrace : run.testChild.trace = run.events := by rw [testChild_of_tests htests]
  obtain ⟨slot, info, ret, rfl⟩ := honly e (htrace ▸ he) hne
  have herror : ret = f.error := by
    rcases event_cases he with h | ⟨_, _, h⟩ | ⟨_, _, h⟩ | ⟨_, _, h⟩ | ⟨_, _, g, h⟩
    · exact absurd h hne
    · cases h
    · cases h
    · cases h
    · cases h
      rfl
  rw [cliCode_eq, ← hcode, show ThreadEvent.code _ = ret from rfl, herror, childCli_error]

/-- A test function failed, and the last failure of the run is one without an entry in `code_map`:
that of the March C test, a thread that could not be bound to its core, or an unknown item. -/
def Masked (run : TestRun) : Prop :=
  (∃ f, run.Failed f) ∧ ∃ c, LastFailure run.reports c ∧
    (c = TestFunction.marchC.error ∨ c = errBindCpu ∨ c = errTestItem)

theorem found_iff : ((∃ f, run.Failed f) → run.cliCode ≠ -1) ↔ ¬ run.Masked := by
  constructor
  · intro hfound hmasked
    obtain ⟨⟨f, hf⟩, c, hlast, hc⟩ := hmasked
    apply hfound ⟨f, hf⟩
    obtain ⟨slot, info, ret, he, -⟩ := hf
    rw [cliCode_eq, testChild_of_last (tests_of_mem he).1 hlast]
    rcases hc with rfl | rfl | rfl <;> decide
  · intro hunmasked hfailed
    obtain ⟨f, slot, info, ret, he, hret⟩ := id hfailed
    obtain ⟨htests, he⟩ := tests_of_mem he
    have hlast := testChild_of_failure htests he hret
    obtain ⟨e, he, hcode, hne⟩ := hlast.exists_event
    rw [cliCode_eq, ← hcode]
    rw [← hcode] at hlast
    -- the last failure is one of the events, so it is one of four kinds
    rcases event_cases he with h | ⟨_, _, rfl⟩ | ⟨_, _, rfl⟩ | ⟨_, _, rfl⟩ | ⟨_, _, g, rfl⟩
    · exact absurd h hne
    · show childCli errCreateThread ≠ -1
      decide
    · exact absurd ⟨hfailed, _, hlast, Or.inr (Or.inl rfl)⟩ hunmasked
    · exact absurd ⟨hfailed, _, hlast, Or.inr (Or.inr rfl)⟩ hunmasked
    · show childCli g.error ≠ -1
      rw [childCli_error]
      intro hlost
      obtain rfl : g = .marchC := functionCli_injective hlost
      exact hunmasked ⟨hfailed, _, hlast, Or.inl rfl⟩

/-- The failures of a run survive to the shell exactly when the last of them is not one of those
that `code_map` forgets. -/
theorem failureSurvives_iff (run : TestRun) : run.FailureSurvives ↔ ¬ run.Masked := by
  constructor
  · exact fun h => found_iff.mp h.found
  · intro h
    refine ⟨shellStatus_eq_zero.trans testChild_eq_zero, found_iff.mpr h, ?_⟩
    intro run' f f' hff' hf hf' hsame
    rw [cliCode_of_onlyFailed hf, cliCode_of_onlyFailed hf'] at hsame
    exact hff' (functionCli_injective hsame)

/-- The March C test finds a mismatch in every slice. -/
def marchRun : TestRun where
  mode := .locally
  bindReadOnly := true
  rdList := []
  env :=
    { pattern := quietEnv.pattern
      round := fun _ _ => ⟨fun _ => true, fun _ => true,
        fun _ f => if f = .marchC then f.error else 0, fun _ => none⟩ }
  pattern := ⟨none, none⟩
  noComp := 0
  testItem := [10, -1]
  rwList := twoMappingsSliced
  fits := by decide
  ownError := by
    intro _ _ _ f
    show (if f = .marchC then f.error else 0) = 0 ∨ _
    split
    · exact Or.inr (if_pos ‹_›)
    · exact Or.inl rfl
  noStaleJoin := fun _ _ _ => rfl

theorem marchRun_lost :
    marchRun.Failed .marchC ∧ marchRun.cliCode = -1 ∧ ¬ marchRun.FailureSurvives := by
  have hfailed : marchRun.Failed .marchC := by
    refine ⟨0, threadInfo 0 10 ⟨0x10000, 0x11000, 0⟩, TestFunction.marchC.error, ?_, by decide⟩
    decide
  have hcli : marchRun.cliCode = -1 := by decide
  exact ⟨hfailed, hcli, fun h => h.found ⟨_, hfailed⟩ hcli⟩

end TestRun

end MoBoMemory.App
