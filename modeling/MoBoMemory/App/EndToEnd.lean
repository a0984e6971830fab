import MoBoMemory.App.Execution
import MoBoMemory.App.ModuleTestRuns
import MoBoMemory.TestLib.OwnCodes

/-!
# From the memory to the exit status

The threads at work in the physical memory, the processes and their signals, and the codes that go from the
threads to the shell.  With a stuck bit in a selected page the program does not exit with 0, and on memory
without faults it does unless a machine check was told of or the read-only test has failed, whatever order
the accesses and the signals come in.
-/

namespace MoBoMemory.App

open Base Driver TestLib

/-- What a test function gives back is success or its own code, whatever the memory does. -/
theorem call_owns (env : ItemEnv) (thread : ThreadInfo) {f : TestFunction} (hf : f ≠ .bitFade) :
    ∃ err, UInt32.ofNat err = f.error ∧ Owns err (env.call thread f) := by
  cases f with
  | addrWalkOnes => exact ⟨_, by decide, testAddrWalkOnes_owns _ _ _⟩
  | addrWalkOwn => exact ⟨_, by decide, testAddrWalkOwn_owns _ _ _⟩
  | cacheRandaddr => exact ⟨_, by decide, testCacheRandaddr_owns _ _ _ _ _⟩
  | movinv10 => exact ⟨_, by decide, testMovinv10_owns _ _ _ _⟩
  | movinv8bit => exact ⟨_, by decide, movinv8bitRounds_owns _ _ _ _ _ _⟩
  | movinvRandom => exact ⟨_, by decide, movinvRandomRounds_owns _ _ _ _ _⟩
  | blockMove => exact ⟨_, by decide, testBlockMove_owns _ _ _ _ _⟩
  | movinvLong => exact ⟨_, by decide, fun σ fuel => movinvLongRounds_owns _ _ _ _ _ _ _ σ fuel⟩
  | randomNumSequence => exact ⟨_, by decide, testRandomNumSequence_owns _ _ _⟩
  | memModulo => exact ⟨_, by decide, memModuloRounds_owns _ _ _ _ _⟩
  | marchC => exact ⟨_, by decide, testMarchC_owns _ _ _ _⟩
  | bitFade => exact absurd rfl hf

/-! ## What the test child exits with -/

-- The code of a test that takes turns with others is that of the test with some memory.
theorem code_owned {err fuel : Nat} {test : MemTest} {d : Session Nat} (howns : Owns err test)
    (hspeaks : Speaks fuel test d) : d.Always (fun _ _ => True) fun code => code = errSuccess ∨ code = err := by
  refine Dialogue.always_of_run (fun op => ⟨(nonemptyAnswer op).some, trivial⟩) fun σ h _ mem => ?_
  exact howns σ fuel _ mem _ _ (hspeaks.run_eq h mem)

theorem readOnlyTest_mod (mode : TestMode) (bind : Bool) (mmap : List (Option Errno))
    (h : readOnlyTest mode bind mmap ≠ 0) : readOnlyTest mode bind mmap % 256 ≠ 0 := by
  unfold readOnlyTest at h ⊢
  split_ifs at h ⊢
  · decide
  · cases hfails : mmap.findSome? id with
    | none => simp [hfails] at h
    | some e => exact TestRun.errno_mod e

namespace CleanRun

variable {mc : Machine} (r : CleanRun mc)

def readOnlyRanges : List RDRange := (initModule r.sort r.driver r.calls r.parm).2.rdList

/-- What the read-only test comes to if the thread can be bound or not and the mappings fare like this. -/
def readOnlyCode (bind : Bool) (mmap : RDRange → Option Errno) : UInt32 :=
  if r.readOnlyRanges.countP (fun rd => rd.start ≠ rd.stop) = 0 then 0
  else readOnlyTest r.mode bind (r.readOnlyRanges.map mmap)

/-- What the test child exits with. -/
def childCode (bind : Bool) (mmap : RDRange → Option Errno) : UInt32 :=
  if r.readOnlyCode bind mmap ≠ 0 then r.readOnlyCode bind mmap
  else if r.rwList.countP (fun q => q.range.start ≠ q.range.stop) = 0 then 0
  else r.result.ret

theorem readOnlyCode_mod {bind : Bool} {mmap : RDRange → Option Errno} (h : r.readOnlyCode bind mmap ≠ 0) :
    r.readOnlyCode bind mmap % 256 ≠ 0 := by
  unfold readOnlyCode at h ⊢
  split_ifs at h ⊢
  · exact absurd rfl h
  · exact readOnlyTest_mod _ _ _ h

end CleanRun

namespace Execution

variable {mc : Machine} {σ : Type} (ex : Execution mc σ)

-- The threads return 0 or codes whose low byte is not 0.
theorem slot_mod {entry : ItemEntry} (hentry : entry ∈ (testItems ex.run.testItem).zipIdx)
    (hitem : entry.1 ≠ 11) {range : RangeInfo × Nat}
    (hrange : range ∈ (sortedTable ex.run.rwList).zipIdx) {slot : SliceInfo × Nat}
    (hslot : slot ∈ range.1.sinfo.zipIdx) :
    (sliceOutcome (ex.run.env.round entry.2 range.2) ex.run.noComp entry.1 slot).code = 0 ∨
      (sliceOutcome (ex.run.env.round entry.2 range.2) ex.run.noComp entry.1 slot).code % 256 ≠ 0 := by
  cases hf : testFunction entry.1 with
  | none =>
      right
      simp only [sliceOutcome, ex.bound, runTestSlice, threadInfo, if_true, hf, SliceOutcome.code]
      decide
  | some f =>
      have hfade : f ≠ .bitFade := by
        rintro rfl
        unfold testFunction at hf
        split at hf <;> simp_all
      obtain ⟨i, -, hcode⟩ := ex.slot_code hentry hrange hf hslot
      obtain ⟨err, herr, howns⟩ := call_owns ex.env
        (threadInfo ex.run.noComp entry.1 range.1.sinfo[i]) hfade
      let round := ex.rounds entry hentry range hrange
      have halways := code_owned howns (round.speaks i f hf)
      rcases Pool.ended_of_always (fun _ _ => trivial) halways (round.ended i) with hsuccess | hown
      · exact Or.inl (hcode.trans (congrArg UInt32.ofNat hsuccess))
      · right
        rw [hcode, show round.code i = err from hown, herr]
        exact TestRun.error_mod f

theorem ret_mod (hitems : ∀ item ∈ testItems ex.run.testItem, item ≠ 11) (hret : ex.run.result.ret ≠ 0) :
    ex.run.result.ret % 256 ≠ 0 := by
  rcases TestRun.lastFailure_or_zero (runReports ex.run.env.round ex.run.noComp
    (testItems ex.run.testItem) (sortedTable ex.run.rwList)) with hzero | ⟨c, hlast⟩
  · exact absurd (foldl_laterFailure_eq_zero.mpr ⟨rfl, hzero⟩) hret
  · have hc : ex.run.result.ret = c := hlast.foldl_eq 0
    obtain ⟨pre, post, hreports, hne, -⟩ := hlast
    have hmem : c ∈ runReports ex.run.env.round ex.run.noComp (testItems ex.run.testItem)
        (sortedTable ex.run.rwList) := by
      rw [hreports]
      simp
    obtain ⟨entry, hentry, hmem⟩ := List.mem_flatMap.mp hmem
    obtain ⟨range, hrange, hmem⟩ := List.mem_flatMap.mp hmem
    have hitem := hitems entry.1 (List.fst_mem_of_mem_zipIdx hentry)
    rw [hc]
    rw [roundReports, List.mem_append] at hmem
    rcases hmem with hmem | hmem
    · obtain ⟨slot, -, rfl⟩ := List.mem_map.mp hmem
      rw [createReport, ex.run.created] at hne
      exact absurd rfl hne
    · obtain ⟨slot, hslot, rfl⟩ := List.mem_map.mp hmem
      rw [slotReport, joinValue, if_pos (ex.run.created ..)] at hne ⊢
      exact (ex.slot_mod hentry hitem hrange hslot).resolve_left hne

-- A failure comes from a range, so the ranges of the run are not all empty.
theorem childCode_of_failure (hret : ex.run.result.ret ≠ 0) {bind : Bool} {mmap : RDRange → Option Errno}
    (hpasses : ex.run.readOnlyCode bind mmap = 0) : ex.run.childCode bind mmap = ex.run.result.ret := by
  obtain ⟨entry, -, code, hcode, -⟩ :=
    (ret_ne_zero_iff ex.run.created (testItems ex.run.testItem) (sortedTable ex.run.rwList)).mp hret
  obtain ⟨range, hrange, -⟩ := List.mem_flatMap.mp hcode
  obtain ⟨q, hq, -⟩ := ex.range_listed hrange
  have hne : q.range.start ≠ q.range.stop := (ex.run.range_nonempty hq).ne
  have hcount : ex.run.rwList.countP (fun q => q.range.start ≠ q.range.stop) ≠ 0 :=
    (List.countP_pos_iff.mpr ⟨q, hq, decide_eq_true hne⟩).ne'
  rw [CleanRun.childCode, if_neg (not_not.mpr hpasses), if_neg hcount]

end Execution

/-! ## The whole program -/

/-- The processes of a module test whose test child would exit with `child`, from the first statement of
`module_test` to its end. -/
structure ModuleRun (child : UInt32) where
  exitOnError : Bool
  log : Nat
  events : List Event
  succeeds : ∀ e ∈ events, e.Succeeds
  last : World
  steps : events.foldlM (World.step exitOnError) (.start log) = some last
  tests : ∀ c, last.tested = some c → c = child
  code : UInt32
  returned : last.point = .returned code

namespace ModuleRun

variable {child : UInt32} (m : ModuleRun child)

/-- The exit status of `main`. -/
def status : Nat := (returnCliErrorCode m.code % 256).toNat

theorem status_eq_zero : m.status = 0 ↔ m.last.reported = 0 ∧ child % 256 = 0 := by
  obtain ⟨-, htold, hquiet⟩ := returned_code m.succeeds m.steps m.returned
  by_cases hreported : 0 < m.last.reported
  · have hstatus : m.status ≠ 0 := by
      rw [status, htold hreported]
      decide
    exact ⟨fun h => absurd h hstatus, fun h => by omega⟩
  · have hnone := Nat.eq_zero_of_not_pos hreported
    obtain ⟨c, htested, hcode⟩ := hquiet hnone
    obtain rfl := m.tests c htested
    have hstatus : m.status = (TestRun.childCli c % 256).toNat := by
      rw [status, hcode]
      rfl
    rw [hstatus, and_iff_right hnone]
    constructor
    · intro h
      by_contra hbyte
      exact TestRun.childCli_mod hbyte (by omega)
    · intro hbyte
      rw [TestRun.childCli, TestRun.prExit_exitStatus, hbyte]
      decide

/-- A run without machine checks. -/
def quiet (child : UInt32) : ModuleRun child where
  exitOnError := false
  log := 0
  events := [.statement, .callReturns, .statement, .callReturns, .statement, .callReturns, .statement,
    .mceStarts, .mceOpens, .testStarts, .testEnds child, .statement, .callReturns, .statement, .callReturns,
    .mceAbrt, .statement, .callReturns, .statement, .callReturns, .statement, .statement]
  succeeds := by simp [Event.Succeeds]
  last := { World.start 0 with
    point := .returned (failureCode (prExit (exitStatus child)))
    pidb := .child
    retFlag := prExit (exitStatus child)
    mce := .reaped
    test := .reaped
    tested := some child }
  steps := rfl
  tests _ hc := (Option.some.inj hc).symm
  code := failureCode (prExit (exitStatus child))
  returned := rfl

end ModuleRun

namespace Execution

variable {mc : Machine}

section Statuses

variable {σ : Type} (ex : Execution mc σ) {bind : Bool} {mmap : RDRange → Option Errno}

-- A failure of the tests comes through.
theorem status_ne_zero (hitems : ∀ item ∈ testItems ex.run.testItem, item ≠ 11)
    (hret : ex.run.result.ret ≠ 0) (m : ModuleRun (ex.run.childCode bind mmap)) : m.status ≠ 0 := by
  intro hstatus
  obtain ⟨-, hbyte⟩ := m.status_eq_zero.mp hstatus
  by_cases hpasses : ex.run.readOnlyCode bind mmap = 0
  · rw [ex.childCode_of_failure hret hpasses] at hbyte
    exact ex.ret_mod hitems hret hbyte
  · rw [CleanRun.childCode, if_pos hpasses] at hbyte
    exact ex.run.readOnlyCode_mod hpasses hbyte

-- Nothing else makes the program fail but a machine check and the read-only test.
theorem status_of_ret_zero (hret : ex.run.result.ret = 0) (m : ModuleRun (ex.run.childCode bind mmap)) :
    m.status = 0 ↔ m.last.reported = 0 ∧ ex.run.readOnlyCode bind mmap = 0 := by
  rw [m.status_eq_zero]
  refine and_congr_right fun _ => ?_
  by_cases hpasses : ex.run.readOnlyCode bind mmap = 0
  · have hchild : ex.run.childCode bind mmap = 0 := by
      rw [CleanRun.childCode, if_neg (not_not.mpr hpasses), hret, ite_self]
    rw [hchild]
    exact ⟨fun _ => hpasses, fun _ => rfl⟩
  · rw [CleanRun.childCode, if_pos hpasses]
    exact ⟨fun h => absurd h (ex.run.readOnlyCode_mod hpasses), fun h => absurd h hpasses⟩

end Statuses

end Execution

end MoBoMemory.App
