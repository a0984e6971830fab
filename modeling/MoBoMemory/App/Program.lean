import MoBoMemory.App.CommandLine
import MoBoMemory.App.EndToEnd
import MoBoMemory.App.FirmwareMap

/-!
# The program

`main` reads the command line, looks whether it is alone and whether it is root, prepares the test with
`init_module`, runs it with `module_test` and closes the module.  What it prints and what it exits with go
together, and a fault of the memory comes through to both from the pages that the firmware calls System RAM.
-/

namespace MoBoMemory.App

open Base Driver TestLib

def errNoPriv : UInt32 := 0xA0000001
def errGetMemInfo : UInt32 := 0xA0000008
def errTestPolicy : UInt32 := 0xA000000b

/-- What the system calls of `main` and `init_module` answer; of `get_mem_info` and `do_mce_check` it is what
they return. -/
structure ProgramEnv where
  shifter : Shifter
  onlyInstance : Bool
  root : Bool
  signal : Option Errno
  xMax : Nat
  sort : KernelSort
  driver : Globals
  startup : Startup
  memTotal : UInt32
  memFree : UInt32
  calls : InitEnv
  clearEcc : UInt32
  coreNum : Nat

/-- What `init_module` leaves behind for the test. -/
structure TestConfig where
  testItem : List Int
  rwList : List SlicedRange
  rdList : List RDRange
  rwEmpty : Nat
  rdEmpty : Nat

/-- How `init_module` ends: an access outside of an array, `exit`, or a return. -/
inductive InitResult where
  | outside
  | exits (code : UInt32)
  | returned (ret : UInt32) (config : TestConfig)

def rdEmptyOf (rdList : List RDRange) : Nat := rdList.countP fun rd => rd.start ≠ rd.stop

def rwEmptyOf (rwList : List RWRange) : Nat := rwList.countP fun rw => rw.start ≠ rw.stop

/-- The part of `init_module` behind the region loop. -/
def finishInit (env : ProgramEnv) (p : CliParm) (testItem : List Int) (s : InitState) : InitResult :=
  let rwEmpty := rwEmptyOf s.rwList
  let rdEmpty := rdEmptyOf s.rdList
  let config rwList := TestConfig.mk testItem rwList s.rdList rwEmpty rdEmpty
  let unsliced := s.rwList.map fun rw => SlicedRange.mk rw []
  if p.listInfo then .exits 0
  else if rdEmpty = 0 ∧ rwEmpty = 0 then .returned (UInt32.ofNat errInputAddress) (config unsliced)
  else if p.clearEcc then .exits (if env.clearEcc ≠ 0 then errMceMsg else 0)
  else
    match testPolicy p.mode p.cpu env.coreNum s.rwList with
    | .built rwList => .returned 0 (config rwList)
    | .returned _ => .returned errTestPolicy ⟨testItem, [], [], rwEmpty, rdEmpty⟩
    | .nullTable => .outside

/-- The part of `init_module` from `get_mem_info` on; the lists are those at the place where it returns. -/
def initRanges (env : ProgramEnv) (p : CliParm) (driver : Globals) (testItem : List Int) : InitResult :=
  if env.memTotal ≠ 0 then .returned errGetMemInfo ⟨testItem, [], [], 0, 0⟩
  else if env.memFree ≠ 0 then .returned errGetMemInfo ⟨testItem, [], [], 0, 0⟩
  else
    match initModule env.sort driver env.calls ⟨p.range.start, p.range.stop, p.listInfo⟩ with
    | (.outOfTable, _) => .outside
    | (.returned code, s) =>
        .returned (UInt32.ofNat code) ⟨testItem, s.rwList.map fun rw => ⟨rw, []⟩, s.rdList, 0, 0⟩
    | (.finished, s) => finishInit env p testItem s

/-- `init_module`. -/
def initModuleAll (env : ProgramEnv) (p : CliParm) : InitResult :=
  match env.signal with
  | some errno => .returned errno.val ⟨[], [], [], 0, 0⟩
  | none =>
      match e820AndCmdlineInitialization env.xMax env.sort env.driver env.startup with
      | none => .outside
      | some (status, driver) =>
          if status ≠ 0 then .returned 0xffffffff ⟨[], [], [], 0, 0⟩
          else
            match expandItems p.testItem with
            | none => .outside
            | some testItem => initRanges env p driver testItem

inductive Verdict where
  | pass
  | fail
deriving DecidableEq

/-- The exit status of the program, and whether it has printed PASS or FAIL. -/
structure ProgramExit where
  status : Nat
  verdict : Option Verdict
deriving DecidableEq

/-- The exit status for a return code. -/
def cliStatus (code : UInt32) : Nat := (returnCliErrorCode code % 256).toNat

/-- `main` behind the command line, for what `module_test` returns on what `init_module` has left. -/
def runParsed (env : ProgramEnv) (moduleTest : CliParm → TestConfig → UInt32) (p : CliParm) :
    Option ProgramExit :=
  if env.root = false then some ⟨cliStatus errNoPriv, none⟩
  else
    match initModuleAll env p with
    | .outside => none
    | .exits code => some ⟨code.toNat % 256, none⟩
    | .returned ret config =>
        if ret ≠ 0 then some ⟨cliStatus ret, some .fail⟩
        else if moduleTest p config ≠ 0 then some ⟨cliStatus (moduleTest p config), some .fail⟩
        else some ⟨0, some .pass⟩

/-- `main`; `none` is an access outside of an array. -/
def main (env : ProgramEnv) (args : Arguments) (moduleTest : CliParm → TestConfig → UInt32) :
    Option ProgramExit :=
  if env.onlyInstance = false then some ⟨255, none⟩
  else
    match parse env.shifter args with
    | .outside => none
    | .exits => some ⟨0, none⟩
    | .refused ret => some ⟨cliStatus (UInt32.ofNat ret), none⟩
    | .parsed p => runParsed env moduleTest p

/-! ## Codes that the shell can see -/

/-- The code is success, or the exit status tells that it is not. -/
def Seen (code : UInt32) : Prop := code = 0 ∨ cliStatus code ≠ 0

instance decidableSeen (code : UInt32) : Decidable (Seen code) := inferInstanceAs (Decidable (_ ∨ _))

-- A return code that is small is the exit status itself.
theorem seen_of_small {code : UInt32} (hsmall : code ≤ 255) : Seen code := by
  have hle : code.toNat ≤ 255 := UInt32.le_iff_toNat_le.mp hsmall
  have hlow : ¬ 0xA0000000 ≤ code := by
    rw [UInt32.le_iff_toNat_le]
    exact not_le.mpr (lt_of_le_of_lt hle (by decide))
  have hint : code.toInt32.toInt = code.toNat := by
    show code.toBitVec.toInt = code.toNat
    rw [BitVec.toInt_eq_toNat_of_lt]
    · rfl
    · show 2 * code.toNat < 2 ^ 32
      omega
  rw [Seen, cliStatus, returnCliErrorCode, if_neg hlow, hint]
  by_cases hzero : code = 0
  · exact Or.inl hzero
  · right
    have hne : code.toNat ≠ 0 := fun h => hzero (UInt32.toNat_inj.mp h)
    omega

theorem seen_errno (e : Errno) : Seen e.val := by
  apply seen_of_small
  exact UInt32.le_trans e.le_max (by decide)

theorem prExit_exited (code : UInt32) : prExit (exitStatus code) ≤ 255 := by
  rw [TestRun.prExit_exitStatus, UInt32.le_iff_toNat_le, UInt32.toNat_mod]
  exact Nat.le_of_lt_succ (Nat.mod_lt _ (by decide))

theorem seen_failureCode {retFlag : UInt32} (hsmall : retFlag ≤ 255) : Seen (failureCode retFlag) := by
  have hle : retFlag.toNat ≤ 255 := UInt32.le_iff_toNat_le.mp hsmall
  have hbyte : retFlag % 256 = retFlag := by
    apply UInt32.toNat_inj.mp
    rw [UInt32.toNat_mod]
    exact Nat.mod_eq_of_lt (lt_of_le_of_lt hle (by decide))
  by_cases hzero : retFlag = 0
  · exact Or.inl (by simp [failureCode, hzero])
  · have hchild : TestRun.childCli retFlag % 256 ≠ 0 := TestRun.childCli_mod (hbyte.symm ▸ hzero)
    have hcode : failureCode retFlag = failureCode (prExit (exitStatus retFlag)) := by
      rw [TestRun.prExit_exitStatus, hbyte]
    right
    rw [cliStatus, hcode]
    change (TestRun.childCli retFlag % 256).toNat ≠ 0
    omega

namespace World

/-- The parent cannot be misled: what it knows of the tests fits into a byte. -/
structure Graded (w : World) : Prop where
  ending : ∀ e, w.test = .zombie e → prExit e.status ≤ 255
  retFlag : w.retFlag ≤ 255
  code : ∀ code, w.point = .returned code → Seen code

section Grades

variable {exitOnError : Bool} {w w' : World}

theorem graded_start (log : Nat) : (World.start log).Graded where
  ending := nofun
  retFlag := show (0 : UInt32) ≤ 255 by decide
  code := nofun

-- A step of somebody else than the parent.
theorem Graded.frame (hw : w.Graded) (hpoint : w'.point = w.point) (hflag : w'.retFlag = w.retFlag)
    (htest : ∀ e, w'.test = .zombie e → w.test = .zombie e ∨ prExit e.status ≤ 255) : w'.Graded where
  ending e he := (htest e he).elim (hw.ending e) id
  retFlag := hflag ▸ hw.retFlag
  code c hc := hw.code c (hpoint ▸ hc)

theorem graded_statement (hw : w.Graded) (h : w.statement = some w') : w'.Graded := by
  have hending := hw.ending
  have hflag := hw.retFlag
  have hcode := hw.code
  unfold statement at h
  split at h
  all_goals try split at h
  all_goals cases h
  all_goals constructor
  all_goals simp_all
  all_goals first | exact seen_errno _ | exact seen_failureCode hflag | decide

theorem graded_step {e : Event} (hw : w.Graded) (h : w.step exitOnError e = some w') : w'.Graded := by
  cases e with
  | statement =>
      simp only [step, Option.ite_none_right_eq_some] at h
      exact graded_statement hw h.2
  | forkFails errno =>
      simp only [step] at h
      split at h
      · cases h
        exact ⟨hw.ending, hw.retFlag, fun c hc => ParentPoint.returned.inj hc ▸ seen_errno errno⟩
      · simp only [Option.ite_none_right_eq_some, Option.some.injEq] at h
        obtain ⟨-, rfl⟩ := h
        exact ⟨hw.ending, hw.retFlag, fun _ hc => by cases hc⟩
  | checkFails =>
      simp only [step, Option.ite_none_right_eq_some, Option.some.injEq] at h
      obtain ⟨-, rfl⟩ := h
      exact ⟨hw.ending, hw.retFlag, fun c hc => ParentPoint.returned.inj hc ▸ by decide⟩
  | handler =>
      simp only [step, handlerStep] at h
      split at h
      all_goals try split at h
      all_goals try split at h
      all_goals cases h
      all_goals exact hw.frame rfl rfl fun _ he => Or.inl he
  | testStarts =>
      simp only [step, Option.ite_none_right_eq_some, Option.some.injEq] at h
      obtain ⟨-, rfl⟩ := h
      exact hw.frame rfl rfl fun _ he => by cases he
  | testEnds code =>
      simp only [step, Option.ite_none_right_eq_some, Option.some.injEq] at h
      obtain ⟨-, rfl⟩ := h
      refine hw.frame rfl rfl fun e he => Or.inr ?_
      obtain rfl := Child.zombie.inj he
      exact prExit_exited code
  | testUsr2 =>
      simp only [step, testUsr2, Option.ite_none_right_eq_some] at h
      obtain ⟨-, h⟩ := h
      split at h
      · cases h
        refine hw.frame rfl rfl fun e he => Or.inr ?_
        obtain rfl := Child.zombie.inj he
        decide
      · cases h
        refine hw.frame rfl rfl fun e he => ?_
        simp only [] at he
        split at he
        · obtain rfl := Child.zombie.inj he
          exact Or.inr (prExit_exited sigusr2)
        · exact Or.inl he
      · cases h
  | mceAbrt =>
      simp only [step, mceAbrt, Option.ite_none_right_eq_some] at h
      obtain ⟨-, h⟩ := h
      split at h
      all_goals cases h
      all_goals exact hw.frame rfl rfl fun _ he => Or.inl he
  | mceUsr2 =>
      simp only [step] at h
      split at h
      · simp only [Option.ite_none_right_eq_some, Option.some.injEq] at h
        obtain ⟨-, rfl⟩ := h
        exact hw.frame rfl rfl fun _ he => Or.inl he
      · cases h
  | machineCheck =>
      cases h
      exact hw.frame rfl rfl fun _ he => Or.inl he
  | callReturns | catchUsr1 | mceStarts | mceOpens | mceGivesUp _ | mcePolls | mceTells =>
      simp only [step, Option.ite_none_right_eq_some, Option.some.injEq] at h
      obtain ⟨-, rfl⟩ := h
      exact hw.frame rfl rfl fun _ he => Or.inl he

-- Whatever happens, also when system calls fail.
theorem returned_seen {log : Nat} {events : List Event}
    (hrun : events.foldlM (step exitOnError) (.start log) = some w) {code : UInt32}
    (hreturned : w.point = .returned code) : Seen code :=
  (foldlM_preserves (fun _ => True) (fun _ _ _ _ hw hstep => graded_step hw hstep) (fun _ _ => trivial)
    (graded_start log) hrun).code code hreturned

end Grades

end World

/-- The calls of the region loop leave an `errno` of the system, or 0. -/
structure InitEnv.Errnos (env : InitEnv) : Prop where
  openDevice : ∀ e ∈ env.openDevice, e ≤ 133
  getBregionNum : ∀ e ∈ env.getBregionNum, e ≤ 133
  getBregion : ∀ i, ∀ e ∈ env.getBregion i, e ≤ 133
  mmap : ∀ i e, env.mmap i = .error e → e ≤ 133
  errno : env.errno ≤ 133

section Codes

variable {env : InitEnv} {p : TestParm} {s s' : InitState} {code : Nat}

/-- What the region loop can return. -/
def LoopCode (code : Nat) : Prop := code ≤ 133 ∨ code = errInputAddress

theorem LoopCode.seen (h : LoopCode code) : Seen (UInt32.ofNat code) := by
  rcases h with hsmall | rfl
  · apply seen_of_small
    rw [UInt32.le_iff_toNat_le, UInt32.toNat_ofNat]
    calc code % 2 ^ 32 ≤ code := Nat.mod_le _ _
      _ ≤ 255 := le_trans hsmall (by decide)
  · decide

theorem addRWRange_code (henv : env.Errnos) {i a b : Nat}
    (h : addRWRange env p i a b s = (.returned code, s')) : LoopCode code := by
  unfold addRWRange at h
  simp only at h
  split_ifs at h
  · cases h
  · cases h
  · cases hmap : env.mmap i with
    | error e =>
        rw [hmap] at h
        cases h
        exact Or.inl (henv.mmap i _ hmap)
    | ok addr =>
        rw [hmap] at h
        cases h
  · cases h
    exact Or.inl (by decide)

theorem recordRegion_code (henv : env.Errnos) {i offset len last : Nat} {region : BootmemRegion}
    (h : recordRegion env p i region offset len last s = (.returned code, s')) : LoopCode code := by
  unfold recordRegion at h
  simp only at h
  generalize (if len = 0 then _ else s) = s₁ at h
  split at h
  · cases h
  · split_ifs at h
    · cases h
    · cases h
    · cases h
    · exact addRWRange_code henv h
    · cases h
    · cases h
      exact Or.inl henv.errno

theorem initLoop_code (henv : env.Errnos) {ks : KernelSort} {d : Globals} {n : Nat}
    (h : initLoop ks d env p n s = (.returned code, s')) : LoopCode code := by
  induction n generalizing s with
  | zero => cases h
  | succ i ih =>
      rw [initLoop] at h
      split at h
      · next e hcall =>
          cases h
          split_ifs at hcall
          · exact Or.inl (henv.getBregion i _ hcall)
          · cases hcall
            exact Or.inl (by decide)
      · split at h
        · exact ih h
        · exact recordRegion_code henv h

theorem initModule_code (henv : env.Errnos) {ks : KernelSort} {d : Globals}
    (h : initModule ks d env p = (.returned code, s')) : LoopCode code := by
  unfold initModule at h
  simp only at h
  split_ifs at h
  · cases h
    exact Or.inr rfl
  all_goals
    split at h
    · next e hopen =>
        cases h
        exact Or.inl (henv.openDevice _ hopen)
    · split at h
      · next e hnum =>
          cases h
          exact Or.inl (henv.getBregionNum _ hnum)
      · split at h
        · exact initLoop_code henv h
        · cases h

end Codes

section Verdicts

variable {env : ProgramEnv} {args : Arguments} {x : ProgramExit}
variable {moduleTest : CliParm → TestConfig → UInt32}

/-- The program has been asked for something else than a test: with `-list` alone for the usage, with `-v` for
the version, with `-l` for the ranges or with `-c` for the clearing of the errors. -/
def AskedOtherwise (env : ProgramEnv) (args : Arguments) : Prop :=
  parse env.shifter args = .exits ∨
    ∃ p, parse env.shifter args = .parsed p ∧ (p.listInfo = true ∨ p.clearEcc = true)

theorem finishInit_seen {p : CliParm} {testItem : List Int} {st : InitState} {ret : UInt32}
    {config : TestConfig} (h : finishInit env p testItem st = .returned ret config) : Seen ret := by
  simp only [finishInit] at h
  split_ifs at h
  · cases h
    decide
  · split at h
    · cases h
      decide
    · cases h
      decide
    · cases h

theorem initRanges_seen (henv : env.calls.Errnos) {p : CliParm} {driver : Globals} {testItem : List Int}
    {ret : UInt32} {config : TestConfig} (h : initRanges env p driver testItem = .returned ret config) :
    Seen ret := by
  unfold initRanges at h
  split_ifs at h
  · cases h
    decide
  · cases h
    decide
  · split at h
    · cases h
    · next code _ hloop =>
        cases h
        exact (initModule_code henv hloop).seen
    · exact finishInit_seen h

theorem initModuleAll_seen (henv : env.calls.Errnos) {p : CliParm} {ret : UInt32} {config : TestConfig}
    (h : initModuleAll env p = .returned ret config) : Seen ret := by
  unfold initModuleAll at h
  split at h
  · next errno _ =>
      cases h
      exact seen_errno errno
  · split at h
    · cases h
    · split_ifs at h
      · cases h
        decide
      · split at h
        · cases h
        · exact initRanges_seen henv h

theorem finishInit_exits {p : CliParm} {testItem : List Int} {st : InitState} {code : UInt32}
    (h : finishInit env p testItem st = .exits code) : p.listInfo = true ∨ p.clearEcc = true := by
  simp only [finishInit] at h
  split_ifs at h with hlist hempty hclear
  · exact Or.inl hlist
  · exact Or.inr hclear
  · exact Or.inr hclear
  · split at h <;> cases h

-- `exit` is called for the listing and for the clearing of the records only.
theorem initModuleAll_exits {p : CliParm} {code : UInt32} (h : initModuleAll env p = .exits code) :
    p.listInfo = true ∨ p.clearEcc = true := by
  unfold initModuleAll at h
  split at h
  · cases h
  · split at h
    · cases h
    · split_ifs at h
      split at h
      · cases h
      · unfold initRanges at h
        split_ifs at h
        split at h
        · cases h
        · cases h
        · exact finishInit_exits h

theorem refused_status {ret : Nat} (h : RefusalCode ret) : cliStatus (UInt32.ofNat ret) ≠ 0 := by
  rcases h with rfl | rfl <;> decide

theorem runParsed_verdict (henv : env.calls.Errnos) (htest : ∀ p config, Seen (moduleTest p config))
    {p : CliParm} (h : runParsed env moduleTest p = some x) :
    (x.verdict = some .pass → x.status = 0) ∧ (x.verdict = some .fail → x.status ≠ 0) ∧
      (x.verdict = none → x.status = 0 → p.listInfo = true ∨ p.clearEcc = true) := by
  unfold runParsed at h
  split_ifs at h
  · obtain rfl := Option.some.inj h
    exact ⟨nofun, nofun, fun _ hzero => absurd hzero (by decide)⟩
  · split at h
    · cases h
    · next code hinit =>
        obtain rfl := Option.some.inj h
        exact ⟨nofun, nofun, fun _ _ => initModuleAll_exits hinit⟩
    · next ret config hinit =>
        split_ifs at h with hret hfail
        · obtain rfl := Option.some.inj h
          exact ⟨nofun, fun _ => (initModuleAll_seen henv hinit).resolve_left hret, nofun⟩
        · obtain rfl := Option.some.inj h
          exact ⟨nofun, fun _ => (htest p config).resolve_left hfail, nofun⟩
        · obtain rfl := Option.some.inj h
          exact ⟨fun _ => rfl, nofun, nofun⟩

/-- A code that `module_test` can return, whatever the processes and their system calls do. -/
def ModuleCode (exitOnError : Bool) (code : UInt32) : Prop :=
  ∃ (log : Nat) (events : List Event) (w : World),
    events.foldlM (World.step exitOnError) (.start log) = some w ∧ w.point = .returned code

theorem ModuleCode.seen {exitOnError : Bool} {code : UInt32} (h : ModuleCode exitOnError code) : Seen code := by
  obtain ⟨_, _, _, hrun, hreturned⟩ := h
  exact World.returned_seen hrun hreturned

/-- PASS comes with the exit status 0 and FAIL with another one; without either of them the exit status 0 says
that no test was asked for.  That is so whatever fails on the way. -/
theorem main_verdict (henv : env.calls.Errnos) (htest : ∀ p config, ModuleCode p.exitError (moduleTest p config))
    (h : main env args moduleTest = some x) :
    (x.verdict = some .pass → x.status = 0) ∧ (x.verdict = some .fail → x.status ≠ 0) ∧
      (x.verdict = none → x.status = 0 → AskedOtherwise env args) := by
  unfold main at h
  split_ifs at h
  · obtain rfl := Option.some.inj h
    exact ⟨nofun, nofun, fun _ hzero => absurd hzero (by decide)⟩
  · split at h
    · cases h
    · next hparse =>
        obtain rfl := Option.some.inj h
        exact ⟨nofun, nofun, fun _ _ => Or.inl hparse⟩
    · next ret hparse =>
        obtain rfl := Option.some.inj h
        exact ⟨nofun, nofun, fun _ hzero => absurd hzero (refused_status (parse_refused hparse))⟩
    · next p hparse =>
        obtain ⟨hpass, hfail, hother⟩ := runParsed_verdict henv (fun p config => (htest p config).seen) h
        exact ⟨hpass, hfail, fun hnone hzero => Or.inr ⟨p, hparse, hother hnone hzero⟩⟩

end Verdicts

/-! ## The program on a machine -/

/-- A run of the program from the command line and the firmware to the exit, with its threads and processes,
in which nothing fails before `module_test`. -/
structure ProgramRun (mc : Machine) (σ : Type) where
  ex : Execution mc σ
  env : ProgramEnv
  alone : env.onlyInstance = true
  privileged : env.root = true
  signal : env.signal = none
  memInfo : env.memTotal = 0 ∧ env.memFree = 0
  fresh : env.driver = .fresh []
  sort : env.sort = ex.run.sort
  calls : env.calls = ex.run.calls
  coreNum : env.coreNum = ex.run.coreNum
  fw : List FirmwareEntry
  boots : Boots env.startup fw env.xMax ex.run.memLimit
  firmware : mc.e820 = fw.map FirmwareEntry.entry
  opts : List CliOption
  parm : CliParm
  accepted : parse env.shifter (.options opts false) = .parsed parm
  testAsked : parm.clearEcc = false
  range : ex.run.parm = ⟨parm.range.start, parm.range.stop, parm.listInfo⟩
  mode : ex.run.mode = parm.mode
  cpu : ex.run.cpu = parm.cpu
  noComp : ex.run.noComp = parm.noComp
  testItem : expandItems parm.testItem = some ex.run.testItem
  bind : Bool
  mmap : RDRange → Option Errno
  test : ModuleRun (ex.run.childCode bind mmap)
  exitError : test.exitOnError = parm.exitError

namespace ProgramRun

variable {mc : Machine} {σ : Type} (g : ProgramRun mc σ)

def exit : Option ProgramExit := main g.env (.options g.opts false) fun _ _ => g.test.code

/-- What `init_module` has left. -/
def config : TestConfig where
  testItem := g.ex.run.testItem
  rwList := g.ex.run.rwList
  rdList := g.ex.run.readOnlyRanges
  rwEmpty := rwEmptyOf g.ex.run.ranges
  rdEmpty := rdEmptyOf g.ex.run.readOnlyRanges

/-- There is a range to test. -/
def Testable : Prop := g.config.rwEmpty ≠ 0 ∨ g.config.rdEmpty ≠ 0

instance : Decidable g.Testable := inferInstanceAs (Decidable (_ ∨ _))

theorem startup_eq : e820AndCmdlineInitialization g.env.xMax g.env.sort g.env.driver g.env.startup =
    some (0, g.ex.run.driver) := by
  have hset := g.ex.run.set
  rw [g.firmware] at hset
  rw [g.fresh, g.sort, ← g.boots.startup_eq, hset]
  rfl

-- With no range it is an input error.
theorem initModuleAll_eq : initModuleAll g.env g.parm =
    .returned (if g.config.rwEmpty = 0 ∧ g.config.rdEmpty = 0 then UInt32.ofNat errInputAddress else 0)
      (if g.config.rwEmpty = 0 ∧ g.config.rdEmpty = 0 then
        { g.config with rwList := g.ex.run.ranges.map fun rw => ⟨rw, []⟩ } else g.config) := by
  obtain ⟨regions, hregions⟩ := g.ex.run.exists_regions
  have hlist : g.parm.listInfo = false := by
    have hplain := g.ex.run.plain
    rw [g.range] at hplain
    exact hplain
  have hloop : initModule g.env.sort g.ex.run.driver g.env.calls
      ⟨g.parm.range.start, g.parm.range.stop, g.parm.listInfo⟩ =
      (.finished, (initModule g.ex.run.sort g.ex.run.driver g.ex.run.calls g.ex.run.parm).2) := by
    rw [g.sort, g.calls, ← g.range, ← (g.ex.run.initModule_eq hregions).1]
  have hpolicy : testPolicy g.parm.mode g.parm.cpu g.env.coreNum
      (initModule g.ex.run.sort g.ex.run.driver g.ex.run.calls g.ex.run.parm).2.rwList =
      .built g.ex.run.rwList := by
    rw [← g.mode, ← g.cpu, g.coreNum]
    exact g.ex.run.policy
  rw [initModuleAll, g.signal]
  simp only [g.startup_eq, g.testItem, ne_eq, not_true_eq_false, if_false]
  rw [initRanges, if_neg (not_not.mpr g.memInfo.1), if_neg (not_not.mpr g.memInfo.2), hloop]
  simp only [finishInit, hlist, g.testAsked, hpolicy, Bool.false_eq_true, if_false]
  split_ifs with hrd hrw hrw
  · rfl
  · exact absurd hrd.symm hrw
  · exact absurd hrw.symm hrd
  · rfl

theorem exit_eq : g.exit =
    if ¬ g.Testable then some ⟨cliStatus (UInt32.ofNat errInputAddress), some .fail⟩
    else if g.test.code ≠ 0 then some ⟨g.test.status, some .fail⟩
    else some ⟨0, some .pass⟩ := by
  have hparsed : g.exit = runParsed g.env (fun _ _ => g.test.code) g.parm := by
    rw [exit, main, if_neg (by rw [g.alone]; decide), g.accepted]
  have hempty : g.config.rwEmpty = 0 ∧ g.config.rdEmpty = 0 ↔ ¬ g.Testable := by
    rw [Testable, not_or, not_not, not_not]
  rw [hparsed, runParsed, if_neg (by rw [g.privileged]; decide), g.initModuleAll_eq]
  simp only [hempty]
  by_cases htestable : g.Testable
  · rw [if_neg (not_not.mpr htestable), if_neg (not_not.mpr rfl), if_neg (not_not.mpr htestable)]
    rfl
  · rw [if_pos htestable, if_pos (by decide), if_pos htestable]

-- With success and with no other code the exit status is 0.
theorem status_eq_zero : g.test.status = 0 ↔ g.test.code = 0 := by
  have hseen : Seen g.test.code := World.returned_seen g.test.steps g.test.returned
  constructor
  · intro hstatus
    exact hseen.resolve_right (not_not.mpr hstatus)
  · intro hcode
    rw [ModuleRun.status, hcode]
    decide

/-- The firmware calls the page System RAM, the kernel has been told to leave it alone, and a byte of it is in
the window. -/
structure InReach (x : Nat) : Prop where
  ram : ∃ e ∈ g.fw, samePrefix systemRam e.type = true ∧ e.start ≤ x / pageSize * pageSize ∧
    (x / pageSize + 1) * pageSize ≤ e.last + 1
  aboveLimit : g.ex.run.memLimit / pageSize ≤ x / pageSize
  inWindow : max (x / pageSize * pageSize) g.parm.range.start <
    min ((x / pageSize + 1) * pageSize) g.parm.range.stop

variable {g}

theorem InReach.selected {x : Nat} (h : g.InReach x) :
    Selected mc g.ex.run.memLimit g.ex.run.parm (x / pageSize) where
  ram := by
    rw [g.firmware, ramPage_firmware]
    exact h.ram
  aboveLimit := h.aboveLimit
  inWindow := by
    rw [g.range]
    exact h.inWindow

theorem InReach.testable {x : Nat} (h : g.InReach x) : g.Testable := by
  obtain ⟨rw, hrw, hin⟩ := (g.ex.run.rangesOf.selected x).mpr h.selected
  obtain ⟨hstop, -⟩ := g.ex.run.range_mapped hrw
  have hne : rw.start ≠ rw.stop := by
    have hlow : rw.phyStart ≤ x := hin.1
    have hhigh : x < rw.phyEnd := hin.2
    omega
  exact Or.inl (List.countP_pos_iff.mpr ⟨rw, hrw, decide_eq_true hne⟩).ne'

variable (g)

theorem given : Given g.env.shifter .initial g.opts g.parm :=
  parse_given g.accepted

theorem isItem {item : Int} (h : item ∈ testItems g.ex.run.testItem) : 0 ≤ item ∧ item ≤ 10 := by
  obtain ⟨hlow, hhigh⟩ := isItem_accepted (parseTestModes_storesPairs g.given.parseTestModes) g.testItem item h
  have hbound : item < 11 := hhigh
  omega

/-- The command line asks for the comparisons with `-s`, and for one of the items that compare every word with
a pattern and with its complement, or for all of them. -/
structure Searches : Prop where
  comparison : CliOption.comparison ∈ g.opts
  finder : g.opts.filterMap CliOption.testmodeArg = [] ∨ ∃ item ∈ testItems g.ex.run.testItem, item ∈ finders

variable {g}

theorem Searches.exists_finder (h : g.Searches) : ∃ item ∈ testItems g.ex.run.testItem, item ∈ finders := by
  rcases h.finder with hnone | hfinder
  · rw [testItems_default g.given hnone g.testItem]
    decide
  · exact hfinder

theorem Searches.noComp_eq (h : g.Searches) : g.ex.run.noComp = hasComparision := by
  rw [g.noComp, g.given.noComp, if_pos (List.contains_iff_mem.mpr h.comparison)]
  rfl

end ProgramRun

def smallOptions : List CliOption := [.comparison, .testmode "10,0".toList, .range "0x102800,0x103800".toList]

def smallEnv : ProgramEnv where
  shifter := x86Shifter
  onlyInstance := true
  root := true
  signal := none
  xMax := 128
  sort := insertionKernelSort
  driver := .fresh []
  startup := smallStartup
  memTotal := 0
  memFree := 0
  calls := smallRun.calls
  clearEcc := 0
  coreNum := 2

theorem smallOptions_parsed : ∃ p, parse smallEnv.shifter (.options smallOptions false) = .parsed p ∧
    p.clearEcc = false ∧ p.exitError = false ∧
    (⟨p.range.start, p.range.stop, p.listInfo⟩ : TestParm) = smallRun.parm ∧ p.mode = smallRun.mode ∧
    p.cpu = smallRun.cpu ∧ p.noComp = hasComparision ∧
    expandItems p.testItem = some ([10, 0] ++ List.replicate 20 (-1)) :=
  ⟨_, rfl, rfl, rfl, rfl, rfl, rfl, rfl, by decide⟩

def searchingRun : CleanRun smallMachine := { twoItemsRun with noComp := hasComparision }

-- The small machine with any memory.
theorem exists_smallProgram {σ : Type} (bus : LongBus σ) (mem : σ) : ∃ g : ProgramRun smallMachine σ,
    g.ex.bus = bus ∧ g.opts = smallOptions ∧ g.fw = [smallEntry] ∧
      g.ex.run.testItem = searchingRun.testItem ∧ g.ex.run.memLimit = 0x101000 ∧
      g.parm.range.start = 0x102800 ∧ g.parm.range.stop = 0x103800 := by
  obtain ⟨ex, hbus, rounds, hcreated, hrun⟩ := searchingRun.exists_execution smallRun_inUserSpace plainEnv bus
    mem (by decide)
  obtain ⟨p, hparse, hclear, hexit, hrange, hmode, hcpu, hcomp, hitems⟩ := smallOptions_parsed
  let g : ProgramRun smallMachine σ :=
    { ex := ex
      env := smallEnv
      alone := rfl
      privileged := rfl
      signal := rfl
      memInfo := ⟨rfl, rfl⟩
      fresh := rfl
      sort := by rw [hrun]; rfl
      calls := by rw [hrun]; rfl
      coreNum := by rw [hrun]; rfl
      fw := [smallEntry]
      boots := by rw [hrun]; exact boots_small
      firmware := by decide
      opts := smallOptions
      parm := p
      accepted := hparse
      testAsked := hclear
      range := by rw [hrun]; exact hrange.symm
      mode := by rw [hrun]; exact hmode.symm
      cpu := by rw [hrun]; exact hcpu.symm
      noComp := by rw [hrun]; exact hcomp.symm
      testItem := by rw [hrun]; exact hitems
      bind := true
      mmap := fun _ => none
      test := .quiet _
      exitError := hexit.symm }
  exact ⟨g, hbus, rfl, rfl, by rw [show g.ex = ex from rfl, hrun]; rfl,
    by rw [show g.ex = ex from rfl, hrun]; rfl, congrArg TestParm.start hrange, congrArg TestParm.stop hrange⟩

-- A test that finds nothing.
theorem main_verdict_small : ∃ x, main smallEnv (.options smallOptions false) (fun _ _ => 0) = some x ∧
    (x.verdict = some .pass → x.status = 0) ∧ (x.verdict = some .fail → x.status ≠ 0) ∧
      (x.verdict = none → x.status = 0 → AskedOtherwise smallEnv (.options smallOptions false)) := by
  have hcode : ∀ exitOnError, ModuleCode exitOnError 0 := by
    intro exitOnError
    refine ⟨0, (ModuleRun.quiet 0).events, (ModuleRun.quiet 0).last, ?_, rfl⟩
    cases exitOnError
    · exact (ModuleRun.quiet 0).steps
    · rfl
  have hcalls : smallEnv.calls.Errnos := ⟨nofun, nofun, nofun, nofun, by decide⟩
  have hmain : main smallEnv (.options smallOptions false) (fun _ _ => 0) = some ⟨0, some .pass⟩ := by
    decide +kernel
  exact ⟨_, hmain, main_verdict hcalls (fun p _ => hcode p.exitError) hmain⟩

end MoBoMemory.App
