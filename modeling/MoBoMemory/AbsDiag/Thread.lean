import MoBoMemory.Base.Tables

/-!
# The poller thread

The module starts a thread when it is loaded and stops it when it is removed.  `exit` says that the
thread is not in its loop, and it says so too for a thread that has not begun to run; the two parties
are stepped statement by statement.
-/

namespace MoBoMemory.AbsDiag

open Base

/-- `ktdata_t`; of a pointer it is kept whether it is set. -/
structure Ktdata where
  mcamce : Bool
  mcamceRefcnt : Nat
  term : Bool
  exit : Bool
deriving DecidableEq

def Ktdata.zero : Ktdata := ⟨false, 0, false, false⟩

/-- `kthrd_t`. -/
structure Kthrd where
  onRun : Bool
  onStop : Bool
  pid : Int
deriving DecidableEq

def Kthrd.zero : Kthrd := ⟨false, false, 0⟩

/-- The next statement of the module: `abs_diag_thrd_init` with `dt_thrd_start`, then
`mcamce_thrd_start` and `mcamce_thrd_stop`, then `abs_diag_thrd_clean` with `dt_thrd_stop`. -/
inductive MainPc where
  | initMemset | initRefcnt | initExit | kthrdInit | setOnRun | setOnStop
  | startTest | startTerm | kernelThread
  | setMcamce | mcamceRun | mcamceShutdown | clearMcamce
  | stopTest | pidTest | onStop | clearPid | waitExit
  | cleanMemset | returned
deriving DecidableEq

/-- The next statement of the thread: `run_proc` and `f_on_run`. -/
inductive ThreadPc where
  | onRunTest | thrdRun | whileTest | onTimer | msleep | shutdownRefcnt | shutdownExit | finished
deriving DecidableEq

/-- The globals and the two parties; `told` if `term` has been set since the thread was started. -/
structure Thrd where
  kt : Ktdata
  thrd : Kthrd
  main : MainPc
  thread : Option ThreadPc
  told : Bool
deriving DecidableEq

def Thrd.loading : Thrd := ⟨.zero, .zero, .initMemset, none, false⟩

/-- A statement of the module or of the thread; `pid` is what `kernel_thread` returns. -/
inductive Move where
  | main (pid : Int)
  | thread

def mainStep (s : Thrd) (pid : Int) : Option Thrd :=
  match s.main with
  | .initMemset => some { s with kt := .zero, main := .initRefcnt }
  | .initRefcnt => some { s with kt := { s.kt with mcamceRefcnt := 0 }, main := .initExit }
  | .initExit => some { s with kt := { s.kt with exit := true }, main := .kthrdInit }
  | .kthrdInit => some { s with thrd := .zero, main := .setOnRun }
  | .setOnRun => some { s with thrd := { s.thrd with onRun := true }, main := .setOnStop }
  | .setOnStop => some { s with thrd := { s.thrd with onStop := true }, main := .startTest }
  | .startTest => some { s with main := if s.kt.exit then .startTerm else .setMcamce }
  | .startTerm => some { s with kt := { s.kt with term := false }, main := .kernelThread }
  | .kernelThread => some { s with
      thrd := { s.thrd with pid := pid }
      thread := if 0 < pid then some .onRunTest else none
      main := .setMcamce }
  | .setMcamce => some { s with kt := { s.kt with mcamce := true }, main := .mcamceRun }
  | .mcamceRun => some { s with
      kt := { s.kt with mcamceRefcnt := s.kt.mcamceRefcnt + 1 }, main := .mcamceShutdown }
  | .mcamceShutdown => some { s with
      kt := { s.kt with mcamceRefcnt := s.kt.mcamceRefcnt - 1 }, main := .clearMcamce }
  | .clearMcamce => some { s with kt := { s.kt with mcamce := false }, main := .stopTest }
  | .stopTest => some { s with main := if s.kt.exit then .cleanMemset else .pidTest }
  | .pidTest => some { s with main := if 0 < s.thrd.pid then .onStop else .waitExit }
  | .onStop =>
      if s.thrd.onStop then
        some { s with kt := { s.kt with term := true }, told := true, main := .clearPid }
      else some { s with main := .clearPid }
  | .clearPid => some { s with thrd := { s.thrd with pid := 0 }, main := .waitExit }
  -- the limit of 1000 turns is left out: the loop waits for the exit flag
  | .waitExit => some { s with main := if s.kt.exit then .cleanMemset else .waitExit }
  | .cleanMemset => some { s with kt := .zero, main := .returned }
  | .returned => none

def threadStep (s : Thrd) : Option Thrd :=
  match s.thread with
  | some .onRunTest =>
      some { s with thread := some (if s.thrd.onRun then .thrdRun else .finished) }
  | some .thrdRun => some { s with kt := { s.kt with exit := false }, thread := some .whileTest }
  | some .whileTest =>
      some { s with thread := some (if s.kt.term then .shutdownRefcnt else .onTimer) }
  -- the poll itself is skipped if no banks are given; either way the turn goes on
  | some .onTimer => some { s with thread := some .msleep }
  | some .msleep => some { s with thread := some .whileTest }
  | some .shutdownRefcnt =>
      some { s with kt := { s.kt with mcamceRefcnt := 0 }, thread := some .shutdownExit }
  | some .shutdownExit => some { s with kt := { s.kt with exit := true }, thread := some .finished }
  | some .finished => none
  | none => none

def Thrd.step (s : Thrd) : Move → Option Thrd
  | .main pid => mainStep s pid
  | .thread => threadStep s

/-! ## What may go wrong -/

/-- The thread begins a turn of its loop or polls. -/
def Thrd.Turns (s : Thrd) : Prop :=
  s.thread = some .onTimer ∨ (s.thread = some .whileTest ∧ s.kt.term = false)

/-- No turn after `abs_diag_thrd_clean` has returned, and it does not return before a started thread
has been told to terminate. -/
def Thrd.Confined (s : Thrd) : Move → Prop
  | .thread => s.Turns → s.main ≠ .returned
  | .main _ => s.main = .cleanMemset → s.thread ≠ none → s.told = true

/-- The thread has not yet marked itself running. -/
def ThreadPc.Late (pc : ThreadPc) : Prop := pc = .onRunTest ∨ pc = .thrdRun

/-- When `dt_thrd_stop` asks whether the thread is running, a started thread has marked itself. -/
def Thrd.Marked (s : Thrd) : Move → Prop
  | .thread => True
  | .main _ => s.main = .stopTest → ∀ pc ∈ s.thread, ¬ pc.Late

instance (s : Thrd) : Decidable s.Turns := inferInstanceAs (Decidable (_ ∨ _))

instance (pc : ThreadPc) : Decidable pc.Late := inferInstanceAs (Decidable (_ ∨ _))

instance (s : Thrd) (mv : Move) : Decidable (s.Confined mv) :=
  match mv with
  | .thread => inferInstanceAs (Decidable (s.Turns → s.main ≠ .returned))
  | .main _ =>
      inferInstanceAs (Decidable (s.main = .cleanMemset → s.thread ≠ none → s.told = true))

instance (s : Thrd) (mv : Move) : Decidable (s.Marked mv) :=
  match mv with
  | .thread => inferInstanceAs (Decidable True)
  | .main _ => inferInstanceAs (Decidable (s.main = .stopTest → ∀ pc ∈ s.thread, ¬ pc.Late))

/-! ## Runs in which the thread marks itself in time -/

/-- In the loop. -/
def ThreadPc.Looping (pc : ThreadPc) : Prop := pc = .whileTest ∨ pc = .onTimer ∨ pc = .msleep

def ThreadPc.Leaving (pc : ThreadPc) : Prop := pc = .shutdownRefcnt ∨ pc = .shutdownExit

/-- No thread yet. -/
structure Thrd.Starting (s : Thrd) : Prop where
  thread : s.thread = none
  told : s.told = false

/-- From the start of the thread to the request to stop: `exit` tells whether it is in its loop. -/
structure Thrd.Polling (s : Thrd) : Prop where
  onRun : s.thrd.onRun = true
  onStop : s.thrd.onStop = true
  term : s.kt.term = false
  told : s.told = false
  thread : (s.thread = none ∧ s.kt.exit = true) ∨
    0 < s.thrd.pid ∧ ∃ pc, s.thread = some pc ∧
      ((pc.Late ∧ s.kt.exit = true) ∨ (pc.Looping ∧ s.kt.exit = false))

/-- From the request to the exit flag. -/
structure Thrd.Stopping (s : Thrd) : Prop where
  term : s.kt.term = true
  told : s.told = true
  thread : ∃ pc, s.thread = some pc ∧
    (((pc.Looping ∨ pc.Leaving) ∧ s.kt.exit = false) ∨ (pc = .finished ∧ s.kt.exit = true))

def Thrd.Stopped (s : Thrd) : Prop :=
  s.thread = none ∨ (s.thread = some .finished ∧ s.told = true)

/-- What each statement of the module may rely on. -/
def Thrd.Inv (s : Thrd) : Prop :=
  match s.main with
  | .initMemset | .initRefcnt | .initExit => s.Starting
  | .kthrdInit | .setOnRun => s.Starting ∧ s.kt.exit = true
  | .setOnStop => s.Starting ∧ s.kt.exit = true ∧ s.thrd.onRun = true
  | .startTest | .startTerm =>
      s.Starting ∧ s.kt.exit = true ∧ s.thrd.onRun = true ∧ s.thrd.onStop = true
  | .kernelThread =>
      s.Starting ∧ s.kt.exit = true ∧ s.thrd.onRun = true ∧ s.thrd.onStop = true ∧
        s.kt.term = false
  | .setMcamce | .mcamceRun | .mcamceShutdown | .clearMcamce | .stopTest => s.Polling
  | .pidTest | .onStop => s.Polling ∧ s.kt.exit = false
  | .clearPid | .waitExit => s.Stopping
  | .cleanMemset | .returned => s.Stopped

section Thread

variable {s s' : Thrd}

-- What no statement of the thread touches.
theorem threadStep_frame (h : threadStep s = some s') :
    s'.main = s.main ∧ s'.thrd = s.thrd ∧ s'.told = s.told ∧ s'.kt.term = s.kt.term ∧
      s'.thread ≠ none := by
  unfold threadStep at h
  split at h <;> first | contradiction | (obtain rfl := Option.some.inj h; simp)

theorem Thrd.Polling.thread_step (hs : s.Polling) (h : threadStep s = some s') : s'.Polling := by
  obtain ⟨-, hthrd, htold, hterm, -⟩ := threadStep_frame h
  refine ⟨hthrd ▸ hs.onRun, hthrd ▸ hs.onStop, hterm ▸ hs.term, htold ▸ hs.told, Or.inr ?_⟩
  rcases hs.thread with ⟨hnone, -⟩ | ⟨hpid, pc, hpc, hlate | hloop⟩
  · simp [threadStep, hnone] at h
  · refine ⟨hthrd ▸ hpid, ?_⟩
    rcases hlate with ⟨rfl | rfl, hexit⟩
    · simp only [threadStep, hpc, hs.onRun, if_true] at h
      obtain rfl := Option.some.inj h
      exact ⟨_, rfl, Or.inl ⟨Or.inr rfl, hexit⟩⟩
    · simp only [threadStep, hpc] at h
      obtain rfl := Option.some.inj h
      exact ⟨_, rfl, Or.inr ⟨Or.inl rfl, rfl⟩⟩
  · refine ⟨hthrd ▸ hpid, ?_⟩
    rcases hloop with ⟨rfl | rfl | rfl, hexit⟩
    · simp only [threadStep, hpc, hs.term] at h
      obtain rfl := Option.some.inj h
      exact ⟨_, rfl, Or.inr ⟨Or.inr (Or.inl rfl), hexit⟩⟩
    · simp only [threadStep, hpc] at h
      obtain rfl := Option.some.inj h
      exact ⟨_, rfl, Or.inr ⟨Or.inr (Or.inr rfl), hexit⟩⟩
    · simp only [threadStep, hpc] at h
      obtain rfl := Option.some.inj h
      exact ⟨_, rfl, Or.inr ⟨Or.inl rfl, hexit⟩⟩

-- A thread that is in its loop before the request stays there.
theorem Thrd.Polling.exit_step (hs : s.Polling) (hexit : s.kt.exit = false)
    (h : threadStep s = some s') : s'.kt.exit = false := by
  rcases hs.thread with ⟨-, hset⟩ | ⟨-, pc, hpc, ⟨-, hset⟩ | ⟨hloop, -⟩⟩
  · simp [hset] at hexit
  · simp [hset] at hexit
  · rcases hloop with rfl | rfl | rfl
    all_goals
      simp only [threadStep, hpc] at h
      obtain rfl := Option.some.inj h
      exact hexit

theorem Thrd.Stopping.thread_step (hs : s.Stopping) (h : threadStep s = some s') :
    s'.Stopping := by
  obtain ⟨-, -, htold, hterm, -⟩ := threadStep_frame h
  refine ⟨hterm ▸ hs.term, htold ▸ hs.told, ?_⟩
  obtain ⟨pc, hpc, ⟨hrun, hexit⟩ | ⟨rfl, -⟩⟩ := hs.thread
  · rcases hrun with (rfl | rfl | rfl) | (rfl | rfl)
    · simp only [threadStep, hpc, hs.term, if_true] at h
      obtain rfl := Option.some.inj h
      exact ⟨_, rfl, Or.inl ⟨Or.inr (Or.inl rfl), hexit⟩⟩
    · simp only [threadStep, hpc] at h
      obtain rfl := Option.some.inj h
      exact ⟨_, rfl, Or.inl ⟨Or.inl (Or.inr (Or.inr rfl)), hexit⟩⟩
    · simp only [threadStep, hpc] at h
      obtain rfl := Option.some.inj h
      exact ⟨_, rfl, Or.inl ⟨Or.inl (Or.inl rfl), hexit⟩⟩
    · simp only [threadStep, hpc] at h
      obtain rfl := Option.some.inj h
      exact ⟨_, rfl, Or.inl ⟨Or.inr (Or.inr rfl), hexit⟩⟩
    · simp only [threadStep, hpc] at h
      obtain rfl := Option.some.inj h
      exact ⟨_, rfl, Or.inr ⟨rfl, rfl⟩⟩
  · simp [threadStep, hpc] at h

theorem Thrd.Stopped.no_step (hs : s.Stopped) : threadStep s = none := by
  rcases hs with h | ⟨h, -⟩ <;> simp [threadStep, h]

theorem Thrd.Starting.no_step (hs : s.Starting) : threadStep s = none := by
  simp [threadStep, hs.thread]

-- Starting the thread is where the polling phase begins.
theorem polling_of_kernelThread (pid : Int) (hs : s.Starting) (hexit : s.kt.exit = true)
    (hrun : s.thrd.onRun = true) (hstop : s.thrd.onStop = true) (hterm : s.kt.term = false) :
    Thrd.Polling { s with
      thrd := { s.thrd with pid := pid }
      thread := if 0 < pid then some .onRunTest else none
      main := .setMcamce } := by
  refine ⟨hrun, hstop, hterm, hs.told, ?_⟩
  by_cases hpid : 0 < pid
  · exact Or.inr ⟨hpid, .onRunTest, if_pos hpid, Or.inl ⟨Or.inl rfl, hexit⟩⟩
  · exact Or.inl ⟨if_neg hpid, hexit⟩

-- The request is issued to a thread that is in its loop.
theorem stopping_of_onStop (hs : s.Polling) (hexit : s.kt.exit = false) :
    Thrd.Stopping { s with kt := { s.kt with term := true }, told := true, main := .clearPid } := by
  refine ⟨rfl, rfl, ?_⟩
  rcases hs.thread with ⟨-, hset⟩ | ⟨-, pc, hpc, ⟨-, hset⟩ | ⟨hloop, -⟩⟩
  · simp [hset] at hexit
  · simp [hset] at hexit
  · exact ⟨pc, hpc, Or.inl ⟨Or.inl hloop, hexit⟩⟩

theorem Thrd.Polling.pid_pos (hs : s.Polling) (hexit : s.kt.exit = false) : 0 < s.thrd.pid := by
  rcases hs.thread with ⟨-, hset⟩ | ⟨hpid, -⟩
  · simp [hset] at hexit
  · exact hpid

-- A set exit flag means that no thread was started, or that it is late.
theorem Thrd.Polling.none_of_marked (hs : s.Polling) (hexit : s.kt.exit = true)
    (hmarked : ∀ pc, s.thread = some pc → ¬ pc.Late) : s.thread = none := by
  rcases hs.thread with ⟨hnone, -⟩ | ⟨-, pc, hpc, ⟨hlate, -⟩ | ⟨-, hclear⟩⟩
  · exact hnone
  · exact absurd hlate (hmarked pc hpc)
  · simp [hclear] at hexit

theorem Thrd.Stopping.stopped (hs : s.Stopping) (hexit : s.kt.exit = true) : s.Stopped := by
  obtain ⟨pc, hpc, ⟨-, hclear⟩ | ⟨rfl, -⟩⟩ := hs.thread
  · simp [hclear] at hexit
  · exact Or.inr ⟨hpc, hs.told⟩

theorem inv_main (pid : Int) (hs : s.Inv) (hmarked : s.Marked (.main pid))
    (h : mainStep s pid = some s') : s'.Inv := by
  unfold mainStep at h
  cases hmain : s.main <;> simp only [Thrd.Inv, hmain] at hs h
  case initMemset | initRefcnt =>
    obtain rfl := Option.some.inj h
    exact ⟨hs.thread, hs.told⟩
  case initExit =>
    obtain rfl := Option.some.inj h
    exact ⟨⟨hs.thread, hs.told⟩, rfl⟩
  case kthrdInit =>
    obtain rfl := Option.some.inj h
    exact ⟨⟨hs.1.thread, hs.1.told⟩, hs.2⟩
  case setOnRun =>
    obtain rfl := Option.some.inj h
    exact ⟨⟨hs.1.thread, hs.1.told⟩, hs.2, rfl⟩
  case setOnStop =>
    obtain rfl := Option.some.inj h
    exact ⟨⟨hs.1.thread, hs.1.told⟩, hs.2.1, hs.2.2, rfl⟩
  case startTest =>
    rw [if_pos hs.2.1] at h
    obtain rfl := Option.some.inj h
    exact ⟨⟨hs.1.thread, hs.1.told⟩, hs.2⟩
  case startTerm =>
    obtain rfl := Option.some.inj h
    exact ⟨⟨hs.1.thread, hs.1.told⟩, hs.2.1, hs.2.2.1, hs.2.2.2, rfl⟩
  case kernelThread =>
    obtain rfl := Option.some.inj h
    exact polling_of_kernelThread pid hs.1 hs.2.1 hs.2.2.1 hs.2.2.2.1 hs.2.2.2.2
  case setMcamce | mcamceRun | mcamceShutdown | clearMcamce =>
    obtain rfl := Option.some.inj h
    exact ⟨hs.onRun, hs.onStop, hs.term, hs.told, hs.thread⟩
  case stopTest =>
    obtain rfl := Option.some.inj h
    cases hexit : s.kt.exit with
    | true =>
        -- no thread that is marked is missed here
        exact Or.inl (hs.none_of_marked hexit (hmarked hmain))
    | false => exact ⟨⟨hs.onRun, hs.onStop, hs.term, hs.told, hs.thread⟩, hexit⟩
  case pidTest =>
    rw [if_pos (hs.1.pid_pos hs.2)] at h
    obtain rfl := Option.some.inj h
    exact ⟨⟨hs.1.onRun, hs.1.onStop, hs.1.term, hs.1.told, hs.1.thread⟩, hs.2⟩
  case onStop =>
    rw [if_pos hs.1.onStop] at h
    obtain rfl := Option.some.inj h
    exact stopping_of_onStop hs.1 hs.2
  case clearPid =>
    obtain rfl := Option.some.inj h
    exact ⟨hs.term, hs.told, hs.thread⟩
  case waitExit =>
    obtain rfl := Option.some.inj h
    cases hexit : s.kt.exit with
    | true => exact hs.stopped hexit
    | false => exact ⟨hs.term, hs.told, hs.thread⟩
  case cleanMemset =>
    obtain rfl := Option.some.inj h
    exact hs
  case returned => contradiction

theorem inv_thread (hs : s.Inv) (h : threadStep s = some s') : s'.Inv := by
  have hmain := (threadStep_frame h).1
  unfold Thrd.Inv at hs ⊢
  rw [hmain]
  cases hpc : s.main <;> simp only [hpc] at hs ⊢
  case initMemset | initRefcnt | initExit => simp [hs.no_step] at h
  case kthrdInit | setOnRun | setOnStop | startTest | startTerm | kernelThread =>
    simp [hs.1.no_step] at h
  case setMcamce | mcamceRun | mcamceShutdown | clearMcamce | stopTest => exact hs.thread_step h
  case pidTest | onStop => exact ⟨hs.1.thread_step h, hs.1.exit_step hs.2 h⟩
  case clearPid | waitExit => exact hs.thread_step h
  case cleanMemset | returned => simp [hs.no_step] at h

theorem inv_step (mv : Move) (hmarked : s.Marked mv) (hs : s.Inv) (h : s.step mv = some s') :
    s'.Inv := by
  cases mv with
  | main pid => exact inv_main pid hs hmarked h
  | thread => exact inv_thread hs h

theorem confined_of_inv (mv : Move) (hs : s.Inv) : s.Confined mv := by
  cases mv with
  | thread =>
      intro hturns hmain
      have hstopped : s.Stopped := by simpa only [Thrd.Inv, hmain] using hs
      rcases hstopped with hnone | ⟨hfinished, -⟩ <;> simp [Thrd.Turns, *] at hturns
  | main pid =>
      intro hmain hthread
      have hstopped : s.Stopped := by simpa only [Thrd.Inv, hmain] using hs
      rcases hstopped with hnone | ⟨-, htold⟩
      · exact absurd hnone hthread
      · exact htold

end Thread

/-! ## A late thread -/

section Late

variable {s s' : Thrd}

/-- The stop request was skipped although a thread was started. -/
structure Thrd.Missed (s : Thrd) : Prop where
  main : s.main = .cleanMemset
  thread : s.thread ≠ none
  told : s.told = false

-- Once the request was skipped, the run cannot complete without the violation.
theorem Thrd.Missed.not_confined {moves : List Move} (hs : s.Missed)
    (hrun : moves.foldlM Thrd.step s = some s') (hend : s'.main = .returned) :
    ¬ EachStep Thrd.step Thrd.Confined s moves := by
  induction moves generalizing s with
  | nil =>
      obtain rfl : s = s' := Option.some.inj hrun
      simp [hs.main] at hend
  | cons mv moves ih =>
      rintro ⟨hfirst, hrest⟩
      cases mv with
      | main pid => simpa [hs.told] using hfirst hs.main hs.thread
      | thread =>
          rw [List.foldlM_cons] at hrun
          obtain ⟨t, hstep, hrun⟩ := Option.bind_eq_some_iff.mp hrun
          obtain ⟨hmain, -, htold, -, hthread⟩ := threadStep_frame hstep
          have ht : t.Missed := ⟨hmain.trans hs.main, hthread, htold.trans hs.told⟩
          exact ih ht hrun (hrest t hstep)

theorem missed_of_not_marked {mv : Move} (hs : s.Inv) (hmarked : ¬ s.Marked mv) :
    ∃ t, s.step mv = some t ∧ t.Missed := by
  cases mv with
  | thread => exact absurd trivial hmarked
  | main pid =>
      simp only [Thrd.Marked, not_forall, not_not] at hmarked
      obtain ⟨hmain, pc, hmem, hlate⟩ := hmarked
      have hpc : s.thread = some pc := hmem
      have hpolling : s.Polling := by simpa only [Thrd.Inv, hmain] using hs
      have hexit : s.kt.exit = true := by
        by_contra hclear
        rcases hpolling.thread with ⟨-, hset⟩ | ⟨-, q, hq, ⟨-, hset⟩ | ⟨hloop, -⟩⟩
        · exact hclear hset
        · exact hclear hset
        · obtain rfl : pc = q := Option.some.inj (hpc.symm.trans hq)
          rcases hlate with rfl | rfl <;> simp [ThreadPc.Looping] at hloop
      refine ⟨{ s with main := .cleanMemset }, ?_, rfl, ?_, hpolling.told⟩
      · simp only [Thrd.step, mainStep, hmain, hexit, if_true]
      · simp [hpc]

-- A run that completes without the violation has not skipped the request.
theorem marked_of_confined {moves : List Move} (hs : s.Inv)
    (hrun : moves.foldlM Thrd.step s = some s') (hend : s'.main = .returned)
    (hconfined : EachStep Thrd.step Thrd.Confined s moves) :
    EachStep Thrd.step Thrd.Marked s moves := by
  induction moves generalizing s with
  | nil => trivial
  | cons mv moves ih =>
      rw [List.foldlM_cons] at hrun
      obtain ⟨t, hstep, hrest⟩ := Option.bind_eq_some_iff.mp hrun
      by_cases hmarked : s.Marked mv
      · refine ⟨hmarked, ?_⟩
        intro t' ht'
        obtain rfl : t = t' := Option.some.inj (hstep.symm.trans ht')
        exact ih (inv_step mv hmarked hs hstep) hrest (hconfined.2 t hstep)
      · obtain ⟨t', ht', hmissed⟩ := missed_of_not_marked hs hmarked
        obtain rfl : t = t' := Option.some.inj (hstep.symm.trans ht')
        exact absurd (hconfined.2 t hstep) (hmissed.not_confined hrest hend)

end Late

theorem inv_loading : Thrd.loading.Inv := ⟨rfl, rfl⟩

/-- The thread does not outlive the module, and is told to terminate, in every run in which it has
marked itself running when `dt_thrd_stop` asks; a run that completes otherwise violates it. -/
theorem thread_confined_iff (moves : List Move) :
    (EachStep Thrd.step Thrd.Marked .loading moves →
      EachStep Thrd.step Thrd.Confined .loading moves) ∧
    ∀ s, moves.foldlM Thrd.step .loading = some s → s.main = .returned →
      EachStep Thrd.step Thrd.Confined .loading moves →
        EachStep Thrd.step Thrd.Marked .loading moves := by
  constructor
  · exact EachStep.mono (fun _ mv _ hmarked hs hstep => inv_step mv hmarked hs hstep)
      (fun _ mv hs _ => confined_of_inv mv hs) inv_loading
  · intro s hrun hend hconfined
    exact marked_of_confined inv_loading hrun hend hconfined

/-- The module is loaded and removed before the thread has run, and then the thread polls. -/
def lateMoves : List Move := List.replicate 15 (.main 1) ++ List.replicate 4 .thread

theorem thread_outlives :
    (lateMoves.foldlM Thrd.step .loading).map (fun s => (s.main, s.thread, s.told)) =
        some (.returned, some .msleep, false) ∧
      ¬ EachStep Thrd.step Thrd.Confined .loading lateMoves := by
  decide

/-- The thread marks itself before the module is removed, and leaves its loop on request. -/
def timelyMoves : List Move :=
  List.replicate 9 (.main 1) ++ List.replicate 2 .thread ++ List.replicate 8 (.main 1) ++
    List.replicate 3 .thread ++ List.replicate 2 (.main 1)

theorem thread_confined_timely :
    EachStep Thrd.step Thrd.Marked .loading timelyMoves ∧
      EachStep Thrd.step Thrd.Confined .loading timelyMoves ∧
      ∃ s, timelyMoves.foldlM Thrd.step .loading = some s ∧ s.main = .returned ∧
        EachStep Thrd.step Thrd.Marked .loading timelyMoves := by
  have hmarked : EachStep Thrd.step Thrd.Marked .loading timelyMoves := by decide
  have hconfined := (thread_confined_iff timelyMoves).1 hmarked
  have hrun : timelyMoves.foldlM Thrd.step .loading =
      some ⟨.zero, ⟨true, true, 0⟩, .returned, some .finished, true⟩ := by decide
  exact ⟨hmarked, hconfined, _, hrun, rfl, (thread_confined_iff timelyMoves).2 _ hrun rfl hconfined⟩

end MoBoMemory.AbsDiag
