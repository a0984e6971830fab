import MoBoMemory.App.Processes

/-!
# A second fork that fails

`module_test` assigns the -1 of a failing fork to `pidb` and returns.  The MCE child stays behind, and the
handler takes `pidb` for the test child.
-/

namespace MoBoMemory.App

open Base

namespace World

/-- The MCE child at the forks: nobody has asked it to end. -/
def Forking (w : World) : Prop :=
  match w.point with
  | .firstCheck | .forkMce => w.mce = .unborn ∧ w.abrt = false
  | .forkTest | .setPidb _ => w.mce.Born ∧ w.abrt = false
  | _ => True

/-- What the failing fork leaves behind: an MCE child that nobody stops or waits for. -/
structure Orphaned (w : World) : Prop where
  forking : w.Forking
  orphan : w.pidb = .minusOne → (∃ code, w.point = .returned code) ∧ w.mce.Born ∧ w.abrt = false
  own : w.broadcast = true → w.pidb = .minusOne

section Orphans

variable {exitOnError : Bool} {w w' : World}

theorem orphaned_start (log : Nat) : (World.start log).Orphaned where
  forking := ⟨rfl, rfl⟩
  orphan := nofun
  own := nofun

-- A step of the MCE child, or of the handler.
theorem Orphaned.frame (hw : w.Orphaned) (hpoint : w'.point = w.point) (hpidb : w'.pidb = w.pidb)
    (hmce : w.mce = .unborn → w'.mce = .unborn) (hborn : w.mce.Born → w'.mce.Born)
    (habrt : w.abrt = false → w'.abrt = false) (hown : w'.broadcast = true → w.pidb = .minusOne) :
    w'.Orphaned := by
  constructor
  · have hforking := hw.forking
    unfold Forking at *
    rw [hpoint]
    split
    all_goals simp_all
  · intro hminus
    rw [hpoint]
    obtain ⟨hreturned, hchild, hno⟩ := hw.orphan (hpidb ▸ hminus)
    exact ⟨hreturned, hborn hchild, habrt hno⟩
  · intro hbroadcast
    rw [hpidb]
    exact hown hbroadcast

theorem orphaned_statement (hw : w.Orphaned) (h : w.statement = some w') : w'.Orphaned := by
  have hforking := hw.forking
  have hminus : w.pidb = .minusOne → ∃ code, w.point = .returned code := fun hpidb => (hw.orphan hpidb).1
  have hown : w.pidb ≠ .minusOne → w.broadcast = false := fun hpidb => by
    simpa using fun hbroadcast => hpidb (hw.own hbroadcast)
  unfold Forking at hforking
  unfold statement at h
  split at h
  all_goals try split at h
  all_goals cases h
  all_goals refine ⟨?_, ?_, ?_⟩
  all_goals simp_all [Forking, Child.Born]

theorem orphaned_step {e : Event} (hw : w.Orphaned) (h : w.step exitOnError e = some w') :
    w'.Orphaned := by
  cases e with
  | statement =>
      simp only [step, Option.ite_none_right_eq_some] at h
      exact orphaned_statement hw h.2
  | forkFails errno =>
      have hforking := hw.forking
      simp only [step] at h
      split at h
      · next hpoint =>
          cases h
          refine ⟨trivial, fun hpidb => ?_, hw.own⟩
          obtain ⟨⟨code, hcode⟩, -⟩ := hw.orphan hpidb
          rw [hpoint.2] at hcode
          cases hcode
      · simp only [Option.ite_none_right_eq_some, Option.some.injEq] at h
        obtain ⟨⟨-, hpoint⟩, rfl⟩ := h
        simp only [Forking, hpoint] at hforking
        refine ⟨hforking, fun hpidb => ?_, hw.own⟩
        obtain ⟨⟨code, hcode⟩, -⟩ := hw.orphan hpidb
        rw [hpoint] at hcode
        cases hcode
  | checkFails =>
      simp only [step, Option.ite_none_right_eq_some, Option.some.injEq] at h
      obtain ⟨⟨-, hpoint⟩, rfl⟩ := h
      refine ⟨trivial, fun hpidb => ?_, hw.own⟩
      obtain ⟨⟨code, hcode⟩, -⟩ := hw.orphan hpidb
      rcases hpoint with hpoint | hpoint
      all_goals
        rw [hpoint] at hcode
        cases hcode
  | handler =>
      simp only [step, handlerStep] at h
      split at h
      all_goals try split at h
      all_goals try split at h
      all_goals cases h
      all_goals exact hw.frame rfl rfl id id id (by simp_all [hw.own])
  | callReturns | catchUsr1 | testStarts | testEnds code =>
      simp only [step, Option.ite_none_right_eq_some, Option.some.injEq] at h
      obtain ⟨-, rfl⟩ := h
      exact hw.frame rfl rfl id id id hw.own
  | testUsr2 =>
      simp only [step, testUsr2, Option.ite_none_right_eq_some] at h
      obtain ⟨-, h⟩ := h
      split at h
      all_goals cases h
      all_goals exact hw.frame rfl rfl id id id hw.own
  | mceStarts | mceOpens | mceGivesUp errno | mceTells =>
      simp only [step, Option.ite_none_right_eq_some, Option.some.injEq] at h
      obtain ⟨hmce, rfl⟩ := h
      exact hw.frame rfl rfl (fun hnone => by simp [hmce] at hnone) (fun _ => trivial) id hw.own
  | mcePolls =>
      simp only [step, Option.ite_none_right_eq_some, Option.some.injEq] at h
      obtain ⟨⟨hmce, -⟩, rfl⟩ := h
      exact hw.frame rfl rfl (fun hnone => by simp [hmce] at hnone) (fun _ => trivial) id hw.own
  | mceAbrt =>
      simp only [step, mceAbrt, Option.ite_none_right_eq_some] at h
      obtain ⟨habrt, h⟩ := h
      split at h
      all_goals cases h
      all_goals
        exact hw.frame rfl rfl (fun hnone => by simp_all) (fun _ => trivial) (fun _ => rfl) hw.own
  | mceUsr2 =>
      simp only [step] at h
      split at h
      · next p hmce =>
          simp only [Option.ite_none_right_eq_some, Option.some.injEq] at h
          obtain ⟨-, rfl⟩ := h
          exact hw.frame rfl rfl (fun hnone => by simp [hmce] at hnone) (fun _ => trivial) id hw.own
      · cases h
  | machineCheck =>
      cases h
      exact hw.frame rfl rfl id id id hw.own

/-- The predicate holds after some further events. -/
def CanReach (exitOnError : Bool) (P : World → Prop) (w : World) : Prop :=
  ∃ (events : List Event) (w' : World), events.foldlM (step exitOnError) w = some w' ∧ P w'

theorem CanReach.step {P : World → Prop} {e : Event} (h : w.step exitOnError e = some w')
    (hw' : w'.CanReach exitOnError P) : w.CanReach exitOnError P := by
  obtain ⟨events, w'', hrun, hP⟩ := hw'
  exact ⟨e :: events, w'', by rw [List.foldlM_cons, h]; exact hrun, hP⟩

-- With -1 in `pidb` the handler signals every process.
theorem broadcasts_of_handler (hpidb : w.pidb = .minusOne)
    (hhandler : w.handler = some .setMceFlag ∨ w.handler = some .forward) :
    w.CanReach exitOnError fun w' => w'.broadcast = true := by
  have hforward : ∀ w : World, w.pidb = .minusOne → w.handler = some .forward →
      w.CanReach exitOnError fun w' => w'.broadcast = true := by
    intro w hpidb hforward
    refine CanReach.step (e := .handler) (by simp only [World.step, handlerStep, hforward, hpidb]; rfl) ?_
    exact ⟨[], _, rfl, rfl⟩
  rcases hhandler with hset | hset
  · refine CanReach.step (e := .handler) (by simp only [World.step, handlerStep, hset]; rfl) ?_
    exact hforward _ hpidb rfl
  · exact hforward w hpidb hset

theorem broadcasts_of_usr1 (hpidb : w.pidb = .minusOne) (husr1 : w.usr1 = true) :
    w.CanReach exitOnError fun w' => w'.broadcast = true := by
  cases hhandler : w.handler with
  | none =>
      refine CanReach.step (e := .catchUsr1) (by simp only [World.step, hhandler, husr1]; rfl) ?_
      exact broadcasts_of_handler hpidb (Or.inl rfl)
  | some next =>
      cases next with
      | setMceFlag => exact broadcasts_of_handler hpidb (Or.inl hhandler)
      | forward => exact broadcasts_of_handler hpidb (Or.inr hhandler)
      | setTermination =>
          refine CanReach.step (e := .handler) (by simp only [World.step, handlerStep, hhandler]; rfl) ?_
          refine CanReach.step (e := .catchUsr1) (by simp only [World.step, husr1]; rfl) ?_
          exact broadcasts_of_handler hpidb (Or.inl rfl)

-- A machine check is enough, as long as the MCE child lives.
theorem broadcasts_of_alive (hpidb : w.pidb = .minusOne) {p : McePoint} (hmce : w.mce = .alive p) :
    w.CanReach exitOnError fun w' => w'.broadcast = true := by
  have htelling : ∀ w : World, w.pidb = .minusOne → w.mce = .alive .telling →
      w.CanReach exitOnError fun w' => w'.broadcast = true := by
    intro w hpidb hmce
    refine CanReach.step (e := .mceTells) (by simp only [World.step, hmce]; rfl) ?_
    exact broadcasts_of_usr1 hpidb rfl
  have hpolling : ∀ w : World, w.pidb = .minusOne → w.mce = .alive .polling →
      w.CanReach exitOnError fun w' => w'.broadcast = true := by
    intro w hpidb hmce
    refine CanReach.step (e := .machineCheck) rfl ?_
    refine CanReach.step (e := .mcePolls)
      (by simp only [World.step, hmce, if_pos (And.intro trivial (Nat.succ_pos _))]; rfl) ?_
    exact htelling _ hpidb rfl
  have hopening : ∀ w : World, w.pidb = .minusOne → w.mce = .alive .opening →
      w.CanReach exitOnError fun w' => w'.broadcast = true := by
    intro w hpidb hmce
    refine CanReach.step (e := .mceOpens) (by simp only [World.step, hmce]; rfl) ?_
    exact hpolling _ hpidb rfl
  cases p with
  | telling => exact htelling w hpidb hmce
  | polling => exact hpolling w hpidb hmce
  | opening => exact hopening w hpidb hmce
  | starting =>
      refine CanReach.step (e := .mceStarts) (by simp only [World.step, hmce]; rfl) ?_
      exact hopening _ hpidb rfl


end Orphans

end World

variable {exitOnError : Bool} {log : Nat} {events : List Event} {w : World}

/-- There is no process left for the test child. -/
def shortEvents : List Event :=
  [.statement, .callReturns, .statement, .callReturns, .forkFails eagain, .callReturns, .statement]

end MoBoMemory.App
