import MoBoMemory.App.Processes

/-!
# Runs of a module test

Every run comes to an end, and what `module_test` returns then is told by whether the MCE child has told of
a record: if it has, it is the code for a machine check, and otherwise what the tests have ended with.
-/

namespace MoBoMemory.App

open Base

namespace World

/-! ## Records and steps -/

/-- All the records there have been. -/
def total (w : World) : Nat := w.old + w.reported + w.batch + w.log

end World

def ParentPoint.left : ParentPoint → Nat
  | .firstCheck => 10
  | .forkMce => 9
  | .forkTest => 8
  | .setPidb _ => 7
  | .waitTest => 6
  | .killMce => 5
  | .waitMce => 4
  | .lastCheck => 3
  | .readTermination => 2
  | .readMce => 1
  | .returned _ => 0

def HandlerPoint.left : Option HandlerPoint → Nat
  | none => 0
  | some .setTermination => 1
  | some .forward => 3
  | some .setMceFlag => 4

def Child.left {π : Type} (left : π → Nat) : Child π → Nat
  | .unborn => 0
  | .alive p => left p
  | .zombie _ => 1
  | .reaped => 0

def McePoint.left : McePoint → Nat
  | .starting => 4
  | .opening => 3
  | .polling => 2
  | .telling => 8

def TestPoint.left : TestPoint → Nat
  | .starting => 3
  | .testing => 2

namespace World

/-- More steps than this are not possible without a new record. -/
def left (w : World) : Nat :=
  6 * w.point.left + w.inCall.toNat + HandlerPoint.left w.handler + w.mce.left McePoint.left +
    w.test.left TestPoint.left + 5 * w.usr1.toNat + w.usr2.toNat + w.abrt.toNat + w.mceUsr2.toNat + 7 * w.log

section Steps

variable {exitOnError : Bool} {w w' : World}

theorem statement_left (hcall : w.inCall = false) (h : w.statement = some w') :
    w'.total = w.total ∧ w'.left < w.left := by
  unfold statement at h
  split at h
  all_goals try split at h
  all_goals cases h
  all_goals simp [total, left, ParentPoint.left, Child.left, McePoint.left, TestPoint.left, *]
  all_goals try omega

theorem handlerStep_left (h : w.handlerStep exitOnError = some w') :
    w'.total = w.total ∧ w'.left < w.left := by
  unfold handlerStep at h
  split at h
  all_goals try split at h
  all_goals try split at h
  all_goals cases h
  all_goals simp [total, left, HandlerPoint.left, *]
  all_goals try omega

-- Every step but a new record uses up what is left.
theorem step_left {e : Event} (he : e ≠ .machineCheck) (h : w.step exitOnError e = some w') :
    w'.total = w.total ∧ w'.left < w.left := by
  cases e with
  | statement =>
      simp only [step, Option.ite_none_right_eq_some] at h
      exact statement_left h.1.1 h.2
  | handler => exact handlerStep_left h
  | forkFails errno =>
      simp only [step] at h
      split at h
      · next hpoint =>
          obtain ⟨⟨hcall, -⟩, hpoint⟩ := hpoint
          cases h
          simp [total, left, ParentPoint.left, hpoint, hcall]
      · simp only [Option.ite_none_right_eq_some, Option.some.injEq] at h
        obtain ⟨⟨⟨hcall, -⟩, hpoint⟩, rfl⟩ := h
        simp [total, left, ParentPoint.left, hpoint, hcall]
  | checkFails =>
      simp only [step, Option.ite_none_right_eq_some, Option.some.injEq] at h
      obtain ⟨⟨⟨hcall, -⟩, hpoint | hpoint⟩, rfl⟩ := h
      all_goals simp [total, left, ParentPoint.left, hpoint, hcall]
  | callReturns =>
      simp only [step, Option.ite_none_right_eq_some, Option.some.injEq] at h
      obtain ⟨⟨hcall, -⟩, rfl⟩ := h
      simp [total, left, hcall]
  | catchUsr1 =>
      simp only [step, Option.ite_none_right_eq_some, Option.some.injEq] at h
      obtain ⟨⟨hhandler, husr1⟩, rfl⟩ := h
      simp [total, left, HandlerPoint.left, hhandler, husr1]
      omega
  | testStarts | testEnds code =>
      simp only [step, Option.ite_none_right_eq_some, Option.some.injEq] at h
      obtain ⟨htest, rfl⟩ := h
      simp [total, left, Child.left, TestPoint.left, htest]
  | testUsr2 =>
      simp only [step, testUsr2, Option.ite_none_right_eq_some] at h
      obtain ⟨husr2, h⟩ := h
      split at h
      · next htest =>
          cases h
          refine ⟨rfl, ?_⟩
          simp only [left, Child.left, TestPoint.left, htest, husr2, Bool.toNat_true, Bool.toNat_false]
          omega
      · next htest =>
          cases h
          refine ⟨rfl, ?_⟩
          cases exitOnError
          all_goals
            simp only [left, Child.left, TestPoint.left, htest, husr2, Bool.toNat_true, Bool.toNat_false,
              if_true, Bool.false_eq_true, if_false]
            omega
      · cases h
  | mceStarts | mceOpens | mceGivesUp errno =>
      simp only [step, Option.ite_none_right_eq_some, Option.some.injEq] at h
      obtain ⟨hmce, rfl⟩ := h
      simp [total, left, Child.left, McePoint.left, hmce]
  | mcePolls =>
      simp only [step, Option.ite_none_right_eq_some, Option.some.injEq] at h
      obtain ⟨⟨hmce, hlog⟩, rfl⟩ := h
      simp [total, left, Child.left, McePoint.left, hmce]
      omega
  | mceTells =>
      simp only [step, Option.ite_none_right_eq_some, Option.some.injEq] at h
      obtain ⟨hmce, rfl⟩ := h
      simp [total, left, Child.left, McePoint.left, hmce]
      omega
  | mceAbrt =>
      simp only [step, mceAbrt, Option.ite_none_right_eq_some] at h
      obtain ⟨habrt, h⟩ := h
      split at h
      · next hmce =>
          cases h
          refine ⟨rfl, ?_⟩
          simp only [left, Child.left, McePoint.left, hmce, habrt, Bool.toNat_true, Bool.toNat_false]
          omega
      · next p _ hmce =>
          cases h
          refine ⟨rfl, ?_⟩
          cases p
          all_goals
            simp only [left, Child.left, McePoint.left, hmce, habrt, Bool.toNat_true, Bool.toNat_false]
            omega
      · cases h
  | mceUsr2 =>
      simp only [step] at h
      split at h
      · next p hmce =>
          simp only [Option.ite_none_right_eq_some, Option.some.injEq] at h
          obtain ⟨husr2, rfl⟩ := h
          refine ⟨rfl, ?_⟩
          cases p
          all_goals
            simp only [left, Child.left, McePoint.left, hmce, husr2, Bool.toNat_true, Bool.toNat_false]
            omega
      · cases h
  | machineCheck => exact absurd rfl he

theorem machineCheck_left (h : w.step exitOnError .machineCheck = some w') :
    w'.total = w.total + 1 ∧ w'.left = w.left + 7 := by
  cases h
  simp only [total, left]
  omega

-- The records of a run and the number of its steps.
theorem run_left {events : List Event} (h : events.foldlM (step exitOnError) w = some w') :
    w'.total = w.total + events.count .machineCheck ∧
      events.length + w'.left ≤ w.left + 8 * events.count .machineCheck := by
  induction events generalizing w with
  | nil =>
      obtain rfl := Option.some.inj h
      simp
  | cons e events ih =>
      rw [List.foldlM_cons] at h
      obtain ⟨w₁, hfirst, hrest⟩ := Option.bind_eq_some_iff.mp h
      obtain ⟨htotal, hleft⟩ := ih hrest
      by_cases hcheck : e = .machineCheck
      · obtain ⟨htotal₁, hleft₁⟩ := machineCheck_left (hcheck ▸ hfirst)
        rw [hcheck, List.count_cons_self, List.length_cons]
        omega
      · obtain ⟨htotal₁, hleft₁⟩ := step_left hcheck hfirst
        rw [List.count_cons_of_ne hcheck, List.length_cons]
        omega

/-- Unless `module_test` has returned, a step is possible that does not wait for a record. -/
theorem Inv.can_go_on (hw : w.Inv) (hpoint : ∀ code, w.point ≠ .returned code) :
    ∃ e : Event, e.Succeeds ∧ e ≠ .machineCheck ∧ (w.step exitOnError e).isSome := by
  by_cases hhandler : w.handler = none
  · by_cases husr1 : w.usr1 = true
    · exact ⟨.catchUsr1, trivial, by decide, by simp [step, hhandler, husr1]⟩
    · by_cases hcall : w.inCall = true
      · exact ⟨.callReturns, trivial, by decide, by simp [step, hhandler, husr1, hcall]⟩
      · have hready : w.Ready := ⟨by simpa using hcall, hhandler⟩
        have hfamily := hw.family
        have hstatement : w.statement.isSome → ∃ e : Event, e.Succeeds ∧ e ≠ .machineCheck ∧
            (w.step exitOnError e).isSome := fun hsome =>
          ⟨.statement, trivial, by decide, by simp only [step, if_pos hready]; exact hsome⟩
        -- only a `waitpid` may have to wait
        cases hat : w.point with
        | waitTest =>
            cases htest : w.test with
            | alive p =>
                cases p with
                | starting => exact ⟨.testStarts, trivial, by decide, by simp [step, htest]⟩
                | testing => exact ⟨.testEnds 0, trivial, by decide, by simp [step, htest]⟩
            | unborn | zombie _ | reaped => exact hstatement (by simp [statement, hat, htest])
        | waitMce =>
            cases hmce : w.mce with
            | alive p =>
                simp only [Family, hat] at hfamily
                have habrt := hfamily.2.2 p hmce
                exact ⟨.mceAbrt, trivial, by decide, by cases p <;> simp [step, mceAbrt, hmce, habrt]⟩
            | unborn | zombie _ | reaped => exact hstatement (by simp [statement, hat, hmce])
        | killMce => exact hstatement (by cases hmce : w.mce <;> simp [statement, hat, hmce])
        | setPidb failed => exact hstatement (by cases failed <;> simp [statement, hat])
        | returned code => exact absurd hat (hpoint code)
        | firstCheck | forkMce | forkTest | lastCheck | readTermination | readMce =>
            exact hstatement (by simp [statement, hat])
  · obtain ⟨next, hnext⟩ := Option.ne_none_iff_exists'.mp hhandler
    refine ⟨.handler, trivial, by decide, ?_⟩
    cases next with
    | setMceFlag | setTermination => simp [step, handlerStep, hnext]
    | forward =>
        cases hpidb : w.pidb with
        | child => cases htest : w.test <;> simp [step, handlerStep, hnext, hpidb, htest]
        | zero | minusOne => simp [step, handlerStep, hnext, hpidb]

end Steps

end World

/-! ## What `module_test` returns -/

section Runs

variable {exitOnError : Bool} {log : Nat} {events : List Event} {w : World}

theorem inv_run (hok : ∀ e ∈ events, e.Succeeds)
    (hrun : events.foldlM (World.step exitOnError) (.start log) = some w) : w.Inv :=
  foldlM_preserves Event.Succeeds (fun _ _ _ he hw hstep => World.inv_step he hw hstep) hok
    (World.inv_start log) hrun

theorem returned_code (hok : ∀ e ∈ events, e.Succeeds)
    (hrun : events.foldlM (World.step exitOnError) (.start log) = some w) {code : UInt32}
    (hreturned : w.point = .returned code) : (w.mce = .reaped ∧ w.test = .reaped) ∧
      (0 < w.reported → code = errMceTerminate) ∧
      (w.reported = 0 → ∃ c, w.tested = some c ∧ code = failureCode (prExit (exitStatus c))) := by
  have hinv := inv_run hok hrun
  have hfamily := hinv.family
  simp only [World.Family, hreturned] at hfamily
  obtain ⟨hmce, htest, hcode⟩ := hfamily
  refine ⟨⟨hmce, htest⟩, fun hreported => hcode.trans (if_pos hreported), fun hreported => ?_⟩
  obtain ⟨c, htested, hflag⟩ := (hinv.quiet hreported).retFlag htest
  exact ⟨c, htested, by rw [hcode, hreported, hflag]; rfl⟩

/-- When `module_test` has returned, both children have been waited for.  It returns the code for a
machine check if the MCE child has told of one, and what it returns without machine checks otherwise.
Records that are not told of were read before the tests, are still in the log, or were read by the MCE
child when SIGABRT came. -/
theorem moduleTest_returns (run : TestRun) (hok : ∀ e ∈ events, e.Succeeds)
    (hrun : events.foldlM (World.step exitOnError) (.start log) = some w)
    (htests : ∀ c, w.tested = some c → c = run.testChild.ret) {code : UInt32}
    (hreturned : w.point = .returned code) :
    (w.mce = .reaped ∧ w.test = .reaped) ∧
      code = (if 0 < w.reported then errMceTerminate else run.moduleTest) ∧
      w.old + w.reported + w.batch + w.log = log + events.count .machineCheck := by
  obtain ⟨hreaped, htold, hquiet⟩ := returned_code hok hrun hreturned
  obtain ⟨htotal, -⟩ := World.run_left hrun
  refine ⟨hreaped, ?_, ?_⟩
  · split_ifs with hreported
    · exact htold hreported
    · obtain ⟨c, htested, hcode⟩ := hquiet (Nat.eq_zero_of_not_pos hreported)
      rw [hcode, htests c htested]
      rfl
  · have hstart : (World.start log).total = log := by simp [World.total, World.start]
    rw [hstart] at htotal
    exact htotal

/-- Every run comes to its end: without new records the number of steps is bounded, and until
`module_test` has returned some process can take one. -/
theorem moduleTest_ends (hok : ∀ e ∈ events, e.Succeeds)
    (hrun : events.foldlM (World.step exitOnError) (.start log) = some w) :
    events.length ≤ 60 + 7 * log + 8 * events.count .machineCheck ∧
      ((∃ code, w.point = .returned code) ∨
        ∃ e : Event, e.Succeeds ∧ e ≠ .machineCheck ∧ (w.step exitOnError e).isSome) := by
  obtain ⟨-, hleft⟩ := World.run_left hrun
  have hstart : (World.start log).left = 60 + 7 * log := rfl
  refine ⟨by omega, ?_⟩
  by_cases hpoint : ∃ code, w.point = .returned code
  · exact Or.inl hpoint
  · exact Or.inr ((inv_run hok hrun).can_go_on fun code hcode => hpoint ⟨code, hcode⟩)

end Runs

/-- One machine check while the tests run, and the tests find errors of their own. -/
def noisyEvents : List Event :=
  [.statement, .callReturns, .statement, .callReturns, .statement, .callReturns, .statement, .mceStarts,
    .mceOpens, .testStarts, .machineCheck, .mcePolls, .mceTells, .catchUsr1, .handler, .handler, .handler,
    .testUsr2, .testEnds TestRun.marchRun.testChild.ret, .statement, .callReturns, .statement, .callReturns,
    .mceAbrt, .statement, .callReturns, .statement, .callReturns, .statement, .statement]

def noisyWorld : World :=
  { World.start 0 with
    point := .returned errMceTerminate
    mceFlag := true
    pidb := .child
    retFlag := prExit (exitStatus TestRun.marchRun.testChild.ret)
    mce := .reaped
    test := .reaped
    reported := 1
    tested := some TestRun.marchRun.testChild.ret }

set_option maxRecDepth 4000 in
theorem noisy_run : noisyEvents.foldlM (World.step false) (.start 0) = some noisyWorld := rfl

theorem noisy_succeeds : ∀ e ∈ noisyEvents, e.Succeeds := by
  simp [noisyEvents, Event.Succeeds]

theorem moduleTest_returns_noisy :
    (noisyWorld.mce = .reaped ∧ noisyWorld.test = .reaped) ∧
      errMceTerminate = (if 0 < noisyWorld.reported then errMceTerminate else TestRun.marchRun.moduleTest) ∧
      noisyWorld.old + noisyWorld.reported + noisyWorld.batch + noisyWorld.log =
        0 + noisyEvents.count .machineCheck :=
  moduleTest_returns TestRun.marchRun noisy_succeeds noisy_run
    (fun _ hc => (Option.some.inj hc).symm) rfl

theorem moduleTest_ends_noisy :
    noisyEvents.length ≤ 60 + 7 * 0 + 8 * noisyEvents.count .machineCheck ∧
      ((∃ code, noisyWorld.point = .returned code) ∨
        ∃ e : Event, e.Succeeds ∧ e ≠ .machineCheck ∧ (noisyWorld.step false e).isSome) :=
  moduleTest_ends noisy_succeeds noisy_run

end MoBoMemory.App
