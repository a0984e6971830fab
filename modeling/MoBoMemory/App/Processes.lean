import MoBoMemory.App.ExitCode

/-!
# The processes of a module test

`module_test` forks a child that waits for machine checks and a child that runs the tests.  The MCE child
reads the records of `/dev/mcelog` and sends SIGUSR1 for them; the handler of the parent notes that and
sends SIGUSR2 to the test child.  When the test child is gone the parent stops the MCE child with SIGABRT
and looks at its flags.  Here is a step for every statement and signal that the others can notice, in any
order.

A signal is delivered at some time after it was sent; a system call does not return while one is pending
that the process catches.  Left out are Ctrl-C and signals from elsewhere.
-/

namespace MoBoMemory.App

open Base

def errMceMsg : UInt32 := 0xA000000d
def errMceTerminate : UInt32 := 0xAAAAAAAA
def esrch : UInt32 := 3
def eagain : Errno := ⟨11, by decide, by decide⟩
def echild : UInt32 := 10
def sigabrt : UInt32 := 6
def sigusr2 : UInt32 := 12

/-- How a process ends: by `exit`, or by a signal that it does not catch. -/
inductive ChildEnding where
  | exited (code : UInt32)
  | killed (signal : UInt32)
deriving DecidableEq

/-- What `waitpid` stores, without the flag of a core dump. -/
def ChildEnding.status : ChildEnding → UInt32
  | .exited code => exitStatus code
  | .killed signal => signal

inductive Child (π : Type) where
  | unborn
  | alive (point : π)
  | zombie (ending : ChildEnding)
  | reaped
deriving DecidableEq

/-- The MCE child: before `signal(SIGABRT, ..)`, before the device is open, in `ppoll`, and between
`poll_callbacks` and `kill`. -/
inductive McePoint where
  | starting
  | opening
  | polling
  | telling
deriving DecidableEq

/-- The test child before and after `signal_a(SIGUSR2, ..)`. -/
inductive TestPoint where
  | starting
  | testing
deriving DecidableEq

/-- The statements of `sig_mce_exit`. -/
inductive HandlerPoint where
  | setMceFlag
  | forward
  | setTermination
deriving DecidableEq

/-- The statements of `module_test`; `setPidb` is the assignment of what the second fork has returned. -/
inductive ParentPoint where
  | firstCheck
  | forkMce
  | forkTest
  | setPidb (failed : Option Errno)
  | waitTest
  | killMce
  | waitMce
  | lastCheck
  | readTermination
  | readMce
  | returned (code : UInt32)
deriving DecidableEq

/-- `pidb`: 0, -1 or the test child. -/
inductive Pidb where
  | zero
  | minusOne
  | child
deriving DecidableEq

structure World where
  point : ParentPoint
  /-- A system call has done its work and has not yet returned. -/
  inCall : Bool
  handler : Option HandlerPoint
  mceFlag : Bool
  terminationFlag : Bool
  pidb : Pidb
  retFlag : UInt32
  mce : Child McePoint
  test : Child TestPoint
  /-- The signals that are pending: SIGUSR1 at the parent, SIGUSR2 and SIGABRT at the children. -/
  usr1 : Bool
  usr2 : Bool
  abrt : Bool
  mceUsr2 : Bool
  /-- The records in `/dev/mcelog`, and those that the MCE child has read but not yet told of. -/
  log : Nat
  batch : Nat
  /-- What has become of the other records: read before the test, or told of. -/
  old : Nat
  reported : Nat
  /-- The code that the tests have ended with. -/
  tested : Option UInt32
  /-- `kill(-1, SIGUSR2)` has been called. -/
  broadcast : Bool
deriving DecidableEq

def World.start (log : Nat) : World where
  point := .firstCheck
  inCall := false
  handler := none
  mceFlag := false
  terminationFlag := false
  pidb := .zero
  retFlag := 0
  mce := .unborn
  test := .unborn
  usr1 := false
  usr2 := false
  abrt := false
  mceUsr2 := false
  log := log
  batch := 0
  old := 0
  reported := 0
  tested := none
  broadcast := false

inductive Event where
  /-- The next statement of `module_test`. -/
  | statement
  | forkFails (errno : Errno)
  /-- `do_mce_check` cannot open the device or ask it for its lengths. -/
  | checkFails
  | callReturns
  | catchUsr1
  /-- The next statement of `sig_mce_exit`. -/
  | handler
  | testStarts
  | testEnds (code : UInt32)
  | testUsr2
  | mceStarts
  | mceOpens
  | mceGivesUp (errno : Errno)
  | mcePolls
  | mceTells
  | mceAbrt
  | mceUsr2
  /-- The kernel logs a record. -/
  | machineCheck
deriving DecidableEq

/-- What `module_test` returns at its end if no machine check was noticed. -/
def failureCode (retFlag : UInt32) : UInt32 := if retFlag ≠ 0 then retFlag + 0xA1000000 else 0

namespace World

/-- The parent is at a statement of `module_test`, not in a system call or the handler. -/
def Ready (w : World) : Prop := w.inCall = false ∧ w.handler = none

instance decidableReady (w : World) : Decidable w.Ready := inferInstanceAs (Decidable (_ ∧ _))

/-- The statements of `module_test`, with `fork` and `do_mce_check` succeeding. -/
def statement (w : World) : Option World :=
  match w.point with
  | .firstCheck => some { w with point := .forkMce, inCall := true, log := 0, old := w.old + w.log }
  | .forkMce => some { w with point := .forkTest, inCall := true, mce := .alive .starting }
  | .forkTest => some { w with point := .setPidb none, inCall := true, test := .alive .starting }
  | .setPidb none => some { w with point := .waitTest, pidb := .child }
  | .setPidb (some e) => some { w with point := .returned e.val, pidb := .minusOne }
  | .waitTest =>
      match w.test with
      | .alive _ => none
      | .zombie ending =>
          some { w with point := .killMce, inCall := true, test := .reaped, retFlag := prExit ending.status }
      | _ => some { w with point := .returned echild, inCall := true }
  | .killMce =>
      match w.mce with
      | .alive _ => some { w with point := .waitMce, inCall := true, abrt := true }
      | .zombie _ => some { w with point := .waitMce, inCall := true }
      | _ => some { w with point := .returned esrch, inCall := true }
  | .waitMce =>
      match w.mce with
      | .alive _ => none
      | .zombie _ => some { w with point := .lastCheck, inCall := true, mce := .reaped }
      | _ => some { w with point := .returned echild, inCall := true }
  | .lastCheck => some { w with point := .readTermination, inCall := true }
  | .readTermination =>
      some { w with point := if w.terminationFlag then .returned errMceTerminate else .readMce }
  | .readMce =>
      some { w with point := .returned (if w.mceFlag then errMceTerminate else failureCode w.retFlag) }
  | .returned _ => none

/-- The statements of `sig_mce_exit`.  Its `kill` fails if the test child is no more, and with -1 for
`pidb` it goes to every other process. -/
def handlerStep (exitOnError : Bool) (w : World) : Option World :=
  match w.handler with
  | none => none
  | some .setMceFlag => some { w with mceFlag := true, handler := some .forward }
  | some .forward =>
      match w.pidb with
      | .zero => some { w with handler := some .setTermination }
      | .minusOne =>
          some { w with handler := some .setTermination, mceUsr2 := true, broadcast := true }
      | .child =>
          match w.test with
          | .alive _ => some { w with handler := some .setTermination, usr2 := true }
          | .zombie _ => some { w with handler := some .setTermination }
          | _ => some { w with handler := none }
  | some .setTermination =>
      some { w with handler := none, terminationFlag := exitOnError || w.terminationFlag }

/-- The test child gets SIGUSR2: `USR2_signal_exit`, or the default action before it is installed. -/
def testUsr2 (exitOnError : Bool) (w : World) : Option World :=
  match w.test with
  | .alive .starting => some { w with usr2 := false, test := .zombie (.killed sigusr2) }
  | .alive .testing =>
      some { w with usr2 := false, test := if exitOnError then .zombie (.exited sigusr2) else w.test }
  | _ => none

/-- The MCE child gets SIGABRT: `signal_int_exit`, or the default action before it is installed. -/
def mceAbrt (w : World) : Option World :=
  match w.mce with
  | .alive .starting => some { w with abrt := false, mce := .zombie (.killed sigabrt) }
  | .alive _ => some { w with abrt := false, mce := .zombie (.exited sigabrt) }
  | _ => none

def step (exitOnError : Bool) (w : World) : Event → Option World
  | .statement => if w.Ready then w.statement else none
  | .forkFails e =>
      if w.Ready ∧ w.point = .forkMce then some { w with point := .returned e.val, inCall := true }
      else if w.Ready ∧ w.point = .forkTest then
        some { w with point := .setPidb (some e), inCall := true }
      else none
  | .checkFails =>
      if w.Ready ∧ (w.point = .firstCheck ∨ w.point = .lastCheck) then
        some { w with point := .returned errMceMsg, inCall := true }
      else none
  | .callReturns =>
      if w.inCall ∧ w.handler = none ∧ w.usr1 = false then some { w with inCall := false } else none
  | .catchUsr1 =>
      if w.handler = none ∧ w.usr1 then some { w with usr1 := false, handler := some .setMceFlag } else none
  | .handler => w.handlerStep exitOnError
  | .testStarts =>
      if w.test = .alive .starting then some { w with test := .alive .testing } else none
  | .testEnds code =>
      if w.test = .alive .testing then
        some { w with test := .zombie (.exited code), tested := some code }
      else none
  | .testUsr2 => if w.usr2 then w.testUsr2 exitOnError else none
  | .mceStarts => if w.mce = .alive .starting then some { w with mce := .alive .opening } else none
  | .mceOpens => if w.mce = .alive .opening then some { w with mce := .alive .polling } else none
  | .mceGivesUp e =>
      if w.mce = .alive .opening then some { w with mce := .zombie (.exited e.val) } else none
  | .mcePolls =>
      if w.mce = .alive .polling ∧ 0 < w.log then
        some { w with mce := .alive .telling, batch := w.batch + w.log, log := 0 }
      else none
  | .mceTells =>
      if w.mce = .alive .telling then
        some { w with mce := .alive .polling, usr1 := true, batch := 0, reported := w.reported + w.batch }
      else none
  | .mceAbrt => if w.abrt then w.mceAbrt else none
  | .mceUsr2 =>
      match w.mce with
      | .alive _ =>
          if w.mceUsr2 then some { w with mceUsr2 := false, mce := .zombie (.killed sigusr2) } else none
      | _ => none
  | .machineCheck => some { w with log := w.log + 1 }

/-! ## What holds in every state -/

end World

/-- The system calls of `module_test` succeed. -/
def Event.Succeeds : Event → Prop
  | .forkFails _ | .checkFails => False
  | _ => True

def Child.Born {π : Type} : Child π → Prop
  | .alive _ | .zombie _ => True
  | _ => False

namespace World

/-- Which children there are at the statements of `module_test`, and what it returns. -/
def Family (w : World) : Prop :=
  match w.point with
  | .firstCheck | .forkMce => w.mce = .unborn ∧ w.test = .unborn
  | .forkTest => w.mce.Born ∧ w.test = .unborn
  | .setPidb failed => failed = none ∧ w.mce.Born ∧ w.test.Born
  | .waitTest => w.mce.Born ∧ w.test.Born
  | .killMce => w.mce.Born ∧ w.test = .reaped
  | .waitMce => w.mce.Born ∧ w.test = .reaped ∧ ∀ p, w.mce = .alive p → w.abrt = true
  | .lastCheck | .readTermination | .readMce => w.mce = .reaped ∧ w.test = .reaped
  | .returned code => w.mce = .reaped ∧ w.test = .reaped ∧
      code = if 0 < w.reported then errMceTerminate else failureCode w.retFlag

/-- The MCE child is gone, and the `waitpid` that has found that has returned. -/
def Settled (w : World) : Prop :=
  match w.point with
  | .lastCheck => w.inCall = false
  | .readTermination | .readMce | .returned _ => True
  | _ => False

/-- No signal has been sent, and the test child ends on its own. -/
structure Quiet (w : World) : Prop where
  usr1 : w.usr1 = false
  handler : w.handler = none
  mceFlag : w.mceFlag = false
  terminationFlag : w.terminationFlag = false
  usr2 : w.usr2 = false
  ending : ∀ e, w.test = .zombie e → ∃ c, e = .exited c ∧ w.tested = some c
  retFlag : w.test = .reaped → ∃ c, w.tested = some c ∧ w.retFlag = prExit (exitStatus c)

structure Inv (w : World) : Prop where
  family : w.Family
  telling : w.mce = .alive .telling → 0 < w.batch
  noticed : 0 < w.reported → w.usr1 = true ∨ w.handler = some .setMceFlag ∨ w.mceFlag = true
  quiet : w.reported = 0 → w.Quiet
  settled : w.Settled → w.usr1 = false ∧ w.handler = none
  own : w.pidb ≠ .minusOne ∧ w.mceUsr2 = false ∧ w.broadcast = false

section Steps

variable {exitOnError : Bool} {w w' : World}

theorem inv_catchUsr1 (hw : w.Inv) (h : w.step exitOnError .catchUsr1 = some w') : w'.Inv := by
  simp only [step, Option.ite_none_right_eq_some, Option.some.injEq] at h
  obtain ⟨⟨hhandler, husr1⟩, rfl⟩ := h
  have hreported : w.reported ≠ 0 := fun hzero => by simp [(hw.quiet hzero).usr1] at husr1
  have hsettled : ¬ w.Settled := fun hset => by simp [(hw.settled hset).1] at husr1
  exact ⟨hw.family, hw.telling, fun _ => Or.inr (Or.inl rfl), fun hzero => absurd hzero hreported,
    fun hset => absurd hset hsettled, hw.own⟩

theorem inv_statement (hw : w.Inv) (h : w.step exitOnError .statement = some w') : w'.Inv := by
  simp only [step, Option.ite_none_right_eq_some] at h
  obtain ⟨⟨hcall, hhandler⟩, h⟩ := h
  have hfamily := hw.family
  cases hpoint : w.point with
  | firstCheck =>
      simp only [statement, hpoint, Option.some.injEq, Family] at h hfamily
      subst h
      exact { hw with
        family := hfamily
        quiet := fun hzero => { hw.quiet hzero with }
        settled := nofun }
  | forkMce =>
      simp only [statement, hpoint, Option.some.injEq, Family] at h hfamily
      subst h
      exact { hw with
        family := ⟨trivial, hfamily.2⟩
        telling := nofun
        quiet := fun hzero => { hw.quiet hzero with }
        settled := nofun }
  | forkTest =>
      simp only [statement, hpoint, Option.some.injEq, Family] at h hfamily
      subst h
      exact { hw with
        family := ⟨rfl, hfamily.1, trivial⟩
        quiet := fun hzero => { hw.quiet hzero with ending := nofun, retFlag := nofun }
        settled := nofun }
  | setPidb failed =>
      simp only [Family, hpoint] at hfamily
      obtain ⟨rfl, hborn⟩ := hfamily
      simp only [statement, hpoint, Option.some.injEq] at h
      subst h
      exact { hw with
        family := hborn
        quiet := fun hzero => { hw.quiet hzero with }
        settled := nofun
        own := ⟨nofun, hw.own.2⟩ }
  | waitTest =>
      simp only [statement, hpoint, Family] at h hfamily
      cases htest : w.test with
      | unborn => simp [htest, Child.Born] at hfamily
      | reaped => simp [htest, Child.Born] at hfamily
      | alive p => simp [htest] at h
      | zombie ending =>
          simp only [htest, Option.some.injEq] at h
          subst h
          refine { hw with
            family := ⟨hfamily.1, rfl⟩
            quiet := fun hzero => { hw.quiet hzero with ending := nofun, retFlag := fun _ => ?_ }
            settled := nofun }
          obtain ⟨c, rfl, htested⟩ := (hw.quiet hzero).ending ending htest
          exact ⟨c, htested, rfl⟩
  | killMce =>
      simp only [statement, hpoint, Family] at h hfamily
      cases hmce : w.mce with
      | unborn => simp [hmce, Child.Born] at hfamily
      | reaped => simp [hmce, Child.Born] at hfamily
      | alive p =>
          simp only [hmce, Option.some.injEq] at h
          subst h
          exact { hw with
            family := ⟨trivial, hfamily.2, fun _ _ => rfl⟩
            telling := fun htelling => hw.telling (hmce.trans htelling)
            quiet := fun hzero => { hw.quiet hzero with }
            settled := nofun }
      | zombie ending =>
          simp only [hmce, Option.some.injEq] at h
          subst h
          exact { hw with
            family := ⟨trivial, hfamily.2, nofun⟩
            telling := nofun
            quiet := fun hzero => { hw.quiet hzero with }
            settled := nofun }
  | waitMce =>
      simp only [statement, hpoint, Family] at h hfamily
      cases hmce : w.mce with
      | unborn => simp [hmce, Child.Born] at hfamily
      | reaped => simp [hmce, Child.Born] at hfamily
      | alive p => simp [hmce] at h
      | zombie ending =>
          simp only [hmce, Option.some.injEq] at h
          subst h
          exact { hw with
            family := ⟨rfl, hfamily.2.1⟩
            telling := nofun
            quiet := fun hzero => { hw.quiet hzero with }
            settled := nofun }
  | lastCheck =>
      simp only [statement, hpoint, Option.some.injEq, Family] at h hfamily
      subst h
      exact { hw with
        family := hfamily
        quiet := fun hzero => { hw.quiet hzero with }
        settled := fun _ => hw.settled (by simp only [Settled, hpoint]; exact hcall) }
  | readTermination =>
      simp only [statement, hpoint, Option.some.injEq, Family] at h hfamily
      subst h
      refine { hw with
        family := ?_
        quiet := fun hzero => { hw.quiet hzero with }
        settled := fun _ => hw.settled (by simp only [Settled, hpoint]) }
      by_cases hflag : w.terminationFlag = true
      · have hreported : w.reported ≠ 0 := fun hzero => by simp [(hw.quiet hzero).terminationFlag] at hflag
        simp only [Family, hflag, if_true]
        exact ⟨hfamily.1, hfamily.2, (if_pos (Nat.pos_of_ne_zero hreported)).symm⟩
      · simp only [Family, hflag, if_false, Bool.false_eq_true]
        exact hfamily
  | readMce =>
      simp only [statement, hpoint, Option.some.injEq, Family] at h hfamily
      subst h
      obtain ⟨husr1, -⟩ := hw.settled (by simp only [Settled, hpoint])
      refine { hw with
        family := ⟨hfamily.1, hfamily.2, ?_⟩
        quiet := fun hzero => { hw.quiet hzero with }
        settled := fun _ => ⟨husr1, hhandler⟩ }
      by_cases hreported : 0 < w.reported
      · have hflag : w.mceFlag = true := by simpa [husr1, hhandler] using hw.noticed hreported
        rw [hflag, if_pos rfl]
        exact (if_pos hreported).symm
      · have hflag := (hw.quiet (Nat.eq_zero_of_not_pos hreported)).mceFlag
        rw [hflag, if_neg (by simp)]
        exact (if_neg hreported).symm
  | returned code => simp [statement, hpoint] at h

theorem inv_handler (hw : w.Inv) (h : w.step exitOnError .handler = some w') : w'.Inv := by
  simp only [step, handlerStep] at h
  cases hhandler : w.handler with
  | none => simp [hhandler] at h
  | some next =>
      have hreported : w.reported ≠ 0 := fun hzero => by simp [(hw.quiet hzero).handler] at hhandler
      have hsettled : ¬ w.Settled := fun hset => by simp [(hw.settled hset).2] at hhandler
      cases next with
      | setMceFlag =>
          simp only [hhandler, Option.some.injEq] at h
          subst h
          exact { hw with
            noticed := fun _ => Or.inr (Or.inr rfl)
            quiet := fun hzero => absurd hzero hreported
            settled := fun hset => absurd hset hsettled }
      | forward =>
          -- the flag is set before
          have hflag : w.usr1 = true ∨ w.mceFlag = true := by
            simpa [hhandler] using hw.noticed (Nat.pos_of_ne_zero hreported)
          obtain ⟨next, usr2, rfl⟩ : ∃ next usr2, w' = { w with handler := next, usr2 := usr2 } := by
            simp only [hhandler] at h
            cases hpidb : w.pidb with
            | minusOne => exact absurd hpidb hw.own.1
            | zero =>
                simp only [hpidb, Option.some.injEq] at h
                exact ⟨_, w.usr2, h.symm⟩
            | child =>
                simp only [hpidb] at h
                cases htest : w.test <;> simp only [htest, Option.some.injEq] at h <;>
                  exact ⟨_, _, h.symm⟩
          exact { hw with
            noticed := fun _ => hflag.imp_right Or.inr
            quiet := fun hzero => absurd hzero hreported
            settled := fun hset => absurd hset hsettled }
      | setTermination =>
          have hflag : w.usr1 = true ∨ w.mceFlag = true := by
            simpa [hhandler] using hw.noticed (Nat.pos_of_ne_zero hreported)
          simp only [hhandler, Option.some.injEq] at h
          subst h
          exact { hw with
            noticed := fun _ => hflag.imp_right Or.inr
            quiet := fun hzero => absurd hzero hreported
            settled := fun hset => absurd hset hsettled }

-- The test child is only alive while the parent has not waited for it.
theorem Family.of_alive (hw : w.Family) {p : TestPoint} (hp : w.test = .alive p) :
    (w.point = .setPidb none ∨ w.point = .waitTest) ∧ w.mce.Born := by
  unfold Family at hw
  cases hpoint : w.point <;> simp_all [Child.Born]

theorem inv_test {e : Event} (he : e = .testStarts ∨ (∃ code, e = .testEnds code) ∨ e = .testUsr2)
    (hw : w.Inv) (h : w.step exitOnError e = some w') : w'.Inv := by
  -- the child is alive before and not reaped after
  obtain ⟨p, test, usr2, tested, hp, hborn, rfl, hquiet⟩ : ∃ p test usr2 tested, w.test = .alive p ∧
      test.Born ∧ w' = { w with test := test, usr2 := usr2, tested := tested } ∧
      (w.usr2 = false → usr2 = false ∧
        ∀ ending, test = .zombie ending → ∃ c, ending = .exited c ∧ tested = some c) := by
    rcases he with rfl | ⟨code, rfl⟩ | rfl
    · simp only [step, Option.ite_none_right_eq_some, Option.some.injEq] at h
      obtain ⟨htest, rfl⟩ := h
      exact ⟨_, .alive .testing, w.usr2, w.tested, htest, trivial, rfl, fun husr2 => ⟨husr2, nofun⟩⟩
    · simp only [step, Option.ite_none_right_eq_some, Option.some.injEq] at h
      obtain ⟨htest, rfl⟩ := h
      refine ⟨_, .zombie (.exited code), w.usr2, some code, htest, trivial, rfl,
        fun husr2 => ⟨husr2, fun ending hending => ?_⟩⟩
      exact ⟨code, (Child.zombie.inj hending).symm, rfl⟩
    · simp only [step, Option.ite_none_right_eq_some] at h
      obtain ⟨husr2, h⟩ := h
      unfold testUsr2 at h
      split at h
      · next htest =>
          exact ⟨_, .zombie (.killed sigusr2), false, w.tested, htest, trivial, (Option.some.inj h).symm,
            fun hfalse => by simp [husr2] at hfalse⟩
      · next htest =>
          refine ⟨_, _, false, w.tested, htest, ?_, (Option.some.inj h).symm,
            fun hfalse => by simp [husr2] at hfalse⟩
          split
          · trivial
          · rw [htest]
            trivial
      · cases h
  obtain ⟨hpoint, hmce⟩ := hw.family.of_alive hp
  have hsettled : ¬ w.Settled := by
    rcases hpoint with hpoint | hpoint <;> simp [Settled, hpoint]
  refine { hw with
    family := ?_
    quiet := fun hzero => { hw.quiet hzero with
      usr2 := (hquiet (hw.quiet hzero).usr2).1
      ending := (hquiet (hw.quiet hzero).usr2).2
      retFlag := fun (hreaped : test = .reaped) => by rw [hreaped] at hborn; exact hborn.elim }
    settled := fun hset => absurd hset hsettled }
  rcases hpoint with hpoint | hpoint
  · simp only [Family, hpoint]
    exact ⟨trivial, hmce, hborn⟩
  · simp only [Family, hpoint]
    exact ⟨hmce, hborn⟩

-- The MCE child is only alive while the parent has not waited for it.
theorem Family.of_mce_alive (hw : w.Family) {p : McePoint} (hp : w.mce = .alive p) : ¬ w.Settled ∧
    ∀ mce abrt usr1 log batch reported, mce.Born → (∀ q, mce = .alive q → abrt = w.abrt) →
      { w with mce := mce, abrt := abrt, usr1 := usr1, log := log, batch := batch,
               reported := reported : World }.Family := by
  unfold Family Settled at *
  cases hpoint : w.point <;> simp_all [Child.Born]

theorem inv_mce {e : Event} (he : e = .mceStarts ∨ e = .mceOpens ∨ (∃ errno, e = .mceGivesUp errno) ∨
      e = .mcePolls ∨ e = .mceAbrt) (hw : w.Inv) (h : w.step exitOnError e = some w') : w'.Inv := by
  obtain ⟨p, mce, abrt, log, batch, hp, hborn, habrt, htelling, rfl⟩ : ∃ p mce abrt log batch,
      w.mce = .alive p ∧ mce.Born ∧ (∀ q, mce = .alive q → abrt = w.abrt) ∧
      (mce = .alive .telling → 0 < batch) ∧
      w' = { w with mce := mce, abrt := abrt, log := log, batch := batch } := by
    rcases he with rfl | rfl | ⟨errno, rfl⟩ | rfl | rfl
    · simp only [step, Option.ite_none_right_eq_some, Option.some.injEq] at h
      exact ⟨_, .alive .opening, w.abrt, w.log, w.batch, h.1, trivial, fun _ _ => rfl, nofun, h.2.symm⟩
    · simp only [step, Option.ite_none_right_eq_some, Option.some.injEq] at h
      exact ⟨_, .alive .polling, w.abrt, w.log, w.batch, h.1, trivial, fun _ _ => rfl, nofun, h.2.symm⟩
    · simp only [step, Option.ite_none_right_eq_some, Option.some.injEq] at h
      exact ⟨_, .zombie (.exited errno.val), w.abrt, w.log, w.batch, h.1, trivial, nofun, nofun,
        h.2.symm⟩
    · simp only [step, Option.ite_none_right_eq_some, Option.some.injEq] at h
      exact ⟨_, .alive .telling, w.abrt, 0, w.batch + w.log, h.1.1, trivial, fun _ _ => rfl,
        fun _ => Nat.add_pos_right _ h.1.2, h.2.symm⟩
    · simp only [step, Option.ite_none_right_eq_some] at h
      obtain ⟨-, h⟩ := h
      unfold mceAbrt at h
      split at h
      · next hmce =>
          exact ⟨_, .zombie (.killed sigabrt), false, w.log, w.batch, hmce, trivial, nofun, nofun,
            (Option.some.inj h).symm⟩
      · next hmce =>
          exact ⟨_, .zombie (.exited sigabrt), false, w.log, w.batch, hmce, trivial, nofun, nofun,
            (Option.some.inj h).symm⟩
      · cases h
  obtain ⟨hsettled, hfamily⟩ := hw.family.of_mce_alive hp
  exact { hw with
    family := hfamily mce abrt w.usr1 log batch w.reported hborn habrt
    telling := htelling
    quiet := fun hzero => { hw.quiet hzero with }
    settled := fun hset => absurd hset hsettled }

theorem inv_mceTells (hw : w.Inv) (h : w.step exitOnError .mceTells = some w') : w'.Inv := by
  simp only [step, Option.ite_none_right_eq_some, Option.some.injEq] at h
  obtain ⟨hmce, rfl⟩ := h
  have hbatch := hw.telling hmce
  obtain ⟨hsettled, hfamily⟩ := hw.family.of_mce_alive hmce
  exact { hw with
    family := hfamily _ w.abrt true w.log 0 _ trivial fun _ _ => rfl
    telling := nofun
    noticed := fun _ => Or.inl rfl
    quiet := fun (hzero : w.reported + w.batch = 0) => by omega
    settled := fun hset => absurd hset hsettled }

theorem inv_step {e : Event} (he : e.Succeeds) (hw : w.Inv) (h : w.step exitOnError e = some w') :
    w'.Inv := by
  cases e with
  | statement => exact inv_statement hw h
  | forkFails errno => exact he.elim
  | checkFails => exact he.elim
  | callReturns =>
      simp only [step, Option.ite_none_right_eq_some, Option.some.injEq] at h
      obtain ⟨⟨hcall, hhandler, husr1⟩, rfl⟩ := h
      exact { hw with
        family := hw.family
        quiet := fun hzero => { hw.quiet hzero with }
        settled := fun _ => ⟨husr1, hhandler⟩ }
  | catchUsr1 => exact inv_catchUsr1 hw h
  | handler => exact inv_handler hw h
  | testStarts => exact inv_test (Or.inl rfl) hw h
  | testEnds code => exact inv_test (Or.inr (Or.inl ⟨code, rfl⟩)) hw h
  | testUsr2 => exact inv_test (Or.inr (Or.inr rfl)) hw h
  | mceStarts => exact inv_mce (by simp) hw h
  | mceOpens => exact inv_mce (by simp) hw h
  | mceGivesUp errno => exact inv_mce (by simp) hw h
  | mcePolls => exact inv_mce (by simp) hw h
  | mceTells => exact inv_mceTells hw h
  | mceAbrt => exact inv_mce (by simp) hw h
  | mceUsr2 =>
      have hnone : w.mceUsr2 = false := hw.own.2.1
      simp only [step, hnone] at h
      cases hmce : w.mce <;> simp [hmce] at h
  | machineCheck =>
      obtain rfl := Option.some.inj h
      exact { hw with
        family := hw.family
        quiet := fun hzero => { hw.quiet hzero with } }

end Steps

theorem inv_start (log : Nat) : (World.start log).Inv where
  family := ⟨rfl, rfl⟩
  telling := nofun
  noticed := fun h => absurd h (lt_irrefl 0)
  quiet := fun _ => ⟨rfl, rfl, rfl, rfl, rfl, nofun, nofun⟩
  settled := nofun
  own := ⟨nofun, rfl, rfl⟩

end World

end MoBoMemory.App
