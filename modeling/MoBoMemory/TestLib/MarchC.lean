import MoBoMemory.TestLib.Block

/-!
# March C

`march_c` of `mem_test.c`: a fill, then in every iteration five passes whose verdict is checked and
a sixth one whose verdict stays in `ret`.  The passes are translated as pointer loops and then read
as sweeps over the words of the block, on which the lost-verdict analysis of the iteration is done.
-/

namespace MoBoMemory.TestLib

open Base

variable {σ : Type}

def testFromUpToDown : Nat := 0
def testFromDwonToUp : Nat := 1

/-! ## The pass functions -/

def fillupBody (bus : Bus σ) (pattern : UL) (p : Nat) (m : Machine σ) : Machine σ × Bool :=
  (⟨bus.write m.mem p pattern, m.log⟩, false)

/-- `if ((bad=*p) != patternA) { lprintf(...); return ERR_FAIL; } *p = patternB;` -/
def verifyAWriteBBody (bus : Bus σ) (patternA patternB : UL) (p : Nat) (m : Machine σ) :
    Machine σ × Bool :=
  if (bus.read m.mem p).1 ≠ patternA then
    (⟨(bus.read m.mem p).2, m.log ++ [⟨p, patternA, (bus.read m.mem p).1⟩]⟩, true)
  else (⟨bus.write (bus.read m.mem p).2 p patternB, m.log⟩, false)

def verifyABody (bus : Bus σ) (patternA : UL) (p : Nat) (m : Machine σ) : Machine σ × Bool :=
  if (bus.read m.mem p).1 ≠ patternA then
    (⟨(bus.read m.mem p).2, m.log ++ [⟨p, patternA, (bus.read m.mem p).1⟩]⟩, true)
  else (⟨(bus.read m.mem p).2, m.log⟩, false)

/-- The two loops that the three pass functions share. -/
def marchLoop (body : Nat → Machine σ → Machine σ × Bool) (fuel startP cnt direction : Nat)
    (m : Machine σ) : Option (Machine σ × Bool) :=
  if direction = testFromDwonToUp then
    loop (fun p => decide (p < ptrAdd startP cnt)) (fun p => ptrAdd p 1) body fuel startP m
  else
    loop (fun p => decide (startP ≤ p)) ptrPred body fuel (ptrPred (ptrAdd startP cnt)) m

/-- `return ERR_FAIL` from the middle of the loop, `return ret` behind it. -/
def exitCode (r : Machine σ × Bool) : Nat × Machine σ :=
  (if r.2 then errFail else errSuccess, r.1)

def marchCFillup (bus : Bus σ) (fuel startP cnt : Nat) (pattern : UL) (direction : Nat)
    (m : Machine σ) : Option (Machine σ) :=
  if cnt = 0 then some m
  else (marchLoop (fillupBody bus pattern) fuel startP cnt direction m).map Prod.fst

/-- The comparison is made whatever `bCompare` says: the test on it is commented out. -/
def marchCVerifyAWriteB (bus : Bus σ) (fuel startP cnt : Nat) (patternA patternB : UL)
    (direction : Nat) (_bCompare : Int) (m : Machine σ) : Option (Nat × Machine σ) :=
  if cnt = 0 then some (errFail, m)
  else (marchLoop (verifyAWriteBBody bus patternA patternB) fuel startP cnt direction m).map exitCode

def marchCVerifyA (bus : Bus σ) (fuel startP cnt : Nat) (patternA : UL) (direction : Nat)
    (_bCompare : Int) (m : Machine σ) : Option (Nat × Machine σ) :=
  if cnt = 0 then some (errFail, m)
  else (marchLoop (verifyABody bus patternA) fuel startP cnt direction m).map exitCode

/-- `if( ret != ERR_SUCCESS ) return ret;` behind a pass. -/
def checkRet (r : Nat × Machine σ) (rest : Machine σ → Option (Nat × Machine σ)) :
    Option (Nat × Machine σ) :=
  if r.1 ≠ errSuccess then some r else rest r.2

/-- The `for (j = 0; j < iter; j++)` loop; the second argument is the variable `ret`. -/
def marchCRounds (bus : Bus σ) (fuel startP cnt : Nat) (p1 : UL) :
    Nat → Nat → Machine σ → Option (Nat × Machine σ)
  | 0, ret, m => some (ret, m)
  | n + 1, _, m => do
      -- R0,W1 and R1,W0 upwards, R0
      let r ← marchCVerifyAWriteB bus fuel startP cnt p1 (~~~p1) testFromDwonToUp hasComparision m
      checkRet r fun m => do
      let r ← marchCVerifyAWriteB bus fuel startP cnt (~~~p1) p1 testFromDwonToUp hasComparision m
      checkRet r fun m => do
      let r ← marchCVerifyA bus fuel startP cnt p1 testFromDwonToUp hasComparision m
      checkRet r fun m => do
      -- R0,W1 and R1,W0 downwards, R0
      let r ← marchCVerifyAWriteB bus fuel startP cnt p1 (~~~p1) testFromUpToDown hasComparision m
      checkRet r fun m => do
      let r ← marchCVerifyAWriteB bus fuel startP cnt (~~~p1) p1 testFromUpToDown hasComparision m
      checkRet r fun m => do
      let r ← marchCVerifyA bus fuel startP cnt p1 testFromUpToDown hasComparision m
      marchCRounds bus fuel startP cnt p1 n r.1 r.2

def marchC (bus : Bus σ) (fuel startP cnt : Nat) (_noComp : Int) (pattern0 : UL) (iter : Nat)
    (m : Machine σ) : Option (Nat × Machine σ) := do
  let m ← marchCFillup bus fuel startP cnt pattern0 testFromDwonToUp m
  marchCRounds bus fuel startP cnt pattern0 iter errSuccess m

/-! ## The passes as sweeps -/

/-- The five passes of an iteration whose verdict is checked. -/
def checkedPasses (bus : Bus σ) (b : Block) (p1 : UL) : List (Machine σ → Machine σ × Bool) :=
  [sweep (verifyAWriteBBody bus p1 (~~~p1)) b.addrs,
   sweep (verifyAWriteBBody bus (~~~p1) p1) b.addrs,
   sweep (verifyABody bus p1) b.addrs,
   sweep (verifyAWriteBBody bus p1 (~~~p1)) b.addrs.reverse,
   sweep (verifyAWriteBBody bus (~~~p1) p1) b.addrs.reverse]

/-- The checked part of an iteration stops at the first pass that fails. -/
def checkedPart (bus : Bus σ) (b : Block) (p1 : UL) (m : Machine σ) : Machine σ × Bool :=
  sweep (fun pass m => pass m) (checkedPasses bus b p1) m

/-- The closing R0 pass of an iteration. -/
def closingPass (bus : Bus σ) (b : Block) (p1 : UL) (m : Machine σ) : Machine σ × Bool :=
  sweep (verifyABody bus p1) b.addrs.reverse m

/-- The memory after the W0 fill. -/
def filled (bus : Bus σ) (b : Block) (p1 : UL) (m : Machine σ) : Machine σ :=
  (sweep (fillupBody bus p1) b.addrs m).1

theorem checkRet_exitCode (r : Machine σ × Bool) (rest : Machine σ → Option (Nat × Machine σ)) :
    checkRet (exitCode r) rest = if r.2 then some (errFail, r.1) else rest r.1 := by
  rcases r with ⟨m, _ | _⟩ <;> simp [checkRet, exitCode, errFail, errSuccess]

-- A list of passes each followed by its check, and then `rest`.
theorem checked_cons (pass : Machine σ → Machine σ × Bool)
    (passes : List (Machine σ → Machine σ × Bool)) (rest : Machine σ → Option (Nat × Machine σ))
    (m : Machine σ) :
    checkRet (exitCode (sweep (fun pass m => pass m) (pass :: passes) m)) rest =
      checkRet (exitCode (pass m)) fun m =>
        checkRet (exitCode (sweep (fun pass m => pass m) passes m)) rest := by
  rw [checkRet_exitCode, checkRet_exitCode, checkRet_exitCode, sweep]
  split <;> simp_all

section Sweeps

variable (b : Block) {fuel : Nat} (hfuel : b.cnt < fuel)

include hfuel

theorem marchLoop_up (body : Nat → Machine σ → Machine σ × Bool) (m : Machine σ) :
    marchLoop body fuel b.start b.cnt testFromDwonToUp m = some (sweep body b.addrs m) := by
  rw [marchLoop, if_pos rfl]
  exact loop_eq_sweep b.visits_up (by simpa using hfuel) m

theorem marchLoop_down (body : Nat → Machine σ → Machine σ × Bool) (m : Machine σ) :
    marchLoop body fuel b.start b.cnt testFromUpToDown m = some (sweep body b.addrs.reverse m) := by
  rw [marchLoop, if_neg (by decide)]
  exact loop_eq_sweep b.visits_down (by simpa using hfuel) m

-- One iteration: the checked part decides, or the closing verdict is carried along.
theorem marchCRounds_succ (bus : Bus σ) (p1 : UL) (n ret : Nat) (m : Machine σ) :
    marchCRounds bus fuel b.start b.cnt p1 (n + 1) ret m =
      checkRet (exitCode (checkedPart bus b p1 m)) fun m =>
        marchCRounds bus fuel b.start b.cnt p1 n (exitCode (closingPass bus b p1 m)).1
          (closingPass bus b p1 m).1 := by
  have hcnt : b.cnt ≠ 0 := Nat.pos_iff_ne_zero.mp b.cnt_pos
  unfold checkedPart checkedPasses
  simp only [checked_cons, marchCRounds, marchCVerifyAWriteB, marchCVerifyA, if_neg hcnt,
    marchLoop_up b hfuel, marchLoop_down b hfuel, Option.map_some]
  rfl

theorem marchC_eq (bus : Bus σ) (noComp : Int) (p1 : UL) (iter : Nat) (m : Machine σ) :
    marchC bus fuel b.start b.cnt noComp p1 iter m =
      marchCRounds bus fuel b.start b.cnt p1 iter errSuccess (filled bus b p1 m) := by
  have hcnt : b.cnt ≠ 0 := Nat.pos_iff_ne_zero.mp b.cnt_pos
  rw [marchC, marchCFillup, if_neg hcnt, marchLoop_up b hfuel]
  rfl

end Sweeps

/-! ## What reaches the caller -/

/-- A pass that leaves early has printed one line, one that runs through has printed none. -/
def ReportsExit (pass : Machine σ → Machine σ × Bool) : Prop :=
  ∀ m, ((pass m).2 = false → (pass m).1.log = m.log) ∧
    ((pass m).2 = true → ∃ line, (pass m).1.log = m.log ++ [line])

theorem reportsExit_sweep {α : Type} {body : α → Machine σ → Machine σ × Bool} {ps : List α}
    (hbody : ∀ p ∈ ps, ReportsExit (body p)) : ReportsExit (sweep body ps) := by
  induction ps with
  | nil =>
      intro m
      exact ⟨fun _ => rfl, fun h => by simp [sweep] at h⟩
  | cons p ps ih =>
      intro m
      obtain ⟨hstay, hleave⟩ := hbody p (by simp) m
      rw [sweep]
      split
      · rename_i hexit
        exact ⟨fun h => by simp at h, fun _ => hleave hexit⟩
      · rename_i hexit
        have hrest := ih (fun q hq => hbody q (by simp [hq])) (body p m).1
        rwa [hstay (by simpa using hexit)] at hrest

theorem reportsExit_verifyAWriteB (bus : Bus σ) (patternA patternB : UL) (p : Nat) :
    ReportsExit (verifyAWriteBBody bus patternA patternB p) := by
  intro m
  unfold verifyAWriteBBody
  split <;> simp

theorem reportsExit_verifyA (bus : Bus σ) (patternA : UL) (p : Nat) :
    ReportsExit (verifyABody bus patternA p) := by
  intro m
  unfold verifyABody
  split <;> simp

theorem reportsExit_checkedPart (bus : Bus σ) (b : Block) (p1 : UL) :
    ReportsExit (checkedPart bus b p1) := by
  apply reportsExit_sweep
  intro pass hpass
  simp only [checkedPasses, List.mem_cons, List.not_mem_nil, or_false] at hpass
  rcases hpass with rfl | rfl | rfl | rfl | rfl
  all_goals apply reportsExit_sweep
  all_goals intro p _
  all_goals first
    | exact reportsExit_verifyAWriteB bus _ _ p
    | exact reportsExit_verifyA bus _ p

theorem reportsExit_closingPass (bus : Bus σ) (b : Block) (p1 : UL) :
    ReportsExit (closingPass bus b p1) :=
  reportsExit_sweep fun p _ => reportsExit_verifyA bus p1 p

/-- Among `n` iterations from `m`, a comparison mismatches whose verdict `march_c` checks or
returns: in one of the five checked passes, or in the closing pass of the last iteration. -/
def decisiveMismatch (bus : Bus σ) (b : Block) (p1 : UL) : Nat → Machine σ → Bool
  | 0, _ => false
  | n + 1, m =>
      (checkedPart bus b p1 m).2 ||
        (n == 0 && (closingPass bus b p1 (checkedPart bus b p1 m).1).2) ||
        decisiveMismatch bus b p1 n (closingPass bus b p1 (checkedPart bus b p1 m).1).1

/-- Among `n` iterations from `m`, a comparison mismatches whose verdict the next iteration
overwrites: in the closing pass of an iteration that is not the last. -/
def overwrittenMismatch (bus : Bus σ) (b : Block) (p1 : UL) : Nat → Machine σ → Bool
  | 0, _ => false
  | n + 1, m =>
      (n != 0 && (closingPass bus b p1 (checkedPart bus b p1 m).1).2) ||
        overwrittenMismatch bus b p1 n (closingPass bus b p1 (checkedPart bus b p1 m).1).1

section Verdict

variable (bus : Bus σ) (b : Block) {fuel : Nat} (hfuel : b.cnt < fuel) (p1 : UL)

include hfuel

/-- The verdict of the iterations is the decisive one. -/
theorem marchCRounds_verdict (n ret : Nat) (m : Machine σ) :
    ∃ m', marchCRounds bus fuel b.start b.cnt p1 (n + 1) ret m =
        some (if decisiveMismatch bus b p1 (n + 1) m then errFail else errSuccess, m') ∧
      (decisiveMismatch bus b p1 (n + 1) m = false →
        (m'.log = [] ↔ m.log = [] ∧ overwrittenMismatch bus b p1 (n + 1) m = false)) := by
  induction n generalizing ret m with
  | zero =>
      rw [marchCRounds_succ b hfuel, checkRet_exitCode, decisiveMismatch, overwrittenMismatch]
      cases hchecked : (checkedPart bus b p1 m).2 with
      | true => exact ⟨(checkedPart bus b p1 m).1, by simp, by simp⟩
      | false =>
          have hlog := (reportsExit_checkedPart bus b p1 m).1 hchecked
          refine ⟨(closingPass bus b p1 (checkedPart bus b p1 m).1).1, ?_, ?_⟩
          · simp [marchCRounds, exitCode, decisiveMismatch]
          · intro hclean
            simp only [Bool.false_or, beq_self_eq_true, Bool.true_and, decisiveMismatch,
              Bool.or_false] at hclean
            rw [(reportsExit_closingPass bus b p1 _).1 hclean, hlog]
            simp [overwrittenMismatch]
  | succ n ih =>
      rw [marchCRounds_succ b hfuel, checkRet_exitCode]
      cases hchecked : (checkedPart bus b p1 m).2 with
      | true =>
          refine ⟨(checkedPart bus b p1 m).1, ?_, ?_⟩ <;> rw [decisiveMismatch, hchecked] <;> simp
      | false =>
          have hlog := (reportsExit_checkedPart bus b p1 m).1 hchecked
          -- the closing verdict of this iteration is dropped; only its log line is left
          obtain ⟨m', hrun, hempty⟩ := ih
            (exitCode (closingPass bus b p1 (checkedPart bus b p1 m).1)).1
            (closingPass bus b p1 (checkedPart bus b p1 m).1).1
          have hdecisive : decisiveMismatch bus b p1 (n + 1 + 1) m =
              decisiveMismatch bus b p1 (n + 1)
                (closingPass bus b p1 (checkedPart bus b p1 m).1).1 := by
            rw [decisiveMismatch, hchecked]
            simp
          have hoverwritten : overwrittenMismatch bus b p1 (n + 1 + 1) m =
              ((closingPass bus b p1 (checkedPart bus b p1 m).1).2 ||
                overwrittenMismatch bus b p1 (n + 1)
                  (closingPass bus b p1 (checkedPart bus b p1 m).1).1) := by
            rw [overwrittenMismatch]
            simp
          rw [hdecisive, hoverwritten]
          refine ⟨m', by simpa using hrun, fun hclean => ?_⟩
          rw [hempty hclean]
          cases hclosing : (closingPass bus b p1 (checkedPart bus b p1 m).1).2 with
          | true =>
              obtain ⟨line, hline⟩ := (reportsExit_closingPass bus b p1 _).2 hclosing
              simp [hline]
          | false =>
              rw [(reportsExit_closingPass bus b p1 _).1 hclosing, hlog, Bool.false_or]

end Verdict

-- What `march_c` returns is the decisive verdict; a mismatch that was overwritten shows in the log only.
theorem marchC_verdict (bus : Bus σ) (b : Block) {fuel : Nat} (hfuel : b.cnt < fuel) (noComp : Int) (p1 : UL)
    {iter : Nat} (hiter : 0 < iter) (mem : σ) :
    ∃ m', marchC bus fuel b.start b.cnt noComp p1 iter ⟨mem, []⟩ =
        some (if decisiveMismatch bus b p1 iter (filled bus b p1 ⟨mem, []⟩) then errFail else errSuccess, m') ∧
      (decisiveMismatch bus b p1 iter (filled bus b p1 ⟨mem, []⟩) = false →
        (m'.log = [] ↔ overwrittenMismatch bus b p1 iter (filled bus b p1 ⟨mem, []⟩) = false)) := by
  obtain ⟨n, rfl⟩ : ∃ n, iter = n + 1 := ⟨iter - 1, by omega⟩
  have hfilled : (filled bus b p1 ⟨mem, []⟩).log = [] :=
    sweep_preserves (fun m : Machine σ => m.log = []) (fun _ _ h => h) b.addrs ⟨mem, []⟩ rfl
  obtain ⟨m', hrun, hempty⟩ :=
    marchCRounds_verdict bus b hfuel p1 n errSuccess (filled bus b p1 ⟨mem, []⟩)
  refine ⟨m', (marchC_eq b hfuel bus noComp p1 _ _).trans hrun, fun hdecisive => ?_⟩
  rw [hempty hdecisive, and_iff_right hfilled]

/-- `march_c` returns, and it reports every mismatch it has seen exactly when each mismatch in a
closing pass that is not the last comes together with a decisive one. -/
theorem marchC_reports_iff (bus : Bus σ) (b : Block) {fuel : Nat} (hfuel : b.cnt < fuel)
    (noComp : Int) (p1 : UL) {iter : Nat} (hiter : 0 < iter) (mem : σ) :
    ∃ ret m', marchC bus fuel b.start b.cnt noComp p1 iter ⟨mem, []⟩ = some (ret, m') ∧
      ((m'.log ≠ [] → ret = errFail) ↔
        (overwrittenMismatch bus b p1 iter (filled bus b p1 ⟨mem, []⟩) = true →
          decisiveMismatch bus b p1 iter (filled bus b p1 ⟨mem, []⟩) = true)) := by
  obtain ⟨m', hrun, hlog⟩ := marchC_verdict bus b hfuel noComp p1 hiter mem
  refine ⟨_, m', hrun, ?_⟩
  cases hdecisive : decisiveMismatch bus b p1 iter (filled bus b p1 ⟨mem, []⟩) with
  | true => simp
  | false => simp [hlog hdecisive, errSuccess, errFail]

-- It is enough that no closing pass but the last sees a mismatch, as when there is one iteration.
theorem marchC_reports (bus : Bus σ) (b : Block) {fuel : Nat} (hfuel : b.cnt < fuel) (noComp : Int) (p1 : UL)
    {iter : Nat} (hiter : 0 < iter) (mem : σ)
    (hclosing : overwrittenMismatch bus b p1 iter (filled bus b p1 ⟨mem, []⟩) = false) :
    ∃ ret m', marchC bus fuel b.start b.cnt noComp p1 iter ⟨mem, []⟩ = some (ret, m') ∧
      (m'.log ≠ [] → ret = errFail) := by
  obtain ⟨m', hrun, hlog⟩ := marchC_verdict bus b hfuel noComp p1 hiter mem
  refine ⟨_, m', hrun, fun hsome => ?_⟩
  cases hdecisive : decisiveMismatch bus b p1 iter (filled bus b p1 ⟨mem, []⟩) with
  | true => rfl
  | false => exact absurd ((hlog hdecisive).mpr hclosing) hsome

theorem marchC_reports_once (bus : Bus σ) (b : Block) {fuel : Nat} (hfuel : b.cnt < fuel) (noComp : Int)
    (p1 : UL) (mem : σ) :
    ∃ ret m', marchC bus fuel b.start b.cnt noComp p1 1 ⟨mem, []⟩ = some (ret, m') ∧
      (m'.log ≠ [] → ret = errFail) :=
  marchC_reports bus b hfuel noComp p1 Nat.one_pos mem (by simp [overwrittenMismatch])

/-- A one-word memory whose read number `glitch` comes back inverted; it stores faithfully. -/
def glitchBus (glitch : Nat) : Bus (Nat × UL) where
  read s _ := (if s.1 = glitch then ~~~s.2 else s.2, (s.1 + 1, s.2))
  write s _ w := (s.1, w)

/-- The sixth read of a one-word block is the closing pass of the first of two iterations. -/
theorem marchC_loses_mismatch :
    (marchC (glitchBus 5) 2 8 1 hasComparision 0 2 ⟨(0, 0), []⟩).map
        (fun r => (r.1, r.2.log)) =
      some (errSuccess, [⟨8, 0, ~~~0⟩]) := by
  decide

theorem marchC_reports_iff_glitch :
    ∃ ret m', marchC (glitchBus 4) 2 8 1 hasComparision 0 2 ⟨(0, 0), []⟩ = some (ret, m') ∧
      ((m'.log ≠ [] → ret = errFail) ↔
        (overwrittenMismatch (glitchBus 4) ⟨8, 1, by decide, by decide, by decide, by decide⟩ 0 2
            (filled (glitchBus 4) ⟨8, 1, by decide, by decide, by decide, by decide⟩ 0
              ⟨(0, 0), []⟩) = true →
          decisiveMismatch (glitchBus 4) ⟨8, 1, by decide, by decide, by decide, by decide⟩ 0 2
            (filled (glitchBus 4) ⟨8, 1, by decide, by decide, by decide, by decide⟩ 0
              ⟨(0, 0), []⟩) = true)) :=
  marchC_reports_iff (glitchBus 4) ⟨8, 1, by decide, by decide, by decide, by decide⟩
    (by decide : 1 < 2) hasComparision 0 (by decide : 0 < 2) (0, 0)

end MoBoMemory.TestLib
