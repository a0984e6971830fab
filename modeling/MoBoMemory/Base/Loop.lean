import Mathlib.Algebra.Order.Ring.Int
import Mathlib.Data.List.Sort

/-!
# Loops over an address range

A C loop that walks a pointer through memory and may return from its middle is `loop`: it carries
fuel, because a badly chosen start can make it run forever.  `sweep` is the same walk over a list of
the visited positions.  `loop_eq_sweep` trades the first for the second once the visited positions
are known, and the remaining rules reason about sweeps: a countdown invariant, what every step
preserves, and a forward simulation into a smaller state.
-/

namespace MoBoMemory.Base

section Loops

variable {α σ τ : Type*}

/-- `while (cont p) { body; p = next p; }`; the body answers `true` to leave the function.
`none` means that the fuel was not enough. -/
def loop (cont : α → Bool) (next : α → α) (body : α → σ → σ × Bool) :
    Nat → α → σ → Option (σ × Bool)
  | 0, _, _ => none
  | fuel + 1, p, s =>
      if cont p then
        if (body p s).2 then some ((body p s).1, true)
        else loop cont next body fuel (next p) (body p s).1
      else some (s, false)

/-- The walk of `loop` over a given list of positions. -/
def sweep (body : α → σ → σ × Bool) : List α → σ → σ × Bool
  | [], s => (s, false)
  | p :: ps, s => if (body p s).2 then ((body p s).1, true) else sweep body ps (body p s).1

/-- From `p` the loop header lets exactly the positions `ps` through, in this order. -/
inductive Visits (cont : α → Bool) (next : α → α) : α → List α → Prop
  | stop {p : α} : cont p = false → Visits cont next p []
  | step {p : α} {ps : List α} : cont p = true → Visits cont next (next p) ps →
      Visits cont next p (p :: ps)

theorem loop_eq_sweep {cont : α → Bool} {next : α → α} {body : α → σ → σ × Bool} {p : α}
    {ps : List α} (hvisits : Visits cont next p ps) {fuel : Nat} (hfuel : ps.length < fuel) (s : σ) :
    loop cont next body fuel p s = some (sweep body ps s) := by
  induction hvisits generalizing fuel s with
  | stop hstop =>
      cases fuel with
      | zero => simp at hfuel
      | succ fuel => simp [loop, sweep, hstop]
  | step hgo hrest ih =>
      cases fuel with
      | zero => simp at hfuel
      | succ fuel =>
          have hlen := Nat.lt_of_succ_lt_succ hfuel
          rw [loop, if_pos hgo, sweep]
          split
          · rfl
          · exact ih hlen _

-- A loop whose body never leaves it ends only if its header lets finitely many positions through,
-- and then it has been over them.
theorem exists_visits_of_loop {cont : α → Bool} {next : α → α} {body : α → σ → σ × Bool}
    (hstay : ∀ p s, (body p s).2 = false) {fuel : Nat} {p : α} {s : σ} {r : σ × Bool}
    (hrun : loop cont next body fuel p s = some r) :
    ∃ ps, Visits cont next p ps ∧ r = sweep body ps s := by
  induction fuel generalizing p s with
  | zero => simp [loop] at hrun
  | succ fuel ih =>
      by_cases hgo : cont p = true
      · rw [loop, if_pos hgo, if_neg (by simp [hstay])] at hrun
        obtain ⟨ps, hvisits, hsweep⟩ := ih hrun
        refine ⟨p :: ps, .step hgo hvisits, ?_⟩
        rw [sweep, if_neg (by simp [hstay]), hsweep]
      · rw [loop, if_neg hgo] at hrun
        exact ⟨[], .stop (by simpa using hgo), (Option.some.inj hrun).symm⟩

theorem Visits.unique {cont : α → Bool} {next : α → α} {p : α} {ps qs : List α}
    (hps : Visits cont next p ps) (hqs : Visits cont next p qs) : ps = qs := by
  induction hps generalizing qs with
  | stop hstop =>
      cases hqs with
      | stop => rfl
      | step hgo => simp [hstop] at hgo
  | step hgo hrest ih =>
      cases hqs with
      | stop hstop => simp [hgo] at hstop
      | step _ hrest' => rw [ih hrest']

-- A header never lets through a position at which the loop stands still.
theorem Visits.moves {cont : α → Bool} {next : α → α} {p : α} {ps : List α}
    (hvisits : Visits cont next p ps) (hstill : next p = p) : cont p = false := by
  induction hvisits with
  | stop hstop => exact hstop
  | @step p ps hgo hrest ih =>
      have hsame := ih (by rw [hstill, hstill])
      rw [hstill] at hsame
      exact hsame

theorem sweep_head_stays {body : α → σ → σ × Bool} {p : α} {ps : List α} {s : σ}
    (hdone : (sweep body (p :: ps) s).2 = false) : (body p s).2 = false := by
  rw [sweep] at hdone
  by_contra hleave
  rw [if_pos (by simpa using hleave)] at hdone
  exact absurd hdone (by simp)

-- Countdown rule: an invariant indexed by the positions still to be visited, under which the body
-- never leaves, is carried through the whole sweep.
theorem sweep_complete {body : α → σ → σ × Bool} (I : List α → σ → Prop)
    (hstep : ∀ p ps s, I (p :: ps) s → (body p s).2 = false ∧ I ps (body p s).1)
    (ps : List α) (s : σ) (hstart : I ps s) :
    (sweep body ps s).2 = false ∧ I [] (sweep body ps s).1 := by
  induction ps generalizing s with
  | nil => exact ⟨rfl, hstart⟩
  | cons p ps ih =>
      obtain ⟨hstay, hinv⟩ := hstep p ps s hstart
      rw [sweep, if_neg (by simp [hstay])]
      exact ih _ hinv

-- What every body call preserves is preserved by the sweep, whether or not it leaves early.
theorem sweep_preserves {body : α → σ → σ × Bool} (I : σ → Prop)
    (hstep : ∀ p s, I s → I (body p s).1) (ps : List α) (s : σ) (hstart : I s) :
    I (sweep body ps s).1 := by
  induction ps generalizing s with
  | nil => exact hstart
  | cons p ps ih =>
      rw [sweep]
      split
      · exact hstep p s hstart
      · exact ih _ (hstep p s hstart)

-- Forward simulation: if a body call that stays in the loop is matched by a partial step on the
-- projected state, then so is a sweep that runs to its end.
theorem sweep_simulates {body : α → σ → σ × Bool} (proj : σ → τ) (step : τ → α → Option τ)
    (hstep : ∀ p s, (body p s).2 = false → step (proj s) p = some (proj (body p s).1))
    (ps : List α) (s : σ) (hdone : (sweep body ps s).2 = false) :
    ps.foldlM step (proj s) = some (proj (sweep body ps s).1) := by
  induction ps generalizing s with
  | nil => rfl
  | cons p ps ih =>
      rw [sweep] at hdone ⊢
      by_cases hleave : (body p s).2 = true
      · simp [hleave] at hdone
      · rw [if_neg hleave] at hdone ⊢
        rw [List.foldlM_cons, hstep p s (by simpa using hleave)]
        exact ih _ hdone

end Loops

end MoBoMemory.Base
