import MoBoMemory.Base.Loop

/-!
# Loops that tell where they stop

The loops of callers that go on from the position at which a loop ends; there is no such position when
the body leaves the function.  A walk over the positions below a limit can be cut at a lower limit.
-/

namespace MoBoMemory.Base

section Walks

variable {α σ : Type*} {cont cont' : α → Bool} {next : α → α} {body : α → σ → σ × Bool}
  {p q : α} {ps : List α}

/-- `while (cont p) { body; p = next p; }` -/
def walk (cont : α → Bool) (next : α → α) (body : α → σ → σ × Bool) :
    Nat → α → σ → Option (σ × Option α)
  | 0, _, _ => none
  | fuel + 1, p, s =>
      if cont p then
        if (body p s).2 then some ((body p s).1, none)
        else walk cont next body fuel (next p) (body p s).1
      else some (s, some p)

/-- `do { body; } while (cont p, p = next p);` where `p` moves on after the last turn too. -/
def doWalk (cont : α → Bool) (next : α → α) (body : α → σ → σ × Bool) :
    Nat → α → σ → Option (σ × Option α)
  | 0, _, _ => none
  | fuel + 1, p, s =>
      if (body p s).2 then some ((body p s).1, none)
      else if cont p then doWalk cont next body fuel (next p) (body p s).1
      else some ((body p s).1, some (next p))

/-- The positions that `walk` lets through, and the one at which it stops. -/
inductive VisitsTo (cont : α → Bool) (next : α → α) : α → List α → α → Prop
  | stop {p : α} : cont p = false → VisitsTo cont next p [] p
  | step {p q : α} {ps : List α} : cont p = true → VisitsTo cont next (next p) ps q →
      VisitsTo cont next p (p :: ps) q

inductive DoVisits (cont : α → Bool) (next : α → α) : α → List α → α → Prop
  | last {p : α} : cont p = false → DoVisits cont next p [p] (next p)
  | step {p q : α} {ps : List α} : cont p = true → DoVisits cont next (next p) ps q →
      DoVisits cont next p (p :: ps) q

def sweepTo (body : α → σ → σ × Bool) (stop : α) (ps : List α) (s : σ) : σ × Option α :=
  ((sweep body ps s).1, if (sweep body ps s).2 then none else some stop)

theorem sweepTo_cons (body : α → σ → σ × Bool) (stop p : α) (ps : List α) (s : σ) :
    sweepTo body stop (p :: ps) s =
      if (body p s).2 then ((body p s).1, none) else sweepTo body stop ps (body p s).1 := by
  unfold sweepTo
  rw [sweep]
  split <;> simp

theorem walk_eq_sweepTo (hvisits : VisitsTo cont next p ps q) {fuel : Nat} (hfuel : ps.length < fuel)
    (s : σ) : walk cont next body fuel p s = some (sweepTo body q ps s) := by
  induction hvisits generalizing fuel s with
  | stop hstop =>
      cases fuel with
      | zero => simp at hfuel
      | succ fuel => simp [walk, sweepTo, sweep, hstop]
  | step hgo hrest ih =>
      cases fuel with
      | zero => simp at hfuel
      | succ fuel =>
          rw [walk, if_pos hgo, sweepTo_cons, ih (Nat.lt_of_succ_lt_succ hfuel)]
          split <;> rfl

theorem doWalk_eq_sweepTo (hvisits : DoVisits cont next p ps q) {fuel : Nat}
    (hfuel : ps.length ≤ fuel) (s : σ) :
    doWalk cont next body fuel p s = some (sweepTo body q ps s) := by
  induction hvisits generalizing fuel s with
  | last hstop =>
      cases fuel with
      | zero => simp at hfuel
      | succ fuel =>
          rw [doWalk, sweepTo_cons]
          simp only [hstop, Bool.false_eq_true, if_false]
          split <;> rfl
  | step hgo hrest ih =>
      cases fuel with
      | zero => simp at hfuel
      | succ fuel =>
          rw [doWalk, if_pos hgo, sweepTo_cons, ih (Nat.le_of_succ_le_succ hfuel)]
          split <;> rfl

-- A walk that would go further stops at its own limit on the way.
theorem Visits.split (himp : ∀ p, cont p = true → cont' p = true) (hvisits : Visits cont' next p ps) :
    ∃ ps₁ ps₂ q, ps = ps₁ ++ ps₂ ∧ VisitsTo cont next p ps₁ q ∧ Visits cont' next q ps₂ := by
  induction hvisits with
  | @stop p hstop =>
      refine ⟨[], [], p, rfl, .stop ?_, .stop hstop⟩
      by_contra hgo
      rw [himp p (by simpa using hgo)] at hstop
      cases hstop
  | @step p ps hgo hrest ih =>
      obtain ⟨ps₁, ps₂, q, rfl, hfirst, hlast⟩ := ih
      by_cases hlow : cont p = true
      · exact ⟨p :: ps₁, ps₂, q, rfl, .step hlow hfirst, hlast⟩
      · exact ⟨[], p :: (ps₁ ++ ps₂), p, rfl, .stop (by simpa using hlow), .step hgo hrest⟩

-- Where it stops is where it began, or one step behind a position that it lets through.
theorem VisitsTo.stops (hvisits : VisitsTo cont next p ps q) :
    cont q = false ∧ (q = p ∨ ∃ r, cont r = true ∧ q = next r) := by
  induction hvisits with
  | stop hstop => exact ⟨hstop, Or.inl rfl⟩
  | @step p q ps hgo hrest ih =>
      obtain ⟨hstop, rfl | hafter⟩ := ih
      · exact ⟨hstop, Or.inr ⟨p, hgo, rfl⟩⟩
      · exact ⟨hstop, Or.inr hafter⟩

theorem Visits.nil_of_stop (hvisits : Visits cont next p ps) (hstop : cont p = false) : ps = [] := by
  cases hvisits with
  | stop => rfl
  | step hgo => simp [hgo] at hstop

-- At its own limit all of it.
theorem Visits.visitsTo (hvisits : Visits cont next p ps) : ∃ q, VisitsTo cont next p ps q := by
  obtain ⟨ps₁, ps₂, q, rfl, hfirst, hrest⟩ := hvisits.split fun _ hgo => hgo
  rw [hrest.nil_of_stop hfirst.stops.1, List.append_nil]
  exact ⟨q, hfirst⟩

end Walks

end MoBoMemory.Base
