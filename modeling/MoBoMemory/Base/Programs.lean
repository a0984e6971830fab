import MoBoMemory.Base.Tables

/-!
# Programs that tell their steps

A program takes a state to the list of the elementary steps that it makes there and to the state they
lead to, or fails.  `Does` is the judgement about a program with fuel: it completes with enough fuel,
and a property holds before each of its steps.
-/

namespace MoBoMemory.Base

def Prog (σ γ : Type*) : Type _ := σ → Option (List γ × σ)

namespace Prog

variable {σ γ : Type*}

def nop : Prog σ γ := fun s => some ([], s)

def fail : Prog σ γ := fun _ => none

def emit (step : σ → γ → Option σ) (c : γ) : Prog σ γ := fun s => (step s c).map fun t => ([c], t)

def andThen (p q : Prog σ γ) : Prog σ γ := fun s =>
  match p s with
  | none => none
  | some (cs, t) => (q t).map fun r => (cs ++ r.1, r.2)

/-- A list of steps that is known beforehand. -/
def emits (step : σ → γ → Option σ) (cs : List γ) : Prog σ γ := fun s =>
  (cs.foldlM step s).map fun t => (cs, t)

end Prog

section Does

variable {σ γ : Type*} {step : σ → γ → Option σ} {P : σ → Prop} {p q : Nat → Prog σ γ}
  {s t u : σ} {c : γ} {cs ds : List γ}

/-- The steps lead from `s` to `t`, and the property holds before each of them. -/
structure Steps (step : σ → γ → Option σ) (P : σ → Prop) (s : σ) (cs : List γ) (t : σ) : Prop where
  run : cs.foldlM step s = some t
  each : EachStep step (fun s _ => P s) s cs

theorem Steps.nil : Steps step P s [] s := ⟨rfl, trivial⟩

theorem Steps.append (h : Steps step P s cs t) (h' : Steps step P t ds u) :
    Steps step P s (cs ++ ds) u := by
  refine ⟨by rw [List.foldlM_append, h.run]; exact h'.run, eachStep_append.mpr ⟨h.each, ?_⟩⟩
  intro t' ht'
  obtain rfl : t = t' := Option.some.inj (h.run.symm.trans ht')
  exact h'.each

theorem Steps.cons (hs : P s) (hstep : step s c = some t) (h : Steps step P t cs u) :
    Steps step P s (c :: cs) u := by
  have hfirst : Steps step P s [c] t := by
    refine ⟨?_, hs, fun _ _ => trivial⟩
    rw [List.foldlM_cons, hstep]
    rfl
  exact hfirst.append h

structure Does (step : σ → γ → Option σ) (P : σ → Prop) (p : Nat → Prog σ γ) (s : σ) (cs : List γ)
    (t : σ) : Prop extends Steps step P s cs t where
  completes : ∃ bound, ∀ fuel, bound ≤ fuel → p fuel s = some (cs, t)

theorem does_nop : Does step P (fun _ => Prog.nop) s [] s := ⟨.nil, 0, fun _ _ => rfl⟩

theorem does_emit (hs : P s) (hstep : step s c = some t) :
    Does step P (fun _ => Prog.emit step c) s [c] t := by
  refine ⟨.cons hs hstep .nil, 0, fun _ _ => ?_⟩
  rw [Prog.emit, hstep]
  rfl

theorem does_emits (h : Steps step P s cs t) :
    Does step P (fun _ => Prog.emits step cs) s cs t := by
  refine ⟨h, 0, fun _ _ => ?_⟩
  rw [Prog.emits, h.run]
  rfl

theorem Does.andThen (hp : Does step P p s cs t) (hq : Does step P q t ds u) :
    Does step P (fun fuel => (p fuel).andThen (q fuel)) s (cs ++ ds) u := by
  obtain ⟨b, hb⟩ := hp.completes
  obtain ⟨c, hc⟩ := hq.completes
  refine ⟨hp.toSteps.append hq.toSteps, max b c, fun fuel hfuel => ?_⟩
  simp only [Prog.andThen, hb fuel (by omega), hc fuel (by omega), Option.map_some]

-- A program that in this state is another one.
theorem Does.congr (hp : Does step P p s cs t) (heq : ∀ fuel, q fuel s = p fuel s) :
    Does step P q s cs t := by
  obtain ⟨b, hb⟩ := hp.completes
  exact ⟨hp.toSteps, b, fun fuel hfuel => (heq fuel).trans (hb fuel hfuel)⟩

end Does

end MoBoMemory.Base
