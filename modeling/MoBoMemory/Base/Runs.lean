import Mathlib.Data.List.Infix

/-!
# Runs

A run is a left fold over the list of its steps.  The rules here say what a run puts out, what its
last state says about every step of it, and what holds of the state after each prefix of it.
-/

namespace MoBoMemory.Base

section Runs

variable {σ γ ε : Type*} {step : σ → γ → σ}

-- A run puts out what its steps put out, in their order.
theorem foldl_emits (out : σ → List ε) (emit : γ → List ε)
    (hstep : ∀ s c, out (step s c) = out s ++ emit c) (cs : List γ) (s : σ) :
    out (cs.foldl step s) = out s ++ cs.flatMap emit := by
  induction cs generalizing s with
  | nil => simp
  | cons c cs ih => rw [List.foldl_cons, ih, hstep, List.flatMap_cons, List.append_assoc]

-- What a run does to a part of the state is a fold over what its steps contribute to it.
theorem foldl_proj {ρ δ : Type*} (proj : σ → ρ) (f : ρ → δ → ρ) (emit : γ → List δ)
    (hstep : ∀ s c, proj (step s c) = (emit c).foldl f (proj s)) (cs : List γ) (s : σ) :
    proj (cs.foldl step s) = (cs.flatMap emit).foldl f (proj s) := by
  induction cs generalizing s with
  | nil => rfl
  | cons c cs ih => rw [List.foldl_cons, ih, hstep, List.flatMap_cons, List.foldl_append]

/-- `P` holds now and after every step of the run. -/
def Along (step : σ → γ → σ) (P : σ → Prop) (s : σ) (cs : List γ) : Prop :=
  ∀ pre, pre <+: cs → P (pre.foldl step s)

variable {P : σ → Prop} {s : σ}

theorem Along.start {cs : List γ} (h : Along step P s cs) : P s := h [] (List.nil_prefix)

theorem along_nil : Along step P s [] ↔ P s := by
  constructor
  · exact Along.start
  · intro hs pre hpre
    rw [List.prefix_nil.mp hpre]
    exact hs

theorem along_cons {c : γ} {cs : List γ} :
    Along step P s (c :: cs) ↔ P s ∧ Along step P (step s c) cs := by
  constructor
  · intro h
    refine ⟨h.start, ?_⟩
    intro pre hpre
    exact h (c :: pre) ((List.prefix_cons_inj c).mpr hpre)
  · intro h pre hpre
    cases pre with
    | nil => exact h.1
    | cons d pre =>
        obtain ⟨rfl, hrest⟩ := List.cons_prefix_cons.mp hpre
        exact h.2 pre hrest

theorem along_append {cs ds : List γ} :
    Along step P s (cs ++ ds) ↔ Along step P s cs ∧ Along step P (cs.foldl step s) ds := by
  induction cs generalizing s with
  | nil =>
      rw [List.nil_append, along_nil, List.foldl_nil]
      exact ⟨fun h => ⟨h.start, h⟩, fun h => h.2⟩
  | cons c cs ih => rw [List.cons_append, along_cons, along_cons, ih, List.foldl_cons, and_assoc]

-- Rounds that each come back to the state they started from.
theorem along_flatMap {ι : Type*} {round : ι → List γ} {xs : List ι} (hs : P s)
    (hround : ∀ x ∈ xs, Along step P s (round x) ∧ (round x).foldl step s = s) :
    Along step P s (xs.flatMap round) ∧ (xs.flatMap round).foldl step s = s := by
  induction xs with
  | nil => exact ⟨along_nil.mpr hs, rfl⟩
  | cons x xs ih =>
      obtain ⟨hfirst, hback⟩ := hround x (by simp)
      obtain ⟨hrest, hend⟩ := ih fun y hy => hround y (by simp [hy])
      rw [List.flatMap_cons, along_append, List.foldl_append, hback]
      exact ⟨⟨hfirst, hrest⟩, hend⟩

/-- `Q` holds of every step of the run and the state before it. -/
def AtEach (step : σ → γ → σ) (Q : σ → γ → Prop) (s : σ) (cs : List γ) : Prop :=
  ∀ pre c, pre ++ [c] <+: cs → Q (pre.foldl step s) c

theorem atEach_congr {Q Q' : σ → γ → Prop} {cs : List γ} (h : ∀ s, ∀ c ∈ cs, Q s c ↔ Q' s c) :
    AtEach step Q s cs ↔ AtEach step Q' s cs := by
  refine forall₃_congr fun pre c hpre => h _ c ?_
  exact hpre.subset (List.mem_append_right pre (List.mem_singleton_self c))

end Runs

end MoBoMemory.Base
