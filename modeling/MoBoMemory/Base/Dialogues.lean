import Mathlib.Data.Fintype.Order
import Mathlib.Data.Nat.Find
import Mathlib.Logic.Function.Basic

/-!
# Dialogues

A dialogue asks for the answers of operations, one after the other, and may choose the next operation
by the answers so far.  A handler answers operations and keeps a state; running a dialogue against a
handler gives a result and the last state.  Several dialogues in a pool share one handler state and take
turns in any order.

The rules: handlers that agree on the operations of a dialogue give it the same result; what holds of
the result for all answers of a kind holds in every interleaving with such answers; and a thread whose
operations no other thread interferes with ends as it does alone.
-/

namespace MoBoMemory.Base

/-- Operations `Op` with answers in `Ans`, and a result of type `α`. -/
inductive Dialogue (Op : Type) (Ans : Op → Type) (α : Type) where
  | ret (a : α)
  | ask (op : Op) (next : Ans op → Dialogue Op Ans α)

/-- What answers operations and changes its state by that. -/
abbrev Handler (Op : Type) (Ans : Op → Type) (σ : Type) : Type := (op : Op) → σ → Ans op × σ

namespace Dialogue

variable {Op : Type} {Ans : Op → Type} {α β σ τ : Type}

def bind (d : Dialogue Op Ans α) (f : α → Dialogue Op Ans β) : Dialogue Op Ans β :=
  match d with
  | .ret a => f a
  | .ask op next => .ask op fun answer => (next answer).bind f

def run (h : Handler Op Ans σ) : Dialogue Op Ans α → σ → α × σ
  | .ret a, s => (a, s)
  | .ask op next, s => (next (h op s).1).run h (h op s).2

/-- Only operations with `P` are asked. -/
def Only (P : Op → Prop) : Dialogue Op Ans α → Prop
  | .ret _ => True
  | .ask op next => P op ∧ ∀ answer, (next answer).Only P

/-- As long as all answers are as `Q` says, the result is as `post` says. -/
def Always (Q : (op : Op) → Ans op → Prop) (post : α → Prop) : Dialogue Op Ans α → Prop
  | .ret a => post a
  | .ask op next => ∀ answer, Q op answer → (next answer).Always Q post

/-! ## One dialogue -/

theorem run_bind (h : Handler Op Ans σ) (d : Dialogue Op Ans α) (f : α → Dialogue Op Ans β) (s : σ) :
    (d.bind f).run h s = (f (d.run h s).1).run h (d.run h s).2 := by
  induction d generalizing s with
  | ret a => rfl
  | ask op next ih => exact ih _ _

theorem Only.bind {P : Op → Prop} {d : Dialogue Op Ans α} {f : α → Dialogue Op Ans β}
    (hd : d.Only P) (hf : ∀ a, (f a).Only P) : (d.bind f).Only P := by
  induction d with
  | ret a => exact hf a
  | ask op next ih => exact ⟨hd.1, fun answer => ih answer (hd.2 answer)⟩

theorem Only.mono {P P' : Op → Prop} (himp : ∀ op, P op → P' op) {d : Dialogue Op Ans α}
    (hd : d.Only P) : d.Only P' := by
  induction d with
  | ret a => trivial
  | ask op next ih => exact ⟨himp op hd.1, fun answer => ih answer (hd.2 answer)⟩

-- Related states that give equal answers, and stay related, cannot be told apart.
theorem run_related {P : Op → Prop} {R : σ → τ → Prop} {h : Handler Op Ans σ} {g : Handler Op Ans τ}
    (hstep : ∀ op, P op → ∀ s t, R s t → (h op s).1 = (g op t).1 ∧ R (h op s).2 (g op t).2)
    {d : Dialogue Op Ans α} (hd : d.Only P) {s : σ} {t : τ} (hst : R s t) :
    (d.run h s).1 = (d.run g t).1 ∧ R (d.run h s).2 (d.run g t).2 := by
  induction d generalizing s t with
  | ret a => exact ⟨rfl, hst⟩
  | ask op next ih =>
      obtain ⟨hanswer, hnext⟩ := hstep op hd.1 s t hst
      rw [run, run, hanswer]
      exact ih _ (hd.2 _) hnext

-- What the operations of a dialogue keep is kept by its run.
theorem run_keeps {P : Op → Prop} {I : σ → Prop} {h : Handler Op Ans σ}
    (hstep : ∀ op, P op → ∀ s, I s → I (h op s).2) {d : Dialogue Op Ans α} (hd : d.Only P) {s : σ}
    (hs : I s) : I (d.run h s).2 := by
  induction d generalizing s with
  | ret a => exact hs
  | ask op next ih => exact ih _ (hd.2 _) (hstep op hd.1 s hs)

section Always

variable {Q : (op : Op) → Ans op → Prop} {post : α → Prop}

/-- The handler whose first answer to `op` is `answer`. -/
noncomputable def firstAnswer (op : Op) (answer : Ans op) (h : Handler Op Ans σ) :
    Handler Op Ans (Bool × σ) :=
  open Classical in fun op' s =>
    if hfirst : s.1 = true ∧ op = op' then (hfirst.2 ▸ answer, (false, s.2))
    else ((h op' s.2).1, (false, (h op' s.2).2))

theorem run_firstAnswer (op : Op) (answer : Ans op) (h : Handler Op Ans σ)
    (next : Ans op → Dialogue Op Ans α) (s : σ) :
    (ask op next).run (firstAnswer op answer h) (true, s) =
      (((next answer).run h s).1, (false, ((next answer).run h s).2)) := by
  have hfirst : firstAnswer op answer h op (true, s) = (answer, (false, s)) := by
    rw [firstAnswer, dif_pos ⟨rfl, rfl⟩]
  have hany : ∀ d : Dialogue Op Ans α, d.Only fun _ => True := by
    intro d
    induction d with
    | ret a => trivial
    | ask op next ih => exact ⟨trivial, ih⟩
  -- from then on it is the other handler
  obtain ⟨hresult, hfalse, hstate⟩ := run_related (R := fun (s : Bool × σ) t => s.1 = false ∧ s.2 = t)
    (h := firstAnswer op answer h) (g := h) (by
      rintro op' - ⟨first, s⟩ t ⟨rfl, rfl⟩
      rw [firstAnswer, dif_neg (by simp)]
      exact ⟨rfl, rfl, rfl⟩) (hany (next answer)) (s := (false, s)) (t := s) ⟨rfl, rfl⟩
  rw [run, hfirst]
  exact Prod.ext hresult (Prod.ext hfalse hstate)

/-- A dialogue is what its runs are. -/
theorem eq_of_run {d d' : Dialogue Op Ans α} (hasAnswer : ∀ op, Nonempty (Ans op))
    (hrun : ∀ (σ : Type) (h : Handler Op Ans σ) s, d.run h s = d'.run h s) : d = d' := by
  -- a handler that notes the first operation
  let noting : Handler Op Ans (Option Op) :=
    fun op s => (Classical.choice (hasAnswer op), some (s.getD op))
  have hnoted : ∀ (d : Dialogue Op Ans α) op, (d.run noting (some op)).2 = some op := by
    intro d op
    induction d with
    | ret a => rfl
    | ask op' next ih => exact ih _
  induction d generalizing d' with
  | ret a =>
      cases d' with
      | ret a' => exact congrArg ret (congrArg Prod.fst (hrun _ noting none))
      | ask op' next' =>
          have hfirst := congrArg Prod.snd (hrun _ noting none)
          exact absurd (hfirst.trans (hnoted (next' _) op')) (by simp [run])
  | ask op next ih =>
      cases d' with
      | ret a' =>
          have hfirst := congrArg Prod.snd (hrun _ noting none)
          exact absurd ((hnoted (next _) op).symm.trans hfirst) (by simp [run])
      | ask op' next' =>
          have hfirst := congrArg Prod.snd (hrun _ noting none)
          obtain rfl : op = op' :=
            Option.some.inj ((hnoted (next _) op).symm.trans (hfirst.trans (hnoted (next' _) op')))
          refine congrArg (ask op) (funext fun answer => ih answer fun σ h s => ?_)
          have hnext := hrun _ (firstAnswer op answer h) (true, s)
          rw [run_firstAnswer, run_firstAnswer] at hnext
          obtain ⟨hresult, hstate⟩ := Prod.mk.inj hnext
          exact Prod.ext hresult (Prod.mk.inj hstate).2

-- A result that no handler with such answers can avoid is unavoidable with any answers of the kind.
theorem always_of_run {d : Dialogue Op Ans α} (hasAnswer : ∀ op, ∃ answer, Q op answer)
    (hrun : ∀ (σ : Type) (h : Handler Op Ans σ), (∀ op s, Q op (h op s).1) →
      ∀ s, post (d.run h s).1) : d.Always Q post := by
  induction d with
  | ret a =>
      exact hrun Unit (fun op _ => ((hasAnswer op).choose, ())) (fun op _ => (hasAnswer op).choose_spec)
        ()
  | ask op next ih =>
      intro answer hanswer
      apply ih answer
      intro σ h hh s
      have hfirst := congrArg Prod.fst (run_firstAnswer op answer h next s)
      refine (congrArg post hfirst).mp (hrun _ _ ?_ _)
      intro op' s
      unfold firstAnswer
      split
      · next hfirst =>
          obtain ⟨-, rfl⟩ := hfirst
          exact hanswer
      · exact hh op' _

end Always

end Dialogue

/-! ## Dialogues that take turns -/

/-- Threads that share the state of a handler. -/
structure Pool (ι Op : Type) (Ans : Op → Type) (α σ : Type) where
  threads : ι → Dialogue Op Ans α
  state : σ

namespace Pool

variable {ι Op : Type} [DecidableEq ι] {Ans : Op → Type} {α σ τ : Type}

/-- The next operation of thread `i`, if it has not ended. -/
def turn (h : Handler Op Ans σ) (c : Pool ι Op Ans α σ) (i : ι) : Pool ι Op Ans α σ :=
  match c.threads i with
  | .ret _ => c
  | .ask op next => ⟨Function.update c.threads i (next (h op c.state).1), (h op c.state).2⟩

/-- Thread `i` has ended with `a`. -/
def Ended (c : Pool ι Op Ans α σ) (i : ι) (a : α) : Prop := c.threads i = .ret a

variable {h : Handler Op Ans σ} {c : Pool ι Op Ans α σ}

theorem turn_self {i : ι} {op : Op} {next : Ans op → Dialogue Op Ans α}
    (hi : c.threads i = .ask op next) : (c.turn h i).threads i = next (h op c.state).1 := by
  rw [turn, hi]
  exact Function.update_self ..

theorem turn_other {i j : ι} (hij : i ≠ j) : (c.turn h j).threads i = c.threads i := by
  unfold turn
  split
  · rfl
  · exact Function.update_of_ne hij ..

-- What a turn of any thread keeps is kept by every interleaving.
theorem foldl_keeps {I : Pool ι Op Ans α σ → Prop} (hstep : ∀ c i, I c → I (c.turn h i))
    (hc : I c) (schedule : List ι) : I (schedule.foldl (turn h) c) := by
  induction schedule generalizing c with
  | nil => exact hc
  | cons i schedule ih => exact ih (hstep c i hc)

section Answers

variable {Q : (op : Op) → Ans op → Prop} {post : α → Prop}

theorem turn_always (hanswers : ∀ op s, Q op (h op s).1) {i : ι} (j : ι)
    (hi : (c.threads i).Always Q post) : ((c.turn h j).threads i).Always Q post := by
  by_cases hij : i = j
  · subst hij
    cases hthread : c.threads i with
    | ret a =>
        rw [turn, hthread]
        exact hi
    | ask op next =>
        rw [hthread] at hi
        rw [turn_self hthread]
        exact hi _ (hanswers op _)
  · rwa [turn_other hij]

/-- Under every interleaving with answers of the kind, a thread that ends has the result. -/
theorem ended_of_always (hanswers : ∀ op s, Q op (h op s).1) {i : ι}
    (hi : (c.threads i).Always Q post) {schedule : List ι} {a : α}
    (hended : (schedule.foldl (turn h) c).Ended i a) : post a := by
  have hkeeps := foldl_keeps (h := h) (I := fun c => (c.threads i).Always Q post)
    (fun c j hc => turn_always hanswers j hc) hi schedule
  rw [hended] at hkeeps
  exact hkeeps

end Answers

section Separate

/-- Every thread asks its own operations only: they act on its part of the state, and the other
threads leave that part alone. -/
structure Separate (h : Handler Op Ans σ) (own : ι → Op → Prop) (part : ι → σ → τ)
    (alone : ι → Handler Op Ans τ) : Prop where
  acts : ∀ i op, own i op → ∀ s, (h op s).1 = (alone i op (part i s)).1 ∧
    part i (h op s).2 = (alone i op (part i s)).2
  leaves : ∀ i j, i ≠ j → ∀ op, own j op → ∀ s, part i (h op s).2 = part i s

variable {own : ι → Op → Prop} {part : ι → σ → τ} {alone : ι → Handler Op Ans τ}

theorem Separate.turn (hsep : Separate h own part alone) (hown : ∀ i, (c.threads i).Only (own i))
    (j : ι) : (∀ i, ((c.turn h j).threads i).Only (own i)) ∧
      ∀ i, ((c.turn h j).threads i).run (alone i) (part i (c.turn h j).state) =
        (c.threads i).run (alone i) (part i c.state) := by
  cases hj : c.threads j with
  | ret a =>
      rw [Pool.turn, hj]
      exact ⟨hown, fun _ => rfl⟩
  | ask op next =>
      have honly := hown j
      rw [hj] at honly
      have hstate : (c.turn h j).state = (h op c.state).2 := by rw [Pool.turn, hj]
      constructor
      · intro i
        by_cases hij : i = j
        · subst hij
          rw [turn_self hj]
          exact honly.2 _
        · rw [turn_other hij]
          exact hown i
      · intro i
        rw [hstate]
        by_cases hij : i = j
        · subst hij
          obtain ⟨hanswer, hpart⟩ := hsep.acts i op honly.1 c.state
          rw [turn_self hj, hj, Dialogue.run, hanswer, hpart]
        · rw [turn_other hij, hsep.leaves i j hij op honly.1]

/-- Under every interleaving a thread that ends has the result that it has alone. -/
theorem Separate.ended (hsep : Separate h own part alone) (hown : ∀ i, (c.threads i).Only (own i))
    {schedule : List ι} {i : ι} {a : α} (hended : (schedule.foldl (Pool.turn h) c).Ended i a) :
    a = ((c.threads i).run (alone i) (part i c.state)).1 := by
  have hkeeps := foldl_keeps (h := h)
    (I := fun c' : Pool ι Op Ans α σ => (∀ i, (c'.threads i).Only (own i)) ∧
      ∀ i, (c'.threads i).run (alone i) (part i c'.state) =
        (c.threads i).run (alone i) (part i c.state))
    (fun c' j hc' => by
      obtain ⟨honly, hrun⟩ := hsep.turn hc'.1 j
      exact ⟨honly, fun i => (hrun i).trans (hc'.2 i)⟩)
    ⟨hown, fun _ => rfl⟩ schedule
  rw [← hkeeps.2 i, hended]
  rfl

end Separate

/-- What the pool is after the first `n` turns of an endless schedule. -/
def after (h : Handler Op Ans σ) (c : Pool ι Op Ans α σ) (schedule : Nat → ι) : Nat → Pool ι Op Ans α σ
  | 0 => c
  | n + 1 => (after h c schedule n).turn h (schedule n)

/-- A thread that gets its turn again and again comes to its end. -/
theorem fair_ends {schedule : Nat → ι} {i : ι} (hfair : ∀ n, ∃ m ≥ n, schedule m = i) :
    ∃ n a, (after h c schedule n).Ended i a := by
  have hfrom : ∀ (d : Dialogue Op Ans α) n, (after h c schedule n).threads i = d →
      ∃ n a, (after h c schedule n).Ended i a := by
    intro d
    induction d with
    | ret a => exact fun n hn => ⟨n, a, hn⟩
    | ask op next ih =>
        intro n hn
        classical
        have hturn : ∃ m, n ≤ m ∧ schedule m = i := hfair n
        obtain ⟨hfirst, hnow⟩ := Nat.find_spec hturn
        -- until its next turn nothing happens to the thread
        have hwaits : ∀ m, n ≤ m → m ≤ Nat.find hturn →
            (after h c schedule m).threads i = .ask op next := by
          intro m hm hle
          induction m, hm using Nat.le_induction with
          | base => exact hn
          | succ m hm ihm =>
              have hother : i ≠ schedule m := fun heq => Nat.find_min hturn hle ⟨hm, heq.symm⟩
              rw [after, turn_other hother]
              exact ihm (by omega)
        have hmoves := turn_self (h := h) (hwaits _ hfirst (Nat.le_refl _))
        refine ih _ (Nat.find hturn + 1) (Eq.trans ?_ hmoves)
        rw [after, hnow]
  exact hfrom _ 0 rfl

/-- The threads one after the other, over and over. -/
def roundRobin {n : Nat} (hn : 0 < n) (t : Nat) : Fin n := ⟨t % n, Nat.mod_lt t hn⟩

theorem roundRobin_fair {n : Nat} (hn : 0 < n) (i : Fin n) (t : Nat) :
    ∃ m ≥ t, roundRobin hn m = i := by
  refine ⟨t * n + i, le_trans (Nat.le_mul_of_pos_right t hn) (Nat.le_add_right _ _), Fin.ext ?_⟩
  show (t * n + i) % n = i
  rw [Nat.mul_add_mod_self_right, Nat.mod_eq_of_lt i.2]

theorem ended_stays {i : ι} {a : α} (hended : c.Ended i a) (j : ι) : (c.turn h j).Ended i a := by
  by_cases hij : i = j
  · subst hij
    rw [turn, hended]
    exact hended
  · exact (turn_other hij).trans hended

theorem after_eq_foldl (schedule : Nat → ι) (n : Nat) :
    after h c schedule n = ((List.range n).map schedule).foldl (turn h) c := by
  induction n with
  | zero => rfl
  | succ n ih => rw [after, ih, List.range_succ, List.map_append, List.foldl_append]; rfl

theorem ended_later {schedule : Nat → ι} {n m : Nat} (hnm : n ≤ m) {i : ι} {a : α}
    (hended : (after h c schedule n).Ended i a) : (after h c schedule m).Ended i a := by
  induction m, hnm using Nat.le_induction with
  | base => exact hended
  | succ m _ ih => exact ended_stays ih _

/-- Under every fair schedule all of finitely many threads have ended after some number of turns. -/
theorem all_end [Finite ι] {schedule : Nat → ι} (hfair : ∀ i n, ∃ m ≥ n, schedule m = i) :
    ∃ n, ∀ i, ∃ a, (after h c schedule n).Ended i a := by
  have hends := fun i => fair_ends (h := h) (c := c) (hfair i)
  choose last result hlast using hends
  obtain ⟨n, hn⟩ := Finite.exists_le last
  exact ⟨n, fun i => ⟨result i, ended_later (hn i) (hlast i)⟩⟩

end Pool

end MoBoMemory.Base
