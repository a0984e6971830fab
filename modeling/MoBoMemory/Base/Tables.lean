import Mathlib.Data.List.Basic
import Mathlib.Logic.Function.Basic

/-!
# Tables that absorb

A table is a list in which a new item is absorbed by the first entry that takes it.  `Gained` is
about what a table gains over a run: if every step adds to a property of the table exactly what
`gain` says, then the property holds at the end exactly if it held before or some step gained it.
`EachStep` is the condition under which the partial steps of a run keep an invariant.  A table can also
be filled row by row, each from what it held, until a row cannot be made.
-/

namespace MoBoMemory.Base

section Absorb

variable {α : Type*} {f : α → Option α} {l l' : List α}

/-- Replace the first entry for which `f` has a replacement. -/
def absorbFirst (f : α → Option α) : List α → Option (List α)
  | [] => none
  | r :: rs =>
      match f r with
      | some r' => some (r' :: rs)
      | none => (absorbFirst f rs).map (r :: ·)

theorem absorbFirst_eq_none : absorbFirst f l = none ↔ ∀ r ∈ l, f r = none := by
  induction l with
  | nil => simp [absorbFirst]
  | cons r rs ih =>
      rw [absorbFirst]
      cases hr : f r <;> simp [hr, ih]

-- What `absorbFirst` changes: one entry, the first that takes the item.
theorem absorbFirst_eq_some : absorbFirst f l = some l' ↔
    ∃ pre r r' post, l = pre ++ r :: post ∧ (∀ q ∈ pre, f q = none) ∧ f r = some r' ∧
      l' = pre ++ r' :: post := by
  induction l generalizing l' with
  | nil => simp [absorbFirst]
  | cons r rs ih =>
      rw [absorbFirst]
      cases hr : f r with
      | some r' =>
          constructor
          · intro h
            exact ⟨[], r, r', rs, rfl, by simp, hr, (Option.some.inj h).symm⟩
          · rintro ⟨pre, q, q', post, hl, hpre, hq, rfl⟩
            cases pre with
            | nil =>
                obtain ⟨rfl, rfl⟩ := List.cons.inj hl
                rw [hr] at hq
                simp [Option.some.inj hq]
            | cons p pre =>
                obtain ⟨rfl, -⟩ := List.cons.inj hl
                exact absurd (hpre r (by simp)) (by simp [hr])
      | none =>
          simp only [Option.map_eq_some_iff, ih]
          constructor
          · rintro ⟨l₁, ⟨pre, q, q', post, rfl, hpre, hq, rfl⟩, rfl⟩
            refine ⟨r :: pre, q, q', post, rfl, ?_, hq, rfl⟩
            intro p hp
            rcases List.mem_cons.mp hp with rfl | hp
            · exact hr
            · exact hpre p hp
          · rintro ⟨pre, q, q', post, hl, hpre, hq, rfl⟩
            cases pre with
            | nil =>
                obtain ⟨rfl, -⟩ := List.cons.inj hl
                rw [hr] at hq
                exact absurd hq (by simp)
            | cons p pre =>
                obtain ⟨rfl, rfl⟩ := List.cons.inj hl
                exact ⟨pre ++ q' :: post,
                  ⟨pre, q, q', post, rfl, fun x hx => hpre x (by simp [hx]), hq, rfl⟩, rfl⟩

end Absorb

section Gains

variable {σ γ : Type*} {step : σ → γ → σ} {I P : σ → Prop} {gain : σ → γ → Prop}

theorem foldl_preserves (ok : γ → Prop) (hstep : ∀ s c, ok c → I s → I (step s c)) {cs : List γ}
    (hcs : ∀ c ∈ cs, ok c) {s : σ} (hs : I s) : I (cs.foldl step s) := by
  induction cs generalizing s with
  | nil => exact hs
  | cons c cs ih =>
      exact ih (fun d hd => hcs d (by simp [hd])) (hstep s c (hcs c (by simp)) hs)

/-- Some item of the run is gained in the state it meets. -/
def Gained (step : σ → γ → σ) (gain : σ → γ → Prop) : σ → List γ → Prop
  | _, [] => False
  | s, c :: cs => gain s c ∨ Gained step gain (step s c) cs

-- A property that each step holds on to and extends by `gain`, unless the step is bad, holds after
-- a run without bad steps exactly if it held before or was gained.
theorem foldl_iff_gained {bad : σ → γ → Prop} (ok : γ → Prop)
    (hinv : ∀ s c, ok c → I s → I (step s c))
    (hgain : ∀ s c, ok c → I s → ¬ bad s c → (P (step s c) ↔ P s ∨ gain s c)) {cs : List γ}
    (hcs : ∀ c ∈ cs, ok c) {s : σ} (hs : I s) (hgood : ¬ Gained step bad s cs) :
    P (cs.foldl step s) ↔ P s ∨ Gained step gain s cs := by
  induction cs generalizing s with
  | nil => simp [Gained]
  | cons c cs ih =>
      have hc := hcs c (by simp)
      obtain ⟨hfirst, hrest⟩ := not_or.mp hgood
      rw [List.foldl_cons, ih (fun d hd => hcs d (by simp [hd])) (hinv s c hc hs) hrest,
        hgain s c hc hs hfirst, Gained, or_assoc]

-- What is gained belongs to some item of the run.
theorem Gained.exists_mem {cs : List γ} {s : σ} (h : Gained step gain s cs) :
    ∃ c ∈ cs, ∃ s', gain s' c := by
  induction cs generalizing s with
  | nil => exact h.elim
  | cons c cs ih =>
      rcases h with h | h
      · exact ⟨c, by simp, s, h⟩
      · obtain ⟨d, hd, hgain⟩ := ih h
        exact ⟨d, by simp [hd], hgain⟩

end Gains

section Runs

variable {σ γ : Type*} {step : σ → γ → Option σ} {ok ok' : σ → γ → Prop} {I : σ → Prop}

/-- Every step of the run is taken in a state that meets the condition. -/
def EachStep (step : σ → γ → Option σ) (ok : σ → γ → Prop) : σ → List γ → Prop
  | _, [] => True
  | s, c :: cs => ok s c ∧ ∀ s', step s c = some s' → EachStep step ok s' cs

theorem eachStep_cons {s : σ} {c : γ} {cs : List γ} :
    EachStep step ok s (c :: cs) ↔ ok s c ∧ ∀ s' ∈ step s c, EachStep step ok s' cs := Iff.rfl

theorem eachStep_append {s : σ} {cs ds : List γ} : EachStep step ok s (cs ++ ds) ↔
    EachStep step ok s cs ∧ ∀ s', cs.foldlM step s = some s' → EachStep step ok s' ds := by
  induction cs generalizing s with
  | nil => simp [EachStep]
  | cons c cs ih =>
      simp only [List.cons_append, eachStep_cons, ih, List.foldlM_cons, and_assoc]
      apply and_congr_right
      intro _
      cases hnext : step s c with
      | none => simp
      | some s' => simp

instance EachStep.decidable [∀ s c, Decidable (ok s c)] (s : σ) (cs : List γ) :
    Decidable (EachStep step ok s cs) :=
  match cs with
  | [] => isTrue trivial
  | c :: cs =>
      match hnext : step s c with
      | none => decidable_of_iff (ok s c) (by simp [eachStep_cons, hnext])
      | some s' =>
          have := EachStep.decidable s' cs
          decidable_of_iff (ok s c ∧ EachStep step ok s' cs) (by simp [eachStep_cons, hnext])

-- An invariant of the steps that meet the condition is an invariant of the runs that do.
theorem EachStep.preserves (hstep : ∀ s c s', ok s c → I s → step s c = some s' → I s')
    {cs : List γ} {s s' : σ} (hok : EachStep step ok s cs) (hs : I s)
    (hrun : cs.foldlM step s = some s') : I s' := by
  induction cs generalizing s with
  | nil =>
      obtain rfl : s = s' := Option.some.inj hrun
      exact hs
  | cons c cs ih =>
      rw [List.foldlM_cons] at hrun
      obtain ⟨t, hfirst, hrest⟩ := Option.bind_eq_some_iff.mp hrun
      exact ih (hok.2 t hfirst) (hstep s c t hok.1 hs hfirst) hrest

theorem foldlM_preserves (ok : γ → Prop) (hstep : ∀ s c s', ok c → I s → step s c = some s' → I s')
    {cs : List γ} (hcs : ∀ c ∈ cs, ok c) {s s' : σ} (hs : I s) (hrun : cs.foldlM step s = some s') : I s' := by
  have heach : EachStep step (fun _ c => ok c) s cs := by
    clear hrun hs
    induction cs generalizing s with
    | nil => exact trivial
    | cons c cs ih => exact ⟨hcs c (by simp), fun _ _ => ih fun d hd => hcs d (by simp [hd])⟩
  exact heach.preserves hstep hs hrun

-- Where one condition implies another in the states of an invariant that it keeps, it does so on runs.
theorem EachStep.mono (hstep : ∀ s c s', ok s c → I s → step s c = some s' → I s')
    (himp : ∀ s c, I s → ok s c → ok' s c) {cs : List γ} {s : σ} (hs : I s)
    (hok : EachStep step ok s cs) : EachStep step ok' s cs := by
  induction cs generalizing s with
  | nil => trivial
  | cons c cs ih =>
      refine ⟨himp s c hs hok.1, ?_⟩
      intro s' hnext
      exact ih (hstep s c s' hok.1 hs hnext) (hok.2 s' hnext)

theorem EachStep.congr (hstep : ∀ s c s', ok s c → I s → step s c = some s' → I s')
    (hiff : ∀ s c, I s → (ok s c ↔ ok' s c)) {cs : List γ} {s : σ} (hs : I s) :
    EachStep step ok s cs ↔ EachStep step ok' s cs := by
  constructor
  · exact EachStep.mono hstep (fun s c hI => (hiff s c hI).mp) hs
  · refine EachStep.mono (fun s c s' hok' hI => ?_) (fun s c hI => (hiff s c hI).mpr) hs
    exact hstep s c s' ((hiff s c hI).mpr hok') hI

end Runs

section Fill

variable {α β : Type*} {f : Nat → α → Option α} {st st' : Nat → α} {n : Nat}

-- Each of the first rows is made from what it held; the others stay.
theorem foldlM_update_eq_some :
    (List.range n).foldlM (fun rows i => (f i (rows i)).map (Function.update rows i)) st = some st' ↔
      (∀ i < n, f i (st i) = some (st' i)) ∧ ∀ i, n ≤ i → st' i = st i := by
  induction n generalizing st' with
  | zero =>
      simp only [List.range_zero, List.foldlM_nil, Option.pure_def, Option.some.injEq, Nat.not_lt_zero,
        false_imp_iff, implies_true, Nat.zero_le, true_imp_iff, true_and, funext_iff]
      exact forall_congr' fun i => eq_comm
  | succ n ih =>
      rw [List.range_succ, List.foldlM_append]
      simp only [List.foldlM_cons, List.foldlM_nil, Option.bind_eq_bind, Option.bind_eq_some_iff,
        Option.map_eq_some_iff, Option.pure_def, Option.some.injEq, ih]
      constructor
      · rintro ⟨mid, ⟨hlow, hhigh⟩, _, ⟨v, hv, rfl⟩, rfl⟩
        rw [hhigh n (Nat.le_refl n)] at hv
        refine ⟨fun i hi => ?_, fun i hi => ?_⟩
        · rcases Nat.lt_succ_iff_lt_or_eq.mp hi with hlt | rfl
          · rw [Function.update_of_ne (by omega)]
            exact hlow i hlt
          · rw [Function.update_self]
            exact hv
        · rw [Function.update_of_ne (by omega)]
          exact hhigh i (by omega)
      · rintro ⟨hlow, hhigh⟩
        refine ⟨Function.update st' n (st n), ⟨fun i hi => ?_, fun i hi => ?_⟩, st',
          ⟨st' n, ?_, ?_⟩, rfl⟩
        · rw [Function.update_of_ne (by omega)]
          exact hlow i (by omega)
        · rcases Nat.eq_or_lt_of_le hi with rfl | hlt
          · exact Function.update_self ..
          · rw [Function.update_of_ne (by omega)]
            exact hhigh i hlt
        · rw [Function.update_self]
          exact hlow n (by omega)
        · rw [Function.update_idem, Function.update_eq_self]

theorem foldlM_update_eq_none :
    (List.range n).foldlM (fun rows i => (f i (rows i)).map (Function.update rows i)) st = none ↔
      ∃ i < n, f i (st i) = none := by
  rw [Option.eq_none_iff_forall_ne_some]
  constructor
  · intro h
    by_contra hall
    simp only [not_exists, not_and, Option.ne_none_iff_exists'] at hall
    choose row hrow using hall
    refine h (fun i => if hi : i < n then row i hi else st i) (foldlM_update_eq_some.mpr ⟨?_, ?_⟩)
    · intro i hi
      rw [dif_pos hi, hrow i hi]
    · intro i hi
      rw [dif_neg (by omega)]
  · rintro ⟨i, hi, hnone⟩ st' hst'
    have hsome := (foldlM_update_eq_some.mp hst').1 i hi
    rw [hnone] at hsome
    exact absurd hsome (by simp)

-- A list made item by item has an item in each place.
theorem mapM_eq_some {g : α → Option β} {l : List α} {l' : List β} (h : l.mapM g = some l') :
    l'.length = l.length ∧ ∀ i : Nat, l'[i]? = l[i]?.bind g := by
  induction l generalizing l' with
  | nil =>
      obtain rfl : [] = l' := by simpa using h
      simp
  | cons a l ih =>
      rw [List.mapM_cons] at h
      obtain ⟨b, hb, h⟩ := Option.bind_eq_some_iff.mp h
      obtain ⟨bs, hbs, h⟩ := Option.bind_eq_some_iff.mp h
      obtain rfl : b :: bs = l' := by simpa using h
      obtain ⟨hlen, hrest⟩ := ih hbs
      refine ⟨by simp [hlen], ?_⟩
      intro i
      cases i with
      | zero => simp [hb]
      | succ i => exact hrest i

end Fill

end MoBoMemory.Base
