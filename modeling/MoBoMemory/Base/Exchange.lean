import Mathlib.Data.List.Sort

/-!
# Exchange sort

The sort by adjacent exchanges that makes a fixed number of whole passes and never looks whether a
pass changed anything.  It sorts by a key, largest first.  The invariant of the passes is `Settled`:
after `n` of them the last `n` entries are where they belong.
-/

namespace MoBoMemory.Base

section Exchange

variable {α β : Type*} [LinearOrder β] {key : α → β}

/-- The rest of a pass that is carrying `a`. -/
def exchangeFrom (key : α → β) : α → List α → List α
  | a, [] => [a]
  | a, b :: l =>
      if key a < key b then b :: exchangeFrom key a l
      else a :: exchangeFrom key b l

def exchangePass (key : α → β) : List α → List α
  | [] => []
  | a :: l => exchangeFrom key a l

def exchangeSort (key : α → β) (l : List α) : List α :=
  (exchangePass key)^[l.length - 1] l

theorem exchangeFrom_perm (a : α) (l : List α) : (exchangeFrom key a l).Perm (a :: l) := by
  induction l generalizing a with
  | nil => exact List.Perm.refl _
  | cons b l ih =>
      rw [exchangeFrom]
      split
      · exact ((ih a).cons b).trans (List.Perm.swap a b l)
      · exact (ih b).cons a

theorem exchangePass_perm (l : List α) : (exchangePass key l).Perm l := by
  cases l with
  | nil => exact List.Perm.refl _
  | cons a l => exact exchangeFrom_perm a l

variable (key) in
theorem iterate_exchangePass_perm (n : Nat) (l : List α) :
    ((exchangePass key)^[n] l).Perm l := by
  induction n with
  | zero => exact List.Perm.refl _
  | succ n ih =>
      rw [Function.iterate_succ_apply']
      exact (exchangePass_perm _).trans ih

variable (key) in
theorem exchangeSort_perm (l : List α) : (exchangeSort key l).Perm l :=
  iterate_exchangePass_perm key _ l

variable (key) in
-- A pass drops its smallest entry at the end.
theorem exchangeFrom_eq_concat (a : α) (l : List α) :
    ∃ xs m, exchangeFrom key a l = xs ++ [m] ∧ ∀ x ∈ xs, key m ≤ key x := by
  induction l generalizing a with
  | nil => exact ⟨[], a, rfl, by simp⟩
  | cons b l ih =>
      rw [exchangeFrom]
      -- the entry left behind is at least the carried one, and the carried one only gets smaller
      have hcarried : ∀ c xs m, exchangeFrom key c l = xs ++ [m] → (∀ x ∈ xs, key m ≤ key x) →
          key m ≤ key c := by
        intro c xs m heq hmin
        have hmem : c ∈ xs ++ [m] := by
          rw [← heq]
          exact (exchangeFrom_perm c l).mem_iff.mpr (by simp)
        rcases List.mem_append.mp hmem with hc | hc
        · exact hmin c hc
        · rw [List.mem_singleton.mp hc]
      split
      · next hlt =>
          obtain ⟨xs, m, heq, hmin⟩ := ih a
          have ha := hcarried a xs m heq hmin
          exact ⟨b :: xs, m, by rw [heq]; rfl,
            List.forall_mem_cons.mpr ⟨le_trans ha (le_of_lt hlt), hmin⟩⟩
      · next hle =>
          obtain ⟨xs, m, heq, hmin⟩ := ih b
          have hb := hcarried b xs m heq hmin
          exact ⟨a :: xs, m, by rw [heq]; rfl,
            List.forall_mem_cons.mpr ⟨le_trans hb (not_lt.mp hle), hmin⟩⟩

-- A pass changes nothing in a list that is sorted already.
theorem exchangeFrom_of_sorted {a : α} {l : List α}
    (hsorted : (a :: l).Pairwise fun x y => key y ≤ key x) : exchangeFrom key a l = a :: l := by
  induction l generalizing a with
  | nil => rfl
  | cons b l ih =>
      obtain ⟨hhead, htail⟩ := List.pairwise_cons.mp hsorted
      rw [exchangeFrom, if_neg (not_lt.mpr (hhead b (by simp))), ih htail]

-- A sorted tail that everything before it dominates is out of reach of a pass.
theorem exchangeFrom_append {a : α} {xs ys : List α}
    (hsorted : ys.Pairwise fun x y => key y ≤ key x)
    (hdom : ∀ x ∈ a :: xs, ∀ y ∈ ys, key y ≤ key x) :
    exchangeFrom key a (xs ++ ys) = exchangeFrom key a xs ++ ys := by
  induction xs generalizing a with
  | nil =>
      rw [List.nil_append, exchangeFrom_of_sorted]
      · rfl
      · exact List.pairwise_cons.mpr ⟨hdom a (by simp), hsorted⟩
  | cons b xs ih =>
      obtain ⟨ha, hrest⟩ := List.forall_mem_cons.mp hdom
      obtain ⟨hb, hxs⟩ := List.forall_mem_cons.mp hrest
      rw [List.cons_append, exchangeFrom, exchangeFrom]
      split
      · rw [ih (List.forall_mem_cons.mpr ⟨ha, hxs⟩), List.cons_append]
      · rw [ih (List.forall_mem_cons.mpr ⟨hb, hxs⟩), List.cons_append]

/-- The last `n` entries are sorted, and nothing before them is smaller. -/
def Settled (key : α → β) (n : Nat) (l : List α) : Prop :=
  ∃ xs ys, l = xs ++ ys ∧ ys.length = n ∧ (ys.Pairwise fun x y => key y ≤ key x) ∧
    ∀ x ∈ xs, ∀ y ∈ ys, key y ≤ key x

theorem Settled.exchangePass {n : Nat} {l : List α} (h : Settled key n l) (hn : n < l.length) :
    Settled key (n + 1) (exchangePass key l) := by
  obtain ⟨xs, ys, rfl, hlen, hsorted, hdom⟩ := h
  cases xs with
  | nil =>
      rw [List.nil_append] at hn
      omega
  | cons a xs =>
      obtain ⟨zs, m, heq, hmin⟩ := exchangeFrom_eq_concat key a xs
      have hmem : ∀ z, z ∈ zs ++ [m] ↔ z ∈ a :: xs := by
        intro z
        rw [← heq]
        exact (exchangeFrom_perm a xs).mem_iff
      have hm : ∀ y ∈ ys, key y ≤ key m := hdom m ((hmem m).mp (by simp))
      refine ⟨zs, m :: ys, ?_, ?_, ?_, ?_⟩
      · show exchangeFrom key a (xs ++ ys) = zs ++ m :: ys
        rw [exchangeFrom_append hsorted hdom, heq, List.append_assoc, List.singleton_append]
      · rw [List.length_cons, hlen]
      · exact List.pairwise_cons.mpr ⟨hm, hsorted⟩
      · intro z hz
        exact List.forall_mem_cons.mpr ⟨hmin z hz, hdom z ((hmem z).mp (by simp [hz]))⟩

variable (key) in
theorem settled_iterate (l : List α) (n : Nat) (hn : n ≤ l.length) :
    Settled key n ((exchangePass key)^[n] l) := by
  induction n with
  | zero => exact ⟨l, [], by simp, rfl, List.Pairwise.nil, by simp⟩
  | succ n ih =>
      rw [Function.iterate_succ_apply']
      apply (ih (by omega)).exchangePass
      rw [(iterate_exchangePass_perm key n l).length_eq]
      omega

variable (key) in
theorem exchangeSort_sorted (l : List α) :
    (exchangeSort key l).Pairwise fun x y => key y ≤ key x := by
  obtain ⟨xs, ys, heq, hlen, hsorted, hdom⟩ :=
    settled_iterate key l (l.length - 1) (by omega)
  have htotal := (iterate_exchangePass_perm key (l.length - 1) l).length_eq
  rw [exchangeSort, heq]
  rw [heq, List.length_append, hlen] at htotal
  -- at most one entry is in front of the sorted ones
  apply List.pairwise_append.mpr ⟨?_, hsorted, hdom⟩
  match xs, htotal with
  | [], _ => exact List.Pairwise.nil
  | [x], _ => exact List.pairwise_singleton _ x
  | x :: y :: xs, htotal =>
      simp only [List.length_cons] at htotal
      omega

/-! Sorting images is sorting by the key of the image. -/

section Map

variable {γ : Type*} (f : γ → α)

theorem exchangeFrom_map (a : γ) (l : List γ) :
    exchangeFrom key (f a) (l.map f) = (exchangeFrom (fun x => key (f x)) a l).map f := by
  induction l generalizing a with
  | nil => rfl
  | cons b l ih =>
      rw [List.map_cons, exchangeFrom, exchangeFrom, ih, ih]
      split <;> rfl

theorem exchangePass_map (l : List γ) :
    exchangePass key (l.map f) = (exchangePass (fun x => key (f x)) l).map f := by
  cases l with
  | nil => rfl
  | cons a l => exact exchangeFrom_map f a l

variable (key) in
theorem exchangeSort_map (l : List γ) :
    exchangeSort key (l.map f) = (exchangeSort (fun x => key (f x)) l).map f := by
  rw [exchangeSort, exchangeSort, List.length_map]
  induction l.length - 1 with
  | zero => rfl
  | succ n ih => rw [Function.iterate_succ_apply', Function.iterate_succ_apply', ih, exchangePass_map]

end Map

end Exchange

end MoBoMemory.Base
