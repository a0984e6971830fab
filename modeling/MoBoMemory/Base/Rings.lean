import Mathlib.Data.List.Nodup
import Mathlib.Logic.Function.Basic

/-!
# Rings of links

Doubly linked lists whose links are stored with their items: a ring runs from a head through its items
and back.  `add` puts an item behind the head, `del` takes one out and poisons its links; only the
first item is ever taken out here.
-/

namespace MoBoMemory.Base

structure Links (ρ : Type*) where
  next : ρ → ρ
  prev : ρ → ρ

namespace Links

section Stores

variable {ρ : Type*} [DecidableEq ρ]

def setNext (l : Links ρ) (x y : ρ) : Links ρ := { l with next := Function.update l.next x y }

def setPrev (l : Links ρ) (x y : ρ) : Links ρ := { l with prev := Function.update l.prev x y }

/-- Both links of an item. -/
def set (l : Links ρ) (x y : ρ) : Links ρ := (l.setNext x y).setPrev x y

/-- A ring of its own. -/
def init (l : Links ρ) (x : ρ) : Links ρ := l.set x x

def add (l : Links ρ) (new head : ρ) : Links ρ :=
  (((l.setPrev (l.next head) new).setNext new (l.next head)).setPrev new head).setNext head new

def del (l : Links ρ) (poison1 poison2 x : ρ) : Links ρ :=
  (((l.setPrev (l.next x) (l.prev x)).setNext (l.prev x) (l.next x)).setNext x poison1).setPrev x
    poison2

end Stores

section Rings

variable {ρ : Type*} {l l' : Links ρ}

/-- Linked both ways from `a` through the items to `b`. -/
def Path (l : Links ρ) : ρ → List ρ → ρ → Prop
  | a, [], b => l.next a = b ∧ l.prev b = a
  | a, x :: xs, b => (l.next a = x ∧ l.prev x = a) ∧ Path l x xs b

structure Ring (l : Links ρ) (head : ρ) (xs : List ρ) : Prop where
  nodup : (head :: xs).Nodup
  path : l.Path head xs head

-- A path only depends on the links along it.
theorem Path.congr {a b : ρ} {xs : List ρ} (hnext : ∀ y ∈ a :: xs, l'.next y = l.next y)
    (hprev : ∀ y ∈ xs ++ [b], l'.prev y = l.prev y) (h : l.Path a xs b) : l'.Path a xs b := by
  induction xs generalizing a with
  | nil => exact ⟨(hnext a (by simp)).trans h.1, (hprev b (by simp)).trans h.2⟩
  | cons x xs ih =>
      obtain ⟨hx, hrest⟩ := h
      refine ⟨⟨(hnext a (by simp)).trans hx.1, (hprev x (by simp)).trans hx.2⟩, ?_⟩
      exact ih (fun y hy => hnext y (by simp [List.mem_cons.mp hy]))
        (fun y hy => hprev y (List.mem_cons_of_mem x hy)) hrest

theorem Ring.congr {head : ρ} {xs : List ρ} (hnext : ∀ y ∈ head :: xs, l'.next y = l.next y)
    (hprev : ∀ y ∈ head :: xs, l'.prev y = l.prev y) (h : l.Ring head xs) : l'.Ring head xs := by
  refine ⟨h.nodup, h.path.congr hnext ?_⟩
  intro y hy
  apply hprev
  simpa [or_comm] using hy

theorem headD_mem (head : ρ) (xs : List ρ) : xs.headD head ∈ head :: xs := by
  cases xs <;> simp

-- Behind the head comes the first item, or the head again.
theorem Ring.next_head {head : ρ} {xs : List ρ} (h : l.Ring head xs) :
    l.next head = xs.headD head := by
  cases xs with
  | nil => exact h.path.1
  | cons x xs => exact h.path.1.1

theorem Path.next_item {a b x : ρ} {pre xs : List ρ} (h : l.Path a (pre ++ x :: xs) b) :
    l.next x = xs.headD b := by
  induction pre generalizing a with
  | nil =>
      cases xs with
      | nil => exact h.2.1
      | cons y ys => exact h.2.1.1
  | cons p pre ih => exact ih h.2

theorem Ring.next_item {head x : ρ} {pre xs : List ρ} (h : l.Ring head (pre ++ x :: xs)) :
    l.next x = xs.headD head := h.path.next_item

theorem Ring.next_first {head x : ρ} {xs : List ρ} (h : l.Ring head (x :: xs)) :
    l.next x = xs.headD head := @Path.next_item _ _ _ _ _ [] _ h.path

theorem Ring.prev_first {head x : ρ} {xs : List ρ} (h : l.Ring head (x :: xs)) :
    l.prev x = head := h.path.1.2

variable [DecidableEq ρ]

theorem ring_init (l : Links ρ) (x : ρ) : (l.init x).Ring x [] := by
  refine ⟨by simp, ?_, ?_⟩ <;> simp [init, set, setNext, setPrev]

theorem Ring.set_frame {head x : ρ} {xs : List ρ} (h : l.Ring head xs) (hx : x ∉ head :: xs)
    (y : ρ) : (l.set x y).Ring head xs := by
  have hne : ∀ y ∈ head :: xs, y ≠ x := fun y hy heq => hx (heq ▸ hy)
  apply h.congr
  · intro z hz
    simp [set, setNext, setPrev, hne z hz]
  · intro z hz
    simp [set, setNext, setPrev, hne z hz]

theorem Ring.add {head new : ρ} {xs : List ρ} (h : l.Ring head xs) (hnew : new ∉ head :: xs) :
    (l.add new head).Ring head (new :: xs) := by
  obtain ⟨hne, hmem⟩ := not_or.mp (fun h => hnew (List.mem_cons.mpr h))
  obtain ⟨hhead, hxs⟩ := List.nodup_cons.mp h.nodup
  refine ⟨List.nodup_cons.mpr ⟨by simp [Ne.symm hne, hhead], List.nodup_cons.mpr ⟨hmem, hxs⟩⟩, ?_⟩
  refine ⟨by simp [Links.add, setNext, setPrev], ?_⟩
  cases xs with
  | nil =>
      have hnext : l.next head = head := h.path.1
      simp [Path, Links.add, setNext, setPrev, hnext, hne, Ne.symm hne]
  | cons y ys =>
      -- only the link back from the old first item changes beyond the new one
      have hnext : l.next head = y := h.path.1.1
      obtain ⟨hy, -⟩ := List.nodup_cons.mp hxs
      simp only [List.mem_cons, not_or] at hmem hhead
      refine ⟨by simp [Links.add, setNext, setPrev, hnext, hne, Ne.symm hmem.1], ?_⟩
      apply Path.congr _ _ h.path.2
      · intro z hz
        have hz1 : z ≠ head := by rintro rfl; simp_all
        have hz2 : z ≠ new := by rintro rfl; simp_all
        simp [Links.add, setNext, setPrev, hz1, hz2]
      · intro z hz
        have hz1 : z ≠ y := by rintro rfl; simp_all
        have hz2 : z ≠ new := by rintro rfl; simp_all
        simp [Links.add, setNext, setPrev, hnext, hz1, hz2]

theorem Ring.add_frame {head head' new : ρ} {xs ys : List ρ} (h : l.Ring head xs)
    (h' : l.Ring head' ys) (hnew : new ∉ head' :: ys)
    (hdisj : ∀ y ∈ head' :: ys, y ∉ head :: xs) : (l.add new head).Ring head' ys := by
  have hnext : l.next head ∈ head :: xs := by
    rw [h.next_head]
    exact headD_mem head xs
  apply h'.congr
  · intro y hy
    have hy1 : y ≠ head := fun heq => hdisj y hy (by simp [heq])
    have hy2 : y ≠ new := fun heq => hnew (heq ▸ hy)
    simp [Links.add, setNext, setPrev, hy1, hy2]
  · intro y hy
    have hy1 : y ≠ l.next head := fun heq => hdisj y hy (heq ▸ hnext)
    have hy2 : y ≠ new := fun heq => hnew (heq ▸ hy)
    simp [Links.add, setNext, setPrev, hy1, hy2]

theorem Ring.del {head x poison1 poison2 : ρ} {xs : List ρ} (h : l.Ring head (x :: xs)) :
    (l.del poison1 poison2 x).Ring head xs := by
  obtain ⟨hhead, hxs⟩ := List.nodup_cons.mp h.nodup
  obtain ⟨hx, hnodup⟩ := List.nodup_cons.mp hxs
  simp only [List.mem_cons, not_or] at hhead
  refine ⟨List.nodup_cons.mpr ⟨hhead.2, hnodup⟩, ?_⟩
  have hprev : l.prev x = head := h.prev_first
  cases xs with
  | nil =>
      have hnext : l.next x = head := h.path.2.1
      simp [Path, Links.del, setNext, setPrev, hnext, hprev, hhead.1]
  | cons y ys =>
      have hnext : l.next x = y := h.path.2.1.1
      obtain ⟨hy, -⟩ := List.nodup_cons.mp hnodup
      simp only [List.mem_cons, not_or] at hx hhead
      refine ⟨by simp [Links.del, setNext, setPrev, hnext, hprev, hhead.1, Ne.symm hx.1], ?_⟩
      apply Path.congr _ _ h.path.2.2
      · intro z hz
        have hz1 : z ≠ head := by rintro rfl; simp_all
        have hz2 : z ≠ x := by rintro rfl; simp_all
        simp [Links.del, setNext, setPrev, hprev, hz1, hz2]
      · intro z hz
        have hz1 : z ≠ y := by rintro rfl; simp_all
        have hz2 : z ≠ x := by rintro rfl; simp_all
        simp [Links.del, setNext, setPrev, hnext, hz1, hz2]

theorem Ring.del_frame {head head' x poison1 poison2 : ρ} {xs ys : List ρ}
    (h : l.Ring head (x :: xs)) (h' : l.Ring head' ys)
    (hdisj : ∀ y ∈ head' :: ys, y ∉ head :: x :: xs) :
    (l.del poison1 poison2 x).Ring head' ys := by
  have hprev : l.prev x = head := h.prev_first
  have hnext : l.next x ∈ head :: xs := by
    rw [h.next_first]
    exact headD_mem head xs
  have hsub : ∀ y ∈ head :: xs, y ∈ head :: x :: xs := by
    intro y hy
    rcases List.mem_cons.mp hy with rfl | hy <;> simp [*]
  apply h'.congr
  · intro y hy
    have hy1 : y ≠ head := fun heq => hdisj y hy (by simp [heq])
    have hy2 : y ≠ x := fun heq => hdisj y hy (by simp [heq])
    simp [Links.del, setNext, setPrev, hprev, hy1, hy2]
  · intro y hy
    have hy1 : y ≠ l.next x := fun heq => hdisj y hy (heq ▸ hsub _ hnext)
    have hy2 : y ≠ x := fun heq => hdisj y hy (by simp [heq])
    simp [Links.del, setNext, setPrev, hy1, hy2]

end Rings

end Links

end MoBoMemory.Base
