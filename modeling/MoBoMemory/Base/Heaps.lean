import Mathlib.Data.Finset.Basic
import Mathlib.Data.Finset.Lattice.Lemmas

/-!
# Heaps of blocks

A heap knows which blocks are live, and notes every free and every use of one that is not.
-/

namespace MoBoMemory.Base

/-- A free or a use of a block that is not live; a null pointer may be used by mistake too. -/
inductive HeapFault (α : Type*) where
  | free (x : α)
  | use (p : Option α)

structure Heap (α : Type*) where
  live : Finset α
  faults : List (HeapFault α)

namespace Heap

variable {α : Type*} [DecidableEq α] {h h' : Heap α} {x : α} {xs : List α}

def empty : Heap α := ⟨∅, []⟩

/-- An allocator gives no block that is live. -/
def alloc (h : Heap α) (x : α) : Option (Heap α) :=
  if x ∈ h.live then none else some { h with live := insert x h.live }

def free (h : Heap α) (x : α) : Heap α :=
  if x ∈ h.live then { h with live := h.live.erase x } else { h with faults := .free x :: h.faults }

def use (h : Heap α) (p : Option α) : Heap α :=
  if ∃ x ∈ p, x ∈ h.live then h else { h with faults := .use p :: h.faults }

theorem alloc_eq_some : h.alloc x = some h' ↔ x ∉ h.live ∧ h' = { h with live := insert x h.live } := by
  unfold alloc
  by_cases hx : x ∈ h.live
  · simp [hx]
  · simp [hx, eq_comm]

theorem foldl_use {ps : List (Option α)} (hlive : ∀ p ∈ ps, ∃ x ∈ p, x ∈ h.live) : ps.foldl use h = h := by
  induction ps with
  | nil => rfl
  | cons p ps ih =>
      rw [List.foldl_cons, use, if_pos (hlive p (by simp))]
      exact ih fun q hq => hlive q (by simp [hq])

-- Blocks that are allocated one after the other are different from each other, and from all live ones.
theorem foldlM_alloc : xs.foldlM alloc h = some h' ↔
    xs.Nodup ∧ (∀ x ∈ xs, x ∉ h.live) ∧ h' = { h with live := xs.toFinset ∪ h.live } := by
  induction xs generalizing h with
  | nil => simp [eq_comm]
  | cons x xs ih =>
      simp only [List.foldlM_cons, Option.bind_eq_bind, Option.bind_eq_some_iff, alloc_eq_some]
      constructor
      · rintro ⟨h₁, ⟨hx, rfl⟩, hrest⟩
        obtain ⟨hnodup, hfresh, rfl⟩ := ih.mp hrest
        have hxs : x ∉ xs := fun hmem => hfresh x hmem (Finset.mem_insert_self x _)
        refine ⟨List.nodup_cons.mpr ⟨hxs, hnodup⟩, ?_, ?_⟩
        · intro y hy
          rcases List.mem_cons.mp hy with rfl | hy
          · exact hx
          · exact fun hlive => hfresh y hy (Finset.mem_insert_of_mem hlive)
        · simp [Finset.insert_union, Finset.union_insert]
      · rintro ⟨hnodup, hfresh, rfl⟩
        obtain ⟨hxs, hnodup⟩ := List.nodup_cons.mp hnodup
        refine ⟨_, ⟨hfresh x (by simp), rfl⟩, ih.mpr ⟨hnodup, ?_, ?_⟩⟩
        · intro y hy hlive
          rcases Finset.mem_insert.mp hlive with rfl | hlive
          · exact hxs hy
          · exact hfresh y (by simp [hy]) hlive
        · simp [Finset.insert_union, Finset.union_insert]

-- Freeing them again leaves the heap as it was.
theorem foldl_free (hnodup : xs.Nodup) (hfresh : ∀ x ∈ xs, x ∉ h.live) :
    xs.foldl free { h with live := xs.toFinset ∪ h.live } = h := by
  induction xs with
  | nil => simp
  | cons x xs ih =>
      obtain ⟨hxs, hnodup⟩ := List.nodup_cons.mp hnodup
      have hx : x ∉ xs.toFinset ∪ h.live := by simp [hxs, hfresh x]
      rw [List.foldl_cons, free, if_pos (by simp), List.toFinset_cons, Finset.insert_union,
        Finset.erase_insert hx]
      exact ih hnodup fun y hy => hfresh y (by simp [hy])

end Heap

end MoBoMemory.Base
