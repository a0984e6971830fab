import MoBoMemory.Base.Spans

/-!
# Gaps between spans

What is left of a window `[lo, hi)` when a list of ascending spans is taken out of it.  A span may
stick out of the window at the outer side, and may be empty.
-/

namespace MoBoMemory.Base

section Gaps

variable {α : Type*} [LinearOrder α] {lo hi : α} {l : List (Span α)}

/-- A span from `a` to `b`, if there is something between them. -/
def gap (a b : α) : List (Span α) := if a < b then [⟨a, b⟩] else []

theorem mem_gap {a b : α} {g : Span α} : g ∈ gap a b ↔ a < b ∧ g = ⟨a, b⟩ := by
  unfold gap
  split <;> simp [*]

/-- Behind each span the next gap begins. -/
def gaps (lo hi : α) : List (Span α) → List (Span α)
  | [] => gap lo hi
  | s :: rest => gap lo s.lo ++ gaps s.hi hi rest

/-- Spans that are in order, no two with a point in common, and none off the window. -/
structure Ascending (lo hi : α) (l : List (Span α)) : Prop where
  ordered : ∀ s ∈ l, s.lo ≤ s.hi
  inside : ∀ s ∈ l, lo ≤ s.hi ∧ s.lo ≤ hi
  ascends : l.Pairwise fun s t => s.hi ≤ t.lo

theorem Ascending.tail {s : Span α} (h : Ascending lo hi (s :: l)) : Ascending s.hi hi l := by
  obtain ⟨hfirst, hascends⟩ := List.pairwise_cons.mp h.ascends
  refine ⟨fun t ht => h.ordered t (by simp [ht]), fun t ht => ⟨?_, ?_⟩, hascends⟩
  · exact le_trans (hfirst t ht) (h.ordered t (by simp [ht]))
  · exact (h.inside t (by simp [ht])).2

-- No gap begins before the window.
theorem le_of_mem_gaps (h : Ascending lo hi l) {g : Span α} (hg : g ∈ gaps lo hi l) : lo ≤ g.lo := by
  induction l generalizing lo with
  | nil =>
      rw [gaps, mem_gap] at hg
      rw [hg.2]
  | cons s rest ih =>
      rw [gaps, List.mem_append, mem_gap] at hg
      rcases hg with ⟨-, rfl⟩ | hg
      · exact le_refl _
      · exact le_trans (h.inside s (by simp)).1 (ih h.tail hg)

theorem gaps_apart (h : Ascending lo hi l) : (gaps lo hi l).Pairwise Span.Apart := by
  induction l generalizing lo with
  | nil =>
      unfold gaps gap
      split <;> simp
  | cons s rest ih =>
      rw [gaps, List.pairwise_append]
      refine ⟨?_, ih h.tail, ?_⟩
      · unfold gap
        split <;> simp
      · intro g hg g' hg'
        obtain ⟨-, rfl⟩ := mem_gap.mp hg
        have hbehind := le_of_mem_gaps h.tail hg'
        exact Span.Apart.of_le (le_trans (h.ordered s (by simp)) hbehind)

-- Together they are the window without the spans.
theorem exists_mem_gaps (h : Ascending lo hi l) (x : α) :
    (∃ g ∈ gaps lo hi l, x ∈ g) ↔ (lo ≤ x ∧ x < hi) ∧ ∀ s ∈ l, x ∉ s := by
  induction l generalizing lo with
  | nil =>
      simp only [gaps, mem_gap, List.not_mem_nil, false_implies, implies_true, and_true]
      constructor
      · rintro ⟨g, ⟨-, rfl⟩, hx⟩
        exact hx
      · intro hx
        exact ⟨⟨lo, hi⟩, ⟨lt_of_le_of_lt hx.1 hx.2, rfl⟩, hx⟩
  | cons s rest ih =>
      have hord := h.ordered s (by simp)
      have hinside := h.inside s (by simp)
      have hrest : x < s.hi → ∀ t ∈ rest, x ∉ t := by
        intro hx t ht hmem
        have hle := (List.pairwise_cons.mp h.ascends).1 t ht
        exact absurd (lt_of_lt_of_le hx (le_trans hle hmem.1)) (lt_irrefl _)
      simp only [gaps, List.mem_append, or_and_right, exists_or, mem_gap, ih h.tail,
        List.forall_mem_cons]
      constructor
      · rintro (⟨g, ⟨-, rfl⟩, hlo, hlt⟩ | ⟨⟨hlo, hlt⟩, hout⟩)
        · refine ⟨⟨hlo, lt_of_lt_of_le hlt hinside.2⟩, fun hs => ?_, ?_⟩
          · exact absurd (lt_of_lt_of_le hlt hs.1) (lt_irrefl _)
          · exact hrest (lt_of_lt_of_le hlt hord)
        · refine ⟨⟨le_trans hinside.1 hlo, hlt⟩, fun hs => ?_, hout⟩
          exact absurd (lt_of_le_of_lt hlo hs.2) (lt_irrefl _)
      · rintro ⟨⟨hlo, hlt⟩, hs, hout⟩
        by_cases hbefore : x < s.lo
        · exact Or.inl ⟨_, ⟨lt_of_le_of_lt hlo hbefore, rfl⟩, hlo, hbefore⟩
        · refine Or.inr ⟨⟨?_, hlt⟩, hout⟩
          by_contra hin
          exact hs ⟨not_lt.mp hbefore, not_le.mp hin⟩

/-- The spans are pairwise apart and together hold the points of which `P` is true. -/
def Tile (P : α → Prop) (l : List (Span α)) : Prop :=
  l.Pairwise Span.Apart ∧ ∀ x, (∃ g ∈ l, x ∈ g) ↔ P x

theorem gaps_tile (h : Ascending lo hi l) :
    Tile (fun x => (lo ≤ x ∧ x < hi) ∧ ∀ s ∈ l, x ∉ s) (gaps lo hi l) :=
  ⟨gaps_apart h, exists_mem_gaps h⟩

-- One more gap from where the last one begins is wrong unless it is empty.
theorem tile_slipped_iff {P : α → Prop} {pre : List (Span α)} {a b : α}
    (htile : Tile P (pre ++ gap a hi)) (hbound : ∀ x, P x → x < hi) :
    Tile P (pre ++ gap a b ++ gap a hi) ↔ b ≤ a := by
  constructor
  · rintro ⟨hapart, hmem⟩
    by_contra hlt
    have hfirst : a ∈ (⟨a, b⟩ : Span α) := ⟨le_refl _, not_le.mp hlt⟩
    have hslip : ⟨a, b⟩ ∈ gap a b := mem_gap.mpr ⟨not_le.mp hlt, rfl⟩
    have hhi : a < hi := hbound a ((hmem a).mp ⟨⟨a, b⟩, by simp [hslip], hfirst⟩)
    have hlast : ⟨a, hi⟩ ∈ gap a hi := mem_gap.mpr ⟨hhi, rfl⟩
    exact (List.pairwise_append.mp hapart).2.2 ⟨a, b⟩ (by simp [hslip]) ⟨a, hi⟩ hlast a hfirst
      ⟨le_refl _, hhi⟩
  · intro hle
    have hempty : gap a b = [] := if_neg (not_lt.mpr hle)
    rwa [hempty, List.append_nil]

end Gaps

end MoBoMemory.Base
