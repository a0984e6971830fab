import Mathlib.Algebra.Order.Ring.Int
import Mathlib.Data.List.Pairwise

/-!
# Spans

A span is the half-open interval between two bounds; page ranges, byte ranges and register ranges
are all spans.  Two spans are apart when no point is in both, and a list of spans ascends when each
one ends before the next begins.
-/

namespace MoBoMemory.Base

structure Span (α : Type*) where
  lo : α
  hi : α

section Spans

variable {α : Type*} [LinearOrder α]

instance : Membership α (Span α) where
  mem s p := s.lo ≤ p ∧ p < s.hi

theorem Span.mem_def {s : Span α} {p : α} : p ∈ s ↔ s.lo ≤ p ∧ p < s.hi := Iff.rfl

/-- No point is in both spans. -/
def Span.Apart (s t : Span α) : Prop := ∀ p, p ∈ s → p ∉ t

theorem Span.Apart.symm {s t : Span α} (h : s.Apart t) : t.Apart s :=
  fun p ht hs => h p hs ht

theorem Span.Apart.mono {s s' t t' : Span α} (h : s.Apart t) (hs : ∀ p, p ∈ s' → p ∈ s)
    (ht : ∀ p, p ∈ t' → p ∈ t) : s'.Apart t' :=
  fun p hps hpt => h p (hs p hps) (ht p hpt)

theorem Span.Apart.of_le {s t : Span α} (h : s.hi ≤ t.lo) : s.Apart t :=
  fun _ hs ht => absurd (lt_of_lt_of_le hs.2 (le_trans h ht.1)) (lt_irrefl _)

/-- The points in both spans. -/
def Span.inter (s t : Span α) : Span α := ⟨max s.lo t.lo, min s.hi t.hi⟩

-- What is apart from both parts is apart from their union.
theorem Span.Apart.union {s t u x : Span α} (hunion : ∀ p, p ∈ u ↔ p ∈ s ∨ p ∈ t)
    (hs : s.Apart x) (ht : t.Apart x) : u.Apart x :=
  fun p hp => ((hunion p).mp hp).elim (hs p) (ht p)

-- Of two spans that are apart, the one that begins first ends before the other begins.
theorem Span.Apart.le_of_lo_le {s t : Span α} (h : s.Apart t) (ht : t.lo < t.hi)
    (hlo : s.lo ≤ t.lo) : s.hi ≤ t.lo := by
  by_contra hlt
  exact h t.lo ⟨hlo, lt_of_not_ge hlt⟩ ⟨le_refl _, ht⟩

theorem Span.Apart.le_or_le {s t : Span α} (h : s.Apart t) (hs : s.lo < s.hi) (ht : t.lo < t.hi) :
    s.hi ≤ t.lo ∨ t.hi ≤ s.lo :=
  (le_total s.lo t.lo).imp (h.le_of_lo_le ht) (h.symm.le_of_lo_le hs)

-- Non-empty spans that are pairwise apart ascend once they are sorted by their lower bounds.
theorem pairwise_ascending {ι : Type*} (span : ι → Span α) {l : List ι}
    (hne : ∀ x ∈ l, (span x).lo < (span x).hi)
    (hapart : l.Pairwise fun x y => (span x).Apart (span y))
    (hsorted : l.Pairwise fun x y => (span x).lo ≤ (span y).lo) :
    l.Pairwise fun x y => (span x).hi ≤ (span y).lo := by
  apply (hapart.and hsorted).imp_of_mem
  intro x y _ hy hxy
  exact hxy.1.le_of_lo_le (hne y hy) hxy.2

-- A point in one of several spans that are pairwise apart is in no other.
theorem filter_mem_eq_singleton {ι : Type*} (span : ι → Span α) {l : List ι}
    (hapart : l.Pairwise fun x y => (span x).Apart (span y)) {p : α}
    [DecidablePred fun x => p ∈ span x] {x : ι} (hx : x ∈ l) (hp : p ∈ span x) :
    l.filter (fun y => p ∈ span y) = [x] := by
  obtain ⟨pre, post, rfl⟩ := List.append_of_mem hx
  obtain ⟨-, hpost, hcross⟩ := List.pairwise_append.mp hapart
  have hbefore : pre.filter (fun y => p ∈ span y) = [] := by
    rw [List.filter_eq_nil_iff]
    intro y hy
    simpa using fun hpy => hcross y hy x (by simp) p hpy hp
  have hafter : post.filter (fun y => p ∈ span y) = [] := by
    rw [List.filter_eq_nil_iff]
    intro y hy
    simpa using (List.pairwise_cons.mp hpost).1 y hy p hp
  rw [List.filter_append, List.filter_cons_of_pos (by simpa using hp), hbefore, hafter]
  rfl

end Spans

end MoBoMemory.Base
