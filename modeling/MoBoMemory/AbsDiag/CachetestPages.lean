import Mathlib.Algebra.Order.Ring.Int
import MoBoMemory.Base.Heaps
import MoBoMemory.Base.Runs
import MoBoMemory.AbsDiag.Cachetest

/-!
# The pages of the cache test

`tmemsetup` fills a static array with pages, and `tmemclean` frees what the array holds.  The array is never
cleared, so that it keeps the pointers of earlier runs; but a run that gets to `tmemclean` has filled every
slot anew.  One that ends in `STOP_NOMEM` keeps what it had obtained.
-/

namespace MoBoMemory.AbsDiag

open Base

def cachetestTestSize : Nat := 2 * (8 * 2 ^ 20)

/-- `PGCNT`, with pages of 4 KiB. -/
def pgcnt : Nat := cachetestTestSize / 2 ^ 12

/-- What happens to a run: the results of its allocations, and the slots in which a word differs from the pattern
in a pass. -/
structure CachetestRun (α : Type*) where
  kmalloc : Nat → Option α
  mismatch : BitVec 64 → Nat → Nat → Bool

structure PageTable (α : Type*) where
  gBuf : Nat → Option α
  heap : Heap α

section Code

variable {α : Type*} [DecidableEq α]

/-- `none` if an allocation gives a live page, which `kmalloc` does not do. -/
def tmemsetup (kmalloc : Nat → Option α) : List Nat → PageTable α → Option (Int × PageTable α)
  | [], t => some (0, t)
  | i :: is, t =>
      match kmalloc i with
      | none => some (-enomem, { t with gBuf := Function.update t.gBuf i none })
      | some p => (t.heap.alloc p).bind fun heap =>
          tmemsetup kmalloc is ⟨Function.update t.gBuf i (some p), heap⟩

def tmemclean (gBuf : Nat → Option α) (heap : Heap α) : Heap α :=
  (List.range pgcnt).foldl (fun heap i => (gBuf i).elim heap heap.free) heap

/-- A loop over all pages. -/
def usePages (gBuf : Nat → Option α) (heap : Heap α) : Heap α :=
  (List.range pgcnt).foldl (fun heap i => heap.use (gBuf i)) heap

/-- The loop that compares; it stops at the first page that differs. -/
def comparePages (gBuf : Nat → Option α) (mismatch : Nat → Bool) : List Nat → Heap α → Int × Heap α
  | [], heap => (0, heap)
  | i :: is, heap =>
      if mismatch i then (-1, heap.use (gBuf i)) else comparePages gBuf mismatch is (heap.use (gBuf i))

/-- The passes that are left; each writes, prefetches and compares. -/
def doTestPasses (gBuf : Nat → Option α) (mismatch : Nat → Nat → Bool) : Nat → Heap α → Int × Heap α
  | 0, heap => (0, heap)
  | cnt + 1, heap =>
      let (ret, heap) := comparePages gBuf (mismatch cnt) (List.range pgcnt) (usePages gBuf (usePages gBuf heap))
      if ret = 0 then doTestPasses gBuf mismatch cnt heap else (ret, heap)

/-- `--cnt > 0` from 100 on. -/
def doTest (gBuf : Nat → Option α) (mismatch : Nat → Nat → Bool) (heap : Heap α) : Int × Heap α :=
  doTestPasses gBuf mismatch 99 heap

end Code

/-- The two static variables, and the heap. -/
structure CacheTester (α : Type*) where
  gStat : CachetestStat
  pages : PageTable α

namespace CacheTester

variable {α : Type*}

def loaded : CacheTester α := ⟨.ready, ⟨fun _ => none, .empty⟩⟩

variable [DecidableEq α]

def cachetest (s : CacheTester α) (run : CachetestRun α) : Option (Int × CacheTester α) :=
  let gStat := (cachetestStat s.gStat).2
  if gStat = .ready then
    (tmemsetup run.kmalloc (List.range pgcnt) s.pages).map fun (ret, t) =>
      if ret = 0 then
        let (ret, heap) := doTest t.gBuf (run.mismatch cachetestPat) t.heap
        let (ret, heap) := if ret = 0 then doTest t.gBuf (run.mismatch (~~~cachetestPat)) heap else (ret, heap)
        (ret, ⟨if ret = 0 then .stopSucc else .stopFail, t.gBuf, tmemclean t.gBuf heap⟩)
      else (-enomem, ⟨.stopNomem, t⟩)
  else some (-ebusy, { s with gStat := gStat })

def step (s : CacheTester α) (run : CachetestRun α) : Option (CacheTester α) := (s.cachetest run).map Prod.snd

end CacheTester

/-! ## The loops -/

section Loops

variable {α : Type*} [DecidableEq α] {gBuf : Nat → Option α} {heap : Heap α} {kmalloc : Nat → Option α}
  {is : List Nat} {t t' : PageTable α} {ret : Int}

-- With a live page in each of its slots, a test leaves the heap alone.
theorem usePages_heap (hlive : ∀ i < pgcnt, ∃ p ∈ gBuf i, p ∈ heap.live) : usePages gBuf heap = heap := by
  have hmap : ((List.range pgcnt).map gBuf).foldl Heap.use heap = heap := by
    apply Heap.foldl_use
    intro p hp
    obtain ⟨i, hi, rfl⟩ := List.mem_map.mp hp
    exact hlive i (List.mem_range.mp hi)
  rwa [List.foldl_map] at hmap

theorem comparePages_heap (mismatch : Nat → Bool) (hlive : ∀ i ∈ is, ∃ p ∈ gBuf i, p ∈ heap.live) :
    (comparePages gBuf mismatch is heap).2 = heap := by
  induction is with
  | nil => rfl
  | cons i is ih =>
      have hfirst : heap.use (gBuf i) = heap := if_pos (hlive i (by simp))
      rw [comparePages, hfirst]
      split_ifs
      · rfl
      · exact ih fun j hj => hlive j (by simp [hj])

theorem doTestPasses_heap (mismatch : Nat → Nat → Bool) (hlive : ∀ i < pgcnt, ∃ p ∈ gBuf i, p ∈ heap.live)
    (cnt : Nat) : (doTestPasses gBuf mismatch cnt heap).2 = heap := by
  induction cnt with
  | zero => rfl
  | succ cnt ih =>
      have hcompare : (comparePages gBuf (mismatch cnt) (List.range pgcnt) heap).2 = heap :=
        comparePages_heap _ fun i hi => hlive i (List.mem_range.mp hi)
      simp only [doTestPasses, usePages_heap hlive, hcompare]
      split_ifs
      · exact ih
      · rfl

theorem doTest_heap (mismatch : Nat → Nat → Bool) (hlive : ∀ i < pgcnt, ∃ p ∈ gBuf i, p ∈ heap.live) :
    (doTest gBuf mismatch heap).2 = heap :=
  doTestPasses_heap mismatch hlive 99

section Setup

variable {i : Nat} {p : α}

theorem tmemsetup_none (hi : kmalloc i = none) :
    tmemsetup kmalloc (i :: is) t = some (-enomem, { t with gBuf := Function.update t.gBuf i none }) := by
  rw [tmemsetup, hi]

theorem tmemsetup_some (hi : kmalloc i = some p) : tmemsetup kmalloc (i :: is) t = some (ret, t') ↔
    p ∉ t.heap.live ∧ tmemsetup kmalloc is
      ⟨Function.update t.gBuf i (some p), { t.heap with live := insert p t.heap.live }⟩ = some (ret, t') := by
  rw [tmemsetup, hi]
  simp only [Option.bind_eq_some_iff, Heap.alloc_eq_some]
  constructor
  · rintro ⟨heap, ⟨hp, rfl⟩, hrest⟩
    exact ⟨hp, hrest⟩
  · rintro ⟨hp, hrest⟩
    exact ⟨_, ⟨hp, rfl⟩, hrest⟩

-- What the setup does to the heap, whether it succeeds or not.
theorem tmemsetup_heap (h : tmemsetup kmalloc is t = some (ret, t')) :
    t'.heap.faults = t.heap.faults ∧ t.heap.live ⊆ t'.heap.live ∧ (ret = 0 ↔ ∀ i ∈ is, kmalloc i ≠ none) := by
  induction is generalizing t with
  | nil =>
      obtain ⟨rfl, rfl⟩ := Prod.mk.inj (Option.some.inj h)
      simp
  | cons i is ih =>
      cases hi : kmalloc i with
      | none =>
          rw [tmemsetup_none hi] at h
          obtain ⟨rfl, rfl⟩ := Prod.mk.inj (Option.some.inj h)
          simp [hi, enomem]
      | some p =>
          obtain ⟨hfaults, hlive, hret⟩ := ih ((tmemsetup_some hi).mp h).2
          refine ⟨hfaults, (Finset.subset_insert p _).trans hlive, ?_⟩
          simp [hret, hi]

-- The page of the first slot is held from then on.
theorem tmemsetup_first (hi : kmalloc i = some p) (h : tmemsetup kmalloc (i :: is) t = some (ret, t')) :
    p ∈ t'.heap.live :=
  (tmemsetup_heap ((tmemsetup_some hi).mp h).2).2.1 (Finset.mem_insert_self p _)

-- A setup that succeeds has allocated the pages of all slots.
theorem tmemsetup_all (hall : ∀ i ∈ is, kmalloc i ≠ none) (h : tmemsetup kmalloc is t = some (ret, t')) :
    (is.filterMap kmalloc).foldlM Heap.alloc t.heap = some t'.heap ∧
      ∀ i, t'.gBuf i = if i ∈ is then kmalloc i else t.gBuf i := by
  induction is generalizing t with
  | nil =>
      obtain ⟨rfl, rfl⟩ := Prod.mk.inj (Option.some.inj h)
      simp
  | cons j is ih =>
      obtain ⟨p, hj⟩ := Option.ne_none_iff_exists'.mp (hall j (by simp))
      obtain ⟨hp, hrest⟩ := (tmemsetup_some hj).mp h
      obtain ⟨hheap, hslots⟩ := ih (fun i hi => hall i (by simp [hi])) hrest
      constructor
      · rw [List.filterMap_cons_some hj, List.foldlM_cons, Heap.alloc_eq_some.mpr ⟨hp, rfl⟩]
        exact hheap
      · intro i
        rw [hslots i]
        by_cases hij : i = j
        · subst hij
          simp [hj]
        · simp [hij]

end Setup

theorem tmemclean_eq (hslots : ∀ i < pgcnt, gBuf i = kmalloc i) :
    tmemclean gBuf heap = ((List.range pgcnt).filterMap kmalloc).foldl Heap.free heap := by
  rw [List.foldl_filterMap, tmemclean]
  apply List.foldl_ext
  intro h i hi
  rw [hslots i (List.mem_range.mp hi)]
  cases kmalloc i <;> rfl

end Loops

/-! ## Runs -/

namespace CachetestRun

/-- No allocation fails, or the first one does. -/
def AllOrNothing {α : Type*} (run : CachetestRun α) : Prop :=
  run.kmalloc 0 = none ∨ ∀ i < pgcnt, run.kmalloc i ≠ none

end CachetestRun

namespace CacheTester

variable {α : Type*} [DecidableEq α] {s s' : CacheTester α} {run : CachetestRun α}

/-- No page has been freed twice or used after it was freed, and none is held. -/
structure Balanced (s : CacheTester α) : Prop where
  faults : s.pages.heap.faults = []
  held : s.pages.heap.live = ∅

-- A setup that succeeds leaves a live page in every slot, and freeing the slots takes the heap back.
theorem tmemsetup_filled {t t' : PageTable α} {kmalloc : Nat → Option α}
    (h : tmemsetup kmalloc (List.range pgcnt) t = some (0, t')) :
    (∀ i < pgcnt, ∃ p ∈ t'.gBuf i, p ∈ t'.heap.live) ∧ tmemclean t'.gBuf t'.heap = t.heap := by
  have hall := (tmemsetup_heap h).2.2.mp rfl
  obtain ⟨halloc, hslots⟩ := tmemsetup_all hall h
  obtain ⟨hnodup, hfresh, hheap⟩ := Heap.foldlM_alloc.mp halloc
  have hfilled (i : Nat) (hi : i < pgcnt) : t'.gBuf i = kmalloc i := by
    rw [hslots i, if_pos (List.mem_range.mpr hi)]
  constructor
  · intro i hi
    obtain ⟨p, hp⟩ := Option.ne_none_iff_exists'.mp (hall i (List.mem_range.mpr hi))
    refine ⟨p, by rw [hfilled i hi, hp]; rfl, ?_⟩
    rw [hheap]
    apply Finset.mem_union_left
    rw [List.mem_toFinset, List.mem_filterMap]
    exact ⟨i, List.mem_range.mpr hi, hp⟩
  · rw [tmemclean_eq hfilled, hheap]
    exact Heap.foldl_free hnodup hfresh

/-- The tests of a run, over the pages it has obtained. -/
def testEnv (run : CachetestRun α) (t : PageTable α) : CachetestEnv :=
  ⟨0, fun pat => (doTest t.gBuf (run.mismatch pat) t.heap).1⟩

-- A run with all its pages gives them back.
theorem cachetest_done {t : PageTable α} (hs : s.gStat ≠ .inprocess)
    (h : tmemsetup run.kmalloc (List.range pgcnt) s.pages = some (0, t)) :
    s.cachetest run = some ((AbsDiag.cachetest (testEnv run t) s.gStat).1,
      ⟨(AbsDiag.cachetest (testEnv run t) s.gStat).2, t.gBuf, s.pages.heap⟩) := by
  obtain ⟨hlive, hclean⟩ := tmemsetup_filled h
  have hheap (pat : BitVec 64) := doTest_heap (run.mismatch pat) hlive
  have htest (pat : BitVec 64) : doTest t.gBuf (run.mismatch pat) t.heap = ((testEnv run t).doTest pat, t.heap) :=
    Prod.ext (by simp only [testEnv]) (hheap pat)
  have hsetup : (testEnv run t).tmemsetup = 0 := rfl
  simp only [cachetest, AbsDiag.cachetest, cachetestStat_reset hs, h, htest, hsetup, if_true, Option.map_some]
  by_cases hfirst : (testEnv run t).doTest cachetestPat = 0
  · simp only [hfirst, if_true, hclean]
  · simp only [if_neg hfirst, hclean]

-- A run without memory keeps what it has.
theorem cachetest_nomem {ret : Int} {t : PageTable α} (hs : s.gStat ≠ .inprocess)
    (h : tmemsetup run.kmalloc (List.range pgcnt) s.pages = some (ret, t)) (hret : ret ≠ 0) :
    s.cachetest run = some (-enomem, ⟨.stopNomem, t⟩) := by
  simp only [cachetest, cachetestStat_reset hs, h, if_true, Option.map_some, if_neg hret]

theorem step_eq_some (hs : s.gStat ≠ .inprocess) (h : s.step run = some s') :
    s'.gStat ≠ .inprocess ∧
      (((∀ i < pgcnt, run.kmalloc i ≠ none) ∧ s'.pages.heap = s.pages.heap) ∨
        ∃ ret ≠ 0, tmemsetup run.kmalloc (List.range pgcnt) s.pages = some (ret, s'.pages)) := by
  rw [step] at h
  cases hsetup : tmemsetup run.kmalloc (List.range pgcnt) s.pages with
  | none => simp [cachetest, cachetestStat_reset hs, hsetup] at h
  | some p =>
      obtain ⟨ret, t⟩ := p
      by_cases hret : ret = 0
      · subst hret
        rw [cachetest_done hs hsetup] at h
        obtain rfl := Option.some.inj h
        have hall := (tmemsetup_heap hsetup).2.2.mp rfl
        refine ⟨?_, Or.inl ⟨fun i hi => hall i (List.mem_range.mpr hi), rfl⟩⟩
        rcases cachetest_stops (testEnv run t) hs with hstat | hstat | hstat <;> simp [hstat]
      · rw [cachetest_nomem hs hsetup hret] at h
        obtain rfl := Option.some.inj h
        exact ⟨by simp, Or.inr ⟨ret, hret, rfl⟩⟩

/-- No test is in process, and nothing has been freed twice or used after it was freed. -/
def Idle (s : CacheTester α) : Prop := s.gStat ≠ .inprocess ∧ s.pages.heap.faults = []

omit [DecidableEq α] in
theorem idle_loaded : (loaded : CacheTester α).Idle := ⟨by simp [loaded], rfl⟩

theorem idle_step (hs : s.Idle) (h : s.step run = some s') : s'.Idle := by
  obtain ⟨hstat, hdone | ⟨ret, -, hsetup⟩⟩ := step_eq_some hs.1 h
  · exact ⟨hstat, hdone.2 ▸ hs.2⟩
  · exact ⟨hstat, (tmemsetup_heap hsetup).1.trans hs.2⟩

-- This holds whichever allocations fail: a stale pointer is never freed or used.
theorem idle_run {runs : List (CachetestRun α)} (h : runs.foldlM step loaded = some s) : s.Idle :=
  foldlM_preserves (fun _ => True) (fun _ _ _ _ => idle_step) (fun _ _ => trivial) idle_loaded h

theorem slots_eq : List.range pgcnt = 0 :: (List.range (pgcnt - 1)).map Nat.succ := by
  have hcnt : pgcnt = pgcnt - 1 + 1 := by decide
  rw [← List.range_succ_eq_map, ← hcnt]

theorem step_heap (hs : s.Idle) (hrun : run.AllOrNothing) (h : s.step run = some s') :
    s'.pages.heap = s.pages.heap := by
  obtain ⟨-, hdone | ⟨ret, hret, hsetup⟩⟩ := step_eq_some hs.1 h
  · exact hdone.2
  rcases hrun with hfirst | hall
  · rw [slots_eq, tmemsetup_none hfirst] at hsetup
    rw [← (Prod.mk.inj (Option.some.inj hsetup)).2]
  · exact absurd ((tmemsetup_heap hsetup).2.2.mpr fun i hi => hall i (List.mem_range.mp hi)) hret

-- A run that fails later holds its first page for ever.
theorem step_leaks (hs : s.Idle) (hrun : ¬ run.AllOrNothing) (h : s.step run = some s') :
    s'.pages.heap.live ≠ ∅ := by
  obtain ⟨hfirst, hfails⟩ := not_or.mp hrun
  obtain ⟨p, hp⟩ := Option.ne_none_iff_exists'.mp hfirst
  obtain ⟨-, hdone | ⟨ret, hret, hsetup⟩⟩ := step_eq_some hs.1 h
  · exact absurd hdone.1 hfails
  · rw [slots_eq] at hsetup
    exact Finset.ne_empty_of_mem (tmemsetup_first hp hsetup)

/-- In a sequence of runs every return is balanced exactly if each run obtains all its pages or none. -/
theorem balanced_iff {runs : List (CachetestRun α)} (h : runs.foldlM step loaded = some s) :
    (∀ pre t, pre <+: runs → pre.foldlM step loaded = some t → t.Balanced) ↔
      ∀ run ∈ runs, run.AllOrNothing := by
  constructor
  · intro hbalanced run hrun
    by_contra hleaks
    obtain ⟨pre, post, rfl⟩ := List.append_of_mem hrun
    rw [List.foldlM_append] at h
    obtain ⟨t, ht, hrest⟩ := Option.bind_eq_some_iff.mp h
    rw [List.foldlM_cons] at hrest
    obtain ⟨t', hstep, -⟩ := Option.bind_eq_some_iff.mp hrest
    refine step_leaks (idle_run ht) hleaks hstep (hbalanced (pre ++ [run]) t' ⟨post, by simp⟩ ?_).held
    rw [List.foldlM_append, ht]
    simp [hstep]
  · intro hall pre t hpre ht
    have hkept : t.Idle ∧ t.pages.heap.live = ∅ := by
      refine foldlM_preserves (I := fun u => u.Idle ∧ u.pages.heap.live = ∅) CachetestRun.AllOrNothing ?_
        (fun run hrun => hall run (hpre.mem hrun))
        ⟨idle_loaded, rfl⟩ ht
      rintro u run u' hrun ⟨hidle, hheld⟩ hstep
      exact ⟨idle_step hidle hstep, by rw [step_heap hidle hrun hstep, hheld]⟩
    exact ⟨hkept.1.2, hkept.2⟩

-- The setup goes through where the allocator numbers its pages by their slots.
theorem tmemsetup_numbered {is : List Nat} {t : PageTable Nat} (his : is.Nodup)
    (hfresh : ∀ i ∈ is, i ∉ t.heap.live) : ∃ t', tmemsetup some is t = some (0, t') := by
  induction is generalizing t with
  | nil => exact ⟨t, rfl⟩
  | cons i is ih =>
      obtain ⟨hi, his⟩ := List.nodup_cons.mp his
      obtain ⟨t', ht'⟩ := ih (t := ⟨Function.update t.gBuf i (some i), { t.heap with live := insert i t.heap.live }⟩)
        his (by
          intro j hj hlive
          rcases Finset.mem_insert.mp hlive with rfl | hlive
          · exact hi hj
          · exact hfresh j (by simp [hj]) hlive)
      exact ⟨t', (tmemsetup_some rfl).mpr ⟨hfresh i (by simp), ht'⟩⟩

def numberedRun : CachetestRun Nat := ⟨some, fun _ _ _ => false⟩

theorem numberedRun_runs : ∃ s, [numberedRun].foldlM step loaded = some s := by
  obtain ⟨t, ht⟩ : ∃ t, tmemsetup numberedRun.kmalloc (List.range pgcnt) loaded.pages = some (0, t) :=
    tmemsetup_numbered List.nodup_range fun i _ => Finset.notMem_empty i
  rw [List.foldlM_cons, step, cachetest_done idle_loaded.1 ht]
  exact ⟨_, rfl⟩

/-- A run in which no allocation fails. -/
theorem balanced_iff_numbered :
    ∃ s, [numberedRun].foldlM step loaded = some s ∧
      ((∀ pre t, pre <+: [numberedRun] → pre.foldlM step loaded = some t → t.Balanced) ↔
        ∀ run ∈ [numberedRun], run.AllOrNothing) := by
  obtain ⟨s, hs⟩ := numberedRun_runs
  exact ⟨s, hs, balanced_iff hs⟩

/-- A run whose second allocation fails. -/
def failingRun : CachetestRun Nat := ⟨fun i => if i = 0 then some 7 else none, fun _ _ _ => false⟩

/-- It keeps the page of the first. -/
theorem nomem_holds_page :
    ∃ s, loaded.step failingRun = some s ∧ s.gStat = .stopNomem ∧ s.pages.heap.live = {7} ∧ ¬ s.Balanced := by
  have hslots : (List.range (pgcnt - 1)).map Nat.succ =
      1 :: ((List.range (pgcnt - 2)).map Nat.succ).map Nat.succ := by
    have hcnt : pgcnt - 1 = pgcnt - 2 + 1 := by decide
    rw [hcnt, List.range_succ_eq_map]
    rfl
  have hfirst : failingRun.kmalloc 0 = some 7 := rfl
  have hsecond : failingRun.kmalloc 1 = none := rfl
  have hsetup : ∃ t, tmemsetup failingRun.kmalloc (List.range pgcnt) loaded.pages = some (-enomem, t) ∧
      t.heap.live = {7} := by
    rw [slots_eq, hslots]
    exact ⟨_, (tmemsetup_some hfirst).mpr ⟨Finset.notMem_empty 7, tmemsetup_none hsecond⟩, rfl⟩
  obtain ⟨t, ht, hlive⟩ := hsetup
  refine ⟨⟨.stopNomem, t⟩, ?_, rfl, hlive, fun hbalanced => ?_⟩
  · rw [step, cachetest_nomem idle_loaded.1 ht (by decide)]
    rfl
  · exact Finset.singleton_ne_empty 7 (hlive.symm.trans hbalanced.held)

end CacheTester

end MoBoMemory.AbsDiag
