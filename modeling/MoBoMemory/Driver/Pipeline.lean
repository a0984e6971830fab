import MoBoMemory.Driver.Ioctl

/-!
# The region pipeline without SRAT

Without recorded memory blocks every entry of the e820 map is used as a window for all of them.  For
entries that are apart a window meets nothing but its own entry, so the registrations are non-empty
ranges that are apart from each other; then no registration drops a page, entries stay apart, and
after the sort and the split the regions are exactly the RAM pages.
-/

namespace MoBoMemory.Driver

open Base

/-! ## Registrations of entries that are apart -/

section Windows

variable {ei ej : E820Entry}

-- No page is entirely inside two entries that are apart.
theorem not_holdsPage_of_apart (h : ei.bytes.Apart ej.bytes) {pfn : Nat} (hi : ei.HoldsPage pfn) :
    ¬ ej.HoldsPage pfn := by
  intro hj
  simp only [E820Entry.HoldsPage, pageSize, pageShift] at hi hj
  refine h (pfn * 4096) ⟨?_, ?_⟩ ⟨?_, ?_⟩ <;> simp only [E820Entry.bytes] <;> omega

-- The window of an entry meets no other entry: windows are rounded down at both ends.
theorem found_other (hi : ei.NoWrap) (hj : ej.NoWrap) (hine : 0 < ei.size) (hjne : 0 < ej.size)
    (h : ei.bytes.Apart ej.bytes) : found (e820Window ei) ej = none := by
  rw [← Option.not_isSome_iff_eq_none, Option.isSome_iff_exists]
  rintro ⟨c, hc⟩
  obtain ⟨-, -, hstart, hlast, -⟩ := (e820FindActiveRegion_eq_some hj).mp (found_eq_some.mp hc).2
  have hbytes := h.le_or_le (by simp only [E820Entry.bytes]; omega)
    (by simp only [E820Entry.bytes]; omega)
  simp only [E820Entry.bytes] at hbytes
  simp only [e820Window, hi.last_eq, pageSize, pageShift] at hstart hlast
  omega

-- What an entry finds in its own window are its whole pages, if there are any.
theorem found_own {c : NodeRange} (hi : ei.NoWrap) (h : found (e820Window ei) ei = some c) :
    c.nid = 0 ∧ c.startPfn < c.endPfn ∧ ei.type = e820Ram ∧
      ∀ pfn, pfn ∈ c.span ↔ ei.HoldsPage pfn := by
  obtain ⟨hnid, hfind⟩ := found_eq_some.mp h
  obtain ⟨hram, hne, -, -, hs, he⟩ := (e820FindActiveRegion_eq_some hi).mp hfind
  simp only [e820Window, hi.last_eq, pageSize, pageShift] at hs he hne
  refine ⟨hnid, by omega, hram, fun pfn => ?_⟩
  simp only [Span.mem_def, NodeRange.span, E820Entry.HoldsPage, hs, he, pageSize, pageShift]
  omega

end Windows

-- Where every item meets only itself, meeting all the items is meeting oneself.
theorem flatMap_filterMap_self {α β : Type*} {f : α → α → Option β} {l : List α}
    (h : l.Pairwise fun a b => f a b = none ∧ f b a = none) :
    (l.flatMap fun a => l.filterMap (f a)) = l.filterMap fun a => f a a := by
  have hself : ∀ a ∈ l, l.filterMap (f a) = (f a a).toList := by
    intro a ha
    obtain ⟨pre, post, rfl⟩ := List.append_of_mem ha
    obtain ⟨-, hpost, hcross⟩ := List.pairwise_append.mp h
    have hbefore : pre.filterMap (f a) = [] :=
      List.filterMap_eq_nil_iff.mpr fun b hb => (hcross b hb a (by simp)).2
    have hafter : post.filterMap (f a) = [] :=
      List.filterMap_eq_nil_iff.mpr fun b hb => ((List.pairwise_cons.mp hpost).1 b hb).1
    rw [List.filterMap_append, List.filterMap_cons, hbefore, hafter]
    cases f a a <;> rfl
  rw [List.filterMap_eq_flatMap_toList, List.flatMap_congr hself]

theorem registrations_eq {mye820 : List E820Entry} (hne : ∀ ei ∈ mye820, 0 < ei.size)
    (hwrap : ∀ ei ∈ mye820, ei.NoWrap) (hapart : mye820.Pairwise fun a b => a.bytes.Apart b.bytes) :
    registrations mye820 [] = mye820.filterMap fun ei => found (e820Window ei) ei := by
  have hwindows : windows mye820 [] = mye820.map e820Window := rfl
  rw [registrations, hwindows, List.flatMap_map]
  apply flatMap_filterMap_self
  apply hapart.imp_of_mem
  intro ei ej hei hej hbytes
  have hi := hwrap ei hei
  have hj := hwrap ej hej
  exact ⟨found_other hi hj (hne ei hei) (hne ej hej) hbytes,
    found_other hj hi (hne ej hej) (hne ei hei) hbytes.symm⟩

-- The registrations are apart because their entries are.
theorem registrations_apart {mye820 : List E820Entry} (hwrap : ∀ ei ∈ mye820, ei.NoWrap)
    (hapart : mye820.Pairwise fun a b => a.bytes.Apart b.bytes) :
    (mye820.filterMap fun ei => found (e820Window ei) ei).Pairwise
      fun a b => a.span.Apart b.span := by
  rw [List.pairwise_filterMap]
  apply hapart.imp_of_mem
  intro ei ej hei hej hbytes c hc d hd pfn hpc hpd
  have hpi := ((found_own (hwrap ei hei) hc).2.2.2 pfn).mp hpc
  have hpj := ((found_own (hwrap ej hej) hd).2.2.2 pfn).mp hpd
  exact not_holdsPage_of_apart hbytes hpi hpj

/-! ## Tables of entries that are apart -/

/-- Non-empty entries of node 0, apart from each other. -/
structure Tidy (map : List NodeRange) : Prop where
  nid : ∀ r ∈ map, r.nid = 0
  nonempty : ∀ r ∈ map, r.startPfn < r.endPfn
  apart : map.Pairwise fun a b => a.span.Apart b.span

theorem Tidy.nil : Tidy [] := ⟨by simp, by simp, List.Pairwise.nil⟩

-- Of a range that is apart from the entry, nothing lies below the entry when it reaches past it.
theorem not_below_of_apart {r c : NodeRange} (h : r.span.Apart c.span) (hr : r.startPfn < r.endPfn)
    (hc : c.startPfn < c.endPfn) {pfn : Nat} (hpfn : pfn ∈ c.span) (hlt : r.endPfn < c.endPfn) :
    r.startPfn ≤ pfn := by
  have horder := h.le_or_le hr hc
  have hlo := hpfn.1
  simp only [NodeRange.span] at horder hlo
  omega

section Step

variable {map : List NodeRange} {c : NodeRange} (htidy : Tidy map) (hnid : c.nid = 0)
  (hc : c.startPfn < c.endPfn) (hapart : ∀ r ∈ map, r.span.Apart c.span)

include htidy hc hapart

theorem Tidy.keeps {pfn : Nat} (hpfn : pfn ∈ c.span) : Keeps pfn map c := by
  intro r hr hlt
  have hmem := List.mem_of_find?_eq_some hr
  exact not_below_of_apart (hapart r hmem) (htidy.nonempty r hmem) hc hpfn hlt

-- The entry that takes the range becomes their union.
theorem Tidy.absorb_union {r r' : NodeRange} (hr : absorb c r = some r') (hmem : r ∈ map)
    (pfn : Nat) : pfn ∈ r'.span ↔ pfn ∈ r.span ∨ pfn ∈ c.span := by
  rw [absorb_mem hr pfn]
  exact or_congr_right (and_iff_left_of_imp fun hpfn =>
    not_below_of_apart (hapart r hmem) (htidy.nonempty r hmem) hc hpfn)

-- A registration keeps out of what both the table and the new range keep out of.
theorem Tidy.apart_step {x : Span Nat} (hmap : ∀ r ∈ map, r.span.Apart x) (hx : c.span.Apart x) :
    ∀ r ∈ addActiveRange map c, r.span.Apart x := by
  obtain ⟨pre, r, r', post, rfl, -, -, hr, heq⟩ | ⟨-, -, heq⟩ | ⟨-, -, heq⟩ := addActiveRange_cases map c
  · rw [heq]
    have hunion := htidy.absorb_union hc hapart hr (by simp)
    simp only [List.forall_mem_append, List.forall_mem_cons] at hmap ⊢
    exact ⟨hmap.1, Span.Apart.union hunion hmap.2.1 hx, hmap.2.2⟩
  · rw [heq]
    simpa [or_imp, forall_and] using ⟨hmap, hx⟩
  · rwa [heq]

include hnid

theorem Tidy.step : Tidy (addActiveRange map c) := by
  obtain ⟨pre, r, r', post, rfl, -, -, hr, heq⟩ | ⟨-, -, heq⟩ | ⟨-, -, heq⟩ := addActiveRange_cases map c
  · -- an entry takes the range: only this one changes, and it becomes the union
    have hunion := htidy.absorb_union hc hapart hr (by simp)
    obtain ⟨hnids, hnonempty, hpairwise⟩ := htidy
    have hgrown : r'.startPfn < r'.endPfn := by
      have hstart : r.startPfn ∈ r'.span :=
        (hunion _).mpr (Or.inl ⟨Nat.le_refl _, hnonempty r (by simp)⟩)
      exact Nat.lt_of_le_of_lt hstart.1 hstart.2
    rw [heq]
    have hsymm : ∀ {a b : NodeRange}, a.span.Apart b.span → b.span.Apart a.span := fun h => h.symm
    rw [List.pairwise_middle hsymm, List.pairwise_cons] at hpairwise
    simp only [List.forall_mem_append, List.forall_mem_cons] at hnids hnonempty hapart
    refine ⟨?_, ?_, ?_⟩
    · simp only [List.forall_mem_append, List.forall_mem_cons]
      exact ⟨hnids.1, (absorb_nid hr).2.trans hnid, hnids.2.2⟩
    · simp only [List.forall_mem_append, List.forall_mem_cons]
      exact ⟨hnonempty.1, hgrown, hnonempty.2.2⟩
    · rw [List.pairwise_middle hsymm, List.pairwise_cons]
      refine ⟨fun q hq => Span.Apart.union hunion (hpairwise.1 q hq) ?_, hpairwise.2⟩
      rcases List.mem_append.mp hq with hq | hq
      · exact (hapart.1 q hq).symm
      · exact (hapart.2.2 q hq).symm
  · rw [heq]
    refine ⟨?_, ?_, ?_⟩
    · simpa [or_imp, forall_and] using ⟨htidy.nid, hnid⟩
    · simpa [or_imp, forall_and] using ⟨htidy.nonempty, hc⟩
    · rw [List.pairwise_append]
      exact ⟨htidy.apart, List.pairwise_singleton .., by simpa using hapart⟩
  · rwa [heq]

end Step

theorem length_le_addActiveRange (map : List NodeRange) (c : NodeRange) :
    map.length ≤ (addActiveRange map c).length := by
  obtain ⟨pre, r, r', post, rfl, -, -, -, heq⟩ | ⟨-, -, heq⟩ | ⟨-, -, heq⟩ := addActiveRange_cases map c
  · simp [heq]
  · simp [heq]
  · rw [heq]

theorem length_le_foldl (cs map : List NodeRange) :
    map.length ≤ (cs.foldl addActiveRange map).length := by
  induction cs generalizing map with
  | nil => exact Nat.le_refl _
  | cons c cs ih => exact Nat.le_trans (length_le_addActiveRange map c) (ih _)

-- A run of registrations that are apart: the table stays tidy and covers all of them.
theorem Tidy.run {cs map : List NodeRange} (htidy : Tidy map)
    (hcs : ∀ c ∈ cs, c.nid = 0 ∧ c.startPfn < c.endPfn)
    (hapart : cs.Pairwise fun a b => a.span.Apart b.span)
    (hcross : ∀ c ∈ cs, ∀ r ∈ map, r.span.Apart c.span)
    (hroom : (cs.foldl addActiveRange map).length < maxActiveRegions) :
    Tidy (cs.foldl addActiveRange map) ∧
      ∀ pfn, Covers 0 pfn (cs.foldl addActiveRange map) ↔
        Covers 0 pfn map ∨ ∃ c ∈ cs, pfn ∈ c.span := by
  induction cs generalizing map with
  | nil => exact ⟨htidy, fun pfn => by simp⟩
  | cons c cs ih =>
      obtain ⟨⟨hnid, hc⟩, hrest⟩ := List.forall_mem_cons.mp hcs
      obtain ⟨hfirst, hothers⟩ := List.pairwise_cons.mp hapart
      have hmap := hcross c (by simp)
      have hfits : map.length < maxActiveRegions :=
        Nat.lt_of_le_of_lt (length_le_foldl (c :: cs) map) hroom
      obtain ⟨hfinal, hcovers⟩ := ih (htidy.step hnid hc hmap) hrest hothers
        (fun d hd => htidy.apart_step hc hmap (hcross d (by simp [hd])) (hfirst d hd)) hroom
      refine ⟨hfinal, fun pfn => (hcovers pfn).trans ?_⟩
      rw [covers_addActiveRange fun _ => hfits, hnid, List.exists_mem_cons_iff, or_assoc]
      simp only [true_and]
      rw [and_iff_left_of_imp (htidy.keeps hc hmap)]

/-! ## The regions -/

/-- The node map of a fresh module ascends and covers exactly the RAM pages. -/
theorem nodeMap_exact (ks : KernelSort) {m : List E820Entry} (hne : ∀ ei ∈ m, 0 < ei.size)
    (hwrap : ∀ ei ∈ m, ei.NoWrap) (hapart : m.Pairwise fun a b => a.bytes.Apart b.bytes)
    (hroom : (generateNodeMapFromE820AndSrat ks m [] []).length < maxActiveRegions) :
    (∀ r ∈ generateNodeMapFromE820AndSrat ks m [] [], r.startPfn < r.endPfn ∧ r.nid = 0) ∧
      (generateNodeMapFromE820AndSrat ks m [] []).Pairwise (fun a b => a.endPfn ≤ b.startPfn) ∧
      ∀ pfn, Covers 0 pfn (generateNodeMapFromE820AndSrat ks m [] []) ↔ RamPage m pfn := by
  rw [generateNodeMap_eq, registrations_eq hne hwrap hapart] at *
  rw [(ks.perm _).length_eq] at hroom
  have hcs : ∀ c ∈ m.filterMap (fun ei => found (e820Window ei) ei),
      c.nid = 0 ∧ c.startPfn < c.endPfn := by
    intro c hc
    obtain ⟨ei, hei, hfound⟩ := List.mem_filterMap.mp hc
    have hown := found_own (hwrap ei hei) hfound
    exact ⟨hown.1, hown.2.1⟩
  obtain ⟨htidy, hcovers⟩ := Tidy.nil.run hcs (registrations_apart hwrap hapart) (by simp) hroom
  have hsymm : ∀ {a b : NodeRange}, a.span.Apart b.span → b.span.Apart a.span := fun h => h.symm
  have hsorted := ks.perm (List.foldl addActiveRange []
    (m.filterMap fun ei => found (e820Window ei) ei))
  refine ⟨fun r hr => ?_, ?_, fun pfn => ?_⟩
  -- the sort moves entries around, nothing else
  · have hmem := hsorted.mem_iff.mp hr
    exact ⟨htidy.nonempty r hmem, htidy.nid r hmem⟩
  · apply pairwise_ascending NodeRange.span
    · exact fun r hr => htidy.nonempty r (hsorted.mem_iff.mp hr)
    · exact (hsorted.pairwise_iff hsymm).mpr htidy.apart
    · exact ks.sorted _
  · rw [covers_sort, hcovers, or_iff_right not_covers_nil]
    constructor
    · rintro ⟨c, hc, hpfn⟩
      obtain ⟨ei, hei, hfound⟩ := List.mem_filterMap.mp hc
      obtain ⟨-, -, hram, hmem⟩ := found_own (hwrap ei hei) hfound
      exact ⟨ei, hei, hram, (hmem pfn).mp hpfn⟩
    · rintro ⟨ei, hei, hram, hpage⟩
      -- a whole page of an entry lies in the entry's own window, although that is rounded down
      have hwindow : ei.addr / pageSize ≤ pfn ∧ pfn < ei.last / pageSize := by
        simp only [E820Entry.HoldsPage, (hwrap ei hei).last_eq, pageSize, pageShift] at hpage ⊢
        omega
      obtain ⟨s, e, hfind⟩ :=
        e820FindActiveRegion_isSome (hwrap ei hei) hram hpage hwindow.1 hwindow.2
      have hfound : found (e820Window ei) ei = some ⟨0, s, e⟩ := found_eq_some.mpr ⟨rfl, hfind⟩
      exact ⟨⟨0, s, e⟩, List.mem_filterMap.mpr ⟨ei, hei, hfound⟩,
        ((found_own (hwrap ei hei) hfound).2.2.2 pfn).mpr hpage⟩

/-- The region pipeline is exact: the regions are non-empty, ascending and on node 0, they are the
RAM pages, and their type says on which side of the memory limit they lie.  No entry wraps; this also
leaves out those that begin behind the first byte of the last page, whose start would round up to 0. -/
theorem region_pipeline_exact (ks : KernelSort) (m : List E820Entry) (memLimit : Nat)
    (hne : ∀ ei ∈ m, 0 < ei.size) (hwrap : ∀ ei ∈ m, ei.NoWrap)
    (hapart : m.Pairwise fun a b => a.bytes.Apart b.bytes)
    (hfits : (generateBootmemRegion memLimit
      (generateNodeMapFromE820AndSrat ks m [] [])).1 = 0) :
    ∃ d, run ks (.fresh []) (settings m memLimit) = some d ∧
      ∃ regions : List BootmemRegion,
        (mmtestIoctl ks d (.getBregionNum true)).reply = .num regions.length ∧
        (∀ idx (h : idx < regions.length),
          (mmtestIoctl ks d (.getBregion idx true)).reply = .region (some regions[idx])) ∧
        (∀ r ∈ regions, r.startPfn < r.endPfn ∧ r.nid = 0) ∧
        regions.Pairwise (fun a b => a.endPfn ≤ b.startPfn) ∧
        (∀ pfn, (∃ r ∈ regions, pfn ∈ r.span) ↔ RamPage m pfn) ∧
        ∀ r ∈ regions, ∀ pfn ∈ r.span,
          r.type = if memLimit / pageSize ≤ pfn then mmtestRW else mmtestRO := by
  obtain ⟨hlen, htable⟩ := generateBootmemRegion_of_success hfits
  -- a region table without overflow leaves the node map far below its own limit
  have hroom : (generateNodeMapFromE820AndSrat ks m [] []).length < maxActiveRegions :=
    Nat.lt_of_le_of_lt (Nat.le_trans (length_le_splits _ _) hlen) (by decide)
  obtain ⟨hrange, hascending, hcovers⟩ := nodeMap_exact ks hne hwrap hapart hroom
  refine ⟨_, run_settings ks (.fresh []) m memLimit, _, congrArg Reply.num
    (congrArg BootmemTable.bregionNum htable), fun idx h => ?_, fun r hr => ?_,
    splits_ascending hascending, fun pfn => ?_, fun r hr pfn hpfn => ?_⟩
  · exact congrArg Reply.region ((congrArg (getBregion · idx) htable).trans (getBregion_of_lt _ h))
  · obtain ⟨q, hq, hsplit⟩ := List.mem_flatMap.mp hr
    exact ⟨splitRange_nonempty (hrange q hq).1 hsplit,
      (splitRange_nid hsplit).trans (hrange q hq).2⟩
  · rw [← hcovers]
    simp only [List.mem_flatMap]
    constructor
    · rintro ⟨r, ⟨q, hq, hsplit⟩, hpfn⟩
      exact ⟨q, hq, (hrange q hq).2, (splitRange_mem pfn).mp ⟨r, hsplit, hpfn⟩⟩
    · rintro ⟨q, hq, -, hpfn⟩
      obtain ⟨r, hsplit, hmem⟩ := (splitRange_mem pfn).mpr hpfn
      exact ⟨r, ⟨q, hq, hsplit⟩, hmem⟩
  · obtain ⟨q, hq, hsplit⟩ := List.mem_flatMap.mp hr
    obtain ⟨-, -, hside⟩ := splitRange_side hsplit
    obtain ⟨hlo, hhi⟩ := hpfn
    simp only [BootmemRegion.span] at hlo hhi
    rcases hside with ⟨htype, hbound⟩ | ⟨htype, hbound⟩
    · rw [htype, if_neg (by omega)]
    · rw [htype, if_pos (by omega)]

/-- Two RAM entries that touch, after them a sub-page one, and a limit inside the first. -/
theorem region_pipeline_exact_three :
    ∃ d, run insertionKernelSort (.fresh []) (settings
        [⟨0x100000, 0x3000, e820Ram⟩, ⟨0x103000, 0x1800, e820Ram⟩, ⟨0x10, 0x20, 2⟩] 0x101000) =
          some d ∧
      ∃ regions : List BootmemRegion,
        (mmtestIoctl insertionKernelSort d (.getBregionNum true)).reply = .num regions.length ∧
        (∀ idx (h : idx < regions.length),
          (mmtestIoctl insertionKernelSort d (.getBregion idx true)).reply =
            .region (some regions[idx])) ∧
        (∀ r ∈ regions, r.startPfn < r.endPfn ∧ r.nid = 0) ∧
        regions.Pairwise (fun a b => a.endPfn ≤ b.startPfn) ∧
        (∀ pfn, (∃ r ∈ regions, pfn ∈ r.span) ↔ RamPage
          [⟨0x100000, 0x3000, e820Ram⟩, ⟨0x103000, 0x1800, e820Ram⟩, ⟨0x10, 0x20, 2⟩] pfn) ∧
        ∀ r ∈ regions, ∀ pfn ∈ r.span,
          r.type = if 0x101000 / pageSize ≤ pfn then mmtestRW else mmtestRO :=
  region_pipeline_exact insertionKernelSort
    [⟨0x100000, 0x3000, e820Ram⟩, ⟨0x103000, 0x1800, e820Ram⟩, ⟨0x10, 0x20, 2⟩] 0x101000
    (by decide) (by decide)
    (by
      simp only [List.pairwise_cons, List.forall_mem_cons]
      exact ⟨⟨.of_le (by decide), .symm (.of_le (by decide)), by simp⟩,
        ⟨.symm (.of_le (by decide)), by simp⟩, by simp, List.Pairwise.nil⟩)
    (by decide)

end MoBoMemory.Driver
