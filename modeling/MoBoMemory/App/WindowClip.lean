import MoBoMemory.App.InitModule

/-!
# Window clipping is exact

The branches of the region loop against what they are for: the intersection of the region with the
window, rounded outwards to pages.  A region that meets the window in at least one byte gives one
range, any other region gives none, and the list is in the order of the regions.
-/

namespace MoBoMemory.App

open Base Driver

def regionBytes (region : BootmemRegion) : Span Nat :=
  ⟨region.startPfn * pageSize, region.endPfn * pageSize⟩

def TestParm.window (p : TestParm) : Span Nat := ⟨p.start, p.stop⟩

/-- Start rounded down and end rounded up to a page. -/
def wholePages (s : Span Nat) : Span Nat :=
  ⟨s.lo / pageSize * pageSize, (s.hi + (pageSize - 1)) / pageSize * pageSize⟩

def RWRange.physical (rw : RWRange) : Span Nat := ⟨rw.phyStart, rw.phyEnd⟩

/-- What of a region is in the window. -/
def inWindow (p : TestParm) (region : BootmemRegion) : Span Nat :=
  (regionBytes region).inter p.window

/-- The entry of `RW_list` for a region that is mapped at `addr`, if it gets one. -/
def rangeOf (addr : Nat → Nat) (p : TestParm) (entry : BootmemRegion × Nat) : Option RWRange :=
  let cut := inWindow p entry.1
  let pages := wholePages cut
  if entry.1.type = mmtestRW ∧ cut.lo < cut.hi then
    some ⟨addr entry.2, (addr entry.2 + (pages.hi - pages.lo)) % 2 ^ 64, pages.lo, pages.hi⟩
  else none

/-- A non-empty region of one of the driver's two types whose bytes have 64-bit addresses. -/
structure WellFormedRegion (region : BootmemRegion) : Prop where
  nonempty : region.startPfn < region.endPfn
  addressable : region.endPfn * pageSize < 2 ^ 64
  type : region.type = mmtestRW ∨ region.type = mmtestRO

/-- The same on a machine with one node. -/
structure PlainRegion (region : BootmemRegion) : Prop extends WellFormedRegion region where
  node : region.nid = 0

/-- All system calls succeed, and region `i` is mapped at `addr i`. -/
structure Succeeds (env : InitEnv) (addr : Nat → Nat) : Prop where
  openDevice : env.openDevice = none
  getBregionNum : env.getBregionNum = none
  getBregion : ∀ i, env.getBregion i = none
  mmap : ∀ i, env.mmap i = .ok (addr i)

/-! ## The branches of the clip -/

section Clip

variable {p : TestParm} {offset last : Nat}

-- A byte in common: one of the branches computes the intersection.
theorem clipToWindow_meets (hmeets : max offset p.start < min last p.stop) :
    clipToWindow p offset last = some (max offset p.start, min last p.stop) := by
  unfold clipToWindow
  split_ifs
  all_goals first
    | omega
    | (rw [Option.some.injEq, Prod.mk.injEq]; omega)

-- No byte in common: the region is skipped, or what is recorded is empty.
theorem clipToWindow_misses (hregion : offset < last) (hwindow : p.start ≤ p.stop)
    (hmisses : min last p.stop ≤ max offset p.start) :
    clipToWindow p offset last = none ∨ ∃ a, clipToWindow p offset last = some (a, a) := by
  unfold clipToWindow
  split_ifs
  all_goals first
    | exact Or.inl rfl
    | omega
    | (refine Or.inr ⟨_, congrArg some (Prod.ext rfl ?_)⟩; simp only; omega)

-- The region is skipped when not even its bounds touch the window.
theorem clipToWindow_eq_none (hregion : offset < last) (hwindow : p.start ≤ p.stop) :
    clipToWindow p offset last = none ↔ last < p.start ∨ p.stop < offset := by
  unfold clipToWindow
  split_ifs
  all_goals simp only [true_iff, false_iff]
  all_goals omega

end Clip

/-! ## Rounding outwards -/

section Pages

variable {first stop : Nat} {s : Span Nat}

-- Page-aligned bounds are not left.
theorem wholePages_inside (hne : s.lo < s.hi) (hlo : first * pageSize ≤ s.lo)
    (hhi : s.hi ≤ stop * pageSize) :
    first * pageSize ≤ (wholePages s).lo ∧ (wholePages s).lo + pageSize ≤ (wholePages s).hi ∧
      (wholePages s).hi ≤ stop * pageSize := by
  simp only [wholePages, pageSize, pageShift] at *
  omega

theorem roundup_eq_wholePages (hhi : s.hi ≤ stop * pageSize) (hstop : stop * pageSize < 2 ^ 64) :
    pfnStartRoundup s.lo = (wholePages s).lo ∧ pfnEndRoundup s.hi = (wholePages s).hi := by
  have hwrap : (s.hi + (pageSize - 1)) % 2 ^ 64 = s.hi + (pageSize - 1) := by
    apply Nat.mod_eq_of_lt
    simp only [pageSize, pageShift] at *
    omega
  exact ⟨rfl, congrArg (fun b => b / pageSize * pageSize) hwrap⟩

end Pages

section Region

variable {p : TestParm} {region : BootmemRegion}

theorem WellFormedRegion.endPfn_lt (hregion : WellFormedRegion region) : region.endPfn < 2 ^ 52 := by
  have haddr := hregion.addressable
  simp only [pageSize, pageShift] at haddr
  omega

-- The rounded piece of a region stays in the region and has at least a page.
theorem inWindow_pages (hmeets : (inWindow p region).lo < (inWindow p region).hi) :
    (regionBytes region).lo ≤ (wholePages (inWindow p region)).lo ∧
      (wholePages (inWindow p region)).lo + pageSize ≤ (wholePages (inWindow p region)).hi ∧
      (wholePages (inWindow p region)).hi ≤ (regionBytes region).hi :=
  wholePages_inside hmeets (Nat.le_max_left _ _) (Nat.min_le_left _ _)

-- The test for less than a block never skips a range.
theorem not_skipped (hregion : WellFormedRegion region)
    (hmeets : (inWindow p region).lo < (inWindow p region).hi) :
    ¬ pfnEndRoundup (inWindow p region).hi <
      (pfnStartRoundup (inWindow p region).lo + minBlockSize) % 2 ^ 64 := by
  obtain ⟨hstart, hend⟩ := roundup_eq_wholePages (s := inWindow p region) (Nat.min_le_left _ _)
    hregion.addressable
  obtain ⟨-, hpage, hhi⟩ := inWindow_pages hmeets
  have hblock : minBlockSize = pageSize := rfl
  rw [hstart, hend, hblock, Nat.mod_eq_of_lt]
  · omega
  · exact lt_of_le_of_lt (le_trans hpage hhi) hregion.addressable

end Region

/-! ## One turn of the loop -/

section Step

variable {env : InitEnv} {addr : Nat → Nat} (henv : Succeeds env addr) {p : TestParm}
  (hlist : p.listInfo = false) {region : BootmemRegion} (hregion : PlainRegion region)

include henv hlist hregion

theorem addRWRange_maps (i : Nat) (hrw : region.type = mmtestRW)
    (hmeets : (inWindow p region).lo < (inWindow p region).hi) {s : InitState}
    (hopen : s.fdOpen = true) :
    ∃ s', addRWRange env p i (inWindow p region).lo (inWindow p region).hi s = (.finished, s') ∧
      s'.fdOpen = true ∧ s'.rawReg.length ≤ max s.rawReg.length 1 ∧
      s'.rwList = (rangeOf addr p (region, i)).toList ++ s.rwList := by
  obtain ⟨hstart, hend⟩ := roundup_eq_wholePages (s := inWindow p region) (Nat.min_le_left _ _)
    hregion.addressable
  rw [addRWRange, hlist, if_neg (by simp), if_neg (not_skipped hregion.toWellFormedRegion hmeets)]
  simp only [hopen, if_true, henv.mmap]
  refine ⟨_, rfl, rfl, ?_, ?_⟩
  · simp only [List.length_append, List.length_dropLast, List.length_singleton]
    omega
  · simp only [rangeOf, if_pos (And.intro hrw hmeets), hstart, hend, Option.toList_some,
      List.singleton_append]

-- A region with something in the window is recorded and, if it is read-write, gives its range.
theorem recordRegion_meets (i : Nat) (hmeets : (inWindow p region).lo < (inWindow p region).hi)
    {s : InitState} (hopen : s.fdOpen = true) (hroom : s.rawReg.length < maxRegion) {len : Nat}
    (hlen : len ≠ 0) :
    ∃ s', recordRegion env p i region (regionBytes region).lo len (regionBytes region).hi s =
        (.finished, s') ∧
      s'.fdOpen = true ∧ s'.rawReg.length ≤ s.rawReg.length + 1 ∧
      s'.rwList = (rangeOf addr p (region, i)).toList ++ s.rwList := by
  have hcut : (if p.listInfo then some ((regionBytes region).lo, (regionBytes region).hi)
      else clipToWindow p (regionBytes region).lo (regionBytes region).hi) =
        some ((inWindow p region).lo, (inWindow p region).hi) := by
    rw [hlist]
    exact clipToWindow_meets hmeets
  have hnode : ¬ nodeCount ≤ region.nid := by rw [hregion.node]; decide
  rw [recordRegion_of_room hcut hroom, if_neg hmeets.ne, if_neg hnode, storeRange]
  have hopen' : (noteRange (inWindow p region).lo (inWindow p region).hi
      (enterRegion len (regionBytes region).hi s)).fdOpen = true := by
    simp [hlen, hopen]
  rcases hregion.type with hrw | hro
  · obtain ⟨s', hrun, hopen'', hlen', hlist'⟩ :=
      addRWRange_maps henv hlist hregion i hrw hmeets hopen'
    rw [if_pos hrw]
    refine ⟨s', hrun, hopen'', le_trans hlen' ?_, ?_⟩
    · simp
    · rw [hlist', noteRange_rwList, enterRegion_rwList]
  · have hnotrw : region.type ≠ mmtestRW := by rw [hro]; decide
    rw [if_neg hnotrw, if_pos hro]
    refine ⟨_, rfl, hopen', by simp, ?_⟩
    rw [rangeOf, if_neg (by simp [hnotrw])]
    simp

omit henv in
-- A region with nothing in the window leaves the list alone.
theorem recordRegion_misses (hwindow : p.start ≤ p.stop) (i : Nat)
    (hmisses : ¬ (inWindow p region).lo < (inWindow p region).hi)
    {s : InitState} (hopen : s.fdOpen = true) (hroom : s.rawReg.length < maxRegion) {len : Nat}
    (hlen : len ≠ 0) :
    ∃ s', recordRegion env p i region (regionBytes region).lo len (regionBytes region).hi s =
        (.finished, s') ∧
      s'.fdOpen = true ∧ s'.rawReg.length ≤ s.rawReg.length + 1 ∧
      s'.rwList = (rangeOf addr p (region, i)).toList ++ s.rwList := by
  have hbytes : (regionBytes region).lo < (regionBytes region).hi :=
    Nat.mul_lt_mul_of_pos_right hregion.nonempty (by decide)
  have hnone : rangeOf addr p (region, i) = none := by
    rw [rangeOf, if_neg (by simp [hmisses])]
  rw [hnone]
  rcases clipToWindow_misses hbytes hwindow (not_lt.mp hmisses) with hclip | ⟨a, hclip⟩
  · rw [recordRegion_of_none (by rw [hlist]; exact hclip)]
    exact ⟨_, rfl, by simp [hlen, hopen], by simp, by simp⟩
  · rw [recordRegion_of_room (by rw [hlist]; exact hclip) hroom, if_pos rfl]
    exact ⟨_, rfl, by simp [hlen, hopen], by simp, by simp⟩

theorem initRegion_clips (hwindow : p.start ≤ p.stop) (i : Nat) {s : InitState}
    (hopen : s.fdOpen = true) (hroom : s.rawReg.length < maxRegion) :
    ∃ s', initRegion env p i region s = (.finished, s') ∧
      s'.fdOpen = true ∧ s'.rawReg.length ≤ s.rawReg.length + 1 ∧
      s'.rwList = (rangeOf addr p (region, i)).toList ++ s.rwList := by
  have hlen := bytes_ne_zero hregion.nonempty
  rw [initRegion_eq hregion.nonempty.le hregion.endPfn_lt]
  by_cases hmeets : (inWindow p region).lo < (inWindow p region).hi
  · exact recordRegion_meets henv hlist hregion i hmeets hopen hroom hlen
  · exact recordRegion_misses hlist hregion hwindow i hmeets hopen hroom hlen

end Step

/-! ## The loop -/

section Loop

variable {d : Globals} {env : InitEnv} {addr : Nat → Nat}
  (henv : Succeeds env addr) {p : TestParm} (hlist : p.listInfo = false)
  (hwindow : p.start ≤ p.stop) {regions : List BootmemRegion}
  (htable : d.table = ⟨regions, regions.length⟩) (hregions : ∀ region ∈ regions, PlainRegion region)

theorem readRegion_eq (ks : KernelSort) (htable : d.table = ⟨regions, regions.length⟩) {i : Nat}
    (hi : i < regions.length) : readRegion ks d i = regions[i] := by
  have hget : getBregion d.table i = some regions[i] :=
    (congrArg (getBregion · i) htable).trans (getBregion_of_lt _ hi)
  have hreply : (mmtestIoctl ks d (.getBregion i true)).reply = .region (some regions[i]) :=
    congrArg Reply.region hget
  rw [readRegion, hreply]

include henv hlist hwindow htable hregions

-- From a list of the later regions the loop goes on to the list of all of them.
theorem initLoop_clips (ks : KernelSort) (n : Nat) (hn : n ≤ regions.length) (s : InitState)
    (hopen : s.fdOpen = true) (hroom : s.rawReg.length + n ≤ maxRegion) :
    ∃ s', initLoop ks d env p n s = (.finished, s') ∧
      s'.rwList = (regions.zipIdx.take n).filterMap (rangeOf addr p) ++ s.rwList := by
  induction n generalizing s with
  | zero => exact ⟨s, rfl, rfl⟩
  | succ i ih =>
      have hread := readRegion_eq ks htable (i := i) (by omega)
      obtain ⟨t, hstep, hopen', hlen', hlist'⟩ :=
        initRegion_clips henv hlist (hregions regions[i] (List.getElem_mem _)) hwindow i hopen
          (by omega)
      obtain ⟨s', hrest, hranges⟩ := ih (by omega) t hopen' (by omega)
      refine ⟨s', ?_, ?_⟩
      · rw [initLoop, hread]
        simp only [hopen, if_true, henv.getBregion, hstep]
        exact hrest
      · have htake : regions.zipIdx.take (i + 1) = regions.zipIdx.take i ++ [(regions[i], i)] := by
          rw [List.take_add_one, List.getElem?_eq_getElem (by simp; omega), List.getElem_zipIdx]
          simp
        rw [hranges, hlist', htake, List.filterMap_append, List.append_assoc]
        congr 2

end Loop

/-! ## The ranges -/

-- The mapping is as long as the range.
theorem ulSub_mapping {addr size : Nat} (haddr : addr < 2 ^ 64) (hsize : size < 2 ^ 64) :
    ulSub ((addr + size) % 2 ^ 64) addr = size := by
  unfold ulSub
  omega

section Ranges

variable {addr : Nat → Nat} {p : TestParm} {entry : BootmemRegion × Nat} {rw : RWRange}

theorem rangeOf_eq_some (h : rangeOf addr p entry = some rw) :
    (inWindow p entry.1).lo < (inWindow p entry.1).hi ∧
      rw.physical = wholePages (inWindow p entry.1) ∧ rw.start = addr entry.2 ∧
      rw.stop = (rw.start + (rw.phyEnd - rw.phyStart)) % 2 ^ 64 := by
  rw [rangeOf, ite_eq_iff] at h
  rcases h with ⟨hcond, hsome⟩ | ⟨-, hnone⟩
  · obtain rfl := Option.some.inj hsome
    exact ⟨hcond.2, rfl, rfl, rfl⟩
  · simp at hnone

theorem rangeOf_inside (h : rangeOf addr p entry = some rw) :
    (regionBytes entry.1).lo ≤ rw.phyStart ∧ rw.phyEnd ≤ (regionBytes entry.1).hi := by
  obtain ⟨hmeets, hpages, -⟩ := rangeOf_eq_some h
  obtain ⟨hlo, -, hhi⟩ := inWindow_pages hmeets
  have hstart : rw.phyStart = (wholePages (inWindow p entry.1)).lo := congrArg Span.lo hpages
  have hend : rw.phyEnd = (wholePages (inWindow p entry.1)).hi := congrArg Span.hi hpages
  exact ⟨le_of_le_of_eq hlo hstart.symm, le_of_eq_of_le hend hhi⟩

theorem rangeOf_size (haddr : ∀ i, addr i < 2 ^ 64) (hplain : PlainRegion entry.1)
    (h : rangeOf addr p entry = some rw) : ulSub rw.stop rw.start = rw.phyEnd - rw.phyStart := by
  obtain ⟨-, -, hstart, hstop⟩ := rangeOf_eq_some h
  obtain ⟨-, hhi⟩ := rangeOf_inside h
  have hend := hplain.addressable
  have hsize : rw.phyEnd - rw.phyStart < 2 ^ 64 := by
    simp only [regionBytes] at hhi
    omega
  rw [hstop, hstart, ulSub_mapping (haddr _) hsize]

-- Ranges of regions that are apart are apart.
theorem ranges_apart {regions : List BootmemRegion}
    (hapart : regions.Pairwise fun r q => (regionBytes r).Apart (regionBytes q)) :
    (regions.zipIdx.filterMap (rangeOf addr p)).Pairwise fun v w => v.physical.Apart w.physical := by
  have hentries : regions.zipIdx.Pairwise fun r q =>
      (regionBytes r.1).Apart (regionBytes q.1) := by
    rw [← List.zipIdx_map_fst 0 regions, List.pairwise_map] at hapart
    exact hapart
  rw [List.pairwise_filterMap]
  apply hentries.imp
  intro r q hrq v hv w hw
  obtain ⟨hlo, hhi⟩ := rangeOf_inside hv
  obtain ⟨hlo', hhi'⟩ := rangeOf_inside hw
  exact hrq.mono (fun x hx => ⟨le_trans hlo hx.1, lt_of_lt_of_le hx.2 hhi⟩)
    fun x hx => ⟨le_trans hlo' hx.1, lt_of_lt_of_le hx.2 hhi'⟩

end Ranges

/-- Outside list mode, and when every system call succeeds, `init_module` makes one range of every
read-write region that has a byte in the window, in the order of the regions: the intersection
rounded outwards to pages, which is as long as its mapping, is not skipped as too small and does
not leave the region. -/
theorem rwList_is_clipped (ks : KernelSort) (d : Globals) {regions : List BootmemRegion}
    (htable : d.table = ⟨regions, regions.length⟩) (hcount : regions.length ≤ maxRegion)
    (hregions : ∀ region ∈ regions, PlainRegion region) {env : InitEnv} {addr : Nat → Nat}
    (henv : Succeeds env addr) (haddr : ∀ i, addr i < 2 ^ 64) {p : TestParm}
    (hlist : p.listInfo = false) (hwindow : p.start ≤ p.stop) :
    (initModule ks d env p).1 = .finished ∧
      (initModule ks d env p).2.rwList = regions.zipIdx.filterMap (rangeOf addr p) ∧
      (∀ entry ∈ regions.zipIdx, ∀ rw, rangeOf addr p entry = some rw →
        rw.physical = wholePages (inWindow p entry.1) ∧
        (regionBytes entry.1).lo ≤ rw.phyStart ∧ rw.phyEnd ≤ (regionBytes entry.1).hi ∧
        ulSub rw.stop rw.start = rw.phyEnd - rw.phyStart) ∧
      (∀ region ∈ regions, (inWindow p region).lo < (inWindow p region).hi →
        ¬ pfnEndRoundup (inWindow p region).hi <
          (pfnStartRoundup (inWindow p region).lo + minBlockSize) % 2 ^ 64) ∧
      (regions.Pairwise (fun r q => (regionBytes r).Apart (regionBytes q)) →
        (initModule ks d env p).2.rwList.Pairwise fun v w => v.physical.Apart w.physical) := by
  obtain ⟨s, hrun, hranges⟩ := initLoop_clips henv hlist hwindow htable hregions ks
    regions.length (le_refl _) ⟨true, 0, 0, [], [], []⟩ rfl (by simpa using hcount)
  have hreply : (mmtestIoctl ks d (.getBregionNum true)).reply = .num regions.length :=
    congrArg (fun table : BootmemTable => Reply.num table.bregionNum) htable
  have hinit : initModule ks d env p = (.finished, s) := by
    rw [initModule, if_neg (not_lt.mpr hwindow)]
    simp only [hlist, Bool.false_eq_true, if_false, henv.openDevice, henv.getBregionNum, hreply]
    exact hrun
  have hall : s.rwList = regions.zipIdx.filterMap (rangeOf addr p) := by
    rw [hranges, List.take_of_length_le (by simp), List.append_nil]
  rw [hinit]
  refine ⟨rfl, hall, ?_, ?_, ?_⟩
  · intro entry hentry rw hrange
    obtain ⟨-, hpages, -⟩ := rangeOf_eq_some hrange
    obtain ⟨hlo, hhi⟩ := rangeOf_inside hrange
    have hplain := hregions _ (List.fst_mem_of_mem_zipIdx hentry)
    exact ⟨hpages, hlo, hhi, rangeOf_size haddr hplain hrange⟩
  · intro region hregion hmeets
    exact not_skipped (hregions region hregion).toWellFormedRegion hmeets
  · intro hapart
    show s.rwList.Pairwise _
    rw [hall]
    exact ranges_apart hapart

/-- A window that begins inside the first region and ends inside the second, which is read-only. -/
theorem rwList_is_clipped_two :
    let regions : List BootmemRegion := [⟨0x100, 0x110, 0, mmtestRW⟩, ⟨0x120, 0x130, 0, mmtestRO⟩]
    let d : Globals := ⟨[], 0, [], [], ⟨regions, regions.length⟩⟩
    let env : InitEnv := ⟨none, none, fun _ => none, fun _ => .ok 0x7000, 0⟩
    let p : TestParm := ⟨0x10a800, 0x128000, false⟩
    (initModule insertionKernelSort d env p).1 = .finished ∧
      (initModule insertionKernelSort d env p).2.rwList =
        regions.zipIdx.filterMap (rangeOf (fun _ => 0x7000) p) ∧
      (∀ entry ∈ regions.zipIdx, ∀ rw, rangeOf (fun _ => 0x7000) p entry = some rw →
        rw.physical = wholePages (inWindow p entry.1) ∧
        (regionBytes entry.1).lo ≤ rw.phyStart ∧ rw.phyEnd ≤ (regionBytes entry.1).hi ∧
        ulSub rw.stop rw.start = rw.phyEnd - rw.phyStart) ∧
      (∀ region ∈ regions, (inWindow p region).lo < (inWindow p region).hi →
        ¬ pfnEndRoundup (inWindow p region).hi <
          (pfnStartRoundup (inWindow p region).lo + minBlockSize) % 2 ^ 64) ∧
      (regions.Pairwise (fun r q => (regionBytes r).Apart (regionBytes q)) →
        (initModule insertionKernelSort d env p).2.rwList.Pairwise
          fun v w => v.physical.Apart w.physical) := by
  apply rwList_is_clipped insertionKernelSort _ rfl (by decide)
  · intro region hregion
    simp only [List.mem_cons, List.not_mem_nil, or_false] at hregion
    rcases hregion with rfl | rfl
    · exact ⟨⟨by decide, by decide, Or.inl rfl⟩, rfl⟩
    · exact ⟨⟨by decide, by decide, Or.inr rfl⟩, rfl⟩
  · exact ⟨rfl, rfl, fun _ => rfl, fun _ => rfl⟩
  · exact fun _ => by decide
  · rfl
  · decide

end MoBoMemory.App
