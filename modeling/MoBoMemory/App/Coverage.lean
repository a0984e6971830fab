import MoBoMemory.Driver.PageTable
import MoBoMemory.Driver.Pipeline
import MoBoMemory.App.Schedule
import MoBoMemory.App.SlicePartition
import MoBoMemory.App.WindowClip

/-!
# From the e820 map to the tested bytes

All the stages of a run in which nothing fails: the driver's regions, the user's window, the mappings,
the slices and the threads.  What they add up to: every item is run on exactly the RAM pages above the
limit that have a byte in the window, and each of their bytes is in the block of exactly one thread.
-/

namespace MoBoMemory.App

open Base Driver

/-- A machine whose e820 entries are apart and whose RAM is inside its MTRRs, below 16 TiB. -/
structure Machine where
  e820 : List E820Entry
  varRanges : List MtrrVarRange
  nonempty : ∀ ei ∈ e820, 0 < ei.size
  noWrap : ∀ ei ∈ e820, ei.NoWrap
  apart : e820.Pairwise fun a b => a.bytes.Apart b.bytes
  wellFormed : ∀ r ∈ varRanges, r.WellFormed
  mtrrPages : ∀ pfn, RamPage e820 pfn → pfn + 1 < 2 ^ 32 ∧ MtrrPage varRanges pfn

/-- The request that the kernel makes of the driver for the mapping of a range. -/
structure RequestOf (rw : RWRange) (vma : Vma) : Prop where
  start : vma.vmStart = rw.start
  size : vma.vmEnd = rw.start + (rw.phyEnd - rw.phyStart)
  pgoff : vma.vmPgoff = rw.phyStart / pageSize

/-- A run up to the joined threads, without failing system calls. -/
structure CleanRun (mc : Machine) where
  sort : KernelSort
  memLimit : Nat
  driver : Globals
  set : run sort (.fresh []) (settings mc.e820 memLimit) = some driver
  fits : (generateBootmemRegion memLimit
    (generateNodeMapFromE820AndSrat sort mc.e820 [] [])).1 = 0
  roomRegions : driver.table.bregionNum ≤ maxRegion
  parm : TestParm
  plain : parm.listInfo = false
  window : parm.start ≤ parm.stop
  calls : InitEnv
  addr : Nat → Nat
  succeeds : Succeeds calls addr
  vma : RWRange → Vma
  remap : RWRange → List RemapCall → RemapCall → Int
  refusing : ∀ rw, Refusing (remap rw)
  request : ∀ rw ∈ (initModule sort driver calls parm).2.rwList, RequestOf rw (vma rw)
  mapped : ∀ rw ∈ (initModule sort driver calls parm).2.rwList,
    (mmtestMmap (vma rw) (remap rw) mc.varRanges).1 = 0
  vmaApart : (initModule sort driver calls parm).2.rwList.Pairwise fun v w =>
    (vma v).span.Apart (vma w).span
  mode : TestMode
  cpu : Int
  coreNum : Nat
  cores : 1 ≤ coreNum ∧ coreNum ≤ coreCount
  modeGiven : mode ≠ .all
  cpuGiven : cpu = noSpecifyCpu ∨ (0 ≤ cpu ∧ cpu < coreNum)
  rwList : List SlicedRange
  policy : testPolicy mode cpu coreNum (initModule sort driver calls parm).2.rwList = .built rwList
  roomTables : FitsTables rwList
  env : RWEnv
  pattern : PatternState
  pattern' : PatternState
  noComp : Int
  testItem : List Int
  loaded : patternStage env.pattern (testItems testItem) pattern = .ok pattern'
  created : ∀ n j k, (env.round n j).create k = true

/-- The page is RAM above the limit and has a byte in the window. -/
structure Selected (mc : Machine) (memLimit : Nat) (p : TestParm) (pfn : Nat) : Prop where
  ram : RamPage mc.e820 pfn
  aboveLimit : memLimit / pageSize ≤ pfn
  inWindow : max (pfn * pageSize) p.start < min ((pfn + 1) * pageSize) p.stop

instance decidableRamPage (map : List E820Entry) (pfn : Nat) : Decidable (RamPage map pfn) :=
  inferInstanceAs (Decidable (∃ ei ∈ map, ei.type = e820Ram ∧ _ ∧ _))

instance decidableSelected (mc : Machine) (memLimit : Nat) (p : TestParm) (pfn : Nat) :
    Decidable (Selected mc memLimit p pfn) :=
  decidable_of_iff (_ ∧ _ ∧ _) ⟨fun ⟨hram, hlimit, hwindow⟩ => ⟨hram, hlimit, hwindow⟩,
    fun ⟨hram, hlimit, hwindow⟩ => ⟨hram, hlimit, hwindow⟩⟩

/-- The physical bytes of a thread's block, as far as it is mapped. -/
def Task.physicalBytes (calls : List RemapCall) (t : Task) : List Nat :=
  (List.range' t.block t.bytes).filterMap (physAddr calls)

/-- The physical bytes of the blocks of all threads that were started with the item. -/
def testedBytes (calls : List RemapCall) (trace : List ThreadEvent) (item : Int) : List Nat :=
  (((started trace).map ThreadInfo.task).filter fun t => t.item = item).flatMap
    (Task.physicalBytes calls)

theorem rangeOf_type {addr : Nat → Nat} {p : TestParm} {entry : BootmemRegion × Nat} {rw : RWRange}
    (h : rangeOf addr p entry = some rw) : entry.1.type = mmtestRW := by
  rw [rangeOf, ite_eq_iff] at h
  rcases h with ⟨hcond, -⟩ | ⟨-, hnone⟩
  · exact hcond.1
  · simp at hnone

namespace CleanRun

variable {mc : Machine} (r : CleanRun mc)

def ranges : List RWRange := (initModule r.sort r.driver r.calls r.parm).2.rwList

/-- The page table of the process once its ranges are mapped. -/
def pageTable : List RemapCall :=
  allCalls mc.varRanges (r.ranges.map fun rw => ⟨r.vma rw, r.remap rw⟩)

def result : RWResult :=
  ⟨(runReports r.env.round r.noComp (testItems r.testItem) (sortedTable r.rwList)).foldl
      laterFailure 0,
    runEvents r.env.round r.noComp (testItems r.testItem) (sortedTable r.rwList)⟩

theorem readWriteTest_eq :
    readWriteTest r.env r.pattern r.noComp r.testItem r.rwList = some r.result :=
  readWriteTest_tested r.roomTables r.loaded

/-! ## The regions -/

/-- What the region table of the driver amounts to. -/
structure RegionsOf (regions : List BootmemRegion) : Prop where
  table : r.driver.table = ⟨regions, regions.length⟩
  plain : ∀ region ∈ regions, PlainRegion region
  apart : regions.Pairwise fun a b => (regionBytes a).Apart (regionBytes b)
  pages : ∀ pfn, (∃ region ∈ regions, region.type = mmtestRW ∧ pfn ∈ region.span) ↔
    RamPage mc.e820 pfn ∧ r.memLimit / pageSize ≤ pfn

-- A RAM page ends below the end of the address space.
theorem ramPage_addressable {pfn : Nat} (hram : RamPage mc.e820 pfn) :
    (pfn + 1) * pageSize < 2 ^ 64 := by
  obtain ⟨ei, hei, -, hpage⟩ := hram
  exact lt_of_le_of_lt hpage.2 (mc.noWrap ei hei).2

theorem exists_regions : ∃ regions, r.RegionsOf regions := by
  obtain ⟨hlen, htable⟩ := generateBootmemRegion_of_success r.fits
  have hroom : (generateNodeMapFromE820AndSrat r.sort mc.e820 [] []).length < maxActiveRegions :=
    lt_of_le_of_lt (le_trans (length_le_splits _ _) hlen) (by decide)
  obtain ⟨hrange, hascending, hcovers⟩ :=
    nodeMap_exact r.sort mc.nonempty mc.noWrap mc.apart hroom
  have hdriver := Option.some.inj (r.set.symm.trans (run_settings r.sort (.fresh []) _ _))
  have hsplits := @splits_ascending (r.memLimit / pageSize) _ hascending
  have hram : ∀ pfn, (∃ region ∈ (generateNodeMapFromE820AndSrat r.sort mc.e820 [] []).flatMap
      (Driver.splitRange (r.memLimit / pageSize)), pfn ∈ region.span) ↔ RamPage mc.e820 pfn := by
    intro pfn
    rw [← hcovers]
    simp only [List.mem_flatMap]
    constructor
    · rintro ⟨region, ⟨q, hq, hsplit⟩, hpfn⟩
      exact ⟨q, hq, (hrange q hq).2, (splitRange_mem pfn).mp ⟨region, hsplit, hpfn⟩⟩
    · rintro ⟨q, hq, -, hpfn⟩
      obtain ⟨region, hsplit, hmem⟩ := (splitRange_mem pfn).mpr hpfn
      exact ⟨region, ⟨q, hq, hsplit⟩, hmem⟩
  refine ⟨_, congrArg Globals.table hdriver |>.trans htable, ?_, ?_, fun pfn => ?_⟩
  · intro region hregion
    obtain ⟨q, hq, hsplit⟩ := List.mem_flatMap.mp hregion
    obtain ⟨-, -, hside⟩ := splitRange_side hsplit
    have hne := splitRange_nonempty (hrange q hq).1 hsplit
    -- the last page of the region is RAM
    have hlast : RamPage mc.e820 (region.endPfn - 1) :=
      (hram _).mp ⟨region, hregion, by simp only [BootmemRegion.span, Span.mem_def]; omega⟩
    have haddr := ramPage_addressable hlast
    rw [Nat.sub_add_cancel (by omega)] at haddr
    exact ⟨⟨hne, haddr, (hside.imp And.left And.left).symm⟩,
      (splitRange_nid hsplit).trans (hrange q hq).2⟩
  · apply hsplits.imp
    intro a b hab
    exact Span.Apart.of_le (Nat.mul_le_mul_right pageSize hab)
  · rw [← hram]
    constructor
    · rintro ⟨region, hregion, htype, hpfn⟩
      obtain ⟨q, -, hsplit⟩ := List.mem_flatMap.mp hregion
      refine ⟨⟨region, hregion, hpfn⟩, ?_⟩
      obtain ⟨-, -, ⟨hro, -⟩ | ⟨-, hlimit⟩⟩ := splitRange_side hsplit
      · exact absurd (hro.symm.trans htype) (by decide)
      · exact le_trans hlimit hpfn.1
    · rintro ⟨⟨region, hregion, hpfn⟩, habove⟩
      obtain ⟨q, -, hsplit⟩ := List.mem_flatMap.mp hregion
      refine ⟨region, hregion, ?_, hpfn⟩
      obtain ⟨-, -, ⟨-, hlimit⟩ | ⟨hrw, -⟩⟩ := splitRange_side hsplit
      · exact absurd (lt_of_lt_of_le hpfn.2 hlimit) (not_lt.mpr habove)
      · exact hrw

/-! ## The ranges -/

theorem initModule_eq {regions : List BootmemRegion} (h : r.RegionsOf regions) :
    (initModule r.sort r.driver r.calls r.parm).1 = .finished ∧
      r.ranges = regions.zipIdx.filterMap (rangeOf r.addr r.parm) := by
  have hroom := r.roomRegions
  rw [h.table] at hroom
  obtain ⟨s, hrun, hranges⟩ := initLoop_clips r.succeeds r.plain r.window h.table h.plain r.sort
    regions.length (le_refl _) ⟨true, 0, 0, [], [], []⟩ rfl (by simpa using hroom)
  have hreply : (mmtestIoctl r.sort r.driver (.getBregionNum true)).reply = .num regions.length :=
    congrArg (fun table : BootmemTable => Reply.num table.bregionNum) h.table
  have hinit : initModule r.sort r.driver r.calls r.parm = (.finished, s) := by
    rw [initModule, if_neg (not_lt.mpr r.window)]
    simp only [r.plain, Bool.false_eq_true, if_false, r.succeeds.openDevice,
      r.succeeds.getBregionNum, hreply]
    exact hrun
  rw [ranges, hinit]
  exact ⟨rfl, by rw [hranges, List.take_of_length_le (by simp), List.append_nil]⟩

-- A byte is in the rounded intersection if its page meets the intersection.
theorem mem_wholePages {s : Span Nat} {x : Nat} :
    x ∈ wholePages s ↔ s.lo < (x / pageSize + 1) * pageSize ∧ x / pageSize * pageSize < s.hi := by
  simp only [wholePages, Span.mem_def, pageSize, pageShift]
  omega

-- What a page of a region has to do with the window.
theorem page_meets {region : BootmemRegion} {p : TestParm} {pfn : Nat} (hpfn : pfn ∈ region.span) :
    (inWindow p region).lo < (inWindow p region).hi ∧
        (inWindow p region).lo < (pfn + 1) * pageSize ∧ pfn * pageSize < (inWindow p region).hi ↔
      max (pfn * pageSize) p.start < min ((pfn + 1) * pageSize) p.stop := by
  have hlo : region.startPfn * pageSize ≤ pfn * pageSize := Nat.mul_le_mul_right pageSize hpfn.1
  have hhi : (pfn + 1) * pageSize ≤ region.endPfn * pageSize :=
    Nat.mul_le_mul_right pageSize hpfn.2
  have hpage : pfn * pageSize < (pfn + 1) * pageSize := by
    rw [Nat.add_mul]
    exact Nat.lt_add_of_pos_right (by decide)
  simp only [inWindow, Span.inter, regionBytes, TestParm.window]
  generalize pfn * pageSize = a at *
  generalize (pfn + 1) * pageSize = b at *
  omega

/-- What the later stages need of the ranges. -/
structure RangesOf : Prop where
  aligned : ∀ rw ∈ r.ranges, ∃ first pages, 0 < pages ∧ rw.phyStart = first * pageSize ∧
    rw.phyEnd = (first + pages) * pageSize
  selected : ∀ x, (∃ rw ∈ r.ranges, x ∈ rw.physical) ↔
    Selected mc r.memLimit r.parm (x / pageSize)
  apart : r.ranges.Pairwise fun v w => v.physical.Apart w.physical

theorem rangesOf : r.RangesOf := by
  obtain ⟨regions, hregions⟩ := r.exists_regions
  obtain ⟨-, hranges⟩ := r.initModule_eq hregions
  constructor
  case aligned =>
    intro rw hrw
    rw [hranges] at hrw
    obtain ⟨entry, hentry, hrange⟩ := List.mem_filterMap.mp hrw
    obtain ⟨hmeets, hpages, -⟩ := rangeOf_eq_some hrange
    have hstart : rw.phyStart = (wholePages (inWindow r.parm entry.1)).lo := congrArg Span.lo hpages
    have hend : rw.phyEnd = (wholePages (inWindow r.parm entry.1)).hi := congrArg Span.hi hpages
    refine ⟨(inWindow r.parm entry.1).lo / pageSize,
      ((inWindow r.parm entry.1).hi + (pageSize - 1)) / pageSize -
        (inWindow r.parm entry.1).lo / pageSize, ?_, hstart, ?_⟩
    · simp only [pageSize, pageShift]
      omega
    · rw [hend]
      simp only [wholePages, pageSize, pageShift]
      omega
  case selected =>
    intro x
    rw [hranges]
    constructor
    · rintro ⟨rw, hrw, hx⟩
      obtain ⟨entry, hentry, hrange⟩ := List.mem_filterMap.mp hrw
      obtain ⟨hmeets, hpages, -⟩ := rangeOf_eq_some hrange
      have htype := rangeOf_type hrange
      have hregion := List.fst_mem_of_mem_zipIdx hentry
      rw [hpages] at hx
      have hpage := mem_wholePages.mp hx
      have hpfn : x / pageSize ∈ entry.1.span := by
        obtain ⟨hlo, -, hhi⟩ := inWindow_pages hmeets
        have hxlo := hx.1
        have hxhi := hx.2
        simp only [regionBytes, BootmemRegion.span, Span.mem_def, pageSize, pageShift] at *
        omega
      obtain ⟨hram, hlimit⟩ := (hregions.pages _).mp ⟨_, hregion, htype, hpfn⟩
      exact ⟨hram, hlimit, (page_meets hpfn).mp ⟨hmeets, hpage⟩⟩
    · rintro ⟨hram, hlimit, hwindow⟩
      obtain ⟨region, hregion, htype, hpfn⟩ := (hregions.pages _).mpr ⟨hram, hlimit⟩
      obtain ⟨hmeets, hpage⟩ := (page_meets hpfn).mpr hwindow
      obtain ⟨i, hi, hget⟩ := List.mem_iff_getElem.mp hregion
      have hentry : (region, i) ∈ regions.zipIdx := by
        rw [List.mem_zipIdx_iff_getElem?, List.getElem?_eq_getElem hi, hget]
      have hrange : rangeOf r.addr r.parm (region, i) = some _ := if_pos ⟨htype, hmeets⟩
      exact ⟨_, List.mem_filterMap.mpr ⟨_, hentry, hrange⟩, mem_wholePages.mpr hpage⟩
  case apart =>
    rw [hranges]
    exact ranges_apart hregions.apart

/-! ## The mappings -/

section Mapped

variable {rw : RWRange} (hrw : rw ∈ r.ranges)

include hrw

theorem range_mapped : rw.stop = rw.start + (rw.phyEnd - rw.phyStart) ∧ rw.Mapped := by
  have hrequest := r.request rw hrw
  have hwrap := (r.vma rw).noWrap
  rw [hrequest.size] at hwrap
  obtain ⟨regions, hregions⟩ := r.exists_regions
  rw [(r.initModule_eq hregions).2] at hrw
  obtain ⟨entry, -, hrange⟩ := List.mem_filterMap.mp hrw
  obtain ⟨-, -, -, hstop⟩ := rangeOf_eq_some hrange
  rw [Nat.mod_eq_of_lt hwrap] at hstop
  exact ⟨hstop, by omega, by omega⟩

theorem mapping_succeeded : Mapping.Succeeded mc.varRanges ⟨r.vma rw, r.remap rw⟩ := by
  refine ⟨r.refusing rw, r.mapped rw hrw, ?_⟩
  obtain ⟨first, pages, hpos, hstart, hend⟩ := r.rangesOf.aligned rw hrw
  have hrequest := r.request rw hrw
  have hpgoff : (r.vma rw).vmPgoff = first := by
    rw [hrequest.pgoff, hstart, Nat.mul_div_cancel _ (by decide)]
  have hpages : (r.vma rw).pages = pages := by
    rw [Vma.pages, hrequest.size, hrequest.start, hstart, hend, Nat.add_sub_cancel_left,
      ← Nat.sub_mul, Nat.add_sub_cancel_left, Nat.mul_div_cancel _ (by decide)]
  -- every page of the range is RAM, so it has a small number and an MTRR
  have hram : ∀ i < pages, RamPage mc.e820 (first + i) := by
    intro i hi
    have hin : (first + i) * pageSize ∈ rw.physical := by
      simp only [RWRange.physical, Span.mem_def, hstart, hend]
      exact ⟨Nat.mul_le_mul_right _ (by omega), Nat.mul_lt_mul_of_pos_right (by omega) (by decide)⟩
    have hselected := (r.rangesOf.selected _).mp ⟨rw, hrw, hin⟩
    rw [Nat.mul_div_cancel _ (by decide)] at hselected
    exact hselected.ram
  constructor
  · have hlast := (mc.mtrrPages _ (hram (pages - 1) (by omega))).1
    rw [hpgoff, hpages]
    omega
  · intro i hi
    rw [hpages] at hi
    rw [hpgoff]
    exact (mc.mtrrPages _ (hram i hi)).2

theorem physAddr_range {offset : Nat} (hoffset : offset < rw.phyEnd - rw.phyStart) :
    physAddr r.pageTable (rw.start + offset) = some (rw.phyStart + offset) := by
  have hrequest := r.request rw hrw
  obtain ⟨first, pages, -, hstart, -⟩ := r.rangesOf.aligned rw hrw
  have hmappings : ∀ mapping ∈ r.ranges.map fun rw => (⟨r.vma rw, r.remap rw⟩ : Mapping),
      mapping.Succeeded mc.varRanges := by
    intro mapping hmapping
    obtain ⟨w, hw, rfl⟩ := List.mem_map.mp hmapping
    exact r.mapping_succeeded hw
  have hapart : (r.ranges.map fun rw => (⟨r.vma rw, r.remap rw⟩ : Mapping)).Pairwise fun a b =>
      a.vma.span.Apart b.vma.span := by
    rw [List.pairwise_map]
    exact r.vmaApart
  have hbyte := physAddr_mapping mc.wellFormed hmappings hapart
    (List.mem_map_of_mem (f := fun rw => (⟨r.vma rw, r.remap rw⟩ : Mapping)) hrw)
    (show offset < (r.vma rw).vmEnd - (r.vma rw).vmStart by rw [hrequest.size, hrequest.start]; omega)
  rw [hrequest.start, hrequest.pgoff, hstart, Nat.mul_div_cancel _ (by decide)] at hbyte
  rw [pageTable, hbyte, hstart]

end Mapped

/-! ## The slices -/

theorem policy_proper : r.rwList.map SlicedRange.range = r.ranges ∧ ∀ q ∈ r.rwList, q.Proper :=
  testPolicy_built r.policy fun _ hrw => (r.range_mapped hrw).2

theorem policy_partitioned : ∀ q ∈ r.rwList, q.Partitioned := by
  obtain ⟨table, -, hbuilt⟩ := testPolicy_eq_built r.cores r.modeGiven r.cpuGiven r.ranges
  have hlist := PolicyResult.built.inj (r.policy.symm.trans hbuilt)
  intro q hq
  rw [hlist] at hq
  obtain ⟨rw, hrw, rfl⟩ := List.mem_map.mp hq
  obtain ⟨hstop, hmapped⟩ := r.range_mapped hrw
  obtain ⟨first, pages, hpos, hstart, hend⟩ := r.rangesOf.aligned rw hrw
  have hblocks : rw.stop - rw.start = minBlockSize * pages := by
    rw [hstop, hstart, hend, Nat.add_sub_cancel_left, ← Nat.sub_mul, Nat.add_sub_cancel_left]
    exact Nat.mul_comm pages pageSize
  apply sliceRange_partitioned hmapped
  rw [hmapped.size, hblocks]
  exact splitRange_even r.cores.1 hpos

section Slice

variable {q : SlicedRange} (hq : q ∈ r.rwList)

include hq

theorem slicedRange_mem : q.range ∈ r.ranges := by
  rw [← r.policy_proper.1]
  exact List.mem_map_of_mem hq

theorem physicalBytes_slice {s : TestSlice} (hs : s ∈ q.slices) (item : Int) :
    (sliceTask item s).physicalBytes r.pageTable =
      List.range' (q.range.phyStart + (s.start - q.range.start)) (s.stop - s.start) := by
  obtain ⟨hlo, hle, hhi⟩ := (r.policy_proper.2 q hq).bounds s hs
  obtain ⟨hstop, -⟩ := r.range_mapped (r.slicedRange_mem hq)
  have hbyte : ∀ i ∈ List.range (s.stop - s.start), physAddr r.pageTable (s.start + i) =
      some (q.range.phyStart + (s.start - q.range.start) + i) := by
    intro i hi
    rw [List.mem_range] at hi
    have haddr := r.physAddr_range (r.slicedRange_mem hq)
      (show s.start - q.range.start + i < q.range.phyEnd - q.range.phyStart by omega)
    rwa [← Nat.add_assoc, Nat.add_sub_cancel' hlo, ← Nat.add_assoc] at haddr
  show (List.range' s.start (s.stop - s.start)).filterMap (physAddr r.pageTable) = _
  rw [List.range'_eq_map_range, List.filterMap_map]
  refine (List.filterMap_congr hbyte).trans ?_
  rw [List.range'_eq_map_range]
  exact congrFun List.filterMap_eq_map _

-- In a slice of the range: the byte is as far into the range as its address is into the mapping.
theorem mem_physicalBytes {s : TestSlice} (hs : s ∈ q.slices) (item : Int) {x : Nat} :
    x ∈ (sliceTask item s).physicalBytes r.pageTable ↔
      q.range.phyStart ≤ x ∧ q.range.start + (x - q.range.phyStart) ∈ s.span := by
  obtain ⟨hlo, hle, -⟩ := (r.policy_proper.2 q hq).bounds s hs
  rw [r.physicalBytes_slice hq hs, List.mem_range'_1]
  simp only [TestSlice.span, Span.mem_def]
  omega

end Slice

/-- The physical bytes of the blocks of all slices. -/
def blockBytes (item : Int) : List Nat :=
  (r.rwList.flatMap fun q => q.slices.map (sliceTask item)).flatMap (Task.physicalBytes r.pageTable)

theorem blockBytes_eq (item : Int) : r.blockBytes item = r.rwList.flatMap fun q =>
    q.slices.flatMap fun s => (sliceTask item s).physicalBytes r.pageTable := by
  rw [blockBytes, List.flatMap_assoc]
  exact List.flatMap_congr fun q _ => List.flatMap_map ..

theorem mem_blockBytes {item : Int} {x : Nat} :
    x ∈ r.blockBytes item ↔ Selected mc r.memLimit r.parm (x / pageSize) := by
  rw [← r.rangesOf.selected, blockBytes_eq, List.mem_flatMap, ← r.policy_proper.1]
  simp only [List.mem_map, exists_exists_and_eq_and, List.mem_flatMap]
  refine exists_congr fun q => and_congr_right fun hq => ?_
  obtain ⟨hstop, -⟩ := r.range_mapped (r.slicedRange_mem hq)
  have hbytes : (∃ s ∈ q.slices, x ∈ (sliceTask item s).physicalBytes r.pageTable) ↔
      q.range.phyStart ≤ x ∧ ∃ s ∈ q.slices, q.range.start + (x - q.range.phyStart) ∈ s.span := by
    rw [← exists_and_left]
    refine exists_congr fun s => ?_
    rw [and_left_comm]
    exact and_congr_right fun hs => r.mem_physicalBytes hq hs item
  rw [hbytes, ← (r.policy_partitioned q hq).union]
  simp only [RWRange.physical, RWRange.span, Span.mem_def]
  omega

theorem nodup_blockBytes (item : Int) : (r.blockBytes item).Nodup := by
  rw [blockBytes_eq, List.nodup_flatMap]
  constructor
  · intro q hq
    rw [List.nodup_flatMap]
    constructor
    · intro s hs
      rw [r.physicalBytes_slice hq hs]
      exact List.nodup_range'
    · apply (r.policy_partitioned q hq).apart.imp_of_mem
      intro s t hs ht hapart x hx hx'
      exact hapart _ ((r.mem_physicalBytes hq hs item).mp hx).2
        ((r.mem_physicalBytes hq ht item).mp hx').2
  · have hapart := r.rangesOf.apart
    rw [← r.policy_proper.1, List.pairwise_map] at hapart
    apply hapart.imp_of_mem
    intro q q' hq hq' hphysical x hx hx'
    have hinside : ∀ q ∈ r.rwList,
        x ∈ (q.slices.flatMap fun s => (sliceTask item s).physicalBytes r.pageTable) →
          x ∈ q.range.physical := by
      intro q hq hx
      obtain ⟨s, hs, hmem⟩ := List.mem_flatMap.mp hx
      obtain ⟨hlo, hspan⟩ := (r.mem_physicalBytes hq hs item).mp hmem
      obtain ⟨hstop, -⟩ := r.range_mapped (r.slicedRange_mem hq)
      have hunion := ((r.policy_partitioned q hq).union _).mpr ⟨s, hs, hspan⟩
      simp only [RWRange.physical, RWRange.span, Span.mem_def] at *
      omega
    exact hphysical x (hinside q hq hx) (hinside q' hq' hx')

/-! ## The threads -/

-- Of the tasks of all items those of one item are left, as often as it is given.
theorem count_itemBytes (items : List Int) (item : Int) (x : Nat) :
    (((items.flatMap fun it => r.rwList.flatMap fun q => q.slices.map (sliceTask it)).filter
      fun t => t.item = item).flatMap (Task.physicalBytes r.pageTable)).count x =
        items.count item * (r.blockBytes item).count x := by
  induction items with
  | nil => simp
  | cons it items ih =>
      have htasks : ∀ t ∈ r.rwList.flatMap fun q => q.slices.map (sliceTask it), t.item = it := by
        intro t ht
        obtain ⟨q, -, hslices⟩ := List.mem_flatMap.mp ht
        obtain ⟨s, -, rfl⟩ := List.mem_map.mp hslices
        rfl
      rw [List.flatMap_cons, List.filter_append, List.flatMap_append, List.count_append, ih,
        List.count_cons]
      by_cases hitem : it = item
      · subst hitem
        rw [List.filter_eq_self.mpr (by simpa using htasks), beq_self_eq_true, if_pos rfl,
          Nat.add_mul, Nat.one_mul, Nat.add_comm]
        rfl
      · rw [List.filter_eq_nil_iff.mpr fun t ht => by simpa [htasks t ht] using hitem]
        simp [hitem]

theorem started_perm :
    ((started r.result.trace).map ThreadInfo.task).Perm
      ((testItems r.testItem).flatMap fun item =>
        r.rwList.flatMap fun q => q.slices.map (sliceTask item)) :=
  (exactSchedule_runEvents r.created (testItems r.testItem) r.policy_proper.2).exactlyOnce

theorem count_testedBytes {item : Int} {x : Nat} : (testedBytes r.pageTable r.result.trace item).count x =
    if Selected mc r.memLimit r.parm (x / pageSize) then (testItems r.testItem).count item else 0 := by
  rw [testedBytes, ((r.started_perm.filter _).flatMap_right _).count_eq, r.count_itemBytes]
  split_ifs with hselected
  · rw [List.count_eq_one_of_mem (r.nodup_blockBytes item) (r.mem_blockBytes.mpr hselected), Nat.mul_one]
  · rw [List.count_eq_zero_of_not_mem (mt r.mem_blockBytes.mp hselected), Nat.mul_zero]

end CleanRun

def smallMap : List E820Entry := [⟨0x100000, 0x4000, e820Ram⟩]

def smallVarRange : MtrrVarRange := ⟨6, 0, 0xf0000800, 0xf⟩

theorem smallMap_nonempty : ∀ ei ∈ smallMap, 0 < ei.size := by decide

theorem smallMap_noWrap : ∀ ei ∈ smallMap, ei.NoWrap := by decide

theorem smallMap_apart : smallMap.Pairwise fun a b => a.bytes.Apart b.bytes := List.pairwise_singleton ..

theorem smallVarRange_wellFormed : ∀ r ∈ [smallVarRange], r.WellFormed := by
  intro r hr
  obtain rfl := List.mem_singleton.mp hr
  exact fun _ => ⟨28, by decide, by decide, by decide⟩

theorem smallMap_mtrrPages (pfn : Nat) (hram : RamPage smallMap pfn) :
    pfn + 1 < 2 ^ 32 ∧ MtrrPage [smallVarRange] pfn := by
  obtain ⟨ei, hei, -, hpage⟩ := hram
  obtain rfl := List.mem_singleton.mp hei
  simp only [E820Entry.HoldsPage, pageSize, pageShift] at hpage
  refine ⟨by omega, smallVarRange, by simp, by decide, ?_, ?_⟩
  · have hstart : smallVarRange.mtrrStart / pageSize = 0 := by decide
    omega
  · have hend : smallVarRange.mtrrEnd / pageSize = 0x10000 := by decide
    omega

/-- Four pages of RAM behind one MTRR. -/
def smallMachine : Machine :=
  ⟨smallMap, [smallVarRange], smallMap_nonempty, smallMap_noWrap, smallMap_apart, smallVarRange_wellFormed,
    smallMap_mtrrPages⟩

theorem smallVma_aligned : pageSize ∣ 0x7000 := by decide

/-- A limit after the first page and a window that cuts two pages of the rest. -/
def smallRun : CleanRun smallMachine where
  sort := insertionKernelSort
  memLimit := 0x101000
  driver := ⟨smallMap, 0x101000, [], [⟨0, 0x100, 0x104⟩],
    ⟨[⟨0x100, 0x101, 0, mmtestRO⟩, ⟨0x101, 0x104, 0, mmtestRW⟩], 2⟩⟩
  set := rfl
  fits := by decide
  roomRegions := by decide
  parm := ⟨0x102800, 0x103800, false⟩
  plain := rfl
  window := by decide
  calls := ⟨none, none, fun _ => none, fun _ => .ok 0x7000, 0⟩
  addr := fun _ => 0x7000
  succeeds := ⟨rfl, rfl, fun _ => rfl, fun _ => rfl⟩
  vma := fun _ => ⟨0x7000, 0x9000, 0x102, smallVma_aligned, by decide, by decide, by decide⟩
  remap := fun _ => remapUnlessMapped
  refusing := fun _ => remapUnlessMapped_refusing
  request := by
    intro rw hrw
    have hlist : rw ∈ [(⟨0x7000, 0x9000, 0x102000, 0x104000⟩ : RWRange)] := hrw
    obtain rfl := List.mem_singleton.mp hlist
    exact ⟨rfl, rfl, rfl⟩
  mapped := fun _ _ => by decide
  vmaApart := List.pairwise_singleton ..
  mode := .locally
  cpu := noSpecifyCpu
  coreNum := 2
  cores := by decide
  modeGiven := by decide
  cpuGiven := Or.inl rfl
  rwList := [⟨⟨0x7000, 0x9000, 0x102000, 0x104000⟩,
    [⟨0x8000, 0x9000, 0x103000, 1⟩, ⟨0x7000, 0x8000, 0x102000, 0⟩]⟩]
  policy := by decide
  roomTables := by decide
  env := quietEnv
  pattern := ⟨none, none⟩
  pattern' := ⟨none, none⟩
  noComp := 0
  testItem := [10, 0, -1]
  loaded := rfl
  created := fun _ _ _ => rfl

end MoBoMemory.App
