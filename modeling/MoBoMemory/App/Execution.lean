import MoBoMemory.App.Interleaving

/-!
# Runs with the threads at work

A clean run and what its threads do in the physical memory, round by round, in any order of their
accesses.  Without faults the program returns 0.  With a bit that is stuck in a selected page it does not,
if an item is given that compares every word with a pattern and with its complement.
-/

namespace MoBoMemory.App

open Base Driver TestLib

-- A slice ends with its range or where another one begins.
theorem SlicedRange.Partitioned.ends {q : SlicedRange} (h : q.Partitioned) (hproper : q.Proper)
    {s : TestSlice} (hs : s ∈ q.slices) :
    s.stop = q.range.stop ∨ ∃ t ∈ q.slices, t.start = s.stop := by
  obtain ⟨hlo, -, hhi⟩ := hproper.bounds s hs
  have hne := h.nonempty s hs
  by_cases hlast : s.stop = q.range.stop
  · exact Or.inl hlast
  · obtain ⟨t, ht, hstart, hstop⟩ := (h.union s.stop).mp (by
      show q.range.start ≤ s.stop ∧ s.stop < q.range.stop
      omega)
    have hst : s ≠ t := by
      rintro rfl
      exact lt_irrefl _ hstop
    have hsymm : Std.Symm fun s t : TestSlice => s.span.Apart t.span := ⟨fun _ _ hst => hst.symm⟩
    have hapart : s.span.Apart t.span := h.apart.forall hs ht hst
    refine Or.inr ⟨t, ht, ?_⟩
    rcases hapart.le_or_le hne (h.nonempty t ht) with hle | hle
    · exact le_antisymm hstart hle
    · exact absurd hstop (not_lt.mpr (le_trans hle hne.le))

namespace CleanRun

variable {mc : Machine} (r : CleanRun mc)

/-- The ranges are mapped into the lower half of the address space, and not at its first page. -/
def InUserSpace : Prop := ∀ rw ∈ r.ranges, 0 < rw.start ∧ rw.stop ≤ 2 ^ 47

section Slices

variable {q : SlicedRange} (hq : q ∈ r.rwList)

include hq

theorem range_pages : pageSize ∣ q.range.start ∧ pageSize ∣ q.range.stop := by
  have hrw := r.slicedRange_mem hq
  have hrequest := r.request _ hrw
  have hstop : q.range.stop = (r.vma q.range).vmEnd := (r.range_mapped hrw).1.trans hrequest.size.symm
  rw [← hrequest.start, hstop]
  exact ⟨(r.vma q.range).aligned, (r.vma q.range).alignedEnd⟩

theorem range_nonempty : q.range.start < q.range.stop := by
  obtain ⟨first, pages, hpos, hstart, hend⟩ := r.rangesOf.aligned _ (r.slicedRange_mem hq)
  have hstop := (r.range_mapped (r.slicedRange_mem hq)).1
  rw [hstart, hend, Nat.add_mul, Nat.add_sub_cancel_left] at hstop
  have hbytes : 0 < pages * pageSize := Nat.mul_pos hpos (by decide)
  omega

theorem slice_pages {s : TestSlice} (hs : s ∈ q.slices) : pageSize ∣ s.start ∧ pageSize ∣ s.stop := by
  have hpart := r.policy_partitioned q hq
  obtain ⟨hstart, hstop⟩ := r.range_pages hq
  have hbegin : ∀ t ∈ q.slices, pageSize ∣ t.start := by
    intro t ht
    obtain ⟨k, hk⟩ := hpart.aligned t ht
    rw [hk]
    exact (Nat.dvd_add_right hstart).mpr (Nat.dvd_mul_left _ _)
  refine ⟨hbegin s hs, ?_⟩
  rcases hpart.ends (r.policy_proper.2 q hq) hs with hlast | ⟨t, ht, hnext⟩
  · exact hlast ▸ hstop
  · exact hnext ▸ hbegin t ht

end Slices

/-- The block of a slice. -/
def sliceBlock (huser : r.InUserSpace) {q : SlicedRange} (hq : q ∈ r.rwList) {s : TestSlice}
    (hs : s ∈ q.slices) : PageBlock :=
  have hne : s.start < s.stop := (r.policy_partitioned q hq).nonempty s hs
  have hbounds := (r.policy_proper.2 q hq).bounds s hs
  have hrange := huser q.range (r.slicedRange_mem hq)
  have hstart : 4096 ∣ s.start := (r.slice_pages hq hs).1
  have hstop : 4096 ∣ s.stop := (r.slice_pages hq hs).2
  { start := s.start
    cnt := (s.stop - s.start) / 8
    cnt_pos := by omega
    start_pos := by omega
    aligned := by omega
    noWrap := by omega
    pages := by omega
    user := by omega }

theorem sliceBlock_bytes (huser : r.InUserSpace) {q : SlicedRange} (hq : q ∈ r.rwList) {s : TestSlice}
    (hs : s ∈ q.slices) : 8 * (r.sliceBlock huser hq hs).cnt = s.stop - s.start := by
  obtain ⟨hstart, hstop⟩ := r.slice_pages hq hs
  refine Nat.mul_div_cancel' ((show 8 ∣ pageSize by decide).trans ?_)
  exact Nat.dvd_sub hstop hstart

theorem mem_sliceBlock (huser : r.InUserSpace) {q : SlicedRange} (hq : q ∈ r.rwList) {s : TestSlice}
    (hs : s ∈ q.slices) {p : Nat} :
    p ∈ (r.sliceBlock huser hq hs).addrs ↔ p ∈ s.span ∧ 8 ∣ p := by
  have hbytes := r.sliceBlock_bytes huser hq hs
  have hne := (r.policy_partitioned q hq).nonempty s hs
  rw [Block.mem_addrs]
  show s.start ≤ p ∧ p < s.start + _ ∧ 8 ∣ p ↔ (s.start ≤ p ∧ p < s.stop) ∧ 8 ∣ p
  rw [hbytes]
  omega

/-- The slices of a range are blocks in one piece of the physical memory. -/
def placed (huser : r.InUserSpace) {q : SlicedRange} (hq : q ∈ r.rwList) :
    Placed r.pageTable (rangeInfo q).sinfo :=
  have hlength : (rangeInfo q).sinfo.length = q.slices.length := List.length_map ..
  have hslice : ∀ i : Fin (rangeInfo q).sinfo.length, q.slices[i] ∈ q.slices := fun i => List.getElem_mem _
  { block i := r.sliceBlock huser hq (hslice i)
    thread := by
      intro i noComp item
      have hbytes := r.sliceBlock_bytes huser hq (hslice i)
      have hbounds := (r.policy_proper.2 q hq).bounds _ (hslice i)
      have hmapped := (r.policy_proper.2 q hq).mapped.2
      have hinfo : (rangeInfo q).sinfo[i] = sliceInfo q.slices[i] := List.getElem_map ..
      rw [hinfo, threadInfo, blockThread, hbytes]
      congr 1
      exact ulSub_of_le hbounds.2.1 (lt_of_le_of_lt hbounds.2.2 hmapped)
    apart := by
      intro i j hij p hp hp'
      have hne : i.1 ≠ j.1 := fun heq => hij (Fin.ext heq)
      have hapart := List.pairwise_iff_getElem.mp (r.policy_partitioned q hq).apart
      obtain ⟨hs, -⟩ := (r.mem_sliceBlock huser hq (hslice i)).mp hp
      obtain ⟨ht, -⟩ := (r.mem_sliceBlock huser hq (hslice j)).mp hp'
      rcases Nat.lt_or_gt_of_ne hne with hlt | hlt
      · exact hapart i j (hlength ▸ i.2) (hlength ▸ j.2) hlt p hs ht
      · exact hapart j i (hlength ▸ j.2) (hlength ▸ i.2) hlt p ht hs
    start := q.range.start
    phyStart := q.range.phyStart
    aligned := by
      obtain ⟨first, -, -, hphys, -⟩ := r.rangesOf.aligned _ (r.slicedRange_mem hq)
      have hpages : 8 ∣ pageSize := by decide
      exact ⟨hpages.trans (r.range_pages hq).1, hphys ▸ hpages.trans (Nat.dvd_mul_left _ _)⟩
    mapped := by
      intro i a hlow hhigh
      have hbounds := (r.policy_proper.2 q hq).bounds _ (hslice i)
      rw [r.sliceBlock_bytes huser hq (hslice i)] at hhigh
      change q.slices[i].start ≤ a at hlow
      change a < q.slices[i].start + _ at hhigh
      have hrange := (r.range_mapped (r.slicedRange_mem hq)).1
      have haddr := r.physAddr_range (r.slicedRange_mem hq)
        (show a - q.range.start < q.range.phyEnd - q.range.phyStart by omega)
      rw [Nat.add_sub_cancel' (by omega)] at haddr
      exact ⟨by omega, haddr⟩ }

end CleanRun

/-- A run without failing system calls, and all the accesses of its threads to the physical memory. -/
structure Execution (mc : Machine) (σ : Type) where
  run : CleanRun mc
  user : run.InUserSpace
  bound : ∀ n j k, (run.env.round n j).bind k = true
  env : ItemEnv
  bus : LongBus σ
  rounds : ∀ entry ∈ (testItems run.testItem).zipIdx, ∀ range ∈ (sortedTable run.rwList).zipIdx,
    RoundRun env (throughTable run.pageTable bus) run.noComp entry.1 range.1.sinfo
  returns : ∀ entry hentry range hrange (i : Fin range.1.sinfo.length) f,
    testFunction entry.1 = some f → (run.env.round entry.2 range.2).testRet i f =
      UInt32.ofNat ((rounds entry hentry range hrange).code i)

section Executions

variable {mc : Machine} {σ : Type} (ex : Execution mc σ)

namespace Execution

-- A slot of a round has the code that its thread ends with.
theorem slot_code {entry : ItemEntry} (hentry : entry ∈ (testItems ex.run.testItem).zipIdx)
    {range : RangeInfo × Nat} (hrange : range ∈ (sortedTable ex.run.rwList).zipIdx) {f : TestFunction}
    (hf : testFunction entry.1 = some f) {slot : SliceInfo × Nat} (hslot : slot ∈ range.1.sinfo.zipIdx) :
    ∃ i : Fin range.1.sinfo.length, slot.2 = i ∧
      (sliceOutcome (ex.run.env.round entry.2 range.2) ex.run.noComp entry.1 slot).code =
        UInt32.ofNat ((ex.rounds entry hentry range hrange).code i) := by
  have hlt : slot.2 < range.1.sinfo.length := by
    simpa using List.snd_lt_of_mem_zipIdx hslot
  refine ⟨⟨slot.2, hlt⟩, rfl, ?_⟩
  rw [sliceOutcome, ex.bound]
  simp only [runTestSlice, threadInfo, if_true, hf, SliceOutcome.code]
  exact ex.returns entry hentry range hrange ⟨slot.2, hlt⟩ f hf

-- A range of the table is one of the list.
theorem range_listed {range : RangeInfo × Nat} (hrange : range ∈ (sortedTable ex.run.rwList).zipIdx) :
    ∃ q ∈ ex.run.rwList, rangeInfo q = range.1 := by
  have hmem := List.fst_mem_of_mem_zipIdx hrange
  rw [sortedTable, (exchangeSort_perm _ _).mem_iff] at hmem
  exact List.mem_map.mp hmem

/-- On memory without faults the run returns 0, in whatever order the threads use the memory. -/
theorem ret_eq_zero (ex : Execution mc (Nat → UL)) (hbus : ex.bus = faithfulLongBus)
    (hitems : ∀ item ∈ testItems ex.run.testItem, (0 ≤ item ∧ item ≤ 10) ∧ item ≠ 2) :
    ex.run.result.ret = 0 := by
  by_contra hret
  obtain ⟨entry, hentry, code, hcode, hne⟩ :=
    (ret_ne_zero_iff ex.run.created (testItems ex.run.testItem) (sortedTable ex.run.rwList)).mp hret
  obtain ⟨range, hrange, hslots⟩ := List.mem_flatMap.mp hcode
  obtain ⟨slot, hslot, rfl⟩ := List.mem_map.mp hslots
  obtain ⟨hitem, hne2⟩ := hitems entry.1 (List.fst_mem_of_mem_zipIdx hentry)
  obtain ⟨q, hq, hinfo⟩ := ex.range_listed hrange
  have hplaced := ex.run.placed ex.user hq
  rw [hinfo] at hplaced
  obtain ⟨f, hf⟩ := exists_testFunction hitem
  obtain ⟨i, -, hthread⟩ := ex.slot_code hentry hrange hf hslot
  rw [hthread, hplaced.code_eq_success hitem hne2 hbus] at hne
  exact hne rfl

/-- A bit that is stuck in a selected page makes the run return a failure, in whatever order the
threads use the memory. -/
theorem ret_ne_zero (hcomp : ex.run.noComp = hasComparision) {item : Int}
    (hitem : item ∈ testItems ex.run.testItem) (hfinder : item ∈ finders) {cell : Cell} {value : Bool}
    (hstuck : Stuck ex.bus.toBus cell value) (hcell : 8 ∣ cell.addr)
    (hselected : Selected mc ex.run.memLimit ex.run.parm (cell.addr / pageSize)) :
    ex.run.result.ret ≠ 0 := by
  obtain ⟨index, hlt, hget⟩ := List.mem_iff_getElem.mp hitem
  have hentry : (item, index) ∈ (testItems ex.run.testItem).zipIdx := by
    rw [List.mem_zipIdx_iff_getElem?, List.getElem?_eq_getElem hlt, hget]
  -- the slice that has the word
  have hmem : cell.addr ∈ ex.run.blockBytes item := ex.run.mem_blockBytes.mpr hselected
  rw [CleanRun.blockBytes_eq] at hmem
  obtain ⟨q, hq, hmem⟩ := List.mem_flatMap.mp hmem
  obtain ⟨s, hs, hmem⟩ := List.mem_flatMap.mp hmem
  obtain ⟨hphys, hspan⟩ := (ex.run.mem_physicalBytes hq hs item).mp hmem
  obtain ⟨k, hk, rfl⟩ := List.mem_iff_getElem.mp hs
  obtain ⟨i, rfl⟩ : ∃ i : Fin (rangeInfo q).sinfo.length, i.1 = k :=
    ⟨⟨k, by simpa [rangeInfo] using hk⟩, rfl⟩
  obtain ⟨hstart, hphyStart⟩ := (ex.run.placed ex.user hq).aligned
  have hword : q.range.start + (cell.addr - q.range.phyStart) ∈
      ((ex.run.placed ex.user hq).block i).addrs := by
    refine (ex.run.mem_sliceBlock ex.user hq hs).mpr ⟨hspan, ?_⟩
    exact (Nat.dvd_add_right hstart).mpr (Nat.dvd_sub hcell hphyStart)
  have haddr : (physAddr ex.run.pageTable (q.range.start + (cell.addr - q.range.phyStart))).getD 0 =
      cell.addr := by
    rw [(ex.run.placed ex.user hq).physAddr_word hword]
    show q.range.phyStart + (q.range.start + (cell.addr - q.range.phyStart) - q.range.start) = cell.addr
    omega
  -- its round
  obtain ⟨j, hj, hround⟩ := List.mem_iff_getElem.mp
    ((exchangeSort_perm RangeInfo.size _).mem_iff.mpr (List.mem_map_of_mem hq (f := rangeInfo)))
  have hrange : (rangeInfo q, j) ∈ (sortedTable ex.run.rwList).zipIdx := by
    rw [List.mem_zipIdx_iff_getElem?, sortedTable, List.getElem?_eq_getElem hj, hround]
  obtain ⟨f, hf, hcode⟩ := (ex.run.placed ex.user hq).code_ne_success hcomp hfinder hstuck
    (ex.rounds _ hentry _ hrange) hword haddr
  have hslot : ((rangeInfo q).sinfo[i], i.1) ∈ (rangeInfo q).sinfo.zipIdx := by
    rw [List.mem_zipIdx_iff_getElem?]
    exact List.getElem?_eq_getElem i.2
  obtain ⟨i', hi, hthread⟩ := ex.slot_code hentry hrange hf hslot
  obtain rfl : i = i' := Fin.ext hi
  rw [CleanRun.result, ret_ne_zero_iff ex.run.created]
  refine ⟨(item, index), hentry, _, List.mem_flatMap.mpr ⟨_, hrange, List.mem_map_of_mem hslot⟩, ?_⟩
  rw [hthread]
  exact hcode

end Execution

/-! ## The rounds of a clean run come to an end -/

namespace CleanRun

variable (r : CleanRun mc)

section Rounds

variable (huser : r.InUserSpace) (env : ItemEnv) (bus : LongBus σ) (mem : σ)

include huser

-- The threads may simply go round.
theorem exists_round {q : SlicedRange} (hq : q ∈ r.rwList) {item : Int} (hitem : 0 ≤ item ∧ item ≤ 10)
    (hne : item ≠ 2) :
    ∃ run : RoundRun env (throughTable r.pageTable bus) r.noComp item (rangeInfo q).sinfo,
      run.before = mem := by
  have hsome : 0 < (rangeInfo q).sinfo.length := by
    obtain ⟨s, hs, -⟩ := ((r.policy_partitioned q hq).union q.range.start).mp
      ⟨le_rfl, r.range_nonempty hq⟩
    rw [rangeInfo, List.length_map]
    exact List.length_pos_of_mem hs
  obtain ⟨run, hbefore, -⟩ := (r.placed huser hq).exists_run hitem hne env r.noComp
    (throughTable r.pageTable bus) mem (Pool.roundRobin_fair hsome)
  exact ⟨run, hbefore⟩

end Rounds

/-- The same run, with threads that fare like this. -/
def withRounds (rounds : Nat → Nat → RoundEnv) (hcreated : ∀ n j k, (rounds n j).create k = true) :
    CleanRun mc :=
  { r with env := ⟨r.env.pattern, rounds⟩, loaded := r.loaded, created := hcreated }

/-- Every clean run has an execution on every memory. -/
theorem exists_execution (huser : r.InUserSpace) (env : ItemEnv) (bus : LongBus σ) (mem : σ)
    (hitems : ∀ item ∈ testItems r.testItem, (0 ≤ item ∧ item ≤ 10) ∧ item ≠ 2) :
    ∃ ex : Execution mc σ, ex.bus = bus ∧ ∃ rounds hcreated, ex.run = r.withRounds rounds hcreated := by
  have hround : ∀ item ∈ testItems r.testItem, ∀ info ∈ sortedTable r.rwList,
      ∃ run : RoundRun env (throughTable r.pageTable bus) r.noComp item info.sinfo,
        run.before = mem := by
    intro item hitem info hinfo
    rw [sortedTable, (exchangeSort_perm _ _).mem_iff] at hinfo
    obtain ⟨q, hq, rfl⟩ := List.mem_map.mp hinfo
    exact r.exists_round huser env bus mem hq (hitems item hitem).1 (hitems item hitem).2
  choose round hbefore using hround
  classical
  -- the environment in which the threads return the codes of these rounds
  let testRet (item : Int) (info : RangeInfo) (i : Nat) : UInt32 :=
    if h : (item ∈ testItems r.testItem ∧ info ∈ sortedTable r.rwList) ∧ i < info.sinfo.length then
      UInt32.ofNat ((round item h.1.1 info h.1.2).code ⟨i, h.2⟩)
    else 0
  let rounds (n j : Nat) : RoundEnv :=
    ⟨fun _ => true, fun _ => true, fun i _ => testRet ((testItems r.testItem).getD n 0)
      ((sortedTable r.rwList).getD j ⟨[], 0, 0⟩) i, fun _ => none⟩
  refine ⟨{
    run := r.withRounds rounds fun _ _ _ => rfl
    user := huser
    bound := fun _ _ _ => rfl
    env := env
    bus := bus
    rounds := fun entry hentry range hrange => round entry.1 (List.fst_mem_of_mem_zipIdx hentry) range.1
      (List.fst_mem_of_mem_zipIdx hrange)
    returns := ?_ }, rfl, rounds, _, rfl⟩
  intro entry hentry range hrange i f hf
  change entry ∈ (testItems r.testItem).zipIdx at hentry
  change range ∈ (sortedTable r.rwList).zipIdx at hrange
  have hitem : (testItems r.testItem).getD entry.2 0 = entry.1 := by
    rw [List.getD_eq_getElem?_getD, List.mem_zipIdx_iff_getElem?.mp hentry]
    rfl
  have hinfo : (sortedTable r.rwList).getD range.2 ⟨[], 0, 0⟩ = range.1 := by
    rw [List.getD_eq_getElem?_getD, List.mem_zipIdx_iff_getElem?.mp hrange]
    rfl
  show testRet _ _ i = _
  rw [hitem, hinfo]
  exact dif_pos ⟨⟨List.fst_mem_of_mem_zipIdx hentry, List.fst_mem_of_mem_zipIdx hrange⟩, i.2⟩

end CleanRun

end Executions

theorem smallRun_inUserSpace : smallRun.InUserSpace := by
  intro rw hrw
  have hlist : rw ∈ [(⟨0x7000, 0x9000, 0x102000, 0x104000⟩ : RWRange)] := hrw
  obtain rfl := List.mem_singleton.mp hlist
  decide

/-- The small run with `-s`. -/
def comparingRun : CleanRun smallMachine := { smallRun with noComp := hasComparision }

end MoBoMemory.App
