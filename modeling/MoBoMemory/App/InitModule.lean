import MoBoMemory.Driver.Ioctl

/-!
# Choosing the ranges to test

The part of `init_module` that reads the regions back from the driver, clips them to the user's
window, aligns the read-write ones to pages and puts them on `RW_list`.  Safety of the destructive
tests: no page of a range on that list is below the kernel's memory limit or outside RAM, through
all the steps from the e820 map to the list.
-/

namespace MoBoMemory.App

open Base Driver

def errInputAddress : Nat := 0xA0000006
def ebadf : Nat := 9
def maxRegion : Nat := 20
def nodeCount : Nat := 1
def minBlockSize : Nat := 4096

/-- The fields of `test_parm` that are read here; `end` is called `stop`. -/
structure TestParm where
  start : Nat
  stop : Nat
  listInfo : Bool

/-- `RW_range`: where the range is mapped, and its physical addresses. -/
structure RWRange where
  start : Nat
  stop : Nat
  phyStart : Nat
  phyEnd : Nat
deriving DecidableEq

structure RDRange where
  start : Nat
  stop : Nat
deriving DecidableEq

/-- What the system calls answer: an errno, or success. -/
structure InitEnv where
  openDevice : Option Nat
  getBregionNum : Option Nat
  getBregion : Nat → Option Nat
  /-- The address of the mapping for region `i`, or the errno. -/
  mmap : Nat → Except Nat Nat
  /-- The errno left over from earlier calls. -/
  errno : Nat

/-- The variables that live through the region loop; the newest entries of the lists come first, as
`list_add` leaves them, and `rawReg` is in the order of the array. -/
structure InitState where
  fdOpen : Bool
  ret : Nat
  maxPhyAddr : Nat
  rawReg : List (Nat × Nat)
  rwList : List RWRange
  rdList : List RDRange

/-- How `init_module` goes on after the loop; `outOfTable` is an index past `raw_reg` or `node`. -/
inductive InitExit where
  | finished
  | returned (code : Nat)
  | outOfTable
deriving DecidableEq

/-- `a - b` on an `unsigned long`. -/
def ulSub (a b : Nat) : Nat := (a + 2 ^ 64 - b) % 2 ^ 64

/-- `a & ~0xfff`. -/
def pfnStartRoundup (a : Nat) : Nat := a / pageSize * pageSize

/-- `(a + 0xfff) & ~0xfff`. -/
def pfnEndRoundup (a : Nat) : Nat := (a + (pageSize - 1)) % 2 ^ 64 / pageSize * pageSize

/-- The intersection of the region `[offset, last)` with the window, branch by branch; `none` is a
`continue`. -/
def clipToWindow (p : TestParm) (offset last : Nat) : Option (Nat × Nat) :=
  if last < p.start then none
  else if offset ≤ p.start ∧ p.start ≤ last ∧ last ≤ p.stop then some (p.start, last)
  else if p.start < offset ∧ last < p.stop then some (offset, last)
  else if offset ≤ p.start ∧ p.stop ≤ last then some (p.start, p.stop)
  else if p.start ≤ offset ∧ offset ≤ p.stop ∧ p.stop ≤ last then some (offset, p.stop)
  else if p.stop < offset then none
  else some (0, 0)

/-- The read-write branch of the loop, for the clipped range `[a, b)` of region `i`. -/
def addRWRange (env : InitEnv) (p : TestParm) (i a b : Nat) (s : InitState) :
    InitExit × InitState :=
  let first := pfnStartRoundup a
  let last := pfnEndRoundup b
  -- raw_reg[raw_num-1] is overwritten with the aligned bounds
  let s := { s with rawReg := s.rawReg.dropLast ++ [(first, last)] }
  if p.listInfo then
    (.finished, { s with rwList := ⟨0, last - first, first, last⟩ :: s.rwList })
  else if last < (first + minBlockSize) % 2 ^ 64 then (.finished, s)
  else
    match (if s.fdOpen then env.mmap i else .error ebadf) with
    | .error errno => (.returned errno, { s with fdOpen := false })
    | .ok addr =>
        (.finished, { s with
          rwList := ⟨addr, (addr + (last - first)) % 2 ^ 64, first, last⟩ :: s.rwList })

/-- The loop body once the region is known to be `[offset, last)` with length `len`. -/
def recordRegion (env : InitEnv) (p : TestParm) (i : Nat) (region : BootmemRegion)
    (offset len last : Nat) (s : InitState) : InitExit × InitState :=
  -- an empty region closes the device but the loop goes on
  let s := if len = 0 then { s with fdOpen := false, ret := errInputAddress } else s
  let s := { s with maxPhyAddr := max s.maxPhyAddr last }
  match (if p.listInfo then some (offset, last) else clipToWindow p offset last) with
  | none => (.finished, s)
  | some (a, b) =>
      if maxRegion ≤ s.rawReg.length then (.outOfTable, s)
      else
        let s := { s with rawReg := s.rawReg ++ [(a, b)] }
        if a = b then (.finished, s)
        else if nodeCount ≤ region.nid then (.outOfTable, s)
        else if region.type = mmtestRW then addRWRange env p i a b s
        else if region.type = mmtestRO then
          (.finished, { s with rdList := ⟨a, b⟩ :: s.rdList })
        else (.returned env.errno, { s with fdOpen := false })

/-- One turn of the loop, with the region that GET_BREGION has filled in. -/
def initRegion (env : InitEnv) (p : TestParm) (i : Nat) (region : BootmemRegion) (s : InitState) :
    InitExit × InitState :=
  let offset := region.startPfn * pageSize % 2 ^ 64
  let len := ulSub region.endPfn region.startPfn * pageSize % 2 ^ 64
  recordRegion env p i region offset len ((offset + len) % 2 ^ 64) s

/-- The region as it comes back from the driver into a zeroed `region_t`. -/
def readRegion (ks : KernelSort) (d : Globals) (i : Nat) : BootmemRegion :=
  match (mmtestIoctl ks d (.getBregion i true)).reply with
  | .region (some region) => region
  | _ => ⟨0, 0, 0, 0⟩

/-- `for (i=region_num-1; i>=0 ; i--)`; the argument is `i + 1`. -/
def initLoop (ks : KernelSort) (d : Globals) (env : InitEnv) (p : TestParm) :
    Nat → InitState → InitExit × InitState
  | 0, s => (.finished, s)
  | i + 1, s =>
      match (if s.fdOpen then env.getBregion i else some ebadf) with
      | some errno => (.returned errno, { s with fdOpen := false })
      | none =>
          match initRegion env p i (readRegion ks d i) s with
          | (.finished, s) => initLoop ks d env p i s
          | stopped => stopped

/-- `init_module` from the check of the window to the end of the region loop. -/
def initModule (ks : KernelSort) (d : Globals) (env : InitEnv) (p : TestParm) :
    InitExit × InitState :=
  let s : InitState := ⟨false, 0, 0, [], [], []⟩
  if p.stop < p.start then (.returned errInputAddress, s)
  else
    let p := if p.listInfo then { p with start := 0, stop := 0x1ffffffffff } else p
    match env.openDevice with
    | some errno => (.returned errno, s)
    | none =>
        match env.getBregionNum with
        | some errno => (.returned errno, s)
        | none =>
            match (mmtestIoctl ks d (.getBregionNum true)).reply with
            | .num regionNum => initLoop ks d env p regionNum { s with fdOpen := true }
            | _ => (.finished, s)

/-! ## Each range stays inside its region -/

/-- Page `pfn` contains a byte of the physical range. -/
def RWRange.MeetsPage (rw : RWRange) (pfn : Nat) : Prop :=
  rw.phyStart < (pfn + 1) * pageSize ∧ pfn * pageSize < rw.phyEnd

/-- The pages of the range are pages of a read-write region of the table. -/
def RWRange.Inside (regions : List BootmemRegion) (rw : RWRange) : Prop :=
  ∃ region ∈ regions, region.type = mmtestRW ∧ ∀ pfn, rw.MeetsPage pfn → pfn ∈ region.span

theorem ulSub_of_le {a b : Nat} (hle : b ≤ a) (ha : a < 2 ^ 64) : ulSub a b = a - b := by
  unfold ulSub
  omega

-- A clipped range that is not empty lies in the region.
theorem clipToWindow_inside {p : TestParm} {offset last a b : Nat}
    (hclip : clipToWindow p offset last = some (a, b)) (hne : a ≠ b) : offset ≤ a ∧ b ≤ last := by
  unfold clipToWindow at hclip
  split_ifs at hclip
  all_goals
    obtain ⟨rfl, rfl⟩ := Prod.mk.inj (Option.some.inj hclip)
    omega

-- Aligning outwards does not leave a page-aligned region.
theorem aligned_inside {s e a b pfn : Nat} (he : e < 2 ^ 52) (hlo : s * pageSize ≤ a)
    (hhi : b ≤ e * pageSize) (hstart : pfnStartRoundup a < (pfn + 1) * pageSize)
    (hend : pfn * pageSize < pfnEndRoundup b) : s ≤ pfn ∧ pfn < e := by
  simp only [pfnStartRoundup, pfnEndRoundup, pageSize, pageShift] at *
  omega

-- The list grows by the aligned range or not at all.
theorem addRWRange_rwList (env : InitEnv) (p : TestParm) (i a b : Nat) (s : InitState) :
    (addRWRange env p i a b s).2.rwList = s.rwList ∨
      ∃ rw : RWRange, rw.phyStart = pfnStartRoundup a ∧ rw.phyEnd = pfnEndRoundup b ∧
        (addRWRange env p i a b s).2.rwList = rw :: s.rwList := by
  unfold addRWRange
  simp only
  split_ifs
  · exact Or.inr ⟨_, rfl, rfl, rfl⟩
  · exact Or.inl rfl
  · cases env.mmap i with
    | error errno => exact Or.inl rfl
    | ok addr => exact Or.inr ⟨_, rfl, rfl, rfl⟩
  · exact Or.inl rfl

section Step

variable {env : InitEnv} {p : TestParm} {i : Nat} {region : BootmemRegion} {s : InitState}

-- Region bounds in pages, and what the loop body makes of them in bytes.
theorem initRegion_eq (horder : region.startPfn ≤ region.endPfn) (hbound : region.endPfn < 2 ^ 52) :
    initRegion env p i region s =
      recordRegion env p i region (region.startPfn * pageSize)
        ((region.endPfn - region.startPfn) * pageSize) (region.endPfn * pageSize) s := by
  have hbytes : ∀ n, n ≤ region.endPfn → n * pageSize % 2 ^ 64 = n * pageSize := by
    intro n hn
    exact Nat.mod_eq_of_lt (by simp only [pageSize, pageShift]; omega)
  have hlen : ulSub region.endPfn region.startPfn * pageSize % 2 ^ 64 =
      (region.endPfn - region.startPfn) * pageSize := by
    rw [ulSub_of_le horder (by omega), hbytes _ (Nat.sub_le ..)]
  have hlast : (region.startPfn * pageSize + (region.endPfn - region.startPfn) * pageSize) % 2 ^ 64 =
      region.endPfn * pageSize := by
    rw [← Nat.add_mul, Nat.add_sub_cancel' horder, hbytes _ (Nat.le_refl _)]
  change recordRegion env p i region (region.startPfn * pageSize % 2 ^ 64)
    (ulSub region.endPfn region.startPfn * pageSize % 2 ^ 64)
    ((region.startPfn * pageSize % 2 ^ 64 +
      ulSub region.endPfn region.startPfn * pageSize % 2 ^ 64) % 2 ^ 64) s = _
  rw [hbytes _ horder, hlen, hlast]

theorem bytes_ne_zero (hne : region.startPfn < region.endPfn) :
    (region.endPfn - region.startPfn) * pageSize ≠ 0 :=
  Nat.mul_ne_zero (Nat.sub_ne_zero_of_lt hne) (by decide)

/-- The state when the turn comes to the clipping: an empty region has closed the device. -/
def enterRegion (len last : Nat) (s : InitState) : InitState :=
  let s := if len = 0 then { s with fdOpen := false, ret := errInputAddress } else s
  { s with maxPhyAddr := max s.maxPhyAddr last }

/-- The clipped range as the last entry of `raw_reg`. -/
def noteRange (a b : Nat) (s : InitState) : InitState := { s with rawReg := s.rawReg ++ [(a, b)] }

/-- What a turn does with a range that is not empty, on a node that exists. -/
def storeRange (env : InitEnv) (p : TestParm) (i : Nat) (region : BootmemRegion) (a b : Nat)
    (s : InitState) : InitExit × InitState :=
  if region.type = mmtestRW then addRWRange env p i a b s
  else if region.type = mmtestRO then (.finished, { s with rdList := ⟨a, b⟩ :: s.rdList })
  else (.returned env.errno, { s with fdOpen := false })

section Enter

variable {len last offset a b : Nat}

@[simp] theorem enterRegion_fdOpen :
    (enterRegion len last s).fdOpen = (if len = 0 then false else s.fdOpen) := by
  rw [enterRegion]
  split <;> rfl

@[simp] theorem enterRegion_maxPhyAddr :
    (enterRegion len last s).maxPhyAddr = max s.maxPhyAddr last := by
  rw [enterRegion]
  split <;> rfl

@[simp] theorem enterRegion_rawReg : (enterRegion len last s).rawReg = s.rawReg := by
  rw [enterRegion]
  split <;> rfl

@[simp] theorem enterRegion_rwList : (enterRegion len last s).rwList = s.rwList := by
  rw [enterRegion]
  split <;> rfl

@[simp] theorem enterRegion_rdList : (enterRegion len last s).rdList = s.rdList := by
  rw [enterRegion]
  split <;> rfl

@[simp] theorem noteRange_fdOpen : (noteRange a b s).fdOpen = s.fdOpen := rfl

@[simp] theorem noteRange_maxPhyAddr : (noteRange a b s).maxPhyAddr = s.maxPhyAddr := rfl

@[simp] theorem noteRange_rawReg : (noteRange a b s).rawReg = s.rawReg ++ [(a, b)] := rfl

@[simp] theorem noteRange_rwList : (noteRange a b s).rwList = s.rwList := rfl

@[simp] theorem noteRange_rdList : (noteRange a b s).rdList = s.rdList := rfl

-- What a turn does, by what is left of its region in the window.
theorem recordRegion_of_none
    (hcut : (if p.listInfo then some (offset, last) else clipToWindow p offset last) = none) :
    recordRegion env p i region offset len last s = (.finished, enterRegion len last s) := by
  rw [recordRegion, hcut]
  rfl

theorem recordRegion_of_full
    (hcut : (if p.listInfo then some (offset, last) else clipToWindow p offset last) = some (a, b))
    (hfull : maxRegion ≤ s.rawReg.length) :
    recordRegion env p i region offset len last s = (.outOfTable, enterRegion len last s) := by
  have hfull' : maxRegion ≤ (enterRegion len last s).rawReg.length := by rwa [enterRegion_rawReg]
  rw [recordRegion, hcut]
  exact if_pos hfull'

theorem recordRegion_of_room
    (hcut : (if p.listInfo then some (offset, last) else clipToWindow p offset last) = some (a, b))
    (hroom : s.rawReg.length < maxRegion) :
    recordRegion env p i region offset len last s =
      if a = b then (.finished, noteRange a b (enterRegion len last s))
      else if nodeCount ≤ region.nid then (.outOfTable, noteRange a b (enterRegion len last s))
      else storeRange env p i region a b (noteRange a b (enterRegion len last s)) := by
  have hroom' : (enterRegion len last s).rawReg.length < maxRegion := by rwa [enterRegion_rawReg]
  rw [recordRegion, hcut]
  exact if_neg (not_le.mpr hroom')

end Enter

variable (env p i region s) in
-- What one region can add to the list: a range clipped out of it, if it is read-write.
theorem recordRegion_rwList (offset len last : Nat) :
    (recordRegion env p i region offset len last s).2.rwList = s.rwList ∨
      ∃ a b, offset ≤ a ∧ b ≤ last ∧ region.type = mmtestRW ∧
        ∃ rw : RWRange, rw.phyStart = pfnStartRoundup a ∧ rw.phyEnd = pfnEndRoundup b ∧
          (recordRegion env p i region offset len last s).2.rwList = rw :: s.rwList := by
  cases hcut : (if p.listInfo then some (offset, last) else clipToWindow p offset last) with
  | none =>
      left
      rw [recordRegion_of_none hcut, enterRegion_rwList]
  | some cut =>
      obtain ⟨a, b⟩ := cut
      by_cases hroom : s.rawReg.length < maxRegion
      swap
      · left
        rw [recordRegion_of_full hcut (not_lt.mp hroom), enterRegion_rwList]
      rw [recordRegion_of_room hcut hroom]
      have hinside : a ≠ b → offset ≤ a ∧ b ≤ last := by
        intro hne
        split at hcut
        · obtain ⟨rfl, rfl⟩ := Prod.mk.inj (Option.some.inj hcut)
          exact ⟨Nat.le_refl _, Nat.le_refl _⟩
        · exact clipToWindow_inside hcut hne
      have hnoted : (noteRange a b (enterRegion len last s)).rwList = s.rwList := by
        rw [noteRange_rwList, enterRegion_rwList]
      unfold storeRange
      split_ifs with heq hnode hrw hro
      · exact Or.inl hnoted
      · exact Or.inl hnoted
      · obtain ⟨hlo, hhi⟩ := hinside heq
        rw [← hnoted]
        refine (addRWRange_rwList env p i a b _).imp_right ?_
        rintro ⟨rw, hstart, hend, hlist⟩
        exact ⟨a, b, hlo, hhi, hrw, rw, hstart, hend, hlist⟩
      · exact Or.inl hnoted
      · exact Or.inl hnoted

variable (env p i) in
-- One region keeps the list inside the table.
theorem initRegion_inside {regions : List BootmemRegion} (hregion : region ∈ regions)
    (horder : region.startPfn ≤ region.endPfn) (hbound : region.endPfn < 2 ^ 52)
    (hs : ∀ rw ∈ s.rwList, rw.Inside regions) :
    ∀ rw ∈ (initRegion env p i region s).2.rwList, rw.Inside regions := by
  rw [initRegion_eq horder hbound]
  rcases recordRegion_rwList env p i region s _ _ _ with
    hsame | ⟨a, b, hlo, hhi, htype, rw, hstart, hend, hlist⟩
  · rwa [hsame]
  · rw [hlist, List.forall_mem_cons]
    refine ⟨⟨region, hregion, htype, fun pfn hpage => ?_⟩, hs⟩
    rw [RWRange.MeetsPage, hstart, hend] at hpage
    exact aligned_inside hbound hlo hhi hpage.1 hpage.2

end Step

/-! ## The loop, and what the driver hands out -/

section Loop

variable {ks : KernelSort} {d : Globals} {env : InitEnv} {p : TestParm}
  {regions : List BootmemRegion}
  (hregions : ∀ region ∈ regions, region.startPfn ≤ region.endPfn ∧ region.endPfn < 2 ^ 52)

include hregions

theorem initLoop_inside (n : Nat) (hread : ∀ i < n, readRegion ks d i ∈ regions) (s : InitState)
    (hs : ∀ rw ∈ s.rwList, rw.Inside regions) :
    ∀ rw ∈ (initLoop ks d env p n s).2.rwList, rw.Inside regions := by
  induction n generalizing s with
  | zero => exact hs
  | succ i ih =>
      rw [initLoop]
      split
      · exact hs
      · have hregion := hread i (Nat.lt_succ_self i)
        obtain ⟨horder, hbound⟩ := hregions _ hregion
        have hstep := initRegion_inside env p i hregion horder hbound hs
        split
        · rename_i t hnext
          rw [hnext] at hstep
          exact ih (fun j hj => hread j (Nat.lt_succ_of_lt hj)) t hstep
        · exact hstep

end Loop

-- The regions that the loop reads are those of the table.
theorem readRegion_mem {ks : KernelSort} {d : Globals}
    (htable : d.table = ⟨d.table.regions, d.table.regions.length⟩) {i : Nat}
    (hi : i < d.table.bregionNum) : readRegion ks d i ∈ d.table.regions := by
  have hlen : i < d.table.regions.length := by rwa [htable] at hi
  have hget : getBregion d.table i = some d.table.regions[i] :=
    (congrArg (getBregion · i) htable).trans (getBregion_of_lt _ hlen)
  have hreply : (mmtestIoctl ks d (.getBregion i true)).reply =
      .region (some d.table.regions[i]) := congrArg Reply.region hget
  rw [readRegion, hreply]
  exact List.getElem_mem hlen

-- Every exit of `init_module` leaves a list inside the table.
theorem initModule_inside {ks : KernelSort} {d : Globals} (env : InitEnv) (p : TestParm)
    (htable : d.table = ⟨d.table.regions, d.table.regions.length⟩)
    (hregions : ∀ region ∈ d.table.regions,
      region.startPfn ≤ region.endPfn ∧ region.endPfn < 2 ^ 52) :
    ∀ rw ∈ (initModule ks d env p).2.rwList, rw.Inside d.table.regions := by
  unfold initModule
  simp only
  split
  · simp
  · split
    · simp
    · split
      · simp
      · split
        · rename_i regionNum hnum
          obtain rfl : d.table.bregionNum = regionNum := Reply.num.inj hnum
          exact initLoop_inside hregions _ (fun i hi => readRegion_mem htable hi) _ (by simp)
        · simp

/-- The destructive tests stay in RAM above the memory limit: whatever the e820 map, the recorded
blocks, the limit and the window are, and whatever the system calls answer. -/
theorem rwList_in_ram_above_limit (ks : KernelSort) (mye820 : List E820Entry)
    (hwrap : ∀ ei ∈ mye820, ei.NoWrap) (memblks : List MemBlk)
    (hblks : ∀ blk ∈ memblks, blk.start ≤ blk.stop) (memLimit : Nat) (env : InitEnv)
    (p : TestParm) :
    ∃ d, run ks (.fresh memblks) (settings mye820 memLimit) = some d ∧
      ∀ rw ∈ (initModule ks d env p).2.rwList, ∀ pfn, rw.MeetsPage pfn →
        memLimit / pageSize ≤ pfn ∧ RamPage mye820 pfn := by
  refine ⟨_, run_settings ks (.fresh memblks) mye820 memLimit, fun rw hrw pfn hpage => ?_⟩
  have hbounds := generateNodeMap_bounds ks hwrap hblks
  have hinside := initModule_inside env p (bregionNum_eq_length memLimit
    (generateNodeMapFromE820AndSrat ks mye820 memblks [])) (fun region hregion => ?_) rw hrw
  · obtain ⟨region, hregion, htype, hpages⟩ := hinside
    obtain ⟨r, hr, hsplit⟩ := mem_generateBootmemRegion hregion
    have hpfn := hpages pfn hpage
    have hside := (splitRange_side hsplit).2.2
    have hpfnr : pfn ∈ r.span := (splitRange_mem pfn).mp ⟨region, hsplit, hpfn⟩
    refine ⟨?_, ramPage_of_covers ks hwrap ⟨r, hr, rfl, hpfnr⟩⟩
    rcases hside with ⟨hro, -⟩ | ⟨-, hlimit⟩
    · exact absurd (hro.symm.trans htype) (by decide)
    · exact Nat.le_trans hlimit hpfn.1
  · obtain ⟨r, hr, hsplit⟩ := mem_generateBootmemRegion hregion
    exact ⟨splitRange_ordered (hbounds r hr).1 hsplit,
      Nat.lt_of_le_of_lt (splitRange_side hsplit).2.1 (hbounds r hr).2⟩

/-- A window that cuts an unaligned piece out of one RAM entry, whose pages are on the list. -/
theorem rwList_in_ram_above_limit_one :
    ∃ d, run insertionKernelSort (.fresh []) (settings [⟨0x100000, 0x8000, e820Ram⟩] 0x102000) =
        some d ∧
      ∀ rw ∈ (initModule insertionKernelSort d ⟨none, none, fun _ => none, fun _ => .ok 0x7000, 0⟩
          ⟨0x103800, 0x104800, false⟩).2.rwList, ∀ pfn, rw.MeetsPage pfn →
        0x102000 / pageSize ≤ pfn ∧ RamPage [⟨0x100000, 0x8000, e820Ram⟩] pfn :=
  rwList_in_ram_above_limit insertionKernelSort [⟨0x100000, 0x8000, e820Ram⟩] (by decide) []
    (by simp) 0x102000 _ _

/-- The list of that run. -/
example : (run insertionKernelSort (.fresh [])
      (settings [⟨0x100000, 0x8000, e820Ram⟩] 0x102000)).map (fun d =>
        (initModule insertionKernelSort d ⟨none, none, fun _ => none, fun _ => .ok 0x7000, 0⟩
          ⟨0x103800, 0x104800, false⟩).2.rwList) =
    some [⟨0x7000, 0x9000, 0x103000, 0x105000⟩] := by
  decide

end MoBoMemory.App
