import MoBoMemory.Driver.NodeMap

/-!
# The region pipeline with SRAT

How `acpi_numa_memory_affinity_init` records memory blocks, and what the node map makes of them.
Blocks of one node may overlap, so a range may be registered that begins below an entry and ends
above it; `add_active_range` then extends the entry forward only and drops what lies below.  A block
of less than a page inside RAM registers an empty range.  The exact condition under which neither
shows is stated registration by registration.
-/

namespace MoBoMemory.Driver

open Base

/-! ## Recording the blocks -/

/-- The kernel's table sizes MAX_NUMNODES and NR_NODE_MEMBLKS. -/
structure NumaLimits where
  maxNumnodes : Nat
  nrNodeMemblks : Nat

/-- `struct acpi_srat_cpu_affinity`; `wellFormed` is the check of `header.length`. -/
structure SratCpuAffinity where
  wellFormed : Bool
  enabled : Bool
  proximityDomain : Nat

/-- `struct acpi_srat_mem_affinity`. -/
structure SratMemAffinity where
  wellFormed : Bool
  enabled : Bool
  proximityDomain : Nat
  baseAddress : Nat
  length : Nat

/-- What the scan has found: the proximity domain of each node in the order of the nodes, which is
`pxm_to_node_map` inverted, and the recorded blocks. -/
structure SratScan where
  pxms : List Nat
  memblks : List MemBlk

/-- The node of a proximity domain, a new one if there is room; `none` is NID_INVAL. -/
def acpiMapPxmToNode (limits : NumaLimits) (pxm : Nat) (scan : SratScan) : Option (Nat × SratScan) :=
  match scan.pxms.idxOf? pxm with
  | some node => some (node, scan)
  | none =>
      if limits.maxNumnodes ≤ scan.pxms.length then none
      else some (scan.pxms.length, { scan with pxms := scan.pxms ++ [pxm] })

def acpiNumaProcessorAffinityInit (limits : NumaLimits) (scan : SratScan) (pa : SratCpuAffinity) :
    SratScan :=
  if !pa.wellFormed then scan
  else if !pa.enabled then scan
  else
    match acpiMapPxmToNode limits pa.proximityDomain scan with
    | none => scan
    | some (_, scan) => scan

/-- The node of the first recorded block that the range overlaps or equals; `none` is -1. -/
def conflictingMemblks (start stop : Nat) (memblks : List MemBlk) : Option Nat :=
  (memblks.find? fun nd =>
    nd.start ≠ nd.stop &&
      ((start < nd.stop && nd.start < stop) || (nd.stop = stop && nd.start = start))).map MemBlk.nid

def acpiNumaMemoryAffinityInit (limits : NumaLimits) (scan : SratScan) (ma : SratMemAffinity) :
    SratScan :=
  if !ma.wellFormed then scan
  else if !ma.enabled then scan
  else
    let start := ma.baseAddress
    let stop := (start + ma.length) % 2 ^ 64
    match acpiMapPxmToNode limits ma.proximityDomain scan with
    | none => scan
    | some (node, scan) =>
        let recorded := { scan with memblks := scan.memblks ++ [⟨start, stop, node⟩] }
        match conflictingMemblks start stop scan.memblks with
        | some i => if i = node then recorded else scan
        | none => recorded

/-- The blocks that `acpi_numa_init` records; the parser calls the handler for at most
NR_NODE_MEMBLKS memory structures. -/
def acpiNumaInit (limits : NumaLimits) (cpus : List SratCpuAffinity) (mems : List SratMemAffinity) :
    List MemBlk :=
  ((mems.take limits.nrNodeMemblks).foldl (acpiNumaMemoryAffinityInit limits)
    (cpus.foldl (acpiNumaProcessorAffinityInit limits) ⟨[], []⟩)).memblks

def SratMemAffinity.NoWrap (ma : SratMemAffinity) : Prop := ma.baseAddress + ma.length < 2 ^ 64

theorem acpiMapPxmToNode_memblks {limits : NumaLimits} {pxm node : Nat} {scan scan' : SratScan}
    (h : acpiMapPxmToNode limits pxm scan = some (node, scan')) : scan'.memblks = scan.memblks := by
  unfold acpiMapPxmToNode at h
  split at h
  · obtain ⟨-, rfl⟩ := Prod.mk.inj (Option.some.inj h)
    rfl
  · split at h
    · exact absurd h (by simp)
    · obtain ⟨-, rfl⟩ := Prod.mk.inj (Option.some.inj h)
      rfl

-- A memory structure is ignored or records its block.
theorem acpiNumaMemoryAffinityInit_memblks (limits : NumaLimits) (scan : SratScan)
    (ma : SratMemAffinity) :
    (acpiNumaMemoryAffinityInit limits scan ma).memblks = scan.memblks ∨
      ∃ node, (acpiNumaMemoryAffinityInit limits scan ma).memblks =
        scan.memblks ++ [⟨ma.baseAddress, (ma.baseAddress + ma.length) % 2 ^ 64, node⟩] := by
  unfold acpiNumaMemoryAffinityInit
  split
  · exact Or.inl rfl
  · split
    · exact Or.inl rfl
    · simp only
      split
      · exact Or.inl rfl
      · rename_i node scan' hnode
        have hsame := acpiMapPxmToNode_memblks hnode
        split
        · split
          · exact Or.inr ⟨node, by rw [hsame]⟩
          · exact Or.inl hsame
        · exact Or.inr ⟨node, by rw [hsame]⟩

theorem acpiNumaProcessorAffinityInit_memblks (limits : NumaLimits) (scan : SratScan)
    (pa : SratCpuAffinity) :
    (acpiNumaProcessorAffinityInit limits scan pa).memblks = scan.memblks := by
  unfold acpiNumaProcessorAffinityInit
  split
  · rfl
  · split
    · rfl
    · split
      · rfl
      · rename_i hnode
        exact acpiMapPxmToNode_memblks hnode

-- The recorded blocks have their bounds in order.
theorem acpiNumaInit_ordered {limits : NumaLimits} {cpus : List SratCpuAffinity}
    {mems : List SratMemAffinity} (hwrap : ∀ ma ∈ mems, ma.NoWrap) :
    ∀ blk ∈ acpiNumaInit limits cpus mems, blk.start ≤ blk.stop := by
  have hcpus : (cpus.foldl (acpiNumaProcessorAffinityInit limits) ⟨[], []⟩).memblks = [] :=
    foldl_preserves (I := fun scan : SratScan => scan.memblks = []) (fun _ => True)
      (fun scan pa _ hscan => (acpiNumaProcessorAffinityInit_memblks limits scan pa).trans hscan)
      (fun _ _ => trivial) rfl
  apply foldl_preserves (I := fun scan : SratScan => ∀ blk ∈ scan.memblks, blk.start ≤ blk.stop)
    SratMemAffinity.NoWrap
  · intro scan ma hma hscan
    rcases acpiNumaMemoryAffinityInit_memblks limits scan ma with heq | ⟨node, heq⟩
    · rwa [heq]
    · rw [heq, Nat.mod_eq_of_lt hma]
      simp only [List.forall_mem_append, List.forall_mem_cons]
      exact ⟨hscan, Nat.le_add_right .., by simp⟩
  · exact fun ma hma => hwrap ma (List.mem_of_mem_take hma)
  · simp [hcpus]

/-! ## What a run of registrations gains -/

/-- The registration makes page `pfn` of node `n` covered. -/
def GainsPage (n pfn : Nat) (map : List NodeRange) (c : NodeRange) : Prop :=
  c.nid = n ∧ pfn ∈ c.span ∧ Keeps pfn map c

/-- The slot of the first entry that takes the new range. -/
def takerIdx (map : List NodeRange) (c : NodeRange) : Option Nat :=
  map.findIdx? fun r => (absorb c r).isSome

/-- The registration appends the range in slot `i`. -/
def OpensSlot (i : Nat) (map : List NodeRange) (c : NodeRange) : Prop :=
  taker map c = none ∧ map.length = i

/-- The registration appends a non-empty range in slot `i`, or it reaches past the entry there. -/
def FillsSlot (i : Nat) (map : List NodeRange) (c : NodeRange) : Prop :=
  (OpensSlot i map c ∧ c.startPfn < c.endPfn) ∨
    ∃ r, taker map c = some r ∧ takerIdx map c = some i ∧
      (r.endPfn < c.endPfn ∨ c.startPfn < r.startPfn)

/-- The registration finds the table full. -/
def Overflows (map : List NodeRange) (c : NodeRange) : Prop := ¬ Room map c

/-- The entry in slot `i` is there and non-empty. -/
def SlotNonempty (i : Nat) (map : List NodeRange) : Prop :=
  ∃ r, map[i]? = some r ∧ r.startPfn < r.endPfn

theorem absorb_nonempty {c r r' : NodeRange} (h : absorb c r = some r')
    (hr : r.startPfn ≤ r.endPfn) :
    r'.startPfn < r'.endPfn ↔
      r.startPfn < r.endPfn ∨ (r.endPfn < c.endPfn ∨ c.startPfn < r.startPfn) := by
  unfold absorb at h
  split_ifs at h
  · obtain rfl := Option.some.inj h
    omega
  all_goals
    obtain rfl := Option.some.inj h
    simp only
    omega

section Steps

variable {map : List NodeRange} {c : NodeRange} (hroom : Room map c)

include hroom

theorem slot_lt_step (i : Nat) :
    i < (addActiveRange map c).length ↔ i < map.length ∨ OpensSlot i map c := by
  obtain ⟨pre, r, r', post, hmap, -, htaker, -, heq⟩ | ⟨htaker, -, heq⟩ | ⟨htaker, hfull, -⟩ :=
    addActiveRange_cases map c
  · have hopens : ¬ OpensSlot i map c := fun h => by simp [h.1] at htaker
    rw [or_iff_left hopens, heq, hmap]
    simp
  · simp only [heq, OpensSlot, htaker, true_and, List.length_append, List.length_singleton]
    omega
  · exact absurd (hroom htaker) (Nat.not_lt.mpr hfull)

theorem slotNonempty_step (hordered : ∀ r ∈ map, r.startPfn ≤ r.endPfn) (i : Nat) :
    SlotNonempty i (addActiveRange map c) ↔ SlotNonempty i map ∨ FillsSlot i map c := by
  obtain ⟨pre, r, r', post, hmap, hpre, htaker, hr, heq⟩ | ⟨htaker, -, heq⟩ | ⟨htaker, hfull, -⟩ :=
    addActiveRange_cases map c
  · have hidx : takerIdx map c = some pre.length := by
      rw [takerIdx, hmap, List.findIdx?_append, List.findIdx?_eq_none_iff.mpr (by simpa using hpre)]
      simp [List.findIdx?_cons, hr]
    have hfills : FillsSlot i map c ↔
        pre.length = i ∧ (r.endPfn < c.endPfn ∨ c.startPfn < r.startPfn) := by
      simp [FillsSlot, OpensSlot, htaker, hidx]
    have hgrown := absorb_nonempty hr (hordered r (by simp [hmap]))
    rw [hfills, heq, hmap]
    -- only the slot of the taker can change
    by_cases hi : pre.length = i
    · subst hi
      simpa [SlotNonempty] using hgrown
    · have hsame : (pre ++ r' :: post)[i]? = (pre ++ r :: post)[i]? := by
        rcases Nat.lt_or_gt_of_ne hi with hlt | hgt
        · obtain ⟨k, rfl⟩ := Nat.exists_eq_add_of_lt hlt
          simp [List.getElem?_append_right, Nat.add_assoc]
        · rw [List.getElem?_append_left hgt, List.getElem?_append_left hgt]
      simp [SlotNonempty, hsame, hi]
  · have hfills : FillsSlot i map c ↔ map.length = i ∧ c.startPfn < c.endPfn := by
      simp [FillsSlot, OpensSlot, htaker]
    rw [hfills, heq]
    rcases Nat.lt_trichotomy i map.length with hlt | rfl | hgt
    · simp [SlotNonempty, List.getElem?_append_left hlt, hlt.ne']
    · simp [SlotNonempty]
    · have hpast : (map ++ [c]).length ≤ i := by simpa using Nat.succ_le_of_lt hgt
      simp [SlotNonempty, List.getElem?_eq_none hpast, List.getElem?_eq_none hgt.le, hgt.ne]
  · exact absurd (hroom htaker) (Nat.not_lt.mpr hfull)

end Steps

section Run

variable {cs : List NodeRange} (hroom : ¬ Gained addActiveRange Overflows [] cs)

include hroom

-- A run from the empty table covers exactly the pages that it gains.
theorem covers_run_iff (n pfn : Nat) :
    Covers n pfn (cs.foldl addActiveRange []) ↔ Gained addActiveRange (GainsPage n pfn) [] cs := by
  rw [foldl_iff_gained (I := fun _ => True) (P := Covers n pfn) (fun _ => True)
    (fun _ _ _ _ => trivial)
    (fun map c _ _ hbad => covers_addActiveRange (not_not.mp hbad)) (fun _ _ => trivial) trivial hroom]
  exact or_iff_right not_covers_nil

theorem slot_lt_run_iff (i : Nat) :
    i < (cs.foldl addActiveRange []).length ↔ Gained addActiveRange (OpensSlot i) [] cs := by
  rw [foldl_iff_gained (I := fun _ => True) (P := fun map : List NodeRange => i < map.length)
    (fun _ => True) (fun _ _ _ _ => trivial)
    (fun map c _ _ hbad => slot_lt_step (not_not.mp hbad) i) (fun _ _ => trivial) trivial hroom]
  simp

theorem slotNonempty_run_iff (hcs : ∀ c ∈ cs, c.startPfn ≤ c.endPfn) (i : Nat) :
    SlotNonempty i (cs.foldl addActiveRange []) ↔
      Gained addActiveRange (FillsSlot i) [] cs := by
  rw [foldl_iff_gained (I := fun map : List NodeRange => ∀ r ∈ map, r.startPfn ≤ r.endPfn)
    (P := SlotNonempty i) (fun c : NodeRange => c.startPfn ≤ c.endPfn)
    (fun map c hc hmap => addActiveRange_forall (fun _ _ hr => absorb_ordered hr) hc hmap)
    (fun map c _ hmap hbad => slotNonempty_step (not_not.mp hbad) hmap i) hcs (by simp) hroom]
  simp [SlotNonempty]

-- All entries of the table are non-empty if every slot that is opened is filled.
theorem nonempty_run_iff (hcs : ∀ c ∈ cs, c.startPfn ≤ c.endPfn) :
    (∀ r ∈ cs.foldl addActiveRange [], r.startPfn < r.endPfn) ↔
      ∀ i, Gained addActiveRange (OpensSlot i) [] cs →
        Gained addActiveRange (FillsSlot i) [] cs := by
  simp only [← slot_lt_run_iff hroom, ← slotNonempty_run_iff hroom hcs]
  constructor
  · intro h i hi
    exact ⟨_, List.getElem?_eq_getElem hi, h _ (List.getElem_mem hi)⟩
  · intro h r hr
    obtain ⟨i, hi, rfl⟩ := List.getElem_of_mem hr
    obtain ⟨q, hq, hne⟩ := h i hi
    rw [List.getElem?_eq_getElem hi] at hq
    rwa [Option.some.inj hq]

end Run

/-- The node map with SRAT is exact, and without empty entries, exactly if every page of every
registered range is kept by some registration of its node and every slot that is opened is filled. -/
theorem srat_nodeMap_exact_iff (ks : KernelSort) (limits : NumaLimits)
    (cpus : List SratCpuAffinity) (mems : List SratMemAffinity) (mye820 : List E820Entry)
    (memblks : List MemBlk) (hrecorded : acpiNumaInit limits cpus mems = memblks)
    (hmems : ∀ ma ∈ mems, ma.NoWrap) (hwrap : ∀ ei ∈ mye820, ei.NoWrap) (hsome : memblks ≠ [])
    (hroom : ¬ Gained addActiveRange Overflows [] (registrations mye820 memblks)) :
    ((∀ n pfn, Covers n pfn (generateNodeMapFromE820AndSrat ks mye820 memblks []) ↔
        RamPage mye820 pfn ∧ ∃ blk ∈ memblks, blk.nid = n ∧
          blk.start / pageSize ≤ pfn ∧ pfn < blk.stop / pageSize) ∧
      ∀ r ∈ generateNodeMapFromE820AndSrat ks mye820 memblks [], r.startPfn < r.endPfn) ↔
    ((∀ c ∈ registrations mye820 memblks, ∀ pfn ∈ c.span,
        Gained addActiveRange (GainsPage c.nid pfn) [] (registrations mye820 memblks)) ∧
      ∀ i, Gained addActiveRange (OpensSlot i) [] (registrations mye820 memblks) →
        Gained addActiveRange (FillsSlot i) [] (registrations mye820 memblks)) := by
  have hblks : ∀ blk ∈ memblks, blk.start ≤ blk.stop := hrecorded ▸ acpiNumaInit_ordered hmems
  have hcs := registrations_ordered hwrap hblks
  have hwindows : windows mye820 memblks = memblks.map memblkWindow := by
    simp [windows, hsome]
  have hregistered : ∀ n pfn, (RamPage mye820 pfn ∧ ∃ blk ∈ memblks, blk.nid = n ∧
      blk.start / pageSize ≤ pfn ∧ pfn < blk.stop / pageSize) ↔
      ∃ c ∈ registrations mye820 memblks, c.nid = n ∧ pfn ∈ c.span := by
    intro n pfn
    rw [registered_iff hwrap, hwindows]
    simp [memblkWindow, NodeRange.span, Span.mem_def]
  -- both sides as statements about the run of registrations
  rw [generateNodeMap_eq]
  simp only [covers_sort, (ks.perm _).mem_iff, covers_run_iff hroom, nonempty_run_iff hroom hcs,
    hregistered]
  refine and_congr_left fun _ => ⟨fun h c hc pfn hpfn => ?_, fun h n pfn => ⟨fun hgain => ?_, ?_⟩⟩
  · exact (h c.nid pfn).mpr ⟨c, hc, rfl, hpfn⟩
  · obtain ⟨c, hc, map, hnid, hpfn, -⟩ := hgain.exists_mem
    exact ⟨c, hc, hnid, hpfn⟩
  · rintro ⟨c, hc, rfl, hpfn⟩
    exact h c hc pfn hpfn

/-- Two overlapping blocks of one node, the later one larger: page 0 is lost.  And a block of length
zero inside RAM: the only entry is empty. -/
theorem srat_nodeMap_loses_page :
    (acpiNumaInit ⟨1, 2⟩ [] [⟨true, true, 0, 0x100000, 0x100000⟩, ⟨true, true, 0, 0, 0x300000⟩] =
        [⟨0x100000, 0x200000, 0⟩, ⟨0, 0x300000, 0⟩] ∧
      (RamPage [⟨0, 0x10000000, e820Ram⟩] 0 ∧ 0 / pageSize ≤ 0 ∧ 0 < 0x300000 / pageSize) ∧
      generateNodeMapFromE820AndSrat insertionKernelSort [⟨0, 0x10000000, e820Ram⟩]
          [⟨0x100000, 0x200000, 0⟩, ⟨0, 0x300000, 0⟩] [] = [⟨0, 0x100, 0x300⟩] ∧
      ¬ Covers 0 0 [⟨0, 0x100, 0x300⟩]) ∧
    (acpiNumaInit ⟨1, 2⟩ [] [⟨true, true, 0, 0x5000, 0⟩] = [⟨0x5000, 0x5000, 0⟩] ∧
      generateNodeMapFromE820AndSrat insertionKernelSort [⟨0, 0x10000000, e820Ram⟩]
          [⟨0x5000, 0x5000, 0⟩] [] = [⟨0, 5, 5⟩]) := by
  refine ⟨⟨by decide, ⟨⟨_, List.mem_singleton_self _, rfl, by decide, by decide⟩, by decide,
    by decide⟩, by decide, ?_⟩, by decide, by decide⟩
  simp [Covers, NodeRange.span, Span.mem_def]

/-- One block over one RAM entry. -/
theorem srat_nodeMap_exact_iff_one :
    ((∀ n pfn, Covers n pfn (generateNodeMapFromE820AndSrat insertionKernelSort
          [⟨0, 0x3000, e820Ram⟩] [⟨0x1000, 0x5000, 0⟩] []) ↔
        RamPage [⟨0, 0x3000, e820Ram⟩] pfn ∧ ∃ blk ∈ [(⟨0x1000, 0x5000, 0⟩ : MemBlk)], blk.nid = n ∧
          blk.start / pageSize ≤ pfn ∧ pfn < blk.stop / pageSize) ∧
      ∀ r ∈ generateNodeMapFromE820AndSrat insertionKernelSort [⟨0, 0x3000, e820Ram⟩]
        [⟨0x1000, 0x5000, 0⟩] [], r.startPfn < r.endPfn) ↔
    ((∀ c ∈ registrations [⟨0, 0x3000, e820Ram⟩] [⟨0x1000, 0x5000, 0⟩], ∀ pfn ∈ c.span,
        Gained addActiveRange (GainsPage c.nid pfn) []
          (registrations [⟨0, 0x3000, e820Ram⟩] [⟨0x1000, 0x5000, 0⟩])) ∧
      ∀ i, Gained addActiveRange (OpensSlot i) []
          (registrations [⟨0, 0x3000, e820Ram⟩] [⟨0x1000, 0x5000, 0⟩]) →
        Gained addActiveRange (FillsSlot i) []
          (registrations [⟨0, 0x3000, e820Ram⟩] [⟨0x1000, 0x5000, 0⟩])) := by
  apply srat_nodeMap_exact_iff insertionKernelSort ⟨1, 2⟩ [] [⟨true, true, 0, 0x1000, 0x4000⟩]
    [⟨0, 0x3000, e820Ram⟩] [⟨0x1000, 0x5000, 0⟩] (by decide)
  · intro ma hma
    obtain rfl := List.mem_singleton.mp hma
    exact (by decide : 0x1000 + 0x4000 < 2 ^ 64)
  · decide
  · decide
  · have hcs : registrations [⟨0, 0x3000, e820Ram⟩] [⟨0x1000, 0x5000, 0⟩] = [⟨0, 1, 3⟩] := by decide
    rw [hcs]
    rintro (hfull | hrest)
    · exact hfull fun _ => by decide
    · exact hrest

end MoBoMemory.Driver
