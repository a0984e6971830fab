import MoBoMemory.Driver.Srat

/-!
# Blocks of different nodes

`conflicting_memblks` stops at the first recorded block that a new one overlaps, and a conflict with
the own node is only a warning.  A block that meets one of its own node first is recorded although it
also overlaps one of another node.
-/

namespace MoBoMemory.Driver

open Base

def MemBlk.bytes (blk : MemBlk) : Span Nat := ⟨blk.start, blk.stop⟩

/-- The block that the entry describes. -/
def SratMemAffinity.block (ma : SratMemAffinity) (node : Nat) : MemBlk :=
  ⟨ma.baseAddress, (ma.baseAddress + ma.length) % 2 ^ 64, node⟩

/-- Blocks of different nodes have no byte in common. -/
def NodesApart (memblks : List MemBlk) : Prop :=
  ∀ blk ∈ memblks, ∀ blk' ∈ memblks, blk.nid ≠ blk'.nid → blk.bytes.Apart blk'.bytes

/-- The first recorded block in the way of the entry is of its own node, and another one is not. -/
def SlipsPast (limits : NumaLimits) (scan : SratScan) (ma : SratMemAffinity) : Prop :=
  ma.wellFormed = true ∧ ma.enabled = true ∧ ∃ node scan',
    acpiMapPxmToNode limits ma.proximityDomain scan = some (node, scan') ∧
    conflictingMemblks (ma.block node).start (ma.block node).stop scan.memblks = some node ∧
    ∃ blk ∈ scan.memblks, blk.nid ≠ node ∧ ¬ blk.bytes.Apart (ma.block node).bytes

section Step

variable {limits : NumaLimits} {scan : SratScan} {ma : SratMemAffinity}

-- Without a conflict no recorded block has a byte in common with the range.
theorem apart_of_no_conflict {start stop : Nat} {memblks : List MemBlk}
    (hnone : conflictingMemblks start stop memblks = none) {blk : MemBlk} (hblk : blk ∈ memblks) :
    blk.bytes.Apart ⟨start, stop⟩ := by
  rw [conflictingMemblks, Option.map_eq_none_iff, List.find?_eq_none] at hnone
  have hclear := hnone blk hblk
  intro x hx hx'
  apply hclear
  simp only [MemBlk.bytes, Span.mem_def] at hx hx'
  simp only [Bool.and_eq_true, Bool.or_eq_true, decide_eq_true_eq]
  omega

-- An entry is ignored, or it is recorded: with no block in the way, or with one of its own node.
theorem acpiNumaMemoryAffinityInit_cases (limits : NumaLimits) (scan : SratScan)
    (ma : SratMemAffinity) :
    ((acpiNumaMemoryAffinityInit limits scan ma).memblks = scan.memblks ∧
      ¬ SlipsPast limits scan ma) ∨
    ∃ node scan', ma.wellFormed = true ∧ ma.enabled = true ∧
      acpiMapPxmToNode limits ma.proximityDomain scan = some (node, scan') ∧
      (acpiNumaMemoryAffinityInit limits scan ma).memblks = scan.memblks ++ [ma.block node] ∧
      (conflictingMemblks (ma.block node).start (ma.block node).stop scan.memblks = none ∨
        conflictingMemblks (ma.block node).start (ma.block node).stop scan.memblks = some node) := by
  unfold acpiNumaMemoryAffinityInit
  by_cases hform : ma.wellFormed = true
  swap
  · left
    rw [if_pos (by simpa using hform)]
    exact ⟨rfl, fun h => hform h.1⟩
  rw [if_neg (by simp [hform])]
  by_cases henabled : ma.enabled = true
  swap
  · left
    rw [if_pos (by simpa using henabled)]
    exact ⟨rfl, fun h => henabled h.2.1⟩
  rw [if_neg (by simp [henabled])]
  cases hnode : acpiMapPxmToNode limits ma.proximityDomain scan with
  | none =>
      left
      refine ⟨rfl, ?_⟩
      rintro ⟨-, -, node, scan', hsome, -⟩
      simp [hnode] at hsome
  | some found =>
      obtain ⟨node, scan'⟩ := found
      have hsame := acpiMapPxmToNode_memblks hnode
      simp only [hsame]
      cases hconflict : conflictingMemblks ma.baseAddress
          ((ma.baseAddress + ma.length) % 2 ^ 64) scan.memblks with
      | none =>
          exact Or.inr ⟨node, scan', hform, henabled, rfl, rfl, Or.inl hconflict⟩
      | some i =>
          by_cases hown : i = node
          · subst hown
            simp only [if_true]
            exact Or.inr ⟨i, scan', hform, henabled, rfl, rfl, Or.inr hconflict⟩
          · left
            simp only [if_neg hown]
            refine ⟨hsame, ?_⟩
            rintro ⟨-, -, node', scan'', hsome, hfirst, -⟩
            obtain ⟨rfl, -⟩ := Prod.mk.inj (Option.some.inj (hnode.symm.trans hsome))
            exact hown (Option.some.inj (hconflict.symm.trans hfirst))

-- Adding a block keeps the nodes apart exactly if it keeps apart from the blocks of other nodes.
theorem nodesApart_append {memblks : List MemBlk} {blk : MemBlk} :
    NodesApart (memblks ++ [blk]) ↔
      NodesApart memblks ∧ ∀ b ∈ memblks, b.nid ≠ blk.nid → b.bytes.Apart blk.bytes := by
  unfold NodesApart
  simp only [List.forall_mem_append, List.forall_mem_singleton]
  constructor
  · rintro ⟨hold, -⟩
    exact ⟨fun b hb => (hold b hb).1, fun b hb => (hold b hb).2⟩
  · rintro ⟨hold, hnew⟩
    refine ⟨fun b hb => ⟨hold b hb, hnew b hb⟩, fun b hb hne => ?_, fun hne => absurd rfl hne⟩
    exact (hnew b hb hne.symm).symm

-- One entry mixes nodes exactly if it slips past a block of another node.
theorem nodesApart_step :
    ¬ NodesApart (acpiNumaMemoryAffinityInit limits scan ma).memblks ↔
      ¬ NodesApart scan.memblks ∨ SlipsPast limits scan ma := by
  rcases acpiNumaMemoryAffinityInit_cases limits scan ma with
    ⟨hsame, hslips⟩ | ⟨node, scan', hform, henabled, hnode, hrecorded, hconflict⟩
  · rw [hsame, or_iff_left hslips]
  · rw [hrecorded, nodesApart_append, not_and_or]
    apply or_congr_right
    constructor
    · intro hmixed
      simp only [not_forall] at hmixed
      obtain ⟨blk, hblk, hne, hshares⟩ := hmixed
      refine ⟨hform, henabled, node, scan', hnode, ?_, blk, hblk, hne, hshares⟩
      rcases hconflict with hnone | hown
      · exact absurd (apart_of_no_conflict hnone hblk) hshares
      · exact hown
    · rintro ⟨-, -, node', scan'', hnode', -, blk, hblk, hne, hshares⟩ hapart
      obtain ⟨rfl, -⟩ := Prod.mk.inj (Option.some.inj (hnode.symm.trans hnode'))
      exact hshares (hapart blk hblk hne)

end Step

/-- Over every sequence of entries, after any scan of processor entries: the recorded blocks of
different nodes are disjoint exactly when no entry slips past a block of another node. -/
theorem nodesApart_iff (limits : NumaLimits) (pxms : List Nat) (mems : List SratMemAffinity) :
    NodesApart (mems.foldl (acpiNumaMemoryAffinityInit limits) ⟨pxms, []⟩).memblks ↔
      ¬ Gained (acpiNumaMemoryAffinityInit limits) (SlipsPast limits) ⟨pxms, []⟩ mems := by
  have hnever : ¬ Gained (acpiNumaMemoryAffinityInit limits) (fun _ _ => False) ⟨pxms, []⟩ mems :=
    fun h => h.exists_mem.elim fun _ ⟨_, _, hfalse⟩ => hfalse
  have hrun : ¬ NodesApart (mems.foldl (acpiNumaMemoryAffinityInit limits) ⟨pxms, []⟩).memblks ↔
      ¬ NodesApart [] ∨ Gained (acpiNumaMemoryAffinityInit limits) (SlipsPast limits) ⟨pxms, []⟩ mems :=
    foldl_iff_gained (I := fun _ => True) (P := fun scan : SratScan => ¬ NodesApart scan.memblks)
      (fun _ => True) (fun _ _ _ _ => trivial) (fun _ _ _ _ _ => nodesApart_step)
      (fun _ _ => trivial) trivial hnever
  have hempty : NodesApart [] := by simp [NodesApart]
  rw [or_iff_right (not_not.mpr hempty)] at hrun
  exact not_iff_comm.mp hrun |>.symm

/-- A block of node 0, one of node 1 behind it, and a second one of node 0 that overlaps both. -/
theorem overlapping_nodes :
    (([⟨true, true, 0, 0, 0x2000⟩, ⟨true, true, 1, 0x2000, 0x2000⟩,
        ⟨true, true, 0, 0x1000, 0x2000⟩] : List SratMemAffinity).foldl
          (acpiNumaMemoryAffinityInit ⟨2, 4⟩) ⟨[], []⟩).memblks =
      [⟨0, 0x2000, 0⟩, ⟨0x2000, 0x4000, 1⟩, ⟨0x1000, 0x3000, 0⟩] ∧
    ¬ NodesApart [⟨0, 0x2000, 0⟩, ⟨0x2000, 0x4000, 1⟩, ⟨0x1000, 0x3000, 0⟩] := by
  refine ⟨by decide, fun h => ?_⟩
  have hapart := h ⟨0x2000, 0x4000, 1⟩ (by simp) ⟨0x1000, 0x3000, 0⟩ (by simp) (by decide)
  exact hapart 0x2000 ⟨by decide, by decide⟩ ⟨by decide, by decide⟩

end MoBoMemory.Driver
