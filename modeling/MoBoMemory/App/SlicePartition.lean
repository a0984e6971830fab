import Mathlib.Data.List.Chain
import Mathlib.Data.List.Range
import MoBoMemory.App.TestPolicy

/-!
# Slicing is an exact partition

The step of `test_policy` is the range divided by the number of cores, rounded down to a block, and
the last slice takes what is left over.  For a range of whole blocks this is an `Even` split: at
least one slice, steps of whole blocks, nothing lost.  An even split cuts the range into consecutive
non-empty pieces.
-/

namespace MoBoMemory.App

open Base Driver

/-- The mode that the slices are built for: a given cpu overrides the user's mode. -/
def policyMode (mode : TestMode) (cpu : Int) : TestMode :=
  if cpu = noSpecifyCpu then mode else .specific

def policyCpu (cpu : Int) : Int := if cpu = noSpecifyCpu then 0 else cpu

/-- The three indices of every look-up of `table[i][slice_num-1][n]` for one range. -/
def tableLookups (split : Split) : List (Nat × Nat × Nat) :=
  (List.range split.sliceNum).map fun n => (0, split.sliceNum - 1, n)

/-- The tables have a row and a column for each of the `num` cores. -/
def InTable (num : Nat) (lookup : Nat × Nat × Nat) : Prop :=
  lookup.1 < nodeCount ∧ lookup.2.1 < num ∧ lookup.2.2 < num

/-- The slices in the order of their creation, which `list_add` reverses. -/
def SlicedRange.created (r : SlicedRange) : List TestSlice := r.slices.reverse

/-- The slices are consecutive non-empty runs of blocks from the first to the last byte of the
range. -/
structure SlicedRange.Partitioned (r : SlicedRange) : Prop where
  nonempty : ∀ s ∈ r.slices, s.start < s.stop
  aligned : ∀ s ∈ r.slices, ∃ k, s.start = r.range.start + k * pageSize
  first : r.created.head?.map TestSlice.start = some r.range.start
  consecutive : r.created.IsChain fun s t => s.stop = t.start
  last : r.created.getLast?.map TestSlice.stop = some r.range.stop
  apart : r.slices.Pairwise fun s t => s.span.Apart t.span
  union : ∀ p, p ∈ r.range.span ↔ ∃ s ∈ r.slices, p ∈ s.span
  physical : ∀ s ∈ r.slices, ulSub s.phyStart s.start = ulSub r.range.phyStart r.range.start

/-- Which cores the slices of a range are for. -/
def SlicedRange.OnCores (r : SlicedRange) (mode : TestMode) (cpu : Int) (coreNum : Nat) : Prop :=
  if mode = .specific then r.slices.map TestSlice.cpuid = [cpu]
  else (r.slices.map TestSlice.cpuid).Nodup ∧ ∀ s ∈ r.slices, 0 ≤ s.cpuid ∧ s.cpuid < coreNum

/-! ## Even splits -/

/-- A split of `size` bytes into slices of whole blocks, the last one larger if need be. -/
structure Split.Even (split : Split) (size : Nat) : Prop where
  pos : 0 < split.sliceNum
  step_pos : 0 < split.stepSize
  step_aligned : pageSize ∣ split.stepSize
  total : split.sliceNum * split.stepSize + split.remain = size

-- With more blocks than cores each step has at least one block.
theorem roundedStep {coreNum blocks : Nat} (hcore : 0 < coreNum) (hmany : coreNum < blocks) :
    0 < pfnStartRoundup (minBlockSize * blocks / coreNum) ∧
      pageSize ∣ pfnStartRoundup (minBlockSize * blocks / coreNum) := by
  have hblock : minBlockSize * 1 ≤ minBlockSize * blocks / coreNum := by
    rw [Nat.le_div_iff_mul_le hcore, Nat.mul_one]
    exact Nat.mul_le_mul_left _ hmany.le
  constructor
  · rw [pfnStartRoundup]
    apply Nat.mul_pos _ (by decide)
    exact Nat.div_pos (by simpa [minBlockSize, pageSize, pageShift] using hblock) (by decide)
  · exact Nat.dvd_mul_left _ _

theorem splitRange_even {mode : TestMode} {coreNum blocks : Nat} (hcore : 0 < coreNum)
    (hblocks : 0 < blocks) :
    (splitRange mode coreNum (minBlockSize * blocks)).Even (minBlockSize * blocks) := by
  have hbytes : pageSize ∣ minBlockSize * blocks := Nat.dvd_mul_right _ _
  have hdiv : minBlockSize * blocks / minBlockSize = blocks := Nat.mul_div_cancel_left _ (by decide)
  have hshared : ∀ split : Split,
      split = (if coreNum < minBlockSize * blocks / minBlockSize then
        ⟨coreNum, pfnStartRoundup (minBlockSize * blocks / coreNum),
          minBlockSize * blocks - pfnStartRoundup (minBlockSize * blocks / coreNum) * coreNum⟩
      else ⟨minBlockSize * blocks / minBlockSize, minBlockSize,
        minBlockSize * blocks % minBlockSize⟩) →
      0 < split.sliceNum ∧ 0 < split.stepSize ∧ pageSize ∣ split.stepSize := by
    rintro _ rfl
    rw [hdiv]
    split
    · next hmany => exact ⟨hcore, roundedStep hcore hmany⟩
    · exact ⟨hblocks, (by decide : 0 < minBlockSize), dvd_refl pageSize⟩
  have hsplit : 0 < (splitRange mode coreNum (minBlockSize * blocks)).sliceNum ∧
      0 < (splitRange mode coreNum (minBlockSize * blocks)).stepSize ∧
      pageSize ∣ (splitRange mode coreNum (minBlockSize * blocks)).stepSize := by
    cases mode with
    | specific => exact ⟨Nat.one_pos, Nat.mul_pos (by decide) hblocks, hbytes⟩
    | locally => exact hshared _ rfl
    | remote => exact hshared _ rfl
    | all => exact hshared _ rfl
  exact ⟨hsplit.1, hsplit.2.1, hsplit.2.2, splitRange_total hsplit.1⟩

-- No mode has more slices than there are cores.
theorem splitRange_le_cores (mode : TestMode) {coreNum : Nat} (hcore : 0 < coreNum) (size : Nat) :
    (splitRange mode coreNum size).sliceNum ≤ coreNum := by
  unfold splitRange
  split
  · exact hcore
  · split
    · exact le_refl _
    · next h => exact not_lt.mp h

theorem lookups_inTable (mode : TestMode) {coreNum : Nat} (hcore : 0 < coreNum) (size : Nat) :
    ∀ lookup ∈ tableLookups (splitRange mode coreNum size), InTable coreNum lookup := by
  have hle := splitRange_le_cores mode hcore size
  intro lookup hlookup
  obtain ⟨n, hn, rfl⟩ := List.mem_map.mp hlookup
  rw [List.mem_range] at hn
  refine ⟨Nat.one_pos, ?_, ?_⟩
  · show (splitRange mode coreNum size).sliceNum - 1 < coreNum
    omega
  · show n < coreNum
    omega

/-! ## The slices of an even split -/

-- Start and physical start move by the same offset, also modulo the word size.
theorem ulSub_shift {start phyStart : Nat} (hstart : start < 2 ^ 64) (offset : Nat) :
    ulSub ((phyStart + offset) % 2 ^ 64) ((start + offset) % 2 ^ 64) = ulSub phyStart start := by
  unfold ulSub
  omega

section Even

variable {table : Nat → Nat → Int} {rw : RWRange} {split : Split}
  (hmapped : rw.Mapped) (heven : split.Even (rw.stop - rw.start))

include hmapped heven

variable (table) in
theorem testSlice_start {n : Nat} (hn : n < split.sliceNum) :
    (testSlice table rw split n).start = rw.start + n * split.stepSize :=
  congrArg Span.lo (testSlice_span table hmapped heven.total hn)

variable (table) in
theorem testSlice_stop {n : Nat} (hn : n < split.sliceNum) :
    (testSlice table rw split n).stop =
      if n + 1 = split.sliceNum then rw.stop else rw.start + (n + 1) * split.stepSize :=
  congrArg Span.hi (testSlice_span table hmapped heven.total hn)

-- Each slice has at least one step.
theorem testSlice_nonempty {n : Nat} (hn : n < split.sliceNum) :
    (testSlice table rw split n).start < (testSlice table rw split n).stop := by
  have hstep := heven.step_pos
  have hsteps : (n + 1) * split.stepSize ≤ split.sliceNum * split.stepSize :=
    Nat.mul_le_mul_right _ hn
  have htotal := heven.total
  have hle := hmapped.1
  rw [testSlice_start table hmapped heven hn, testSlice_stop table hmapped heven hn]
  rw [Nat.succ_mul] at hsteps ⊢
  split <;> omega

theorem sliceRange_consecutive :
    ((List.range split.sliceNum).map (testSlice table rw split)).IsChain
      fun s t => s.stop = t.start := by
  rw [List.isChain_map, List.isChain_range]
  intro n hn
  rw [testSlice_stop table hmapped heven (by omega), if_neg (by omega)]
  exact (testSlice_start table hmapped heven (by omega)).symm

theorem sliceRange_partitioned :
    SlicedRange.Partitioned ⟨rw, sliceRange table rw split⟩ := by
  have hcreated : SlicedRange.created ⟨rw, sliceRange table rw split⟩ =
      (List.range split.sliceNum).map (testSlice table rw split) := List.reverse_reverse _
  obtain ⟨n, hn⟩ : ∃ n, split.sliceNum = n + 1 := ⟨split.sliceNum - 1, by have := heven.pos; omega⟩
  constructor
  case nonempty =>
    intro s hs
    obtain ⟨n, hn, rfl⟩ := mem_sliceRange.mp hs
    exact testSlice_nonempty hmapped heven hn
  case aligned =>
    intro s hs
    obtain ⟨n, hn, rfl⟩ := mem_sliceRange.mp hs
    obtain ⟨k, hk⟩ := heven.step_aligned
    refine ⟨n * k, ?_⟩
    rw [testSlice_start table hmapped heven hn, hk, Nat.mul_comm pageSize, Nat.mul_assoc]
  case first =>
    have hstart := testSlice_start table hmapped heven (n := 0) (by omega)
    rw [Nat.zero_mul, Nat.add_zero] at hstart
    rw [hcreated, hn, List.range_succ_eq_map, List.map_cons, List.head?_cons]
    exact congrArg some hstart
  case consecutive =>
    rw [hcreated]
    exact sliceRange_consecutive hmapped heven
  case last =>
    have hstop := testSlice_stop table hmapped heven (n := n) (by omega)
    rw [if_pos hn.symm] at hstop
    rw [hcreated, hn, List.range_succ, List.map_append, List.map_singleton, List.getLast?_concat]
    exact congrArg some hstop
  case apart => exact sliceRange_apart hmapped fun _ => heven.total
  case union =>
    intro p
    constructor
    · exact sliceRange_covers hmapped heven.total heven.pos
    · rintro ⟨s, hs, hlo, hhi⟩
      obtain ⟨n, hn, rfl⟩ := mem_sliceRange.mp hs
      obtain ⟨hfirst, -, hlast⟩ := @testSlice_bounds table rw split n hmapped heven.total hn
      exact ⟨le_trans hfirst hlo, lt_of_lt_of_le hhi hlast⟩
  case physical =>
    intro s hs
    obtain ⟨n, -, rfl⟩ := mem_sliceRange.mp hs
    exact ulSub_shift (lt_of_le_of_lt hmapped.1 hmapped.2) _

end Even

/-! ## The cores -/

-- Row `slice_num - 1` of the triangular table numbers the slices.
theorem sliceRange_local_cpuids (rw : RWRange) (split : Split) :
    (sliceRange createLocalTable rw split).map TestSlice.cpuid =
      ((List.range split.sliceNum).map fun n : Nat => (n : Int)).reverse := by
  rw [sliceRange, List.map_reverse, List.map_map]
  congr 1
  apply List.map_congr_left
  intro n hn
  rw [List.mem_range] at hn
  show createLocalTable (split.sliceNum - 1) n = n
  rw [createLocalTable, if_pos (by omega)]

theorem sliceRange_local_onCores {mode : TestMode} (hmode : mode ≠ .specific) {coreNum : Nat}
    (cpu : Int) (rw : RWRange) {split : Split} (hle : split.sliceNum ≤ coreNum) :
    SlicedRange.OnCores ⟨rw, sliceRange createLocalTable rw split⟩ mode cpu coreNum := by
  rw [SlicedRange.OnCores, if_neg hmode]
  constructor
  · show ((sliceRange createLocalTable rw split).map TestSlice.cpuid).Nodup
    rw [sliceRange_local_cpuids, List.nodup_reverse]
    exact List.nodup_range.map Nat.cast_injective
  · intro s hs
    have hcpuid : s.cpuid ∈ (sliceRange createLocalTable rw split).map TestSlice.cpuid :=
      List.mem_map_of_mem hs
    rw [sliceRange_local_cpuids, List.mem_reverse, List.mem_map] at hcpuid
    obtain ⟨n, hn, hcast⟩ := hcpuid
    rw [List.mem_range] at hn
    omega

theorem sliceRange_onCores {mode : TestMode} {cpu : Int} {table : Nat → Nat → Int}
    (htable : policyTable cpu mode = some table) {coreNum : Nat} (hcore : 0 < coreNum)
    (rw : RWRange) (size : Nat) :
    SlicedRange.OnCores ⟨rw, sliceRange table rw (splitRange mode coreNum size)⟩ mode cpu
      coreNum := by
  have hle := splitRange_le_cores mode hcore size
  cases mode with
  | locally =>
      obtain rfl := Option.some.inj htable
      exact sliceRange_local_onCores (by decide) cpu rw hle
  | remote =>
      obtain rfl := Option.some.inj htable
      exact sliceRange_local_onCores (by decide) cpu rw hle
  | specific =>
      obtain rfl := Option.some.inj htable
      rfl
  | all => simp [policyTable] at htable

-- What `test_policy` builds for a core count and a mode that it accepts.
theorem testPolicy_eq_built {coreNum : Nat} (hcore : 1 ≤ coreNum ∧ coreNum ≤ coreCount)
    {mode : TestMode} (hmode : mode ≠ .all) {cpu : Int}
    (hcpu : cpu = noSpecifyCpu ∨ (0 ≤ cpu ∧ cpu < coreNum)) (ranges : List RWRange) :
    ∃ table, policyTable (policyCpu cpu) (policyMode mode cpu) = some table ∧
      testPolicy mode cpu coreNum ranges = .built (ranges.map fun rw =>
        ⟨rw, sliceRange table rw
          (splitRange (policyMode mode cpu) coreNum (ulSub rw.stop rw.start))⟩) := by
  obtain ⟨table, htable⟩ : ∃ table, policyTable (policyCpu cpu) (policyMode mode cpu) =
      some table := by
    unfold policyMode
    split
    · cases mode with
      | locally => exact ⟨_, rfl⟩
      | remote => exact ⟨_, rfl⟩
      | specific => exact ⟨_, rfl⟩
      | all => exact absurd rfl hmode
    · exact ⟨_, rfl⟩
  have hgiven : ¬ (cpu ≠ noSpecifyCpu ∧ (cpu < 0 ∨ coreNum ≤ cpu)) := by
    rw [not_and]
    intro hne
    have := hcpu.resolve_left hne
    omega
  refine ⟨table, htable, ?_⟩
  unfold policyCpu policyMode at htable
  rw [testPolicy, if_neg (by omega), if_neg hgiven]
  simp only [htable, policyMode]

/-- Every range of whole blocks is cut exactly, for every core count that `test_policy` accepts and
every mode of the command line. -/
theorem testPolicy_partitions {coreNum : Nat} (hcore : 1 ≤ coreNum ∧ coreNum ≤ coreCount)
    {mode : TestMode} (hmode : mode ≠ .all) {cpu : Int}
    (hcpu : cpu = noSpecifyCpu ∨ (0 ≤ cpu ∧ cpu < coreNum)) (ranges : List RWRange)
    (hranges : ∀ rw ∈ ranges, rw.stop < 2 ^ 64 ∧
      ∃ m, 1 ≤ m ∧ rw.stop = rw.start + minBlockSize * m) :
    ∃ rwList, testPolicy mode cpu coreNum ranges = .built rwList ∧
      rwList.map SlicedRange.range = ranges ∧
      ∀ r ∈ rwList, r.Partitioned ∧ r.OnCores (policyMode mode cpu) (policyCpu cpu) coreNum ∧
        ∀ lookup ∈ tableLookups (splitRange (policyMode mode cpu) coreNum
          (ulSub r.range.stop r.range.start)), InTable coreNum lookup := by
  obtain ⟨table, htable, hbuilt⟩ := testPolicy_eq_built hcore hmode hcpu ranges
  refine ⟨_, hbuilt, by rw [List.map_map]; exact List.map_id _, ?_⟩
  intro r hr
  obtain ⟨rw, hrw, rfl⟩ := List.mem_map.mp hr
  obtain ⟨hstop, m, hm, hsize⟩ := hranges rw hrw
  have hmapped : rw.Mapped := ⟨by omega, hstop⟩
  have hbytes : rw.stop - rw.start = minBlockSize * m := by omega
  have heven : (splitRange (policyMode mode cpu) coreNum (ulSub rw.stop rw.start)).Even
      (rw.stop - rw.start) := by
    rw [hmapped.size, hbytes]
    exact splitRange_even hcore.1 hm
  exact ⟨sliceRange_partitioned hmapped heven, sliceRange_onCores htable hcore.1 rw _,
    lookups_inTable _ hcore.1 _⟩

/-- Seven blocks on three cores: the last slice takes the block that is left over. -/
theorem testPolicy_partitions_seven :
    (1 ≤ 3 ∧ 3 ≤ coreCount) ∧ ∃ rwList,
      testPolicy .locally noSpecifyCpu 3 [⟨0x10000, 0x17000, 0x50000, 0x57000⟩] = .built rwList ∧
      rwList.map SlicedRange.range = [⟨0x10000, 0x17000, 0x50000, 0x57000⟩] ∧
      ∀ r ∈ rwList, r.Partitioned ∧
        r.OnCores (policyMode .locally noSpecifyCpu) (policyCpu noSpecifyCpu) 3 ∧
        ∀ lookup ∈ tableLookups (splitRange (policyMode .locally noSpecifyCpu) 3
          (ulSub r.range.stop r.range.start)), InTable 3 lookup :=
  ⟨by decide, testPolicy_partitions (by decide) (by decide) (Or.inl rfl) _ (by
    intro rw hrw
    obtain rfl := List.mem_singleton.mp hrw
    exact ⟨by decide, 7, by decide, by decide⟩)⟩

end MoBoMemory.App
