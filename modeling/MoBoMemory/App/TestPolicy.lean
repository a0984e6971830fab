import MoBoMemory.App.InitModule

/-!
# Splitting a range among the cores

`test_policy` cuts every range of `RW_list` into test slices, one for each thread that will work on
it.  Result: the slices of a range are disjoint, lie in the range and leave nothing of it out.
-/

namespace MoBoMemory.App

open Base

def errCoreNum : Nat := 0xA0000007
def coreCount : Nat := 32
def noSpecifyCpu : Int := -1

/-- `p->mode`: LOCAL, REMOTE, SPECIFIC and ALL. -/
inductive TestMode where
  | locally
  | remote
  | specific
  | all
deriving DecidableEq

/-- `test_slice`. -/
structure TestSlice where
  start : Nat
  stop : Nat
  phyStart : Nat
  cpuid : Int
deriving DecidableEq

/-- An entry of `RW_list` with its `RW_slice` list, in list order. -/
structure SlicedRange where
  range : RWRange
  slices : List TestSlice
deriving DecidableEq

inductive PolicyResult where
  | built (rwList : List SlicedRange)
  | returned (code : Nat)
  -- table[0] is still NULL when the first slice looks its core up
  | nullTable
deriving DecidableEq

def createLocalTable (i j : Nat) : Int := if j ≤ i then j else -1

def createSpecificTable (specId : Int) (_ _ : Nat) : Int := specId

/-- `table[0]` after the `switch`; REMOTE shares the case of LOCAL. -/
def policyTable (specCpu : Int) : TestMode → Option (Nat → Nat → Int)
  | .locally => some createLocalTable
  | .remote => some createLocalTable
  | .specific => some (createSpecificTable specCpu)
  | .all => none

structure Split where
  sliceNum : Nat
  stepSize : Nat
  remain : Nat
deriving DecidableEq

def splitRange (mode : TestMode) (coreNum rangeSize : Nat) : Split :=
  match mode with
  -- no range ever assigns remain in this mode, so it is still 0
  | .specific => ⟨1, rangeSize, 0⟩
  | _ =>
      if coreNum < rangeSize / minBlockSize then
        let stepSize := pfnStartRoundup (rangeSize / coreNum)
        ⟨coreNum, stepSize, rangeSize - stepSize * coreNum⟩
      else ⟨rangeSize / minBlockSize, minBlockSize, rangeSize % minBlockSize⟩

def testSlice (table : Nat → Nat → Int) (rw : RWRange) (split : Split) (n : Nat) : TestSlice :=
  let start := (rw.start + n * split.stepSize) % 2 ^ 64
  let stop := (start + split.stepSize) % 2 ^ 64
  { start := start
    stop := if n = split.sliceNum - 1 then (stop + split.remain) % 2 ^ 64 else stop
    phyStart := (rw.phyStart + n * split.stepSize) % 2 ^ 64
    cpuid := table (split.sliceNum - 1) n }

/-- `list_add` puts each slice in front of those before it. -/
def sliceRange (table : Nat → Nat → Int) (rw : RWRange) (split : Split) : List TestSlice :=
  ((List.range split.sliceNum).map (testSlice table rw split)).reverse

/-- `test_policy`, for what `sysconf` says of the cores (as `unsigned long`). -/
def testPolicy (mode : TestMode) (cpu : Int) (coreNum : Nat) (rwList : List RWRange) :
    PolicyResult :=
  if coreNum = 0 ∨ coreCount < coreNum then .returned errCoreNum
  -- the comparison is between unsigned longs, so a negative cpu is over the count too
  else if cpu ≠ noSpecifyCpu ∧ (cpu < 0 ∨ coreNum ≤ cpu) then .returned errCoreNum
  else
    let specCpu := if cpu = noSpecifyCpu then 0 else cpu
    let mode := if cpu = noSpecifyCpu then mode else .specific
    let split := fun rw : RWRange => splitRange mode coreNum (ulSub rw.stop rw.start)
    match policyTable specCpu mode with
    | some table => .built (rwList.map fun rw => ⟨rw, sliceRange table rw (split rw)⟩)
    | none =>
        if rwList.all fun rw => (split rw).sliceNum = 0 then
          .built (rwList.map fun rw => ⟨rw, []⟩)
        else .nullTable

def RWRange.span (rw : RWRange) : Span Nat := ⟨rw.start, rw.stop⟩

def TestSlice.span (s : TestSlice) : Span Nat := ⟨s.start, s.stop⟩

/-- A mapping does not run over the end of the address space. -/
def RWRange.Mapped (rw : RWRange) : Prop := rw.start ≤ rw.stop ∧ rw.stop < 2 ^ 64

/-! ## The slices of one range -/

-- The slices account for every byte, unless the range is smaller than a block and gets none.
theorem splitRange_total {mode : TestMode} {coreNum rangeSize : Nat}
    (hpos : 0 < (splitRange mode coreNum rangeSize).sliceNum) :
    let split := splitRange mode coreNum rangeSize
    split.sliceNum * split.stepSize + split.remain = rangeSize := by
  have hgeneral : ∀ blocks : Split,
      blocks = (if coreNum < rangeSize / minBlockSize then
        ⟨coreNum, pfnStartRoundup (rangeSize / coreNum),
          rangeSize - pfnStartRoundup (rangeSize / coreNum) * coreNum⟩
      else ⟨rangeSize / minBlockSize, minBlockSize, rangeSize % minBlockSize⟩) →
      blocks.sliceNum * blocks.stepSize + blocks.remain = rangeSize := by
    rintro _ rfl
    split
    · -- the step is rounded down, so the steps together do not exceed the range
      have hstep : pfnStartRoundup (rangeSize / coreNum) ≤ rangeSize / coreNum :=
        Nat.div_mul_le_self _ _
      have hsteps : pfnStartRoundup (rangeSize / coreNum) * coreNum ≤ rangeSize :=
        le_trans (Nat.mul_le_mul_right coreNum hstep) (Nat.div_mul_le_self _ _)
      show coreNum * pfnStartRoundup (rangeSize / coreNum) +
        (rangeSize - pfnStartRoundup (rangeSize / coreNum) * coreNum) = rangeSize
      rw [Nat.mul_comm coreNum]
      omega
    · exact Nat.div_add_mod' rangeSize minBlockSize
  cases mode with
  | specific => simp [splitRange]
  | locally => exact hgeneral _ rfl
  | remote => exact hgeneral _ rfl
  | all => exact hgeneral _ rfl

section Slices

variable {table : Nat → Nat → Int} {rw : RWRange} {split : Split} {n : Nat}

variable (table) in
-- The bounds of slice `n`, free of wrap-around.
theorem testSlice_span (hmapped : rw.Mapped)
    (htotal : split.sliceNum * split.stepSize + split.remain = rw.stop - rw.start)
    (hn : n < split.sliceNum) :
    (testSlice table rw split n).span =
      ⟨rw.start + n * split.stepSize,
        if n + 1 = split.sliceNum then rw.stop else rw.start + (n + 1) * split.stepSize⟩ := by
  obtain ⟨hle, hbound⟩ := hmapped
  have hsteps : (n + 1) * split.stepSize ≤ split.sliceNum * split.stepSize :=
    Nat.mul_le_mul_right _ hn
  rw [Nat.succ_mul] at hsteps ⊢
  have hstart : (rw.start + n * split.stepSize) % 2 ^ 64 = rw.start + n * split.stepSize :=
    Nat.mod_eq_of_lt (by omega)
  have hstop : (rw.start + n * split.stepSize + split.stepSize) % 2 ^ 64 =
      rw.start + n * split.stepSize + split.stepSize := Nat.mod_eq_of_lt (by omega)
  simp only [TestSlice.span, testSlice, hstart, hstop]
  by_cases hlast : n + 1 = split.sliceNum
  · -- the last slice takes what the division left over
    have htotal' : (n + 1) * split.stepSize + split.remain = rw.stop - rw.start := by
      rw [hlast, htotal]
    rw [Nat.succ_mul] at htotal'
    rw [if_pos (by omega), if_pos hlast, Nat.mod_eq_of_lt (by omega)]
    congr 1
    omega
  · rw [if_neg (by omega), if_neg hlast, Nat.add_assoc]

theorem mem_sliceRange {s : TestSlice} :
    s ∈ sliceRange table rw split ↔ ∃ n < split.sliceNum, testSlice table rw split n = s := by
  rw [sliceRange, List.mem_reverse, List.mem_map]
  simp only [List.mem_range]

theorem testSlice_stop_le_start (hmapped : rw.Mapped)
    (htotal : split.sliceNum * split.stepSize + split.remain = rw.stop - rw.start)
    {m : Nat} (hmn : m < n) (hn : n < split.sliceNum) :
    (testSlice table rw split m).span.hi ≤ (testSlice table rw split n).span.lo := by
  rw [testSlice_span table hmapped htotal (lt_trans hmn hn), testSlice_span table hmapped htotal hn]
  rw [if_neg (by omega)]
  have hsteps : (m + 1) * split.stepSize ≤ n * split.stepSize := Nat.mul_le_mul_right _ hmn
  show rw.start + _ ≤ rw.start + _
  omega

theorem sliceRange_apart (hmapped : rw.Mapped)
    (htotal : 0 < split.sliceNum →
      split.sliceNum * split.stepSize + split.remain = rw.stop - rw.start) :
    (sliceRange table rw split).Pairwise fun s t => s.span.Apart t.span := by
  rw [sliceRange, List.pairwise_reverse, List.pairwise_map]
  apply List.pairwise_lt_range.imp_of_mem
  intro m n _ hn hmn
  rw [List.mem_range] at hn
  exact (Span.Apart.of_le
    (testSlice_stop_le_start hmapped (htotal (by omega)) hmn hn)).symm

theorem testSlice_bounds (hmapped : rw.Mapped)
    (htotal : split.sliceNum * split.stepSize + split.remain = rw.stop - rw.start)
    (hn : n < split.sliceNum) :
    let s := testSlice table rw split n
    rw.start ≤ s.start ∧ s.start ≤ s.stop ∧ s.stop ≤ rw.stop := by
  have hspan := testSlice_span table hmapped htotal hn
  have hsteps : (n + 1) * split.stepSize ≤ split.sliceNum * split.stepSize :=
    Nat.mul_le_mul_right _ hn
  rw [Nat.succ_mul] at hsteps hspan
  have hlo : (testSlice table rw split n).start = _ := congrArg Span.lo hspan
  have hhi : (testSlice table rw split n).stop = _ := congrArg Span.hi hspan
  have hle := hmapped.1
  simp only [hlo, hhi]
  split <;> omega

/-- Every byte of a range that is split at all is in one of its slices. -/
theorem sliceRange_covers (hmapped : rw.Mapped)
    (htotal : split.sliceNum * split.stepSize + split.remain = rw.stop - rw.start)
    (hpos : 0 < split.sliceNum) {p : Nat} (hp : p ∈ rw.span) :
    ∃ s ∈ sliceRange table rw split, p ∈ s.span := by
  obtain ⟨hlo, hhi⟩ := hp
  -- the slice that starts last among those that start at or below p
  have hcover : ∀ m, m < split.sliceNum → rw.start + m * split.stepSize ≤ p →
      ∃ n < split.sliceNum, p ∈ (testSlice table rw split n).span := by
    intro m hm
    induction hk : split.sliceNum - 1 - m generalizing m with
    | zero =>
        intro hle
        refine ⟨m, hm, ?_⟩
        rw [testSlice_span table hmapped htotal hm, if_pos (by omega)]
        exact ⟨hle, hhi⟩
    | succ k ih =>
        intro hle
        by_cases hnext : rw.start + (m + 1) * split.stepSize ≤ p
        · exact ih (m + 1) (by omega) (by omega) hnext
        · refine ⟨m, hm, ?_⟩
          rw [testSlice_span table hmapped htotal hm, if_neg (by omega)]
          exact ⟨hle, not_le.mp hnext⟩
  obtain ⟨n, hn, hpn⟩ := hcover 0 hpos (by rw [Nat.zero_mul]; exact hlo)
  exact ⟨_, mem_sliceRange.mpr ⟨n, hn, rfl⟩, hpn⟩

end Slices

/-! ## The lists that `test_policy` builds -/

/-- What the later stages rely on in a range with its slices. -/
structure SlicedRange.Proper (r : SlicedRange) : Prop where
  mapped : r.range.Mapped
  apart : r.slices.Pairwise fun s t => s.span.Apart t.span
  bounds : ∀ s ∈ r.slices, r.range.start ≤ s.start ∧ s.start ≤ s.stop ∧ s.stop ≤ r.range.stop
  cpuid : ∀ s ∈ r.slices, 0 ≤ s.cpuid ∧ s.cpuid < coreCount
  covers : r.slices ≠ [] → ∀ p ∈ r.range.span, ∃ s ∈ r.slices, p ∈ s.span

theorem RWRange.Mapped.size {rw : RWRange} (h : rw.Mapped) :
    ulSub rw.stop rw.start = rw.stop - rw.start :=
  ulSub_of_le h.1 h.2

theorem policyTable_cpuid {mode : TestMode} {specCpu : Int} {coreNum rangeSize n : Nat}
    {table : Nat → Nat → Int} (htable : policyTable specCpu mode = some table)
    (hspec : 0 ≤ specCpu ∧ specCpu < coreNum)
    (hn : n < (splitRange mode coreNum rangeSize).sliceNum) :
    let cpuid := table ((splitRange mode coreNum rangeSize).sliceNum - 1) n
    0 ≤ cpuid ∧ cpuid < coreNum := by
  have hlocal : ∀ m : Nat, n < m → m ≤ coreNum → 0 ≤ createLocalTable (m - 1) n ∧
      createLocalTable (m - 1) n < coreNum := by
    intro m hnm hm
    rw [createLocalTable, if_pos (by omega)]
    omega
  have hcount : mode ≠ .specific → (splitRange mode coreNum rangeSize).sliceNum ≤ coreNum := by
    intro hmode
    unfold splitRange
    split
    · exact absurd rfl hmode
    · split
      · exact le_refl _
      · next h => exact not_lt.mp h
  cases mode with
  | locally =>
      obtain rfl := Option.some.inj htable
      exact hlocal _ hn (hcount (by simp))
  | remote =>
      obtain rfl := Option.some.inj htable
      exact hlocal _ hn (hcount (by simp))
  | specific =>
      obtain rfl := Option.some.inj htable
      exact hspec
  | all => simp [policyTable] at htable

theorem sliceRange_proper {mode : TestMode} {specCpu : Int} {coreNum : Nat} {rw : RWRange}
    {table : Nat → Nat → Int} (htable : policyTable specCpu mode = some table)
    (hspec : 0 ≤ specCpu ∧ specCpu < coreNum) (hcores : coreNum ≤ coreCount)
    (hmapped : rw.Mapped) :
    SlicedRange.Proper
      ⟨rw, sliceRange table rw (splitRange mode coreNum (ulSub rw.stop rw.start))⟩ := by
  have htotal : 0 < (splitRange mode coreNum (ulSub rw.stop rw.start)).sliceNum → _ :=
    splitRange_total
  rw [hmapped.size] at htotal ⊢
  refine ⟨hmapped, sliceRange_apart hmapped htotal, ?_, ?_, ?_⟩
  · intro s hs
    obtain ⟨n, hn, rfl⟩ := mem_sliceRange.mp hs
    exact testSlice_bounds hmapped (htotal (by omega)) hn
  · intro s hs
    obtain ⟨n, hn, rfl⟩ := mem_sliceRange.mp hs
    have hcpu := policyTable_cpuid htable hspec hn
    show 0 ≤ table _ n ∧ table _ n < _
    simp only at hcpu
    omega
  · intro hne p hp
    have hpos : 0 < (splitRange mode coreNum (rw.stop - rw.start)).sliceNum := by
      rw [Nat.pos_iff_ne_zero]
      intro hzero
      apply hne
      rw [sliceRange, hzero]
      rfl
    exact sliceRange_covers hmapped (htotal hpos) hpos hp

/-- Every list that `test_policy` builds for mapped ranges has the same ranges, properly sliced. -/
theorem testPolicy_built {mode : TestMode} {cpu : Int} {coreNum : Nat} {ranges : List RWRange}
    {rwList : List SlicedRange} (hbuilt : testPolicy mode cpu coreNum ranges = .built rwList)
    (hmapped : ∀ rw ∈ ranges, rw.Mapped) :
    rwList.map SlicedRange.range = ranges ∧ ∀ r ∈ rwList, r.Proper := by
  unfold testPolicy at hbuilt
  split at hbuilt
  · cases hbuilt
  next hcores =>
  split at hbuilt
  · cases hbuilt
  next hcpu =>
  have hspec : 0 ≤ (if cpu = noSpecifyCpu then 0 else cpu) ∧
      (if cpu = noSpecifyCpu then 0 else cpu) < (coreNum : Int) := by
    split
    · omega
    · next hgiven =>
        rw [not_and] at hcpu
        have hin := hcpu hgiven
        omega
  -- a mode with a table, or the mode without one and nothing to look up in it
  simp only at hbuilt
  split at hbuilt
  · next table htable =>
      obtain rfl := PolicyResult.built.inj hbuilt
      constructor
      · rw [List.map_map]
        exact List.map_id _
      · intro r hr
        obtain ⟨rw, hrw, rfl⟩ := List.mem_map.mp hr
        exact sliceRange_proper htable hspec (by omega) (hmapped rw hrw)
  · rw [ite_eq_iff] at hbuilt
    rcases hbuilt with ⟨-, hempty⟩ | ⟨-, hnull⟩
    · obtain rfl := PolicyResult.built.inj hempty
      constructor
      · rw [List.map_map]
        exact List.map_id _
      · intro r hr
        obtain ⟨rw, hrw, rfl⟩ := List.mem_map.mp hr
        exact ⟨hmapped rw hrw, List.Pairwise.nil, by simp, by simp, by simp⟩
    · exact absurd hnull (by simp)

end MoBoMemory.App
