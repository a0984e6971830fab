import Mathlib.Data.List.Perm.Basic
import MoBoMemory.App.ReadWriteTest

/-!
# The schedule of the threads

When every thread can be created, `read_write_test` runs every item on every slice exactly once,
larger ranges first, and no two threads that are alive together share a byte or an entry of
`thread_stru`.
-/

namespace MoBoMemory.App

open Base

/-- What a thread is to do: an item, and a block with its length, on a core. -/
structure Task where
  item : Int
  block : Nat
  bytes : Nat
  cpuid : Int
deriving DecidableEq

def ThreadInfo.task (t : ThreadInfo) : Task := ⟨t.itemId, t.block, t.blockBytes, t.cpuid⟩

def sliceTask (item : Int) (s : TestSlice) : Task := ⟨item, s.start, s.stop - s.start, s.cpuid⟩

def ThreadInfo.span (t : ThreadInfo) : Span Nat := ⟨t.block, t.block + t.blockBytes⟩

/-- The threads that were started, in this order. -/
def started (trace : List ThreadEvent) : List ThreadInfo :=
  trace.filterMap fun
    | .created _ info => some info
    | _ => none

/-- A thread is alive at most from its creation to its join. -/
def aliveStep (alive : List (Nat × ThreadInfo)) : ThreadEvent → List (Nat × ThreadInfo)
  | .created slot info => (slot, info) :: alive
  | .notCreated _ _ => alive
  | .joined slot _ _ => alive.eraseP fun t => t.1 = slot

def alive (trace : List ThreadEvent) : List (Nat × ThreadInfo) := trace.foldl aliveStep []

/-- No two of the threads share an entry of `thread_stru` or a byte of their blocks. -/
def Separate (threads : List (Nat × ThreadInfo)) : Prop :=
  threads.Pairwise fun t u => t.1 ≠ u.1 ∧ t.2.span.Apart u.2.span

structure ExactSchedule (items : List Int) (rwList : List SlicedRange)
    (trace : List ThreadEvent) : Prop where
  exactlyOnce : ((started trace).map ThreadInfo.task).Perm
    (items.flatMap fun item => rwList.flatMap fun r => r.slices.map (sliceTask item))
  bySize : ∃ order : List SlicedRange, order.Perm rwList ∧
    (order.Pairwise fun r r' =>
      r'.range.stop - r'.range.start ≤ r.range.stop - r.range.start) ∧
    (started trace).map ThreadInfo.task =
      items.flatMap fun item => order.flatMap fun r => r.slices.reverse.map (sliceTask item)
  separate : ∀ pre, pre <+: trace → Separate (alive pre)
  allJoined : alive trace = []

theorem flatMap_zipIdx {α β : Type*} (f : α → List β) (l : List α) :
    (l.zipIdx.flatMap fun x => f x.1) = l.flatMap f := by
  rw [← List.flatMap_map Prod.fst, List.zipIdx_map_fst]

/-! ## Which threads are started -/

section Started

variable {noComp : Int}

theorem started_append (trace trace' : List ThreadEvent) :
    started (trace ++ trace') = started trace ++ started trace' :=
  List.filterMap_append

theorem started_flatMap {α : Type*} (f : α → List ThreadEvent) (l : List α) :
    started (l.flatMap f) = l.flatMap fun x => started (f x) :=
  List.filterMap_flatMap

theorem started_roundEvents {env : RoundEnv} (hcreate : ∀ k, env.create k = true) (item : Int)
    (r : RangeInfo) :
    started (roundEvents env noComp item r) = r.sinfo.reverse.map (threadInfo noComp item) := by
  have hjoins : started (r.sinfo.zipIdx.flatMap (joinEvents env noComp item)) = [] := by
    rw [started_flatMap, List.flatMap_eq_nil_iff]
    intro slot _
    rw [joinEvents_of_create (hcreate _)]
    rfl
  have hcreates : ∀ slots : List (SliceInfo × Nat),
      started (slots.map (createEvent env noComp item)) =
        (slots.map Prod.fst).map (threadInfo noComp item) := by
    intro slots
    induction slots with
    | nil => rfl
    | cons slot slots ih =>
        rw [List.map_cons, createEvent, if_pos (hcreate _)]
        exact congrArg (_ :: ·) ih
  rw [roundEvents, started_append, hjoins, List.append_nil, hcreates, List.map_reverse,
    List.zipIdx_map_fst]

theorem started_runEvents {env : Nat → Nat → RoundEnv}
    (hcreate : ∀ n j k, (env n j).create k = true) (items : List Int) (table : List RangeInfo) :
    started (runEvents env noComp items table) =
      items.flatMap fun item => table.flatMap fun r =>
        r.sinfo.reverse.map (threadInfo noComp item) := by
  have hround : ∀ n j item r, started (roundEvents (env n j) noComp item r) =
      r.sinfo.reverse.map (threadInfo noComp item) :=
    fun n j => started_roundEvents (hcreate n j)
  simp only [runEvents, started_flatMap, hround]
  rw [flatMap_zipIdx fun item => table.zipIdx.flatMap fun r =>
    r.1.sinfo.reverse.map (threadInfo noComp item)]
  congr 1
  funext item
  exact flatMap_zipIdx (fun r => r.sinfo.reverse.map (threadInfo noComp item)) table

theorem threadInfo_task {r : SlicedRange} (hproper : r.Proper) {s : TestSlice} (hs : s ∈ r.slices)
    (item : Int) : (threadInfo noComp item (sliceInfo s)).task = sliceTask item s := by
  obtain ⟨-, hle, hstop⟩ := hproper.bounds s hs
  have hcpu := hproper.cpuid s hs
  unfold coreCount at hcpu
  have hsize : ulSub s.stop s.start = s.stop - s.start :=
    ulSub_of_le hle (lt_of_le_of_lt hstop hproper.mapped.2)
  have hshort : ((s.cpuid % 2 ^ 16).toNat : Int) = s.cpuid := by omega
  show Task.mk item s.start (ulSub s.stop s.start) ((s.cpuid % 2 ^ 16).toNat : Int) = _
  rw [hsize, hshort]
  rfl

end Started

/-! ## Which threads are alive together -/

section Alive

variable {env : RoundEnv} {noComp item : Int}

def slotThread (noComp item : Int) (slot : SliceInfo × Nat) : Nat × ThreadInfo :=
  (slot.2, threadInfo noComp item slot.1)

theorem Separate.tail {t : Nat × ThreadInfo} {threads : List (Nat × ThreadInfo)}
    (h : Separate (t :: threads)) : Separate threads :=
  (List.pairwise_cons.mp h).2

-- The creating loop goes through the slots from the last to the first, so the living are always the
-- end of the list.
theorem along_creates (hcreate : ∀ k, env.create k = true) {slots : List (SliceInfo × Nat)}
    (hsep : Separate (slots.map (slotThread noComp item))) :
    Along aliveStep Separate [] (slots.reverse.map (createEvent env noComp item)) ∧
      (slots.reverse.map (createEvent env noComp item)).foldl aliveStep [] =
        slots.map (slotThread noComp item) := by
  induction slots with
  | nil => exact ⟨along_nil.mpr List.Pairwise.nil, rfl⟩
  | cons slot slots ih =>
      obtain ⟨halong, hend⟩ := ih hsep.tail
      have hevent : createEvent env noComp item slot =
          .created slot.2 (threadInfo noComp item slot.1) := by
        rw [createEvent, if_pos (hcreate _)]
      rw [List.reverse_cons, List.map_append, along_append, List.foldl_append, hend]
      rw [List.map_singleton, along_cons, along_nil, hevent]
      exact ⟨⟨halong, hsep.tail, hsep⟩, rfl⟩

-- The joining loop takes the living away from the front.
theorem along_joins (hcreate : ∀ k, env.create k = true) {slots : List (SliceInfo × Nat)}
    (hsep : Separate (slots.map (slotThread noComp item))) :
    Along aliveStep Separate (slots.map (slotThread noComp item))
        (slots.flatMap (joinEvents env noComp item)) ∧
      (slots.flatMap (joinEvents env noComp item)).foldl aliveStep
        (slots.map (slotThread noComp item)) = [] := by
  induction slots with
  | nil => exact ⟨along_nil.mpr List.Pairwise.nil, rfl⟩
  | cons slot slots ih =>
      have hjoined : aliveStep ((slot :: slots).map (slotThread noComp item))
          (.joined slot.2 (threadInfo noComp item slot.1) (sliceOutcome env noComp item slot)) =
          slots.map (slotThread noComp item) := by
        rw [List.map_cons, aliveStep, List.eraseP_cons_of_pos]
        exact decide_eq_true rfl
      rw [List.flatMap_cons, joinEvents_of_create (hcreate _), List.singleton_append, along_cons,
        List.foldl_cons, hjoined]
      obtain ⟨halong, hend⟩ := ih hsep.tail
      exact ⟨⟨hsep, halong⟩, hend⟩

theorem along_roundEvents (hcreate : ∀ k, env.create k = true) {r : RangeInfo}
    (hsep : Separate (r.sinfo.zipIdx.map (slotThread noComp item))) :
    Along aliveStep Separate [] (roundEvents env noComp item r) ∧
      (roundEvents env noComp item r).foldl aliveStep [] = [] := by
  obtain ⟨hcreates, hall⟩ := along_creates hcreate hsep
  obtain ⟨hjoins, hnone⟩ := along_joins hcreate hsep
  rw [roundEvents, along_append, List.foldl_append, hall]
  exact ⟨⟨hcreates, hjoins⟩, hnone⟩

theorem separate_slots {r : SlicedRange} (hproper : r.Proper) :
    Separate ((rangeInfo r).sinfo.zipIdx.map (slotThread noComp item)) := by
  rw [Separate, List.pairwise_map]
  have hslots : (rangeInfo r).sinfo.zipIdx.Pairwise fun a b => a.2 ≠ b.2 := by
    rw [← List.pairwise_map, List.zipIdx_map_snd]
    exact List.nodup_range'
  have hspans : (rangeInfo r).sinfo.zipIdx.Pairwise fun a b =>
      (threadInfo noComp item a.1).span.Apart (threadInfo noComp item b.1).span := by
    rw [← List.pairwise_map (f := Prod.fst) (R := fun a b =>
      (threadInfo noComp item a).span.Apart (threadInfo noComp item b).span),
      List.zipIdx_map_fst, rangeInfo, List.pairwise_map]
    apply hproper.apart.imp_of_mem
    intro s t hs ht hapart
    have hspan : ∀ s ∈ r.slices, (threadInfo noComp item (sliceInfo s)).span = s.span := by
      intro s hs
      obtain ⟨-, hle, hstop⟩ := hproper.bounds s hs
      have hbound := hproper.mapped.2
      show Span.mk s.start (s.start + ulSub s.stop s.start) = ⟨s.start, s.stop⟩
      rw [ulSub_of_le hle (by omega), Nat.add_sub_cancel' hle]
    rw [hspan s hs, hspan t ht]
    exact hapart
  exact hslots.and hspans

end Alive

/-! ## The whole run -/

theorem exactSchedule_runEvents {env : Nat → Nat → RoundEnv} {noComp : Int}
    (hcreate : ∀ n j k, (env n j).create k = true) (items : List Int) {rwList : List SlicedRange}
    (hproper : ∀ r ∈ rwList, r.Proper) :
    ExactSchedule items rwList
      (runEvents env noComp items (sortedTable rwList)) := by
  rw [sortedTable]
  -- sorting the copies of the ranges is copying the sorted ranges
  have htable := exchangeSort_map RangeInfo.size rangeInfo rwList
  generalize horder : exchangeSort (fun r => (rangeInfo r).size) rwList = order at htable
  have hperm : order.Perm rwList := by
    rw [← horder]
    exact exchangeSort_perm _ rwList
  have hproper' : ∀ r ∈ order, r.Proper := fun r hr => hproper r (hperm.mem_iff.mp hr)
  have hsorted : order.Pairwise fun r r' =>
      r'.range.stop - r'.range.start ≤ r.range.stop - r.range.start := by
    have hsorted := exchangeSort_sorted (fun r => (rangeInfo r).size) rwList
    rw [horder] at hsorted
    apply hsorted.imp_of_mem
    intro r r' hr hr' hle
    have hsize := (hproper' r hr).mapped.size
    have hsize' := (hproper' r' hr').mapped.size
    rw [← hsize, ← hsize']
    exact hle
  have htasks : (started (runEvents env noComp items (order.map rangeInfo))).map ThreadInfo.task =
      items.flatMap fun item => order.flatMap fun r => r.slices.reverse.map (sliceTask item) := by
    rw [started_runEvents hcreate, List.map_flatMap]
    congr 1
    funext item
    rw [List.flatMap_map, List.map_flatMap]
    apply List.flatMap_congr
    intro r hr
    rw [rangeInfo, ← List.map_reverse, List.map_map, List.map_map]
    apply List.map_congr_left
    intro s hs
    exact threadInfo_task (hproper' r hr) (List.mem_reverse.mp hs) item
  -- every round begins and ends without a living thread
  have halive : Along aliveStep Separate [] (runEvents env noComp items (order.map rangeInfo)) ∧
      (runEvents env noComp items (order.map rangeInfo)).foldl aliveStep [] = [] := by
    apply along_flatMap List.Pairwise.nil
    intro item _
    apply along_flatMap List.Pairwise.nil
    intro entry hentry
    have hmem : entry.1 ∈ order.map rangeInfo := by
      rw [← List.zipIdx_map_fst 0 (order.map rangeInfo)]
      exact List.mem_map_of_mem hentry
    obtain ⟨r, hr, hinfo⟩ := List.mem_map.mp hmem
    rw [← hinfo]
    exact along_roundEvents (hcreate _ _) (separate_slots (hproper' r hr))
  rw [htable]
  refine ⟨?_, ⟨order, hperm, hsorted, htasks⟩, halive.1, halive.2⟩
  rw [htasks]
  apply List.Perm.flatMap_left
  intro item _
  apply hperm.flatMap
  intro r _
  exact (List.reverse_perm r.slices).map _

/-- For ranges that `test_policy` has sliced, every run of `read_write_test` that gets past the
random-pattern stage and can create its threads follows the exact schedule. -/
theorem schedule_exact {env : RWEnv} {pattern pattern' : PatternState} {noComp : Int}
    {testItem : List Int} {mode : TestMode} {cpu : Int} {coreNum : Nat} {ranges : List RWRange}
    {rwList : List SlicedRange} (hmapped : ∀ rw ∈ ranges, rw.Mapped)
    (hbuilt : testPolicy mode cpu coreNum ranges = .built rwList) (hfits : FitsTables rwList)
    (hpattern : patternStage env.pattern (testItems testItem) pattern = .ok pattern')
    (hcreate : ∀ n j k, (env.round n j).create k = true) :
    ∃ result, readWriteTest env pattern noComp testItem rwList = some result ∧
      ExactSchedule (testItems testItem) rwList result.trace := by
  have hproper := (testPolicy_built hbuilt hmapped).2
  refine ⟨_, readWriteTest_tested hfits hpattern, ?_⟩
  exact exactSchedule_runEvents hcreate (testItems testItem) hproper

/-- Library calls that succeed and threads that find nothing. -/
def quietEnv : RWEnv :=
  { pattern := ⟨fun _ => none, fun _ => none, fun _ => none, fun _ _ => none, fun _ => none,
      fun _ _ _ => 0, fun _ => none⟩
    round := fun _ _ => ⟨fun _ => true, fun _ => true, fun _ _ => 0, fun _ => none⟩ }

/-- Two mappings of one and of five pages. -/
def twoMappings : List RWRange :=
  [⟨0x10000, 0x11000, 0x200000, 0x201000⟩, ⟨0x20000, 0x25000, 0x300000, 0x305000⟩]

/-- What two cores make of them; the remainder of the larger one goes to its last slice. -/
def twoMappingsSliced : List SlicedRange :=
  [⟨⟨0x10000, 0x11000, 0x200000, 0x201000⟩, [⟨0x10000, 0x11000, 0x200000, 0⟩]⟩,
    ⟨⟨0x20000, 0x25000, 0x300000, 0x305000⟩,
      [⟨0x22000, 0x25000, 0x302000, 1⟩, ⟨0x20000, 0x22000, 0x300000, 0⟩]⟩]

theorem schedule_exact_two :
    testPolicy .locally (-1) 2 twoMappings = .built twoMappingsSliced ∧
      ∃ result, readWriteTest quietEnv ⟨none, none⟩ 0 [10, 0, -1] twoMappingsSliced = some result ∧
        ExactSchedule [10, 0] twoMappingsSliced result.trace := by
  have hbuilt : testPolicy .locally (-1) 2 twoMappings = .built twoMappingsSliced := by decide
  refine ⟨hbuilt, ?_⟩
  exact schedule_exact (by simp [twoMappings, RWRange.Mapped]) hbuilt (by decide) rfl
    (fun _ _ _ => rfl)

end MoBoMemory.App
