import MoBoMemory.Base.Exchange
import MoBoMemory.Base.Runs
import MoBoMemory.Base.Tables
import MoBoMemory.App.RandomPattern
import MoBoMemory.App.TestPolicy

/-!
# The read/write test

`read_write_test` copies `RW_list` into its tables, loads the random pattern, sorts the ranges, and
then tests one range at a time with one item: it starts a thread for every slice, joins them all and
collects their return values.  NODE_COUNT and SOCKET_COUNT are 1, so the loops over nodes and sockets
run once and `thread_num` is 0 while the threads of a range are created.

The trace records what happened to the threads; the results below say what one round, and so a whole
run, adds to the trace and to `ret`.
-/

namespace MoBoMemory.App

open Base

def errTestItem : UInt32 := 0xA0000004
def errBindCpu : UInt32 := 0xA0000009
def errCreateThread : UInt32 := 0xA000000a
def memoryModule : Int := 2
def rangeCount : Nat := 12
def halfCoreCount : Nat := coreCount / 2

/-- `slice_info`. -/
structure SliceInfo where
  start : Nat
  stop : Nat
  cpuid : Int
deriving DecidableEq

/-- `RW_range_info`; `slice_num` is the length of `sinfo`. -/
structure RangeInfo where
  sinfo : List SliceInfo
  start : Nat
  stop : Nat
deriving DecidableEq

/-- `thread_info_struc`. -/
structure ThreadInfo where
  cpuid : Nat
  itemId : Int
  moduleId : Int
  block : Nat
  blockBytes : Nat
  noComp : Int
deriving DecidableEq

inductive TestFunction where
  | addrWalkOnes
  | addrWalkOwn
  | cacheRandaddr
  | movinv10
  | movinv8bit
  | movinvRandom
  | blockMove
  | movinvLong
  | randomNumSequence
  | memModulo
  | marchC
  | bitFade
deriving DecidableEq

/-- The `switch` on the item. -/
def testFunction : Int → Option TestFunction
  | 0 => some .addrWalkOnes
  | 1 => some .addrWalkOwn
  | 2 => some .cacheRandaddr
  | 3 => some .movinv10
  | 4 => some .movinv8bit
  | 5 => some .movinvRandom
  | 6 => some .blockMove
  | 7 => some .movinvLong
  | 8 => some .randomNumSequence
  | 9 => some .memModulo
  | 10 => some .marchC
  | 11 => some .bitFade
  | _ => none

inductive SliceOutcome where
  | bindFailed
  | wrongItem
  | otherModule
  | tested (function : TestFunction) (ret : UInt32)
deriving DecidableEq

/-- What the thread function returns. -/
def SliceOutcome.code : SliceOutcome → UInt32
  | .bindFailed => errBindCpu
  | .wrongItem => errTestItem
  | .otherModule => 0
  | .tested _ ret => ret

/-- How the threads of one range fare with one item; the arguments begin with the slice. -/
structure RoundEnv where
  create : Nat → Bool
  bind : Nat → Bool
  testRet : Nat → TestFunction → UInt32
  /-- After a failed creation `thread[k]` is unspecified: the value that joining it stores, or `none`
  if it is 0 or the join is refused. -/
  staleJoin : Nat → Option UInt32

structure RWEnv where
  pattern : PatternEnv
  /-- For entry `n` of the item list and range `j` of the sorted table. -/
  round : Nat → Nat → RoundEnv

inductive ThreadEvent where
  | created (slot : Nat) (info : ThreadInfo)
  | notCreated (slot : Nat) (info : ThreadInfo)
  | joined (slot : Nat) (info : ThreadInfo) (outcome : SliceOutcome)
deriving DecidableEq

structure RWState where
  ret : UInt32
  retVal : Nat → UInt32
  trace : List ThreadEvent

structure RWResult where
  ret : UInt32
  trace : List ThreadEvent
deriving DecidableEq

/-- `test_config.test_item` up to the `-1`. -/
def testItems (testItem : List Int) : List Int := testItem.takeWhile (· ≠ -1)

def sliceInfo (s : TestSlice) : SliceInfo := ⟨s.start, s.stop, s.cpuid⟩

def rangeInfo (r : SlicedRange) : RangeInfo := ⟨r.slices.map sliceInfo, r.range.start, r.range.stop⟩

/-- The list does not run over `rinfo` or `sinfo`. -/
def FitsTables (rwList : List SlicedRange) : Prop :=
  rwList.length ≤ rangeCount ∧ ∀ r ∈ rwList, r.slices.length ≤ halfCoreCount

instance (rwList : List SlicedRange) : Decidable (FitsTables rwList) :=
  inferInstanceAs (Decidable (_ ∧ _))

/-- The copying loops; `none` is a write behind the end of a table. -/
def copyTables (rwList : List SlicedRange) : Option (List RangeInfo) :=
  if FitsTables rwList then some (rwList.map rangeInfo) else none

/-- The size that the exchange loops compare. -/
def RangeInfo.size (r : RangeInfo) : Nat := ulSub r.stop r.start

/-- The entry of `thread_stru` for a slice; `cpuid` becomes an unsigned short. -/
def threadInfo (noComp item : Int) (s : SliceInfo) : ThreadInfo :=
  { cpuid := (s.cpuid % 2 ^ 16).toNat
    itemId := item
    moduleId := memoryModule
    block := s.start
    blockBytes := ulSub s.stop s.start
    noComp := noComp }

/-- `run_test_slice`. -/
def runTestSlice (bind : Bool) (testRet : TestFunction → UInt32) (thread : ThreadInfo) :
    SliceOutcome :=
  if bind then
    if thread.moduleId = memoryModule then
      match testFunction thread.itemId with
      | some f => .tested f (testRet f)
      | none => .wrongItem
    else .otherModule
  else .bindFailed

/-- `pthread_join` stores a pointer through `(void **)&ret_val[m]`: the upper half goes to the next
entry, and it is 0 because the thread function returned an unsigned int. -/
def storePointer (retVal : Nat → UInt32) (m : Nat) (v : UInt32) : Nat → UInt32 :=
  Function.update (Function.update retVal m v) (m + 1) 0

section Round

variable (env : RoundEnv) (noComp item : Int)

def createThread (st : RWState) (slot : SliceInfo × Nat) : RWState :=
  let info := threadInfo noComp item slot.1
  if env.create slot.2 then { st with trace := st.trace ++ [.created slot.2 info] }
  else
    { ret := errCreateThread
      retVal := Function.update st.retVal slot.2 errCreateThread
      trace := st.trace ++ [.notCreated slot.2 info] }

def sliceOutcome (slot : SliceInfo × Nat) : SliceOutcome :=
  runTestSlice (env.bind slot.2) (env.testRet slot.2) (threadInfo noComp item slot.1)

/-- The value that `pthread_join` stores, if it is called and succeeds. -/
def joinValue (slot : SliceInfo × Nat) : Option UInt32 :=
  if env.create slot.2 then some (sliceOutcome env noComp item slot).code
  else env.staleJoin slot.2

def joinEvents (slot : SliceInfo × Nat) : List ThreadEvent :=
  if env.create slot.2 then
    [.joined slot.2 (threadInfo noComp item slot.1) (sliceOutcome env noComp item slot)]
  else []

def joinThread (st : RWState) (slot : SliceInfo × Nat) : RWState :=
  { ret := st.ret
    retVal :=
      match joinValue env noComp item slot with
      | some v => storePointer st.retVal slot.2 v
      | none => st.retVal
    trace := st.trace ++ joinEvents env noComp item slot }

def collectResult (st : RWState) (slot : SliceInfo × Nat) : RWState :=
  if st.retVal slot.2 ≠ 0 then { st with ret := st.retVal slot.2 } else st

/-- One range: the creating loop counts down, the joining and the collecting loop count up. -/
def runRound (r : RangeInfo) (st : RWState) : RWState :=
  let slots := r.sinfo.zipIdx
  let st := slots.reverse.foldl (createThread env noComp item) st
  let st := slots.foldl (joinThread env noComp item) st
  slots.foldl collectResult st

end Round

def runItem (env : Nat → RoundEnv) (noComp item : Int) (table : List RangeInfo) (st : RWState) :
    RWState :=
  table.zipIdx.foldl (fun st entry => runRound (env entry.2) noComp item entry.1 st) st

def runItems (env : Nat → Nat → RoundEnv) (noComp : Int) (items : List Int)
    (table : List RangeInfo) (st : RWState) : RWState :=
  items.zipIdx.foldl (fun st entry => runItem (env entry.2) noComp entry.1 table st) st

/-- `read_write_test`; `none` is a write behind the end of its tables. -/
def readWriteTest (env : RWEnv) (pattern : PatternState) (noComp : Int) (testItem : List Int)
    (rwList : List SlicedRange) : Option RWResult :=
  match copyTables rwList with
  | none => none
  | some table =>
      match patternStage env.pattern (testItems testItem) pattern with
      | .error code => some ⟨code, []⟩
      | .ok _ =>
          let table := exchangeSort RangeInfo.size table
          let st := runItems env.round noComp (testItems testItem) table ⟨0, fun _ => 0, []⟩
          some ⟨st.ret, st.trace⟩

/-! ## What a run leaves in the trace -/

section Round

variable {env : RoundEnv} {noComp item : Int}

def createEvent (env : RoundEnv) (noComp item : Int) (slot : SliceInfo × Nat) : ThreadEvent :=
  if env.create slot.2 then .created slot.2 (threadInfo noComp item slot.1)
  else .notCreated slot.2 (threadInfo noComp item slot.1)

def roundEvents (env : RoundEnv) (noComp item : Int) (r : RangeInfo) : List ThreadEvent :=
  r.sinfo.zipIdx.reverse.map (createEvent env noComp item) ++
    r.sinfo.zipIdx.flatMap (joinEvents env noComp item)

def runEvents (env : Nat → Nat → RoundEnv) (noComp : Int) (items : List Int)
    (table : List RangeInfo) : List ThreadEvent :=
  items.zipIdx.flatMap fun item =>
    table.zipIdx.flatMap fun r => roundEvents (env item.2 r.2) noComp item.1 r.1

theorem createThread_trace (st : RWState) (slot : SliceInfo × Nat) :
    (createThread env noComp item st slot).trace =
      st.trace ++ [createEvent env noComp item slot] := by
  unfold createThread createEvent
  split <;> rfl

theorem foldl_collectResult (slots : List (SliceInfo × Nat)) (st : RWState) :
    (slots.foldl collectResult st).trace = st.trace ∧
      (slots.foldl collectResult st).retVal = st.retVal := by
  induction slots generalizing st with
  | nil => exact ⟨rfl, rfl⟩
  | cons slot slots ih =>
      rw [List.foldl_cons, (ih _).1, (ih _).2]
      unfold collectResult
      split <;> exact ⟨rfl, rfl⟩

theorem runRound_trace (r : RangeInfo) (st : RWState) :
    (runRound env noComp item r st).trace = st.trace ++ roundEvents env noComp item r := by
  rw [runRound, (foldl_collectResult _ _).1]
  rw [foldl_emits RWState.trace (joinEvents env noComp item) fun _ _ => rfl]
  rw [foldl_emits RWState.trace (fun slot => [createEvent env noComp item slot])
    createThread_trace]
  rw [roundEvents, List.append_assoc, List.map_eq_flatMap]

end Round

theorem runItems_trace (env : Nat → Nat → RoundEnv) (noComp : Int) (items : List Int)
    (table : List RangeInfo) (st : RWState) :
    (runItems env noComp items table st).trace =
      st.trace ++ runEvents env noComp items table := by
  apply foldl_emits RWState.trace
  intro st item
  apply foldl_emits RWState.trace
  intro st r
  exact runRound_trace r.1 st

/-! ## What a run leaves in `ret`

Every creation and every slice reports a code; 0 is success, and a later failure replaces an earlier
one.
-/

def laterFailure (ret code : UInt32) : UInt32 := if code ≠ 0 then code else ret

section Round

variable {env : RoundEnv} {noComp item : Int}

def createReport (env : RoundEnv) (slot : SliceInfo × Nat) : UInt32 :=
  if env.create slot.2 then 0 else errCreateThread

/-- `ret_val` of the slice once all threads are joined.  Without a join of its own it is what the
creating loop put there, unless the join before it has overwritten that with 0. -/
def slotReport (env : RoundEnv) (noComp item : Int) (slot : SliceInfo × Nat) : UInt32 :=
  match joinValue env noComp item slot with
  | some v => v
  | none =>
      if 0 < slot.2 ∧ (env.create (slot.2 - 1) || (env.staleJoin (slot.2 - 1)).isSome) then 0
      else errCreateThread

def roundReports (env : RoundEnv) (noComp item : Int) (r : RangeInfo) : List UInt32 :=
  r.sinfo.zipIdx.reverse.map (createReport env) ++ r.sinfo.zipIdx.map (slotReport env noComp item)

def runReports (env : Nat → Nat → RoundEnv) (noComp : Int) (items : List Int)
    (table : List RangeInfo) : List UInt32 :=
  items.zipIdx.flatMap fun item =>
    table.zipIdx.flatMap fun r => roundReports (env item.2 r.2) noComp item.1 r.1

theorem foldl_laterFailure_eq_zero {codes : List UInt32} {ret : UInt32} :
    codes.foldl laterFailure ret = 0 ↔ ret = 0 ∧ ∀ c ∈ codes, c = 0 := by
  induction codes generalizing ret with
  | nil => simp
  | cons c codes ih =>
      rw [List.foldl_cons, ih, List.forall_mem_cons, laterFailure]
      by_cases hc : c = 0
      · simp [hc]
      · simp [hc]

theorem createThreads_ret (slots : List (SliceInfo × Nat)) (st : RWState) :
    (slots.foldl (createThread env noComp item) st).ret =
      (slots.map (createReport env)).foldl laterFailure st.ret := by
  rw [List.map_eq_flatMap]
  apply foldl_proj RWState.ret
  intro st slot
  unfold createThread createReport
  split <;> simp [laterFailure, errCreateThread]

theorem joinThreads_ret (slots : List (SliceInfo × Nat)) (st : RWState) :
    (slots.foldl (joinThread env noComp item) st).ret = st.ret := by
  induction slots generalizing st with
  | nil => rfl
  | cons slot slots ih => exact ih _

theorem collectResults_ret (slots : List (SliceInfo × Nat)) (st : RWState) :
    (slots.foldl collectResult st).ret =
      (slots.map fun slot => st.retVal slot.2).foldl laterFailure st.ret := by
  induction slots generalizing st with
  | nil => rfl
  | cons slot slots ih =>
      rw [List.foldl_cons, ih, List.map_cons, List.foldl_cons]
      unfold collectResult laterFailure
      split <;> rfl

-- A slice without a thread has the failure code in `ret_val` when the joining loop begins.
theorem createThreads_retVal {slots : List (SliceInfo × Nat)} {slot : SliceInfo × Nat}
    (hslot : slot ∈ slots) (hcreate : env.create slot.2 = false) (st : RWState) :
    (slots.foldl (createThread env noComp item) st).retVal slot.2 = errCreateThread := by
  have hkeep : ∀ other st, st.retVal slot.2 = errCreateThread →
      (createThread env noComp item st other).retVal slot.2 = errCreateThread := by
    intro other st hst
    unfold createThread
    split
    · exact hst
    · by_cases hsame : slot.2 = other.2
      · rw [hsame]
        exact Function.update_self _ _ _
      · exact (Function.update_of_ne hsame _ _).trans hst
  have hset : ∀ st, (createThread env noComp item st slot).retVal slot.2 = errCreateThread := by
    intro st
    rw [createThread, if_neg (by simp [hcreate])]
    exact Function.update_self _ _ _
  -- once set, the code stays: the loop writes no other value there
  induction slots generalizing st with
  | nil => cases hslot
  | cons other slots ih =>
      rw [List.foldl_cons]
      rcases List.mem_cons.mp hslot with hhead | htail
      · rw [← hhead]
        exact foldl_preserves (I := fun st => st.retVal slot.2 = errCreateThread) (fun _ => True)
          (fun st other _ => hkeep other st) (fun _ _ => trivial) (hset st)
      · exact ih htail _

theorem joinThread_retVal (st : RWState) (slot : SliceInfo × Nat) (m : Nat) :
    (joinThread env noComp item st slot).retVal m =
      match joinValue env noComp item slot with
      | some v => if m = slot.2 + 1 then 0 else if m = slot.2 then v else st.retVal m
      | none => st.retVal m := by
  rw [joinThread]
  cases joinValue env noComp item slot with
  | none => rfl
  | some v => simp only [storePointer, Function.update_apply]

-- The joining loop from slice `i` on does not touch what is before `i`.
theorem joinThreads_frame (sinfo : List SliceInfo) {i m : Nat} (hm : m < i) (st : RWState) :
    ((sinfo.zipIdx i).foldl (joinThread env noComp item) st).retVal m = st.retVal m := by
  induction sinfo generalizing i st with
  | nil => rfl
  | cons s sinfo ih =>
      rw [List.zipIdx_cons, List.foldl_cons, ih (by omega), joinThread_retVal]
      split
      · rw [if_neg (by simp only; omega), if_neg (by simp only; omega)]
      · rfl

theorem joinThreads_retVal (sinfo : List SliceInfo) {i : Nat} {slot : SliceInfo × Nat}
    (hslot : slot ∈ sinfo.zipIdx i) (st : RWState) :
    ((sinfo.zipIdx i).foldl (joinThread env noComp item) st).retVal slot.2 =
      match joinValue env noComp item slot with
      | some v => v
      | none =>
          if i < slot.2 ∧ (env.create (slot.2 - 1) || (env.staleJoin (slot.2 - 1)).isSome) then 0
          else st.retVal slot.2 := by
  induction sinfo generalizing i st with
  | nil => cases hslot
  | cons s sinfo ih =>
      rw [List.zipIdx_cons, List.foldl_cons]
      rw [List.zipIdx_cons] at hslot
      rcases List.mem_cons.mp hslot with rfl | htail
      · -- the head of the list: nothing after it touches its entry again
        rw [joinThreads_frame sinfo (Nat.lt_succ_self i), joinThread_retVal]
        split
        · rw [if_neg (by simp only; omega), if_pos rfl]
        · rw [if_neg (by simp only; omega)]
      · rw [ih htail]
        have hle : i + 1 ≤ slot.2 := (List.mem_zipIdx htail).1
        split
        · rfl
        · rw [joinThread_retVal]
          have hstored : (joinValue env noComp item (s, i)).isSome =
              (env.create i || (env.staleJoin i).isSome) := by
            unfold joinValue
            cases env.create i <;> simp
          by_cases hnext : slot.2 = i + 1
          · -- only the join of the slice just before this one reaches its entry
            rw [if_neg (by omega), hnext, Nat.add_sub_cancel, ← hstored]
            cases joinValue env noComp item (s, i) <;> simp
          · have hlater : i + 1 < slot.2 ↔ i < slot.2 := by omega
            simp only [hlater]
            cases joinValue env noComp item (s, i) with
            | none => rfl
            | some v => simp only [if_neg hnext, if_neg (show ¬ slot.2 = i by omega)]

-- What the two loops leave in `ret_val` for a slice.
theorem joined_retVal {sinfo : List SliceInfo} {slot : SliceInfo × Nat} (hslot : slot ∈ sinfo.zipIdx)
    (st : RWState) : (sinfo.zipIdx.foldl (joinThread env noComp item)
      (sinfo.zipIdx.reverse.foldl (createThread env noComp item) st)).retVal slot.2 =
        slotReport env noComp item slot := by
  rw [joinThreads_retVal sinfo hslot, slotReport]
  split
  · rfl
  · next hjoin =>
      have hcreate : env.create slot.2 = false := by
        unfold joinValue at hjoin
        by_contra hcreated
        rw [if_pos (by simpa using hcreated)] at hjoin
        cases hjoin
      rw [createThreads_retVal (List.mem_reverse.mpr hslot) hcreate]

theorem runRound_retVal {r : RangeInfo} {slot : SliceInfo × Nat} (hslot : slot ∈ r.sinfo.zipIdx)
    (st : RWState) :
    (runRound env noComp item r st).retVal slot.2 = slotReport env noComp item slot := by
  rw [runRound, (foldl_collectResult _ _).2, joined_retVal hslot]

theorem runRound_ret (r : RangeInfo) (st : RWState) :
    (runRound env noComp item r st).ret =
      (roundReports env noComp item r).foldl laterFailure st.ret := by
  rw [runRound, collectResults_ret, joinThreads_ret, createThreads_ret, roundReports,
    List.foldl_append]
  congr 1
  apply List.map_congr_left
  intro slot hslot
  exact joined_retVal hslot st

end Round

theorem runItems_ret (env : Nat → Nat → RoundEnv) (noComp : Int) (items : List Int)
    (table : List RangeInfo) (st : RWState) :
    (runItems env noComp items table st).ret =
      (runReports env noComp items table).foldl laterFailure st.ret := by
  apply foldl_proj RWState.ret
  intro st item
  apply foldl_proj RWState.ret
  intro st r
  exact runRound_ret r.1 st

/-! ## Events and reports -/

/-- The failure that an event stands for. -/
def ThreadEvent.code : ThreadEvent → UInt32
  | .created _ _ => 0
  | .notCreated _ _ => errCreateThread
  | .joined _ _ outcome => outcome.code

section Round

variable {env : RoundEnv} {noComp item : Int} {r : RangeInfo}

theorem mem_roundEvents {e : ThreadEvent} : e ∈ roundEvents env noComp item r ↔
    ∃ slot ∈ r.sinfo.zipIdx,
      e = createEvent env noComp item slot ∨ e ∈ joinEvents env noComp item slot := by
  simp only [roundEvents, List.mem_append, List.mem_map, List.mem_reverse, List.mem_flatMap,
    and_or_left, exists_or, eq_comm]

theorem createEvent_code (slot : SliceInfo × Nat) :
    (createEvent env noComp item slot).code = createReport env slot := by
  unfold createEvent createReport
  split <;> rfl

theorem joinEvents_of_create {slot : SliceInfo × Nat} (hcreate : env.create slot.2 = true) :
    joinEvents env noComp item slot =
      [.joined slot.2 (threadInfo noComp item slot.1) (sliceOutcome env noComp item slot)] :=
  if_pos hcreate

theorem joined_mem_roundEvents {slot : SliceInfo × Nat} (hslot : slot ∈ r.sinfo.zipIdx)
    (hcreate : env.create slot.2 = true) :
    .joined slot.2 (threadInfo noComp item slot.1) (sliceOutcome env noComp item slot) ∈
      roundEvents env noComp item r := by
  rw [mem_roundEvents]
  refine ⟨slot, hslot, Or.inr ?_⟩
  rw [joinEvents_of_create hcreate]
  exact List.mem_singleton.mpr rfl

-- No failure of a creation or a thread goes unreported.
theorem code_mem_roundReports {e : ThreadEvent} (he : e ∈ roundEvents env noComp item r) :
    e.code ∈ roundReports env noComp item r := by
  obtain ⟨slot, hslot, hevent⟩ := mem_roundEvents.mp he
  rw [roundReports, List.mem_append]
  rcases hevent with rfl | hjoin
  · left
    rw [createEvent_code]
    exact List.mem_map_of_mem (List.mem_reverse.mpr hslot)
  · right
    unfold joinEvents at hjoin
    split at hjoin
    · next hcreate =>
        have hcode : slotReport env noComp item slot = e.code := by
          rw [List.mem_singleton.mp hjoin, slotReport, joinValue, if_pos hcreate]
          rfl
        rw [← hcode]
        exact List.mem_map_of_mem hslot
    · cases hjoin

-- Nothing but failures is reported, as long as no stale handle can be joined.
theorem exists_event_of_report (hstale : ∀ k, env.staleJoin k = none) {c : UInt32}
    (hc : c ∈ roundReports env noComp item r) (hne : c ≠ 0) :
    ∃ e ∈ roundEvents env noComp item r, e.code = c := by
  rw [roundReports, List.mem_append] at hc
  rcases hc with hcreates | hslots
  · obtain ⟨slot, hslot, rfl⟩ := List.mem_map.mp hcreates
    exact ⟨_, mem_roundEvents.mpr ⟨slot, List.mem_reverse.mp hslot, Or.inl rfl⟩,
      createEvent_code slot⟩
  · obtain ⟨slot, hslot, rfl⟩ := List.mem_map.mp hslots
    by_cases hcreate : env.create slot.2 = true
    · -- the thread's own code
      refine ⟨_, joined_mem_roundEvents hslot hcreate, ?_⟩
      rw [slotReport, joinValue, if_pos hcreate]
      rfl
    · -- what is left of the failed creation
      refine ⟨_, mem_roundEvents.mpr ⟨slot, hslot, Or.inl rfl⟩, ?_⟩
      rw [slotReport, joinValue, if_neg hcreate, hstale] at hne ⊢
      rw [createEvent_code, createReport, if_neg hcreate]
      simp only at hne ⊢
      split
      · next hcleared => exact absurd (if_pos hcleared) hne
      · rfl

end Round

section Run

variable {env : Nat → Nat → RoundEnv} {noComp : Int} {items : List Int} {table : List RangeInfo}

theorem code_mem_runReports {e : ThreadEvent} (he : e ∈ runEvents env noComp items table) :
    e.code ∈ runReports env noComp items table := by
  obtain ⟨item, hitem, hround⟩ := List.mem_flatMap.mp he
  obtain ⟨r, hr, hround⟩ := List.mem_flatMap.mp hround
  exact List.mem_flatMap.mpr ⟨item, hitem,
    List.mem_flatMap.mpr ⟨r, hr, code_mem_roundReports hround⟩⟩

theorem exists_event_of_runReport (hstale : ∀ n j k, (env n j).staleJoin k = none) {c : UInt32}
    (hc : c ∈ runReports env noComp items table) (hne : c ≠ 0) :
    ∃ e ∈ runEvents env noComp items table, e.code = c := by
  obtain ⟨item, hitem, hround⟩ := List.mem_flatMap.mp hc
  obtain ⟨r, hr, hround⟩ := List.mem_flatMap.mp hround
  obtain ⟨e, he, hcode⟩ := exists_event_of_report (hstale _ _) hround hne
  exact ⟨e, List.mem_flatMap.mpr ⟨item, hitem, List.mem_flatMap.mpr ⟨r, hr, he⟩⟩, hcode⟩

end Run

/-! ## The three ways through `read_write_test` -/

section Result

variable {env : RWEnv} {pattern pattern' : PatternState} {noComp : Int} {testItem : List Int}
  {rwList : List SlicedRange}

/-- The table that the rounds go through. -/
def sortedTable (rwList : List SlicedRange) : List RangeInfo :=
  exchangeSort RangeInfo.size (rwList.map rangeInfo)

theorem readWriteTest_overrun (hfits : ¬ FitsTables rwList) :
    readWriteTest env pattern noComp testItem rwList = none := by
  rw [readWriteTest, copyTables, if_neg hfits]

theorem readWriteTest_gaveUp (hfits : FitsTables rwList) {code : UInt32}
    (hpattern : patternStage env.pattern (testItems testItem) pattern = .error code) :
    readWriteTest env pattern noComp testItem rwList = some ⟨code, []⟩ := by
  rw [readWriteTest, copyTables, if_pos hfits]
  simp only [hpattern]

theorem readWriteTest_tested (hfits : FitsTables rwList)
    (hpattern : patternStage env.pattern (testItems testItem) pattern = .ok pattern') :
    readWriteTest env pattern noComp testItem rwList = some
      ⟨(runReports env.round noComp (testItems testItem) (sortedTable rwList)).foldl
          laterFailure 0,
        runEvents env.round noComp (testItems testItem) (sortedTable rwList)⟩ := by
  rw [readWriteTest, copyTables, if_pos hfits]
  simp only [hpattern, runItems_ret, runItems_trace, List.nil_append]
  rfl

end Result

end MoBoMemory.App
