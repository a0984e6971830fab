import MoBoMemory.App.Schedule

/-!
# No false pass

When `read_write_test` answers success, every slice has been tested with every item and no test has
failed; this can go wrong in one place only, the `return errno` at the end of a random-pattern file
that is too short.
-/

namespace MoBoMemory.App

open Base

/-- The threads whose test function was called and returned success. -/
def passed (trace : List ThreadEvent) : List ThreadInfo :=
  trace.filterMap fun
    | .joined _ info (.tested _ ret) => if ret = 0 then some info else none
    | _ => none

/-- What has to be tested, as the parameters of the threads that do it. -/
def triples (noComp : Int) (items : List Int) (rwList : List SlicedRange) : List ThreadInfo :=
  items.flatMap fun item => rwList.flatMap fun r =>
    r.slices.map fun s => threadInfo noComp item (sliceInfo s)

/-- The run is defined, and if it answers success then every triple was tested and passed. -/
def NoFalsePass (noComp : Int) (items : List Int) (rwList : List SlicedRange)
    (outcome : Option RWResult) : Prop :=
  ∃ result, outcome = some result ∧
    (result.ret = 0 → (triples noComp items rwList).Subperm (passed result.trace))

theorem passed_append (trace trace' : List ThreadEvent) :
    passed (trace ++ trace') = passed trace ++ passed trace' :=
  List.filterMap_append

theorem passed_flatMap {α : Type*} (f : α → List ThreadEvent) (l : List α) :
    passed (l.flatMap f) = l.flatMap fun x => passed (f x) :=
  List.filterMap_flatMap

section Round

variable {env : RoundEnv} {noComp item : Int}

-- Success comes from a test function only.
theorem sliceOutcome_of_code {slot : SliceInfo × Nat}
    (hcode : (sliceOutcome env noComp item slot).code = 0) :
    ∃ f, sliceOutcome env noComp item slot = .tested f 0 := by
  unfold sliceOutcome runTestSlice at hcode ⊢
  cases hbind : env.bind slot.2 with
  | false => simp [hbind, SliceOutcome.code, errBindCpu] at hcode
  | true =>
      simp only [hbind, if_true, threadInfo] at hcode ⊢
      cases hitem : testFunction item with
      | none => simp [hitem, SliceOutcome.code, errTestItem] at hcode
      | some f =>
          rw [hitem] at hcode
          exact ⟨f, congrArg (SliceOutcome.tested f) hcode⟩

variable {r : RangeInfo}

theorem create_of_codes (hzero : ∀ e ∈ roundEvents env noComp item r, e.code = 0)
    {slot : SliceInfo × Nat} (hslot : slot ∈ r.sinfo.zipIdx) : env.create slot.2 = true := by
  have hcode := hzero _ (mem_roundEvents.mpr ⟨slot, hslot, Or.inl rfl⟩)
  rw [createEvent_code, createReport] at hcode
  by_contra hcreate
  rw [if_neg hcreate] at hcode
  exact absurd hcode (by decide)

theorem passed_joinEvents (hzero : ∀ e ∈ roundEvents env noComp item r, e.code = 0)
    {slot : SliceInfo × Nat} (hslot : slot ∈ r.sinfo.zipIdx) :
    passed (joinEvents env noComp item slot) = [threadInfo noComp item slot.1] := by
  have hcreate := create_of_codes hzero hslot
  have hcode : (sliceOutcome env noComp item slot).code = 0 :=
    hzero _ (joined_mem_roundEvents hslot hcreate)
  obtain ⟨f, houtcome⟩ := sliceOutcome_of_code hcode
  rw [joinEvents_of_create hcreate, houtcome]
  rfl

-- A round in which nothing fails has tested all slices of its range.
theorem passed_roundEvents (hzero : ∀ e ∈ roundEvents env noComp item r, e.code = 0) :
    passed (roundEvents env noComp item r) = r.sinfo.map (threadInfo noComp item) := by
  have hcreates : passed (r.sinfo.zipIdx.reverse.map (createEvent env noComp item)) = [] := by
    rw [passed, List.filterMap_eq_nil_iff]
    intro event hevent
    obtain ⟨slot, -, rfl⟩ := List.mem_map.mp hevent
    rw [createEvent]
    cases env.create slot.2 <;> rfl
  rw [roundEvents, passed_append, hcreates, List.nil_append, passed_flatMap]
  rw [List.flatMap_congr fun slot hslot => passed_joinEvents hzero hslot]
  rw [← List.map_eq_flatMap]
  conv_rhs => rw [← List.zipIdx_map_fst 0 r.sinfo, List.map_map]
  rfl

end Round

-- A run in which nothing fails has tested everything.
theorem passed_runEvents {env : Nat → Nat → RoundEnv} {noComp : Int} {items : List Int}
    {rwList : List SlicedRange}
    (hzero : ∀ e ∈ runEvents env noComp items (sortedTable rwList), e.code = 0) :
    (triples noComp items rwList).Perm
      (passed (runEvents env noComp items (sortedTable rwList))) := by
  have hrounds : passed (runEvents env noComp items (sortedTable rwList)) =
      items.flatMap fun item => (sortedTable rwList).flatMap fun r =>
        r.sinfo.map (threadInfo noComp item) := by
    rw [runEvents, passed_flatMap, ← flatMap_zipIdx fun item =>
      (sortedTable rwList).flatMap fun r => r.sinfo.map (threadInfo noComp item)]
    apply List.flatMap_congr
    intro item hitem
    rw [passed_flatMap, ← flatMap_zipIdx fun r : RangeInfo =>
      r.sinfo.map (threadInfo noComp item.1)]
    apply List.flatMap_congr
    intro r hr
    apply passed_roundEvents
    intro e he
    exact hzero e (List.mem_flatMap.mpr ⟨item, hitem, List.mem_flatMap.mpr ⟨r, hr, he⟩⟩)
  rw [hrounds, triples]
  apply List.Perm.flatMap_left
  intro item _
  -- the order in which the ranges are tested does not matter here
  have htable : (rwList.map rangeInfo).Perm (sortedTable rwList) :=
    (exchangeSort_perm _ _).symm
  have hslices : (rwList.flatMap fun r => r.slices.map fun s =>
      threadInfo noComp item (sliceInfo s)) =
      (rwList.map rangeInfo).flatMap fun r => r.sinfo.map (threadInfo noComp item) := by
    rw [List.flatMap_map]
    congr 1
    funext r
    rw [rangeInfo, List.map_map]
    rfl
  rw [hslices]
  exact htable.flatMap_right _

/-- The exact condition for an honest success. -/
theorem noFalsePass_iff {env : RWEnv} {pattern : PatternState} {noComp : Int}
    {testItem : List Int} {rwList : List SlicedRange} :
    NoFalsePass noComp (testItems testItem) rwList
        (readWriteTest env pattern noComp testItem rwList) ↔
      FitsTables rwList ∧
        ((∃ n, firstRandom (testItems testItem) = some n ∧ pattern.CutShort env.pattern n) →
          triples noComp (testItems testItem) rwList = []) := by
  by_cases hfits : FitsTables rwList
  · simp only [hfits, true_and]
    rw [← patternStage_eq_error_zero]
    cases hpattern : patternStage env.pattern (testItems testItem) pattern with
    | error code =>
        rw [readWriteTest_gaveUp hfits hpattern]
        simp only [NoFalsePass, Option.some.injEq, exists_eq_left', Except.error.injEq]
        rw [show passed [] = [] from rfl, List.subperm_nil]
    | ok pattern' =>
        rw [readWriteTest_tested hfits hpattern]
        simp only [NoFalsePass, Option.some.injEq, exists_eq_left', reduceCtorEq, false_imp_iff,
          iff_true]
        intro hret
        have hreports := (foldl_laterFailure_eq_zero.mp hret).2
        exact (passed_runEvents fun e he => hreports _ (code_mem_runReports he)).subperm
  · rw [readWriteTest_overrun hfits]
    simp [NoFalsePass, hfits]

/-- A random-pattern file of the required size that consists of one digit. -/
def oneLinePattern : List UInt8 := List.replicate patternMinSize 48

/-- With that file the random-address test is passed without a single thread. -/
theorem false_pass_of_oneLinePattern :
    readWriteTest quietEnv ⟨some oneLinePattern, none⟩ 0 [2, -1] twoMappingsSliced =
        some ⟨0, []⟩ ∧
      ¬ NoFalsePass 0 [2] twoMappingsSliced
        (readWriteTest quietEnv ⟨some oneLinePattern, none⟩ 0 [2, -1] twoMappingsSliced) := by
  have hends : EndsEarly (fun _ => none) randArrayNum oneLinePattern := by
    refine ⟨33, by decide, fun _ _ => rfl, ?_⟩
    have hlen : patternMinSize - 33 * (patternBufSize - 1) = 0 := by decide
    rw [oneLinePattern, dropLines_replicate (by decide), hlen, List.replicate_zero]
  have hsize : patternMinSize ≤ oneLinePattern.length := by
    rw [oneLinePattern, List.length_replicate]
  have hpattern : patternStage quietEnv.pattern [2] ⟨some oneLinePattern, none⟩ = .error 0 := by
    rw [patternStage_eq_error_zero]
    exact ⟨0, rfl, rfl, rfl, oneLinePattern, rfl, rfl, hsize, rfl, hends⟩
  have hresult : readWriteTest quietEnv ⟨some oneLinePattern, none⟩ 0 [2, -1] twoMappingsSliced =
      some ⟨0, []⟩ := readWriteTest_gaveUp (by decide) hpattern
  refine ⟨hresult, ?_⟩
  rw [hresult]
  intro h
  obtain ⟨result, heq, hall⟩ := h
  obtain rfl := Option.some.inj heq
  have hnone := List.subperm_nil.mp (hall rfl)
  exact absurd hnone (by decide)

end MoBoMemory.App
