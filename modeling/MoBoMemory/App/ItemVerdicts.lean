import MoBoMemory.App.Schedule

/-!
# The verdict of each test item

Behind every item `read_write_test` looks at `ret` and logs that the item was successful when it is 0.
But `ret` goes on from one item to the next: it is cleared nowhere, so it also holds the failures of the
items before.
-/

namespace MoBoMemory.App

open Base

/-- An entry of the item list with its position. -/
abbrev ItemEntry := Int × Nat

section Items

variable (env : Nat → Nat → RoundEnv) (noComp : Int) (table : List RangeInfo)

/-- The body of the item loop with the log of the line "Test item .., successful". -/
def runItemLogged (run : RWState × List ItemEntry) (entry : ItemEntry) : RWState × List ItemEntry :=
  let st := runItem (env entry.2) noComp entry.1 table run.1
  (st, if st.ret = 0 then run.2 ++ [entry] else run.2)

def runItemsLogged (items : List Int) (st : RWState) : RWState × List ItemEntry :=
  items.zipIdx.foldl (runItemLogged env noComp table) (st, [])

/-- The return codes of the slices of all the ranges for one entry of the item list. -/
def itemCodes (entry : ItemEntry) : List UInt32 :=
  table.zipIdx.flatMap fun r => r.1.sinfo.zipIdx.map fun slot =>
    (sliceOutcome (env entry.2 r.2) noComp entry.1 slot).code

def ItemPassed (entry : ItemEntry) : Prop := ∀ code ∈ itemCodes env noComp table entry, code = 0

end Items

/-- `read_write_test` with its log. -/
def readWriteTestLogged (env : RWEnv) (pattern : PatternState) (noComp : Int) (testItem : List Int)
    (rwList : List SlicedRange) : Option (RWResult × List ItemEntry) :=
  match copyTables rwList with
  | none => none
  | some table =>
      match patternStage env.pattern (testItems testItem) pattern with
      | .error code => some (⟨code, []⟩, [])
      | .ok _ =>
          let table := exchangeSort RangeInfo.size table
          let run := runItemsLogged env.round noComp table (testItems testItem) ⟨0, fun _ => 0, []⟩
          some (⟨run.1.ret, run.1.trace⟩, run.2)

/-- An entry is logged exactly if all its slices have passed, and the run fails exactly if some slice of
some entry has failed. -/
def VerdictsExact (env : RWEnv) (noComp : Int) (items : List Int) (rwList : List SlicedRange)
    (run : RWResult × List ItemEntry) : Prop :=
  (∀ entry ∈ items.zipIdx,
      entry ∈ run.2 ↔ ItemPassed env.round noComp (sortedTable rwList) entry) ∧
    (run.1.ret ≠ 0 ↔ ∃ entry ∈ items.zipIdx,
      ∃ code ∈ itemCodes env.round noComp (sortedTable rwList) entry, code ≠ 0)

/-! ## One item -/

section Items

variable {env : Nat → Nat → RoundEnv} {noComp : Int} {table : List RangeInfo}

theorem runItemsLogged_fst (items : List Int) (st : RWState) :
    (runItemsLogged env noComp table items st).1 = runItems env noComp items table st := by
  have hstep : ∀ (entries : List ItemEntry) (run : RWState × List ItemEntry),
      (entries.foldl (runItemLogged env noComp table) run).1 =
        entries.foldl (fun st entry => runItem (env entry.2) noComp entry.1 table st) run.1 := by
    intro entries
    induction entries with
    | nil => exact fun _ => rfl
    | cons entry entries ih => exact fun run => ih _
  exact hstep items.zipIdx (st, [])

/-- All the threads of a round are created. -/
def AllCreated (env : Nat → Nat → RoundEnv) : Prop := ∀ n j k, (env n j).create k = true

theorem runItem_ret (env : Nat → RoundEnv) (noComp item : Int) (table : List RangeInfo)
    (st : RWState) : (runItem env noComp item table st).ret =
      (table.zipIdx.flatMap fun r => roundReports (env r.2) noComp item r.1).foldl
        laterFailure st.ret := by
  apply foldl_proj RWState.ret
  intro st r
  exact runRound_ret r.1 st

-- With all threads there, a round reports the codes of its slices and nothing else.
theorem roundReports_eq_zero {env : RoundEnv} {item : Int} {r : RangeInfo}
    (hcreate : ∀ k, env.create k = true) : (∀ code ∈ roundReports env noComp item r, code = 0) ↔
      ∀ code ∈ r.sinfo.zipIdx.map fun slot => (sliceOutcome env noComp item slot).code, code = 0 := by
  have hslots : r.sinfo.zipIdx.map (slotReport env noComp item) =
      r.sinfo.zipIdx.map fun slot => (sliceOutcome env noComp item slot).code := by
    apply List.map_congr_left
    intro slot _
    rw [slotReport, joinValue, if_pos (hcreate slot.2)]
  rw [roundReports, hslots]
  constructor
  · exact fun h code hcode => h code (List.mem_append_right _ hcode)
  · intro h code hcode
    rcases List.mem_append.mp hcode with hleft | hright
    · obtain ⟨slot, -, rfl⟩ := List.mem_map.mp hleft
      exact if_pos (hcreate slot.2)
    · exact h code hright

theorem runItem_ret_eq_zero (noComp : Int) (table : List RangeInfo) (hcreate : AllCreated env)
    (entry : ItemEntry) (st : RWState) :
    (runItem (env entry.2) noComp entry.1 table st).ret = 0 ↔
      st.ret = 0 ∧ ItemPassed env noComp table entry := by
  rw [runItem_ret, foldl_laterFailure_eq_zero, ItemPassed, itemCodes]
  refine and_congr_right fun _ => ?_
  simp only [List.forall_mem_flatMap]
  exact forall₂_congr fun r _ => roundReports_eq_zero (hcreate entry.2 r.2)

/-! ## All items -/

-- An entry is logged when nothing has failed up to it and at it.
theorem mem_runItemsLogged (hcreate : AllCreated env) (items : List Int) (k : Nat)
    (run : RWState × List ItemEntry) (entry : ItemEntry) :
    entry ∈ ((items.zipIdx k).foldl (runItemLogged env noComp table) run).2 ↔
      entry ∈ run.2 ∨ (entry ∈ items.zipIdx k ∧ run.1.ret = 0 ∧
        ∀ e ∈ items.zipIdx k, e.2 ≤ entry.2 → ItemPassed env noComp table e) := by
  induction items generalizing k run with
  | nil => simp
  | cons item items ih =>
      have hzero := runItem_ret_eq_zero noComp table hcreate (item, k) run.1
      have hlater : ∀ e ∈ items.zipIdx (k + 1), k < e.2 := fun e he => (List.mem_zipIdx he).1
      rw [List.zipIdx_cons, List.foldl_cons, ih]
      simp only [runItemLogged, hzero, List.mem_cons]
      by_cases hpass : run.1.ret = 0 ∧ ItemPassed env noComp table (item, k)
      · rw [if_pos (hzero.mpr hpass), List.mem_append, List.mem_singleton, or_assoc]
        refine or_congr_right ⟨?_, ?_⟩
        · rintro (rfl | ⟨hmem, -, hall⟩)
          · refine ⟨Or.inl rfl, hpass.1, ?_⟩
            rintro e (rfl | he) hle
            · exact hpass.2
            · exact absurd hle (hlater e he).not_ge
          · refine ⟨Or.inr hmem, hpass.1, ?_⟩
            rintro e (rfl | he) hle
            · exact hpass.2
            · exact hall e he hle
        · rintro ⟨rfl | hmem, -, hall⟩
          · exact Or.inl rfl
          · exact Or.inr ⟨hmem, hpass, fun e he => hall e (Or.inr he)⟩
      · -- once something has failed, nothing more is logged
        rw [if_neg (mt hzero.mp hpass)]
        refine or_congr_right ⟨fun h => absurd h.2.1 hpass, ?_⟩
        rintro ⟨hmem, hret, hall⟩
        refine absurd ⟨hret, hall (item, k) (Or.inl rfl) ?_⟩ hpass
        rcases hmem with rfl | hmem
        · exact le_rfl
        · exact (hlater entry hmem).le

end Items

section Runs

variable {env : RWEnv} {pattern pattern' : PatternState} {noComp : Int} {testItem : List Int}
  {rwList : List SlicedRange}

-- The log changes nothing in what the run returns.
theorem readWriteTestLogged_fst :
    (readWriteTestLogged env pattern noComp testItem rwList).map Prod.fst =
      readWriteTest env pattern noComp testItem rwList := by
  rw [readWriteTestLogged, readWriteTest]
  cases copyTables rwList with
  | none => rfl
  | some table =>
      simp only
      cases patternStage env.pattern (testItems testItem) pattern with
      | error code => rfl
      | ok _ => simp only [Option.map_some, runItemsLogged_fst]

theorem readWriteTestLogged_tested (hfits : FitsTables rwList)
    (hpattern : patternStage env.pattern (testItems testItem) pattern = .ok pattern') :
    readWriteTestLogged env pattern noComp testItem rwList = some
      (⟨(runReports env.round noComp (testItems testItem) (sortedTable rwList)).foldl
          laterFailure 0,
        runEvents env.round noComp (testItems testItem) (sortedTable rwList)⟩,
        (runItemsLogged env.round noComp (sortedTable rwList) (testItems testItem)
          ⟨0, fun _ => 0, []⟩).2) := by
  rw [readWriteTestLogged, copyTables, if_pos hfits]
  simp only [hpattern, runItemsLogged_fst, runItems_ret, runItems_trace, List.nil_append]
  rfl

/-- No entry of the list passes behind one that fails. -/
def NoPassAfterFailure (env : RWEnv) (noComp : Int) (items : List Int) (rwList : List SlicedRange) :
    Prop :=
  ∀ e ∈ items.zipIdx, ∀ e' ∈ items.zipIdx, e.2 < e'.2 →
    ItemPassed env.round noComp (sortedTable rwList) e' →
    ItemPassed env.round noComp (sortedTable rwList) e

-- What the run returns is right in any case.
theorem ret_ne_zero_iff (hcreate : AllCreated env.round) (items : List Int) (table : List RangeInfo) :
    (runReports env.round noComp items table).foldl laterFailure 0 ≠ 0 ↔
      ∃ entry ∈ items.zipIdx, ∃ code ∈ itemCodes env.round noComp table entry, code ≠ 0 := by
  have hentry : ∀ entry : ItemEntry,
      (∀ code ∈ table.zipIdx.flatMap fun r => roundReports (env.round entry.2 r.2) noComp entry.1 r.1,
        code = 0) ↔ ItemPassed env.round noComp table entry := by
    intro entry
    rw [ItemPassed, itemCodes]
    simp only [List.forall_mem_flatMap]
    exact forall₂_congr fun r _ => roundReports_eq_zero (hcreate entry.2 r.2)
  rw [Ne, foldl_laterFailure_eq_zero, runReports, List.forall_mem_flatMap]
  simp only [hentry, ItemPassed, true_and, not_forall, exists_prop, ne_eq]

-- The log is exact as long as no item passes behind one that fails.
theorem verdicts_exact_iff (hfits : FitsTables rwList)
    (hpattern : patternStage env.pattern (testItems testItem) pattern = .ok pattern')
    (hcreate : AllCreated env.round) :
    ∃ run, readWriteTestLogged env pattern noComp testItem rwList = some run ∧
      (VerdictsExact env noComp (testItems testItem) rwList run ↔
        NoPassAfterFailure env noComp (testItems testItem) rwList) := by
  refine ⟨_, readWriteTestLogged_tested hfits hpattern, ?_⟩
  have hlog : ∀ entry, entry ∈ (runItemsLogged env.round noComp (sortedTable rwList)
      (testItems testItem) ⟨0, fun _ => 0, []⟩).2 ↔ entry ∈ (testItems testItem).zipIdx ∧
        ∀ e ∈ (testItems testItem).zipIdx, e.2 ≤ entry.2 →
          ItemPassed env.round noComp (sortedTable rwList) e := by
    intro entry
    rw [runItemsLogged, mem_runItemsLogged hcreate]
    simp
  rw [VerdictsExact, and_iff_left (ret_ne_zero_iff hcreate _ _), NoPassAfterFailure]
  simp only [hlog]
  constructor
  · intro h e he e' he' hlt hpass
    exact ((h e' he').mpr hpass).2 e he hlt.le
  · intro h entry hentry
    refine ⟨fun hall => hall.2 entry hentry le_rfl, fun hpass => ⟨hentry, ?_⟩⟩
    intro e he hle
    rcases hle.lt_or_eq with hlt | heq
    · exact h e he entry hentry hlt hpass
    · -- the entry itself
      have hsame : e = entry := by
        rw [List.mem_zipIdx_iff_getElem?] at he hentry
        rw [heq, hentry] at he
        exact Prod.ext (Option.some.inj he).symm heq
      exact hsame ▸ hpass

end Runs

/-- One slice of the largest range fails with entry `bad` of the item list; everything else passes. -/
def oneItemFails (bad : Nat) : RWEnv :=
  { pattern := quietEnv.pattern
    round := fun n j => ⟨fun _ => true, fun _ => true,
      fun k _ => if n = bad ∧ j = 0 ∧ k = 0 then 1 else 0, fun _ => none⟩ }

theorem oneItemFails_first : ItemPassed (oneItemFails 1).round 0 (sortedTable twoMappingsSliced) (0, 0) := by
  have hcodes : itemCodes (oneItemFails 1).round 0 (sortedTable twoMappingsSliced) (0, 0) = [0, 0, 0] := rfl
  intro code hcode
  rw [hcodes] at hcode
  simpa using hcode

theorem oneItemFails_second : ItemPassed (oneItemFails 0).round 0 (sortedTable twoMappingsSliced) (1, 1) := by
  have hcodes : itemCodes (oneItemFails 0).round 0 (sortedTable twoMappingsSliced) (1, 1) = [0, 0, 0] := rfl
  intro code hcode
  rw [hcodes] at hcode
  simpa using hcode

theorem verdicts_exact_last :
    ∃ run, readWriteTestLogged (oneItemFails 1) ⟨none, none⟩ 0 [0, 1, -1] twoMappingsSliced = some run ∧
      VerdictsExact (oneItemFails 1) 0 (testItems [0, 1, -1]) twoMappingsSliced run := by
  obtain ⟨run, hrun, hiff⟩ : ∃ run, readWriteTestLogged (oneItemFails 1) ⟨none, none⟩ 0 [0, 1, -1]
      twoMappingsSliced = some run ∧
      (VerdictsExact (oneItemFails 1) 0 (testItems [0, 1, -1]) twoMappingsSliced run ↔
        NoPassAfterFailure (oneItemFails 1) 0 (testItems [0, 1, -1]) twoMappingsSliced) :=
    verdicts_exact_iff (by decide) rfl fun _ _ _ => rfl
  refine ⟨run, hrun, hiff.mpr ?_⟩
  intro e he e' he' hlt _
  have hitems : (testItems [0, 1, -1]).zipIdx = [(0, 0), (1, 1)] := rfl
  rw [hitems] at he he'
  simp only [List.mem_cons, List.not_mem_nil, or_false] at he he'
  rcases he with rfl | rfl
  · exact oneItemFails_first
  · rcases he' with rfl | rfl <;> simp at hlt

-- Nothing fails with the second item, but it is not logged.
theorem verdicts_not_exact :
    ∃ run, readWriteTestLogged (oneItemFails 0) ⟨none, none⟩ 0 [0, 1, -1] twoMappingsSliced = some run ∧
      (1, 1) ∉ run.2 ∧ ItemPassed (oneItemFails 0).round 0 (sortedTable twoMappingsSliced) (1, 1) ∧
      ¬ VerdictsExact (oneItemFails 0) 0 [0, 1] twoMappingsSliced run := by
  obtain ⟨run, hrun, hlog⟩ : ∃ run, readWriteTestLogged (oneItemFails 0) ⟨none, none⟩ 0 [0, 1, -1]
      twoMappingsSliced = some run ∧ run.2 = [] := ⟨_, rfl, by decide⟩
  have hmissing : (1, 1) ∉ run.2 := hlog ▸ List.not_mem_nil
  exact ⟨run, hrun, hmissing, oneItemFails_second,
    fun h => hmissing ((h.1 (1, 1) (by decide)).mpr oneItemFails_second)⟩

end MoBoMemory.App
