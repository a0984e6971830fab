import MoBoMemory.App.ItemVerdicts
import MoBoMemory.Base.Keyed

/-!
# Joining the threads

`read_write_test` keeps the ids of its threads in `thread` and their results in `ret_val`, from one round
to the next.  An id is joined when it is not 0, whether or not it was created in this round, and each
join stores eight bytes into an array of four-byte results.
-/

namespace MoBoMemory.App

open Base

/-- How the threads of one range fare, with what `pthread_create` leaves in `thread[k]`: the id of the
thread, or after a failure something that may depend on what was there. -/
structure ThreadEnv extends RoundEnv where
  newThread : Nat → Nat
  newThread_ne : ∀ k, newThread k ≠ 0
  leftThread : Nat → Nat → Nat

/-- `thread` after `pthread_create` was called for a slice. -/
def createHandle (env : ThreadEnv) (thread : Nat → Nat) (slot : SliceInfo × Nat) : Nat → Nat :=
  Function.update thread slot.2
    (if env.create slot.2 then env.newThread slot.2 else env.leftThread slot.2 (thread slot.2))

/-- `thread` after the creating loop of a range. -/
def createHandles (env : ThreadEnv) (r : RangeInfo) (thread : Nat → Nat) : Nat → Nat :=
  r.sinfo.zipIdx.reverse.foldl (createHandle env) thread

/-- An id that is 0 is not joined. -/
def ThreadEnv.joining (env : ThreadEnv) (thread : Nat → Nat) : RoundEnv :=
  { env.toRoundEnv with staleJoin := fun k => if thread k = 0 then none else env.staleJoin k }

/-- An entry of the item list and a range of the table. -/
abbrev Round := ItemEntry × (RangeInfo × Nat)

/-- The rounds of a run, in their order. -/
def rounds (items : List Int) (table : List RangeInfo) : List Round :=
  items.zipIdx.flatMap fun entry => table.zipIdx.map fun r => (entry, r)

/-- What the library calls of a round come to. -/
def Round.env (env : Nat → Nat → ThreadEnv) (round : Round) : ThreadEnv := env round.1.2 round.2.2

/-- The ids that its creating loop leaves. -/
def Round.thread (env : Nat → Nat → ThreadEnv) (thread : Nat → Nat) (round : Round) : Nat → Nat :=
  createHandles (round.env env) round.2.1 thread

/-- What its joining loop finds. -/
def Round.joinEnv (env : Nat → Nat → ThreadEnv) (thread : Nat → Nat) (round : Round) : RoundEnv :=
  (round.env env).joining (round.thread env thread)

def runThreads (env : Nat → Nat → ThreadEnv) (noComp : Int) (run : RWState × (Nat → Nat))
    (round : Round) : RWState × (Nat → Nat) :=
  (runRound (round.joinEnv env run.2) noComp round.1.1 round.2.1 run.1, round.thread env run.2)

/-- The state before the first round. -/
def beforeRounds : RWState × (Nat → Nat) := (⟨0, fun _ => 0, []⟩, fun _ => 0)

/-- In a round that begins with `run`: the joins leave in `ret_val` the code of every slice, or that its
thread was not created, only threads of this round are joined, and nothing is stored behind `ret_val`. -/
structure JoinsKept (env : Nat → Nat → ThreadEnv) (noComp : Int) (run : RWState × (Nat → Nat))
    (round : Round) : Prop where
  codes : ∀ slot ∈ round.2.1.sinfo.zipIdx,
    (runThreads env noComp run round).1.retVal slot.2 =
      if (round.env env).create slot.2 then
        (sliceOutcome (round.env env).toRoundEnv noComp round.1.1 slot).code
      else errCreateThread
  own : ∀ slot ∈ round.2.1.sinfo.zipIdx,
    round.thread env run.2 slot.2 ≠ 0 → (round.env env).create slot.2 = true
  inside : ∀ slot ∈ round.2.1.sinfo.zipIdx,
    (joinValue (round.joinEnv env run.2) noComp round.1.1 slot).isSome → slot.2 + 1 < coreCount

/-- In a round that begins with these ids, a thread that is not created leaves 0 as its id and comes
first or behind another one that is not created; and if there are as many slices as results, the last
one has no thread. -/
def JoinsSafe (env : Nat → Nat → ThreadEnv) (thread : Nat → Nat) (round : Round) : Prop :=
  (∀ slot ∈ round.2.1.sinfo.zipIdx, (round.env env).create slot.2 = false →
    (round.env env).leftThread slot.2 (thread slot.2) = 0 ∧
      (0 < slot.2 → (round.env env).create (slot.2 - 1) = false)) ∧
  (round.2.1.sinfo.length = coreCount → (round.env env).create (coreCount - 1) = false)

/-! ## The rounds of `read_write_test` -/

-- The loops over the items and the ranges go through `rounds`.
theorem runItems_eq_rounds (env : Nat → Nat → RoundEnv) (noComp : Int) (items : List Int)
    (table : List RangeInfo) (st : RWState) : runItems env noComp items table st =
      (rounds items table).foldl (fun st round =>
        runRound (env round.1.2 round.2.2) noComp round.1.1 round.2.1 st) st := by
  rw [rounds, List.foldl_flatMap]
  simp only [List.foldl_map]
  rfl

/-! ## One round -/

section Handles

variable {env : ThreadEnv} {noComp item : Int} {r : RangeInfo} {slot : SliceInfo × Nat}

-- The creating loop writes the id of every slice once.
theorem createHandles_eq (hslot : slot ∈ r.sinfo.zipIdx) (thread : Nat → Nat) :
    createHandles env r thread slot.2 =
      if env.create slot.2 then env.newThread slot.2 else env.leftThread slot.2 (thread slot.2) := by
  have hkeys : (r.sinfo.zipIdx.reverse.map Prod.snd).Nodup := by
    rw [List.map_reverse, List.nodup_reverse, List.zipIdx_map_snd]
    exact List.nodup_range'
  exact foldl_update_of_mem (g := fun slot id =>
    if env.create slot.2 then env.newThread slot.2 else env.leftThread slot.2 id) hkeys
      (List.mem_reverse.mpr hslot) thread

theorem joinValue_isSome {env : RoundEnv} : (joinValue env noComp item slot).isSome =
    (env.create slot.2 || (env.staleJoin slot.2).isSome) := by
  unfold joinValue
  cases env.create slot.2 <;> simp

-- An id that is left as 0 is not joined.
theorem joining_stale (hslot : slot ∈ r.sinfo.zipIdx) {thread : Nat → Nat}
    (hcreate : env.create slot.2 = false) (hleft : env.leftThread slot.2 (thread slot.2) = 0) :
    (env.joining (createHandles env r thread)).staleJoin slot.2 = none := by
  have hid : createHandles env r thread slot.2 = 0 := by
    rw [createHandles_eq hslot, hcreate]
    exact hleft
  exact if_pos hid

-- What is left of a failed creation is its code, unless the join before it has put 0 there.
theorem slotReport_notCreated (env : RoundEnv) (hcreate : env.create slot.2 = false)
    (hstale : env.staleJoin slot.2 = none) : slotReport env noComp item slot =
      if 0 < slot.2 ∧ (env.create (slot.2 - 1) || (env.staleJoin (slot.2 - 1)).isSome) then 0
      else errCreateThread := by
  have hjoin : joinValue env noComp item slot = none := by
    rw [← Option.isNone_iff_eq_none, ← Option.not_isSome, joinValue_isSome, hcreate, hstale]
    rfl
  rw [slotReport, hjoin]

theorem slotReport_created {env : RoundEnv} (hcreate : env.create slot.2 = true) :
    slotReport env noComp item slot = (sliceOutcome env noComp item slot).code := by
  rw [slotReport, joinValue, if_pos hcreate]

end Handles

section Rounds

variable {env : Nat → Nat → ThreadEnv} {noComp : Int} {run : RWState × (Nat → Nat)} {round : Round}

theorem runThreads_retVal {slot : SliceInfo × Nat} (hslot : slot ∈ round.2.1.sinfo.zipIdx) :
    (runThreads env noComp run round).1.retVal slot.2 =
      slotReport (round.joinEnv env run.2) noComp round.1.1 slot :=
  runRound_retVal hslot _

theorem JoinsKept.safe (h : JoinsKept env noComp run round) : JoinsSafe env run.2 round := by
  constructor
  · intro slot hslot hcreate
    have hleft : (round.env env).leftThread slot.2 (run.2 slot.2) = 0 := by
      by_contra hne
      have hid : round.thread env run.2 slot.2 ≠ 0 := by
        show createHandles (round.env env) round.2.1 run.2 slot.2 ≠ 0
        rwa [createHandles_eq hslot, hcreate]
      exact absurd (h.own slot hslot hid) (by simp [hcreate])
    refine ⟨hleft, fun hpos => ?_⟩
    -- a join of the slice before would have put 0 in place of the code
    by_contra hprev
    have hcode := h.codes slot hslot
    have hcleared : 0 < slot.2 ∧ ((round.joinEnv env run.2).create (slot.2 - 1) ||
        ((round.joinEnv env run.2).staleJoin (slot.2 - 1)).isSome) = true :=
      ⟨hpos, (Bool.or_eq_true _ _).mpr (Or.inl (Bool.eq_true_of_not_eq_false hprev))⟩
    rw [runThreads_retVal hslot, hcreate,
      slotReport_notCreated (round.joinEnv env run.2) hcreate (joining_stale hslot hcreate hleft),
      if_pos hcleared] at hcode
    have hzero : (0 : UInt32) = errCreateThread := hcode
    exact absurd hzero (by decide)
  · intro hfull
    by_contra hlast
    have hcreate := Bool.eq_true_of_not_eq_false hlast
    have hin : coreCount - 1 < round.2.1.sinfo.length := by rw [hfull]; decide
    have hslot : (round.2.1.sinfo[coreCount - 1], coreCount - 1) ∈ round.2.1.sinfo.zipIdx :=
      List.mk_mem_zipIdx_iff_getElem?.mpr (List.getElem?_eq_getElem hin)
    have hjoined : (joinValue (round.joinEnv env run.2) noComp round.1.1
        (round.2.1.sinfo[coreCount - 1], coreCount - 1)).isSome = true := by
      rw [joinValue_isSome]
      exact (Bool.or_eq_true _ _).mpr (Or.inl hcreate)
    have hlt : coreCount - 1 + 1 < coreCount := h.inside _ hslot hjoined
    exact absurd hlt (by decide)

-- In a safe round nothing is joined for a slice without a thread.
theorem JoinsSafe.stale (h : JoinsSafe env run.2 round) {slot : SliceInfo × Nat}
    (hslot : slot ∈ round.2.1.sinfo.zipIdx) (hcreate : (round.env env).create slot.2 = false) :
    (round.joinEnv env run.2).staleJoin slot.2 = none :=
  joining_stale hslot hcreate (h.1 slot hslot hcreate).1

theorem JoinsSafe.kept (hcores : round.2.1.sinfo.length ≤ coreCount) (h : JoinsSafe env run.2 round) :
    JoinsKept env noComp run round := by
  constructor
  · intro slot hslot
    rw [runThreads_retVal hslot]
    split
    · next hcreate => exact slotReport_created hcreate
    · next hcreate =>
        have hfailed := Bool.eq_false_of_not_eq_true hcreate
        rw [slotReport_notCreated (round.joinEnv env run.2) hfailed (h.stale hslot hfailed), if_neg]
        rintro ⟨hpos, hcleared⟩
        -- the slice before has no thread either, so nothing was stored for it
        have hprev := (h.1 slot hslot hfailed).2 hpos
        have hlt : slot.2 - 1 < round.2.1.sinfo.length := by
          have := (List.mem_zipIdx hslot).2.1
          omega
        have hbefore : (round.2.1.sinfo[slot.2 - 1], slot.2 - 1) ∈ round.2.1.sinfo.zipIdx :=
          List.mk_mem_zipIdx_iff_getElem?.mpr (List.getElem?_eq_getElem hlt)
        rw [h.stale hbefore hprev, show (round.joinEnv env run.2).create (slot.2 - 1) = false from hprev]
          at hcleared
        cases hcleared
  · intro slot hslot hid
    by_contra hcreate
    have hfailed := Bool.eq_false_of_not_eq_true hcreate
    apply hid
    show createHandles (round.env env) round.2.1 run.2 slot.2 = 0
    rw [createHandles_eq hslot, hfailed]
    exact (h.1 slot hslot hfailed).1
  · intro slot hslot hjoined
    have hcreate : (round.env env).create slot.2 = true := by
      by_contra hcreate
      have hfailed := Bool.eq_false_of_not_eq_true hcreate
      rw [joinValue_isSome, h.stale hslot hfailed,
        show (round.joinEnv env run.2).create slot.2 = false from hfailed] at hjoined
      cases hjoined
    have hlt : slot.2 < round.2.1.sinfo.length := by
      have := (List.mem_zipIdx hslot).2.1
      omega
    by_contra hout
    have hlast : slot.2 = coreCount - 1 := by omega
    have hnone := h.2 (by omega)
    rw [← hlast, hcreate] at hnone
    cases hnone

end Rounds

-- The joins keep the results in every round exactly if every round is safe from the ids it begins with.
theorem joinsKept_iff (env : Nat → Nat → ThreadEnv) (noComp : Int) (items : List Int)
    (table : List RangeInfo) (hcores : ∀ r ∈ table, r.sinfo.length ≤ coreCount) :
    AtEach (runThreads env noComp) (JoinsKept env noComp) beforeRounds (rounds items table) ↔
      AtEach (runThreads env noComp) (fun run => JoinsSafe env run.2) beforeRounds
        (rounds items table) := by
  apply atEach_congr
  intro run round hround
  refine ⟨JoinsKept.safe, JoinsSafe.kept ?_⟩
  obtain ⟨entry, -, hmem⟩ := List.mem_flatMap.mp hround
  obtain ⟨r, hr, rfl⟩ := List.mem_map.mp hmem
  exact hcores r.1 (List.fst_mem_of_mem_zipIdx hr)

/-- Threads that find nothing; `create` tells for each entry of the item list which slices get one, and
a creation that fails leaves `thread[k]` alone. -/
def createdThreads (create : Nat → Nat → Bool) : Nat → Nat → ThreadEnv := fun n _ =>
  { create := create n
    bind := fun _ => true
    testRet := fun _ _ => 0
    staleJoin := fun _ => none
    newThread := fun k => k + 1
    newThread_ne := fun k => k.succ_ne_zero
    leftThread := fun _ id => id }

theorem joinsKept_all : AtEach (runThreads (createdThreads fun _ _ => true) 0)
    (JoinsKept (createdThreads fun _ _ => true) 0) beforeRounds
    (rounds [0, 1] (sortedTable twoMappingsSliced)) := by
  refine (joinsKept_iff _ _ _ _ (by decide)).mpr ?_
  intro pre round hpre
  have hshort : ∀ round ∈ rounds [0, 1] (sortedTable twoMappingsSliced),
      round.2.1.sinfo.length ≠ coreCount := by decide
  refine ⟨fun slot _ hcreate => Bool.noConfusion hcreate, fun hfull => ?_⟩
  exact absurd hfull (hshort round (hpre.subset (List.mem_append_right pre (List.mem_singleton_self _))))

-- The join of slice 0 clears the failure of slice 1; a slice that gets no thread in the second round has
-- its old id joined again.
theorem joins_not_kept :
    ¬ AtEach (runThreads (createdThreads fun _ k => k = 0) 0)
        (JoinsKept (createdThreads fun _ k => k = 0) 0) beforeRounds
        (rounds [0] (sortedTable twoMappingsSliced)) ∧
    ¬ AtEach (runThreads (createdThreads fun n _ => n = 0) 0)
        (JoinsKept (createdThreads fun n _ => n = 0) 0) beforeRounds
        (rounds [0, 1] (sortedTable twoMappingsSliced)) := by
  constructor
  · intro h
    have hfirst := (h [] ((0, 0), (⟨[⟨0x22000, 0x25000, 1⟩, ⟨0x20000, 0x22000, 0⟩], 0x20000, 0x25000⟩, 0))
      (by decide)).codes (⟨0x20000, 0x22000, 0⟩, 1) (by decide)
    exact absurd hfirst (by decide)
  · intro h
    have hstale := (h ((rounds [0, 1] (sortedTable twoMappingsSliced)).take 2)
      ((1, 1), (⟨[⟨0x22000, 0x25000, 1⟩, ⟨0x20000, 0x22000, 0⟩], 0x20000, 0x25000⟩, 0))
      (by decide)).own (⟨0x22000, 0x25000, 1⟩, 0) (by decide) (by decide)
    exact absurd hstale (by decide)

end MoBoMemory.App
