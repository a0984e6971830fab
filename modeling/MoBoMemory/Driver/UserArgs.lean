import MoBoMemory.Driver.Ioctl

/-!
# The arguments of the ioctls

The ioctls as user space can issue them: any `nr_map`, any signed `index`.  A call says which slots of
`mye820.map` and of `bootmem_regions` it accesses.  Neither the entry count of a map nor a negative
index is checked, and `mmtest_ioctl` drops the return value of `get_bregion`; the run theorem says for
which arguments that does not show.
-/

namespace MoBoMemory.Driver

open Base

/-- `struct mye820map` as it was copied; the entries past the end of the array are what follows it in
memory. -/
structure Mye820Map where
  nrMap : Nat
  map : Nat → E820Entry

def Mye820Map.entries (m : Mye820Map) : List E820Entry := (List.range m.nrMap).map m.map

/-- GET_BREGION copies its argument in and out. -/
inductive UserIoctl where
  | getBregionNum (copied : Bool)
  | getBregion (index : Int) (copiedIn copiedOut : Bool)
  | memorySetE820Info (m : Mye820Map) (copied : Bool)
  | memorySetMemInfo (memLimit : Nat) (copied : Bool)
  | flushCache
  | unknown

/-- A slot of `mye820.map` or of `bootmem_regions`. -/
inductive Access where
  | e820 (idx : Nat)
  | bootmem (idx : Int)
deriving DecidableEq

/-! ## The slots that each function accesses -/

def e820RegisterAccesses (nrMap : Nat) : List Access := (List.range nrMap).map .e820

-- The window of an entry takes `addr` twice and `size` once.
def generateNodeMapAccesses (nrMap : Nat) (memblks : List MemBlk) : List Access :=
  (memblks.flatMap fun _ => e820RegisterAccesses nrMap) ++
    if memblks.length = 0 then
      (List.range nrMap).flatMap fun i =>
        [.e820 i, .e820 i, .e820 i] ++ e820RegisterAccesses nrMap
    else []

/-- The slots that `generate_bootmem_region` fills from `count` on. -/
def bootmemSlots (memLimitPfn : Nat) : List NodeRange → Nat → List Nat
  | [], _ => []
  | r :: rs, count =>
      if r.endPfn ≤ memLimitPfn ∨ memLimitPfn ≤ r.startPfn then
        if maxBootmemRegions ≤ count then []
        else count :: bootmemSlots memLimitPfn rs (count + 1)
      else if maxBootmemRegions ≤ count then []
      else if maxBootmemRegions ≤ count + 1 then [count]
      else count :: (count + 1) :: bootmemSlots memLimitPfn rs (count + 2)

/-- `get_bregion` compares two signed integers. -/
def getBregionAccesses (bregionNum : Nat) (idx : Int) : List Access :=
  if (bregionNum : Int) ≤ idx then [] else [.bootmem idx]

structure UserOutcome where
  ret : Int
  globals : Globals
  accesses : List Access

section Calls

variable (ks : KernelSort)

def userIoctl (d : Globals) : UserIoctl → UserOutcome
  | .getBregionNum copied => ⟨if copied then 0 else -efault, d, []⟩
  | .getBregion index copiedIn copiedOut =>
      if copiedIn then
        -- the return value of get_bregion is ignored
        ⟨if copiedOut then 0 else -efault, d, getBregionAccesses d.table.bregionNum index⟩
      else ⟨-efault, d, []⟩
  | .memorySetE820Info m copied =>
      if copied then
        ⟨0, { d with
          mye820 := m.entries
          earlyNodeMap := generateNodeMapFromE820AndSrat ks m.entries d.memblks d.earlyNodeMap },
          generateNodeMapAccesses m.nrMap d.memblks⟩
      else ⟨-efault, { d with mye820 := m.entries }, []⟩
  | .memorySetMemInfo memLimit copied =>
      if copied then
        ⟨0, { d with
          memLimit := memLimit
          table := (generateBootmemRegion memLimit d.earlyNodeMap).2 },
          (bootmemSlots (memLimit / pageSize) d.earlyNodeMap 0).map fun slot : Nat =>
            Access.bootmem slot⟩
      else ⟨-efault, { d with memLimit := memLimit }, []⟩
  | .flushCache => ⟨0, d, []⟩
  | .unknown => ⟨-einval, d, []⟩

/-- The globals after a call; every call returns. -/
def userNext (d : Globals) (cmd : UserIoctl) : Option Globals := some (userIoctl ks d cmd).globals

/-- A call with a non-negative index is the call of `mmtestIoctl`. -/
def UserIoctl.request : UserIoctl → Ioctl
  | .getBregionNum copied => .getBregionNum copied
  | .getBregion index copiedIn copiedOut => .getBregion index.toNat (copiedIn && copiedOut)
  | .memorySetE820Info m copied => .memorySetE820Info m.entries copied
  | .memorySetMemInfo memLimit copied => .memorySetMemInfo memLimit copied
  | .flushCache => .flushCache
  | .unknown => .unknown

theorem userIoctl_eq (d : Globals) (cmd : UserIoctl) :
    (userIoctl ks d cmd).ret = (mmtestIoctl ks d cmd.request).ret ∧
      (userIoctl ks d cmd).globals = (mmtestIoctl ks d cmd.request).globals := by
  cases cmd with
  | getBregionNum copied => cases copied <;> exact ⟨rfl, rfl⟩
  | getBregion index copiedIn copiedOut => cases copiedIn <;> cases copiedOut <;> exact ⟨rfl, rfl⟩
  | memorySetE820Info m copied => cases copied <;> exact ⟨rfl, rfl⟩
  | memorySetMemInfo memLimit copied => cases copied <;> exact ⟨rfl, rfl⟩
  | flushCache => exact ⟨rfl, rfl⟩
  | unknown => exact ⟨rfl, rfl⟩

end Calls

/-! ## Which slots are accessed -/

theorem e820_mem_registerAccesses {nrMap idx : Nat} :
    Access.e820 idx ∈ e820RegisterAccesses nrMap ↔ idx < nrMap := by
  simp [e820RegisterAccesses]

-- With or without memory blocks, the slots are those below the entry count.
theorem e820_mem_generateNodeMapAccesses {nrMap idx : Nat} {memblks : List MemBlk} :
    Access.e820 idx ∈ generateNodeMapAccesses nrMap memblks ↔ idx < nrMap := by
  rw [generateNodeMapAccesses, List.mem_append]
  cases memblks with
  | nil =>
      simp only [List.flatMap_nil, List.not_mem_nil, false_or, List.length_nil, if_pos,
        List.mem_flatMap, List.mem_range, List.mem_append, e820_mem_registerAccesses]
      constructor
      · rintro ⟨i, hi, hfirst | hrest⟩
        · obtain rfl : idx = i := by simpa using hfirst
          exact hi
        · exact hrest
      · intro hidx
        exact ⟨idx, hidx, Or.inr hidx⟩
  | cons blk blks =>
      rw [if_neg (by simp), List.mem_flatMap]
      constructor
      · rintro (⟨_, -, hidx⟩ | hnone)
        · exact e820_mem_registerAccesses.mp hidx
        · exact absurd hnone (by simp)
      · intro hidx
        exact Or.inl ⟨blk, by simp, e820_mem_registerAccesses.mpr hidx⟩

theorem bootmem_not_mem_generateNodeMapAccesses {nrMap : Nat} {idx : Int} {memblks : List MemBlk} :
    Access.bootmem idx ∉ generateNodeMapAccesses nrMap memblks := by
  simp [generateNodeMapAccesses, e820RegisterAccesses]

-- The slots filled are slots of the table, one for each split.
theorem bootmemSlots_lt {memLimitPfn : Nat} {rs : List NodeRange} {count slot : Nat}
    (hslot : slot ∈ bootmemSlots memLimitPfn rs count) :
    slot < maxBootmemRegions ∧
      slot < count + (rs.flatMap (splitRange memLimitPfn)).length := by
  induction rs generalizing count with
  | nil => exact absurd hslot (by simp [bootmemSlots])
  | cons r rs ih =>
      rw [bootmemSlots] at hslot
      rw [List.flatMap_cons, List.length_append]
      by_cases hwhole : r.endPfn ≤ memLimitPfn ∨ memLimitPfn ≤ r.startPfn
      · -- on one side of the limit: one slot, then those of the rest
        have hlen : (splitRange memLimitPfn r).length = 1 := by
          rw [splitRange, if_pos hwhole, List.length_singleton]
        rw [if_pos hwhole] at hslot
        split_ifs at hslot with hfull
        · exact absurd hslot (by simp)
        · rcases List.mem_cons.mp hslot with rfl | hrest
          · omega
          · have hlater := ih hrest
            omega
      · have hlen : (splitRange memLimitPfn r).length = 2 := by
          rw [splitRange, if_neg hwhole, List.length_cons, List.length_singleton]
        rw [if_neg hwhole] at hslot
        split_ifs at hslot with hfull hlast
        · exact absurd hslot (by simp)
        · rw [List.mem_singleton.mp hslot]
          omega
        · rcases List.mem_cons.mp hslot with rfl | hsecond
          · omega
          · rcases List.mem_cons.mp hsecond with rfl | hrest
            · omega
            · have hlater := ih hrest
              omega

theorem bootmemSlots_lt_bregionNum {memLimit : Nat} {map : List NodeRange} {slot : Nat}
    (hslot : slot ∈ bootmemSlots (memLimit / pageSize) map 0) :
    slot < (generateBootmemRegion memLimit map).2.bregionNum := by
  have hlt := bootmemSlots_lt hslot
  rw [generateBootmemRegion_eq, clipped]
  exact lt_min hlt.1 (by omega)

theorem bregionNum_le (memLimit : Nat) (map : List NodeRange) :
    (generateBootmemRegion memLimit map).2.bregionNum ≤ maxBootmemRegions := by
  rw [generateBootmemRegion_eq, clipped]
  exact Nat.min_le_left _ _

/-! ## Runs that stay inside the tables -/

section Runs

variable (ks : KernelSort) (e820Max : Nat)

/-- The call accesses slots of the tables only, and a region outside the table is an error.  The
slots that a call fills are compared with the count that it sets. -/
structure InsideTables (d : Globals) (cmd : UserIoctl) : Prop where
  e820 : ∀ idx, Access.e820 idx ∈ (userIoctl ks d cmd).accesses → idx < e820Max
  bootmem : ∀ idx, Access.bootmem idx ∈ (userIoctl ks d cmd).accesses →
    0 ≤ idx ∧ idx < (userIoctl ks d cmd).globals.table.bregionNum
  room : (userIoctl ks d cmd).globals.table.bregionNum ≤ maxBootmemRegions
  refused : ∀ index copiedIn copiedOut, cmd = .getBregion index copiedIn copiedOut →
    ¬ (0 ≤ index ∧ index < d.table.bregionNum) → (userIoctl ks d cmd).ret ≠ 0

/-- The arguments that nothing checks are in range; an index past the table also passes if the
argument cannot be copied back. -/
def ArgsInRange (d : Globals) : UserIoctl → Prop
  | .getBregion index copiedIn copiedOut =>
      copiedIn = true → (0 ≤ index ∧ index < d.table.bregionNum) ∨
        ((d.table.bregionNum : Int) ≤ index ∧ copiedOut = false)
  | .memorySetE820Info m copied => copied = true → m.nrMap ≤ e820Max
  | _ => True

variable {ks e820Max} {d : Globals}

theorem bregionNum_step (cmd : UserIoctl) (hroom : d.table.bregionNum ≤ maxBootmemRegions) :
    (userIoctl ks d cmd).globals.table.bregionNum ≤ maxBootmemRegions := by
  cases cmd with
  | memorySetMemInfo memLimit copied =>
      cases copied with
      | false => exact hroom
      | true => exact bregionNum_le memLimit d.earlyNodeMap
  | memorySetE820Info m copied => cases copied <;> exact hroom
  | getBregion index copiedIn copiedOut => cases copiedIn <;> exact hroom
  | getBregionNum copied => exact hroom
  | flushCache => exact hroom
  | unknown => exact hroom

theorem insideTables_memorySetE820Info (m : Mye820Map) (copied : Bool)
    (hroom : d.table.bregionNum ≤ maxBootmemRegions) :
    InsideTables ks e820Max d (.memorySetE820Info m copied) ↔
      (copied = true → m.nrMap ≤ e820Max) := by
  cases copied with
  | false =>
      simp only [Bool.false_eq_true, false_implies, iff_true]
      exact ⟨by simp [userIoctl], by simp [userIoctl], bregionNum_step _ hroom, by simp⟩
  | true =>
      constructor
      · intro hinside _
        by_contra hover
        have hlast := hinside.e820 (m.nrMap - 1)
          (e820_mem_generateNodeMapAccesses.mpr (by omega))
        omega
      · intro hle
        refine ⟨?_, ?_, bregionNum_step _ hroom, by simp⟩
        · intro idx hidx
          have hlt := e820_mem_generateNodeMapAccesses.mp hidx
          exact Nat.lt_of_lt_of_le hlt (hle rfl)
        · intro idx hidx
          exact absurd hidx bootmem_not_mem_generateNodeMapAccesses

theorem insideTables_getBregion (index : Int) (copiedIn copiedOut : Bool)
    (hroom : d.table.bregionNum ≤ maxBootmemRegions) :
    InsideTables ks e820Max d (.getBregion index copiedIn copiedOut) ↔
      (copiedIn = true → (0 ≤ index ∧ index < d.table.bregionNum) ∨
        ((d.table.bregionNum : Int) ≤ index ∧ copiedOut = false)) := by
  cases copiedIn with
  | false =>
      simp only [Bool.false_eq_true, false_implies, iff_true]
      refine ⟨by simp [userIoctl], by simp [userIoctl], hroom, ?_⟩
      simp [userIoctl, efault]
  | true =>
      by_cases hpast : (d.table.bregionNum : Int) ≤ index
      · -- refused by get_bregion: only a failing copy makes it an error
        have hnone : (userIoctl ks d (.getBregion index true copiedOut)).accesses = [] :=
          if_pos hpast
        have hret : (userIoctl ks d (.getBregion index true copiedOut)).ret =
            if copiedOut then 0 else -efault := rfl
        constructor
        · intro hinside _
          have hne := hinside.refused index true copiedOut rfl (by omega)
          refine Or.inr ⟨hpast, ?_⟩
          by_contra hcopied
          exact hne (hret.trans (if_pos (by simpa using hcopied)))
        · intro hcond
          have hcopied : copiedOut = false := by
            rcases hcond rfl with hin | hout
            · omega
            · exact hout.2
          refine ⟨by simp [hnone], by simp [hnone], hroom, ?_⟩
          intro _ _ _ _ _
          rw [hret, hcopied]
          decide
      · have hone : (userIoctl ks d (.getBregion index true copiedOut)).accesses =
            [.bootmem index] := if_neg hpast
        constructor
        · intro hinside _
          exact Or.inl (hinside.bootmem index (by simp [hone]))
        · intro hcond
          have hin : 0 ≤ index ∧ index < d.table.bregionNum := by
            rcases hcond rfl with hin | hout
            · exact hin
            · exact absurd hout.1 hpast
          refine ⟨by simp [hone], ?_, hroom, ?_⟩
          · intro idx hidx
            obtain rfl : idx = index := by simpa [hone] using hidx
            exact hin
          · rintro _ _ _ ⟨rfl, rfl, rfl⟩ hout
            exact absurd hin hout

-- What one call does: it stays inside the tables exactly for arguments in range.
theorem insideTables_iff (cmd : UserIoctl) (hroom : d.table.bregionNum ≤ maxBootmemRegions) :
    InsideTables ks e820Max d cmd ↔ ArgsInRange e820Max d cmd := by
  cases cmd with
  | memorySetE820Info m copied => exact insideTables_memorySetE820Info m copied hroom
  | getBregion index copiedIn copiedOut => exact insideTables_getBregion index copiedIn copiedOut hroom
  | memorySetMemInfo memLimit copied =>
      refine iff_of_true ⟨?_, ?_, bregionNum_step _ hroom, by simp⟩ trivial
      · cases copied <;> simp [userIoctl]
      · intro idx hidx
        cases copied with
        | false => exact absurd hidx (by simp [userIoctl])
        | true =>
            obtain ⟨slot, hslot, heq⟩ := List.mem_map.mp hidx
            obtain rfl := Access.bootmem.inj heq
            have hlt := bootmemSlots_lt_bregionNum hslot
            exact ⟨by omega, Int.ofNat_lt.mpr hlt⟩
  | getBregionNum copied =>
      exact iff_of_true ⟨by simp [userIoctl], by simp [userIoctl], hroom, by simp⟩ trivial
  | flushCache =>
      exact iff_of_true ⟨by simp [userIoctl], by simp [userIoctl], hroom, by simp⟩ trivial
  | unknown =>
      exact iff_of_true ⟨by simp [userIoctl], by simp [userIoctl], hroom, by simp⟩ trivial

/-- A run of ioctls stays inside the tables exactly if all its arguments are in range. -/
theorem userIoctls_inside_iff (ks : KernelSort) (e820Max : Nat) (memblks : List MemBlk)
    (cmds : List UserIoctl) :
    EachStep (userNext ks) (InsideTables ks e820Max) (.fresh memblks) cmds ↔
      EachStep (userNext ks) (ArgsInRange e820Max) (.fresh memblks) cmds := by
  apply EachStep.congr (I := fun d => d.table.bregionNum ≤ maxBootmemRegions)
  · rintro d cmd _ _ hroom ⟨⟩
    exact bregionNum_step cmd hroom
  · intro d cmd hroom
    exact insideTables_iff cmd hroom
  · exact Nat.zero_le _

end Runs

/-- On a fresh module index -1 is read, index 0 is past the table and yet no error, and a map that
claims one entry too many is read past its array. -/
theorem userIoctls_outside :
    Access.bootmem (-1) ∈
        (userIoctl insertionKernelSort (.fresh []) (.getBregion (-1) true true)).accesses ∧
      (userIoctl insertionKernelSort (.fresh []) (.getBregion 0 true true)).ret = 0 ∧
      ∀ e820Max, Access.e820 e820Max ∈ (userIoctl insertionKernelSort (.fresh [])
        (.memorySetE820Info ⟨e820Max + 1, fun _ => ⟨0, 0, 0⟩⟩ true)).accesses := by
  refine ⟨by decide, by decide, fun e820Max => ?_⟩
  exact e820_mem_generateNodeMapAccesses.mpr (Nat.lt_succ_self _)

end MoBoMemory.Driver
