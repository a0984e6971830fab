import MoBoMemory.Driver.Regions

/-!
# The ioctl interface

The kernel globals behind `/dev/memtest` and what the ioctls do to them.  `early_node_map` survives
every ioctl and is never cleared, so a later MEMORY_SET_E820_INFO adds to what earlier ones have
registered; the run theorem says under which condition on its steps a run does not show it.
-/

namespace MoBoMemory.Driver

open Base

/-- The globals of the module; the maps and tables are the lists of their used slots. -/
structure Globals where
  mye820 : List E820Entry
  memLimit : Nat
  memblks : List MemBlk
  earlyNodeMap : List NodeRange
  table : BootmemTable

/-- The module right after loading, with the memory blocks that its SRAT scan has recorded. -/
def Globals.fresh (memblks : List MemBlk) : Globals := ⟨[], 0, memblks, [], ⟨[], 0⟩⟩

/-- `copied` tells whether `copy_from_user` or `copy_to_user` succeeds; a failing MEMORY_SET_E820_INFO
has already overwritten `mye820` with what `m` says. -/
inductive Ioctl where
  | getBregionNum (copied : Bool)
  | getBregion (idx : Nat) (copied : Bool)
  | memorySetE820Info (m : List E820Entry) (copied : Bool)
  | memorySetMemInfo (memLimit : Nat) (copied : Bool)
  | flushCache
  | unknown

/-- What is copied back to the user; a region that `get_bregion` refuses comes back as it went in. -/
inductive Reply where
  | nothing
  | num (bregionNum : Nat)
  | region (bregion : Option BootmemRegion)
deriving DecidableEq

structure Outcome where
  ret : Int
  reply : Reply
  globals : Globals

def efault : Int := 14
def einval : Int := 22

section Calls

variable (ks : KernelSort)

def mmtestIoctl (d : Globals) : Ioctl → Outcome
  | .getBregionNum copied =>
      if copied then ⟨0, .num d.table.bregionNum, d⟩ else ⟨-efault, .nothing, d⟩
  | .getBregion idx copied =>
      if copied then ⟨0, .region (getBregion d.table idx), d⟩ else ⟨-efault, .nothing, d⟩
  | .memorySetE820Info m copied =>
      if copied then
        ⟨0, .nothing, { d with
          mye820 := m
          earlyNodeMap := generateNodeMapFromE820AndSrat ks m d.memblks d.earlyNodeMap }⟩
      else ⟨-efault, .nothing, { d with mye820 := m }⟩
  | .memorySetMemInfo memLimit copied =>
      if copied then
        -- the return value of generate_bootmem_region is ignored
        ⟨0, .nothing, { d with
          memLimit := memLimit
          table := (generateBootmemRegion memLimit d.earlyNodeMap).2 }⟩
      else ⟨-efault, .nothing, { d with memLimit := memLimit }⟩
  | .flushCache => ⟨0, .nothing, d⟩
  | .unknown => ⟨-einval, .nothing, d⟩

/-- A successful ioctl. -/
def succeed (d : Globals) (cmd : Ioctl) : Option Globals :=
  if (mmtestIoctl ks d cmd).ret = 0 then some (mmtestIoctl ks d cmd).globals else none

/-- A sequence of successful ioctls. -/
def run (d : Globals) (cmds : List Ioctl) : Option Globals := cmds.foldlM (succeed ks) d

/-- The two ioctls that the tool issues when it starts. -/
def settings (m : List E820Entry) (memLimit : Nat) : List Ioctl :=
  [.memorySetE820Info m true, .memorySetMemInfo memLimit true]

@[simp] theorem run_settings (d : Globals) (m : List E820Entry) (memLimit : Nat) :
    run ks d (settings m memLimit) = some { d with
      mye820 := m
      memLimit := memLimit
      earlyNodeMap := generateNodeMapFromE820AndSrat ks m d.memblks d.earlyNodeMap
      table := (generateBootmemRegion memLimit
        (generateNodeMapFromE820AndSrat ks m d.memblks d.earlyNodeMap)).2 } := rfl

end Calls

/-! ## Runs that do not show the history -/

section History

variable {ks : KernelSort}

/-- The first entry that takes the range covers it already. -/
def Covered (map : List NodeRange) (c : NodeRange) : Prop :=
  ∃ r, taker map c = some r ∧ r.startPfn ≤ c.startPfn ∧ c.endPfn ≤ r.endPfn

/-- A MEMORY_SET_E820_INFO meets an empty node map, or it issues the current map once more, finds
every range of it covered, and the sort leaves the table in its order. -/
def Harmless (ks : KernelSort) (d : Globals) : Ioctl → Prop
  | .memorySetE820Info m _ =>
      d.earlyNodeMap = [] ∨
        (m = d.mye820 ∧ (∀ c ∈ registrations m d.memblks, Covered d.earlyNodeMap c) ∧
          ks.sort d.earlyNodeMap = d.earlyNodeMap)
  | _ => True

/-- The node map is the one that the current e820 map alone gives. -/
def Current (ks : KernelSort) (memblks : List MemBlk) (d : Globals) : Prop :=
  d.memblks = memblks ∧
    d.earlyNodeMap = generateNodeMapFromE820AndSrat ks d.mye820 memblks []

theorem addActiveRange_of_covered {map : List NodeRange} {c : NodeRange} (h : Covered map c) :
    addActiveRange map c = map := by
  obtain ⟨q, hq, hlo, hhi⟩ := h
  obtain ⟨pre, r, r', post, hmap, -, htaker, hr, heq⟩ | ⟨htaker, _⟩ | ⟨htaker, _⟩ :=
    addActiveRange_cases map c
  · obtain rfl : r = q := Option.some.inj (htaker.symm.trans hq)
    have hsame : absorb c r = some r := by
      rw [absorb, if_neg (by simp [(absorb_nid hr).1]), if_pos ⟨hlo, hhi⟩]
    rw [heq, hmap, Option.some.inj (hr.symm.trans hsame)]
  · simp [hq] at htaker
  · simp [hq] at htaker

theorem foldl_of_covered {cs map : List NodeRange} (h : ∀ c ∈ cs, Covered map c) :
    cs.foldl addActiveRange map = map := by
  induction cs with
  | nil => rfl
  | cons c cs ih =>
      rw [List.foldl_cons, addActiveRange_of_covered (h c (by simp))]
      exact ih fun d hd => h d (by simp [hd])

theorem generateNodeMap_empty (ks : KernelSort) (memblks : List MemBlk) :
    generateNodeMapFromE820AndSrat ks [] memblks [] = [] := by
  have hnone : registrations [] memblks = [] := by simp [registrations]
  rw [generateNodeMap_eq, hnone]
  exact (ks.perm []).eq_nil

-- What a harmless step preserves.
theorem current_step {memblks : List MemBlk} (d : Globals) (cmd : Ioctl) (d' : Globals)
    (hharmless : Harmless ks d cmd) (hcurrent : Current ks memblks d)
    (hstep : succeed ks d cmd = some d') : Current ks memblks d' := by
  obtain ⟨hblks, hmap⟩ := hcurrent
  cases cmd with
  | memorySetE820Info m copied =>
      cases copied with
      | false => simp [succeed, mmtestIoctl, efault] at hstep
      | true =>
          obtain rfl := Option.some.inj hstep
          refine ⟨hblks, ?_⟩
          change generateNodeMapFromE820AndSrat ks m d.memblks d.earlyNodeMap = _
          -- either nothing is left from before, or the same map registers nothing new
          rcases hharmless with hempty | ⟨rfl, hcovered, hsort⟩
          · rw [hempty, hblks]
            rfl
          · rw [generateNodeMap_eq, foldl_of_covered hcovered, hsort, hmap]
            rfl
  | memorySetMemInfo memLimit copied =>
      cases copied with
      | false => simp [succeed, mmtestIoctl, efault] at hstep
      | true =>
          obtain rfl := Option.some.inj hstep
          exact ⟨hblks, hmap⟩
  | getBregionNum copied =>
      cases copied with
      | false => simp [succeed, mmtestIoctl, efault] at hstep
      | true =>
          obtain rfl := Option.some.inj hstep
          exact ⟨hblks, hmap⟩
  | getBregion idx copied =>
      cases copied with
      | false => simp [succeed, mmtestIoctl, efault] at hstep
      | true =>
          obtain rfl := Option.some.inj hstep
          exact ⟨hblks, hmap⟩
  | flushCache =>
      obtain rfl := Option.some.inj hstep
      exact ⟨hblks, hmap⟩
  | unknown => simp [succeed, mmtestIoctl, einval] at hstep

/-- The last settings decide: in a run of successful ioctls whose steps are all harmless, the replies
after a pair of settings are those of a fresh module with that pair. -/
theorem regions_of_last_settings (memblks : List MemBlk) (history : List Ioctl)
    (m : List E820Entry) (memLimit : Nat) (d : Globals)
    (hrun : run ks (.fresh memblks) (history ++ settings m memLimit) = some d)
    (hharmless : EachStep (succeed ks) (Harmless ks) (.fresh memblks)
      (history ++ settings m memLimit)) :
    ∃ d', run ks (.fresh memblks) (settings m memLimit) = some d' ∧
      (mmtestIoctl ks d (.getBregionNum true)).reply =
        (mmtestIoctl ks d' (.getBregionNum true)).reply ∧
      ∀ idx, (mmtestIoctl ks d (.getBregion idx true)).reply =
        (mmtestIoctl ks d' (.getBregion idx true)).reply := by
  have hstart : Current ks memblks (.fresh memblks) :=
    ⟨rfl, (generateNodeMap_empty ks memblks).symm⟩
  have hcurrent : Current ks memblks d := hharmless.preserves current_step hstart hrun
  refine ⟨_, run_settings ks (.fresh memblks) m memLimit, ?_⟩
  rw [run, List.foldlM_append] at hrun
  obtain ⟨c, -, hlast⟩ := Option.bind_eq_some_iff.mp hrun
  obtain rfl := Option.some.inj hlast
  have htable : (generateBootmemRegion memLimit
      (generateNodeMapFromE820AndSrat ks m c.memblks c.earlyNodeMap)).2 =
      (generateBootmemRegion memLimit (generateNodeMapFromE820AndSrat ks m memblks [])).2 :=
    congrArg (fun map => (generateBootmemRegion memLimit map).2) hcurrent.2
  constructor
  · exact congrArg (fun table : BootmemTable => Reply.num table.bregionNum) htable
  · intro idx
    exact congrArg (fun table => Reply.region (getBregion table idx)) htable

end History

/-- The reply to `cmd` after a sequence of ioctls on a module without recorded memory blocks. -/
def replyAfter (cmds : List Ioctl) (cmd : Ioctl) : Option Reply :=
  (run insertionKernelSort (.fresh []) cmds).map fun d =>
    (mmtestIoctl insertionKernelSort d cmd).reply

/-- Another map before the last one stays in the table; and issuing one pair twice changes the first
region when the map is such that a later entry has closed the gap between two earlier ones. -/
theorem regions_of_history :
    (replyAfter (.memorySetE820Info [⟨0x100000, 0x1000, e820Ram⟩] true ::
        settings [⟨0, 0x1000, e820Ram⟩] 0) (.getBregionNum true) = some (.num 2) ∧
      replyAfter (settings [⟨0, 0x1000, e820Ram⟩] 0) (.getBregionNum true) = some (.num 1)) ∧
    (replyAfter (settings [⟨0, 0x1000, 1⟩, ⟨0x2000, 0x1000, 1⟩, ⟨0x1000, 0x1000, 1⟩] 0 ++
          settings [⟨0, 0x1000, 1⟩, ⟨0x2000, 0x1000, 1⟩, ⟨0x1000, 0x1000, 1⟩] 0)
        (.getBregion 0 true) = some (.region (some ⟨0, 3, 0, mmtestRW⟩)) ∧
      replyAfter (settings [⟨0, 0x1000, 1⟩, ⟨0x2000, 0x1000, 1⟩, ⟨0x1000, 0x1000, 1⟩] 0)
        (.getBregion 0 true) = some (.region (some ⟨0, 2, 0, mmtestRW⟩))) := by
  decide

/-- Issuing the same pair twice is harmless for a map of one entry. -/
theorem regions_of_last_settings_again :
    ∃ d, run insertionKernelSort (.fresh [])
        (settings [⟨0, 0x1000, e820Ram⟩] 0 ++ settings [⟨0, 0x1000, e820Ram⟩] 0) = some d ∧
      ∃ d', run insertionKernelSort (.fresh []) (settings [⟨0, 0x1000, e820Ram⟩] 0) = some d' ∧
        (mmtestIoctl insertionKernelSort d (.getBregionNum true)).reply =
          (mmtestIoctl insertionKernelSort d' (.getBregionNum true)).reply ∧
        ∀ idx, (mmtestIoctl insertionKernelSort d (.getBregion idx true)).reply =
          (mmtestIoctl insertionKernelSort d' (.getBregion idx true)).reply := by
  refine ⟨_, rfl, regions_of_last_settings [] (settings [⟨0, 0x1000, e820Ram⟩] 0)
    [⟨0, 0x1000, e820Ram⟩] 0 _ rfl ?_⟩
  refine ⟨Or.inl rfl, ?_⟩
  rintro _ ⟨⟩
  refine ⟨trivial, ?_⟩
  rintro _ ⟨⟩
  refine ⟨Or.inr ⟨rfl, ?_, rfl⟩, ?_⟩
  · intro c hc
    have hc' : c ∈ [(⟨0, 0, 1⟩ : NodeRange)] := hc
    obtain rfl := List.mem_singleton.mp hc'
    exact ⟨⟨0, 0, 1⟩, rfl, by decide, by decide⟩
  · rintro _ ⟨⟩
    exact ⟨trivial, fun _ _ => trivial⟩

end MoBoMemory.Driver
