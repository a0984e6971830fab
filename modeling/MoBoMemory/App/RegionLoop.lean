import MoBoMemory.App.WindowClip

/-!
# What the region loop records

For any region at all, empty, inverted or of an unknown type: the entry of `raw_reg` and the entry of
`RD_list` that its turn leaves behind, and when the loop goes on to the region below it.
-/

namespace MoBoMemory.App

open Base Driver

def regOffset (region : BootmemRegion) : Nat := region.startPfn * pageSize % 2 ^ 64

def regLen (region : BootmemRegion) : Nat :=
  ulSub region.endPfn region.startPfn * pageSize % 2 ^ 64

/-- `offset + len`. -/
def regLast (region : BootmemRegion) : Nat := (regOffset region + regLen region) % 2 ^ 64

/-- `range.start` and `range.end` of a region that is not passed over. -/
def clipRegion (p : TestParm) (region : BootmemRegion) : Option (Nat × Nat) :=
  if p.listInfo then some (regOffset region, regLast region)
  else clipToWindow p (regOffset region) (regLast region)

/-- The entry of `raw_reg`. -/
def rawEntry (p : TestParm) (region : BootmemRegion) : Option (Nat × Nat) :=
  (clipRegion p region).map fun cut =>
    if cut.1 ≠ cut.2 ∧ region.type = mmtestRW then (pfnStartRoundup cut.1, pfnEndRoundup cut.2)
    else cut

/-- The entry of `RD_list`. -/
def rdEntry (p : TestParm) (region : BootmemRegion) : Option RDRange :=
  (clipRegion p region).bind fun cut =>
    if cut.1 ≠ cut.2 ∧ region.type = mmtestRO then some ⟨cut.1, cut.2⟩ else none

/-- What is left of an aligned range goes untested, or there is a mapping for it. -/
def Maps (env : InitEnv) (p : TestParm) (i a b : Nat) : Prop :=
  p.listInfo = true ∨ pfnEndRoundup b < (pfnStartRoundup a + minBlockSize) % 2 ^ 64 ∨
    ∃ addr, env.mmap i = .ok addr

/-- With `count` entries in `raw_reg`, the clipped range is stored where it belongs, or there is
nothing to store. -/
def Stores (env : InitEnv) (p : TestParm) (i count : Nat) (region : BootmemRegion) :
    Option (Nat × Nat) → Prop
  | none => True
  | some (a, b) => count < maxRegion ∧ (a ≠ b → region.nid < nodeCount ∧
      ((region.type = mmtestRW ∧ Maps env p i a b) ∨ region.type = mmtestRO))

/-- The turn for region `i` leaves the device open and the loop running. -/
structure Passes (env : InitEnv) (p : TestParm) (i count : Nat) (region : BootmemRegion) : Prop where
  read : env.getBregion i = none
  nonempty : regLen region ≠ 0
  stores : Stores env p i count region (clipRegion p region)

/-- What is in `raw_reg` when the loop comes to region `i`. -/
def recordedAbove (p : TestParm) (regions : List BootmemRegion) (i : Nat) : Nat :=
  (regions.drop (i + 1)).countP fun region => (clipRegion p region).isSome

/-- Of the first `n` regions, region `i` and those above it pass. -/
def GetsPast (env : InitEnv) (p : TestParm) (regions : List BootmemRegion) (n i : Nat) : Prop :=
  ∀ j region, i ≤ j → j < n → regions[j]? = some region →
    Passes env p j (recordedAbove p regions j) region

/-- `rd` is the entry of a region that the loop gets past. -/
def Stored (env : InitEnv) (p : TestParm) (regions : List BootmemRegion) (n : Nat) (rd : RDRange) :
    Prop :=
  ∃ i region, i < n ∧ regions[i]? = some region ∧ GetsPast env p regions n i ∧
    rdEntry p region = some rd

section Turn

variable {env : InitEnv} {p : TestParm} {i a b : Nat} {region : BootmemRegion} {s s' : InitState}

-- The read-write branch goes on exactly when there is a mapping or none is wanted.
theorem addRWRange_maps_iff (env : InitEnv) (p : TestParm) (i a b : Nat) (hopen : s.fdOpen = true) :
    (Maps env p i a b ∧ ∃ s', addRWRange env p i a b s = (.finished, s') ∧ s'.fdOpen = true ∧
      s'.rawReg = s.rawReg.dropLast ++ [(pfnStartRoundup a, pfnEndRoundup b)] ∧
      s'.maxPhyAddr = s.maxPhyAddr ∧ s'.rdList = s.rdList) ∨
    (¬ Maps env p i a b ∧ (addRWRange env p i a b s).1 ≠ .finished ∧
      (addRWRange env p i a b s).2.rdList = s.rdList) := by
  unfold addRWRange Maps
  simp only
  by_cases hlist : p.listInfo = true
  · left
    simp only [hlist, if_true, true_or, true_and]
    exact ⟨_, rfl, hopen, rfl, rfl, rfl⟩
  by_cases hskip : pfnEndRoundup b < (pfnStartRoundup a + minBlockSize) % 2 ^ 64
  · left
    simp only [hlist, if_false, hskip, if_true, Bool.false_eq_true, true_or, or_true, true_and]
    exact ⟨_, rfl, hopen, rfl, rfl, rfl⟩
  simp only [hlist, if_false, hskip, Bool.false_eq_true, false_or, hopen, if_true]
  cases env.mmap i with
  | error errno => exact Or.inr ⟨by simp, by simp, rfl⟩
  | ok addr => exact Or.inl ⟨⟨addr, rfl⟩, _, rfl, rfl, rfl, rfl, rfl⟩

-- The range goes where its type says, or the turn stops and stores nothing.
theorem storeRange_turn (env : InitEnv) (p : TestParm) (i : Nat) (region : BootmemRegion) (a b : Nat)
    (hopen : s.fdOpen = true) :
    (((region.type = mmtestRW ∧ Maps env p i a b) ∨ region.type = mmtestRO) ∧
      ∃ s', storeRange env p i region a b s = (.finished, s') ∧ s'.fdOpen = true ∧
        s'.rawReg = (if region.type = mmtestRW then
          s.rawReg.dropLast ++ [(pfnStartRoundup a, pfnEndRoundup b)] else s.rawReg) ∧
        s'.maxPhyAddr = s.maxPhyAddr ∧
        s'.rdList = (if region.type = mmtestRO then [⟨a, b⟩] else []) ++ s.rdList) ∨
    (¬ ((region.type = mmtestRW ∧ Maps env p i a b) ∨ region.type = mmtestRO) ∧
      (storeRange env p i region a b s).1 ≠ .finished ∧
      (storeRange env p i region a b s).2.rdList = s.rdList) := by
  rw [storeRange]
  by_cases hrw : region.type = mmtestRW
  · have hro : region.type ≠ mmtestRO := by rw [hrw]; decide
    rw [if_pos hrw]
    rcases addRWRange_maps_iff env p i a b hopen with
      ⟨hmaps, s', hrun, hopen', hraw, hmax, hrd⟩ | ⟨hmaps, hstop, hrd⟩
    · left
      refine ⟨Or.inl ⟨hrw, hmaps⟩, s', hrun, hopen', ?_, hmax, ?_⟩
      · rw [if_pos hrw, hraw]
      · rw [if_neg hro, hrd, List.nil_append]
    · right
      refine ⟨?_, hstop, hrd⟩
      rintro (⟨-, h⟩ | h)
      · exact hmaps h
      · exact hro h
  · by_cases hro : region.type = mmtestRO
    · left
      rw [if_neg hrw, if_pos hro]
      refine ⟨Or.inr hro, _, rfl, hopen, ?_, rfl, ?_⟩
      · rw [if_neg hrw]
      · rw [if_pos hro]
        rfl
    · right
      rw [if_neg hrw, if_neg hro]
      refine ⟨?_, by simp, rfl⟩
      rintro (⟨h, -⟩ | h)
      · exact hrw h
      · exact hro h

-- An empty region has nothing in the window.
theorem clipRegion_of_empty (hwindow : p.start ≤ p.stop) (hempty : regLen region = 0)
    (hcut : clipRegion p region = some (a, b)) : a = b := by
  have hlast : regLast region = regOffset region := by
    rw [regLast, hempty, Nat.add_zero, regOffset, Nat.mod_mod]
  rw [clipRegion, hlast] at hcut
  unfold clipToWindow at hcut
  split_ifs at hcut
  all_goals
    obtain ⟨rfl, rfl⟩ := Prod.mk.inj (Option.some.inj hcut)
    omega

theorem initRegion_eq_recordRegion : initRegion env p i region s =
    recordRegion env p i region (regOffset region) (regLen region) (regLast region) s := by
  unfold initRegion regLast regLen regOffset
  rfl

theorem rdEntry_of_empty (hwindow : p.start ≤ p.stop) (hempty : regLen region = 0) :
    rdEntry p region = none := by
  cases hclip : clipRegion p region with
  | none => simp [rdEntry, hclip]
  | some cut => simp [rdEntry, hclip, clipRegion_of_empty hwindow hempty hclip]

-- The turn of a region on an open device: the loop goes on with what the region leaves behind, and
-- with the device still open if the region is not empty, or it stops and stores nothing.
theorem recordRegion_turn (env : InitEnv) (p : TestParm) (i : Nat) (region : BootmemRegion)
    (offset len last : Nat) {cut : Option (Nat × Nat)} (hopen : s.fdOpen = true)
    (hcut : (if p.listInfo then some (offset, last) else clipToWindow p offset last) = cut)
    (hempty : len = 0 → ∀ a b, cut = some (a, b) → a = b) :
    (Stores env p i s.rawReg.length region cut ∧
      ∃ s', recordRegion env p i region offset len last s = (.finished, s') ∧
        (s'.fdOpen = true ↔ len ≠ 0) ∧
        s'.rawReg = s.rawReg ++ (cut.map fun cut =>
          if cut.1 ≠ cut.2 ∧ region.type = mmtestRW then
            (pfnStartRoundup cut.1, pfnEndRoundup cut.2)
          else cut).toList ∧
        s'.maxPhyAddr = max s.maxPhyAddr last ∧
        s'.rdList = (cut.bind fun cut =>
          if cut.1 ≠ cut.2 ∧ region.type = mmtestRO then some (⟨cut.1, cut.2⟩ : RDRange)
          else none).toList ++ s.rdList) ∨
    (¬ Stores env p i s.rawReg.length region cut ∧
      (recordRegion env p i region offset len last s).1 ≠ .finished ∧
      (recordRegion env p i region offset len last s).2.rdList = s.rdList) := by
  cases cut with
  | none =>
      left
      rw [recordRegion_of_none hcut]
      exact ⟨trivial, _, rfl, by simp [hopen], by simp, by simp, by simp⟩
  | some cut =>
      obtain ⟨a, b⟩ := cut
      by_cases hroom : s.rawReg.length < maxRegion
      swap
      · right
        rw [recordRegion_of_full hcut (not_lt.mp hroom)]
        exact ⟨fun h => hroom h.1, by simp, by simp⟩
      rw [recordRegion_of_room hcut hroom]
      by_cases heq : a = b
      · left
        rw [if_pos heq]
        refine ⟨⟨hroom, fun hne => absurd heq hne⟩, _, rfl, ?_, ?_, ?_, ?_⟩
        · simp [hopen]
        · simp [heq]
        · simp
        · simp [heq]
      rw [if_neg heq]
      have hlen : len ≠ 0 := fun hlen => heq (hempty hlen a b rfl)
      by_cases hnode : region.nid < nodeCount
      swap
      · right
        rw [if_pos (not_lt.mp hnode)]
        exact ⟨fun h => hnode (h.2 heq).1, by simp, by simp⟩
      rw [if_neg (not_le.mpr hnode)]
      have hopen' : (noteRange a b (enterRegion len last s)).fdOpen = true := by simp [hlen, hopen]
      rcases storeRange_turn env p i region a b hopen' with
        ⟨hgoes, s', hrun, hopen'', hraw', hmax', hrd'⟩ | ⟨hgoes, hstop, hrd'⟩
      · left
        refine ⟨⟨hroom, fun _ => ⟨hnode, hgoes⟩⟩, s', hrun, ?_, ?_, ?_, ?_⟩
        · exact ⟨fun _ => hlen, fun _ => hopen''⟩
        · rw [hraw', noteRange_rawReg, List.dropLast_concat]
          by_cases hrw : region.type = mmtestRW <;> simp [heq, hrw]
        · rw [hmax', noteRange_maxPhyAddr, enterRegion_maxPhyAddr]
        · rw [hrd', noteRange_rdList, enterRegion_rdList]
          by_cases hro : region.type = mmtestRO <;> simp [heq, hro]
      · right
        refine ⟨fun h => hgoes (h.2 heq).2, hstop, ?_⟩
        rw [hrd', noteRange_rdList, enterRegion_rdList]

-- The same with the bytes of the region.
theorem initRegion_turn (region : BootmemRegion) (hwindow : p.start ≤ p.stop)
    (hread : env.getBregion i = none)
    (hopen : s.fdOpen = true) :
    (∃ s', initRegion env p i region s = (.finished, s') ∧
      (s'.fdOpen = true ↔ Passes env p i s.rawReg.length region) ∧
      (¬ Passes env p i s.rawReg.length region → rdEntry p region = none) ∧
      s'.rawReg = s.rawReg ++ (rawEntry p region).toList ∧
      s'.maxPhyAddr = max s.maxPhyAddr (regLast region) ∧
      s'.rdList = (rdEntry p region).toList ++ s.rdList) ∨
    (¬ Passes env p i s.rawReg.length region ∧ (initRegion env p i region s).1 ≠ .finished ∧
      (initRegion env p i region s).2.rdList = s.rdList) := by
  rw [initRegion_eq_recordRegion]
  rcases recordRegion_turn env p i region (regOffset region) (regLen region) (regLast region) hopen
      (rfl : _ = clipRegion p region) (fun hempty a b => clipRegion_of_empty hwindow hempty) with
    ⟨hstores, s', hrun, hfd, hraw, hmax, hrd⟩ | ⟨hstores, hstop⟩
  · left
    have hpasses : regLen region ≠ 0 ↔ Passes env p i s.rawReg.length region :=
      ⟨fun hne => ⟨hread, hne, hstores⟩, Passes.nonempty⟩
    refine ⟨s', hrun, hfd.trans hpasses, fun hfails => ?_, hraw, hmax, hrd⟩
    exact rdEntry_of_empty hwindow (not_not.mp (mt hpasses.mp hfails))
  · exact Or.inr ⟨fun h => hstores h.stores, hstop⟩

end Turn

/-! ## The loop -/

section Loop

variable {ks : KernelSort} {d : Globals} {env : InitEnv} {p : TestParm}
  {regions : List BootmemRegion} (hwindow : p.start ≤ p.stop)
  (htable : d.table = ⟨regions, regions.length⟩)

theorem initLoop_of_closed {n : Nat} {s : InitState} (hclosed : s.fdOpen ≠ true) :
    (initLoop ks d env p n s).2.rdList = s.rdList ∧
      ((initLoop ks d env p n s).1 = .finished → n = 0) := by
  cases n with
  | zero => exact ⟨rfl, fun _ => rfl⟩
  | succ i =>
      simp [initLoop, hclosed]

theorem rawEntry_length (region : BootmemRegion) :
    (rawEntry p region).toList.length = if (clipRegion p region).isSome then 1 else 0 := by
  cases hclip : clipRegion p region with
  | none => simp [rawEntry, hclip]
  | some cut => simp [rawEntry, hclip]

include htable

-- One turn of the loop and the rest of it.
theorem initLoop_succ {i : Nat} (hi : i < regions.length) {s : InitState}
    (hread : env.getBregion i = none) (hopen : s.fdOpen = true) :
    initLoop ks d env p (i + 1) s =
      if (initRegion env p i regions[i] s).1 = .finished then
        initLoop ks d env p i (initRegion env p i regions[i] s).2
      else initRegion env p i regions[i] s := by
  simp only [initLoop, readRegion_eq ks htable hi, hopen, if_true, hread]
  rcases initRegion env p i regions[i] s with ⟨e, t⟩
  cases e with
  | finished => rw [if_pos rfl]
  | _ => rw [if_neg (by simp)]

omit htable in
-- Nothing is stored below a region at which the loop does not get past.
theorem stored_succ {i : Nat} (hi : i < regions.length) (rd : RDRange) :
    Stored env p regions (i + 1) rd ↔ Passes env p i (recordedAbove p regions i) regions[i] ∧
      (rdEntry p regions[i] = some rd ∨ Stored env p regions i rd) := by
  have hget : regions[i]? = some regions[i] := List.getElem?_eq_getElem hi
  constructor
  · rintro ⟨j, region, hj, hregion, hpast, hentry⟩
    refine ⟨hpast i _ (by omega) (by omega) hget, ?_⟩
    rcases Nat.lt_succ_iff_lt_or_eq.mp hj with hj | rfl
    · right
      refine ⟨j, region, hj, hregion, ?_, hentry⟩
      intro k r hjk hk
      exact hpast k r hjk (by omega)
    · obtain rfl := Option.some.inj (hget.symm.trans hregion)
      exact Or.inl hentry
  · rintro ⟨hpass, hentry | ⟨j, region, hj, hregion, hpast, hentry⟩⟩
    · refine ⟨i, _, by omega, hget, ?_, hentry⟩
      intro k r hik hk hr
      obtain rfl : i = k := by omega
      obtain rfl := Option.some.inj (hget.symm.trans hr)
      exact hpass
    · refine ⟨j, region, by omega, hregion, ?_, hentry⟩
      intro k r hjk hk hr
      rcases Nat.lt_succ_iff_lt_or_eq.mp hk with hk | rfl
      · exact hpast k r hjk hk hr
      · obtain rfl := Option.some.inj (hget.symm.trans hr)
        exact hpass

include hwindow

-- The ranges on `RD_list` are those of the read-only regions that the loop gets past.
theorem mem_initLoop_rdList (n : Nat) (hn : n ≤ regions.length) (s : InitState)
    (hopen : s.fdOpen = true)
    (hcount : s.rawReg.length = (regions.drop n).countP fun region => (clipRegion p region).isSome)
    (rd : RDRange) :
    rd ∈ (initLoop ks d env p n s).2.rdList ↔ rd ∈ s.rdList ∨ Stored env p regions n rd := by
  induction n generalizing s with
  | zero => simp [initLoop, Stored]
  | succ i ih =>
      have hi : i < regions.length := by omega
      rw [stored_succ hi]
      rw [show (regions.drop (i + 1)).countP _ = recordedAbove p regions i from rfl] at hcount
      by_cases hread : env.getBregion i = none
      swap
      · have hfails : ¬ Passes env p i (recordedAbove p regions i) regions[i] := fun h => hread h.read
        obtain ⟨errno, herrno⟩ := Option.ne_none_iff_exists'.mp hread
        simp [initLoop, hopen, herrno, hfails]
      rw [initLoop_succ htable hi hread hopen]
      rcases initRegion_turn regions[i] hwindow hread hopen with
        ⟨s', hrun, hfd, hnone, hraw, -, hrd⟩ | ⟨hfails, hstop, hrd⟩
      · rw [hrun, if_pos rfl]
        rw [hcount] at hfd hnone
        by_cases hpass : Passes env p i (recordedAbove p regions i) regions[i]
        · have hlength : s'.rawReg.length =
              (regions.drop i).countP fun region => (clipRegion p region).isSome := by
            rw [List.drop_eq_getElem_cons hi, List.countP_cons, hraw, List.length_append,
              rawEntry_length, hcount]
            rfl
          rw [ih (by omega) s' (hfd.mpr hpass) hlength, hrd]
          simp [hpass, or_comm, or_left_comm]
        · rw [(initLoop_of_closed (mt hfd.mp hpass)).1, hrd]
          simp [hpass, hnone hpass]
      · rw [if_neg hstop, hrd]
        rw [hcount] at hfails
        simp [hfails]

-- A loop that finishes has recorded every region, the highest first.
theorem initLoop_finished (n : Nat) (hn : n ≤ regions.length) (s s' : InitState)
    (hrun : initLoop ks d env p n s = (.finished, s')) :
    s'.rawReg = s.rawReg ++ (regions.take n).reverse.filterMap (rawEntry p) ∧
      s'.maxPhyAddr = (regions.take n).foldr (fun region m => max m (regLast region))
        s.maxPhyAddr := by
  induction n generalizing s with
  | zero =>
      obtain rfl := (Prod.mk.inj hrun).2
      simp
  | succ i ih =>
      have hi : i < regions.length := by omega
      have htake : regions.take (i + 1) = regions.take i ++ [regions[i]] :=
        List.take_succ_eq_append_getElem hi
      have hopen : s.fdOpen = true := by
        by_contra hclosed
        have := (initLoop_of_closed hclosed).2 (congrArg Prod.fst hrun)
        omega
      have hread : env.getBregion i = none := by
        by_contra hread
        obtain ⟨errno, herrno⟩ := Option.ne_none_iff_exists'.mp hread
        simp [initLoop, hopen, herrno] at hrun
      rw [initLoop_succ htable hi hread hopen] at hrun
      rcases initRegion_turn regions[i] hwindow hread hopen with
        ⟨t, hturn, -, -, hraw, hmax, -⟩ | ⟨-, hstop, -⟩
      · rw [hturn, if_pos rfl] at hrun
        obtain ⟨hraw', hmax'⟩ := ih (by omega) t hrun
        rw [htake]
        constructor
        · rw [hraw', hraw, List.reverse_append, List.filterMap_append, List.append_assoc]
          congr 2
        · rw [hmax', hmax, List.foldr_append]
          rfl
      · rw [if_neg hstop] at hrun
        exact absurd (congrArg Prod.fst hrun) hstop

end Loop

end MoBoMemory.App
