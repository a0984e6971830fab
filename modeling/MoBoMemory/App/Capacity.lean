import MoBoMemory.App.ReadWriteTest
import MoBoMemory.App.RegionLoop
import MoBoMemory.App.SlicePartition

/-!
# Capacities from stage to stage

The driver returns up to 64 regions of any node; `init_module` has 20 entries in `raw_reg` and one
node.  The region loop goes down from the highest region until one does not pass; it stays inside both
tables exactly as long as a turn finds room.  The listing behind the loop reads `raw_reg[i-1]` down to
`i = 0`, so only a run that gives up before it stays inside.

`test_policy` makes up to one slice for each of 32 cores; `read_write_test` copies into 12 ranges of
16 slices each.
-/

namespace MoBoMemory.App

open Base Driver

/-- The indices at which the listing of the non-testable ranges reads `raw_reg`, with `raw_num`
entries recorded; the lines it prints read the same entries again. -/
def listingReads (rawNum : Nat) : List Int :=
  [(rawNum : Int) - 1] ++ ((List.range rawNum).reverse.flatMap fun i : Nat => [(i : Int) - 1, i]) ++ [0]

/-- The part of a region that is wanted: all of it in list mode. -/
def piece (p : TestParm) (region : BootmemRegion) : Span Nat :=
  if p.listInfo then regionBytes region else inWindow p region

/-- The region has a byte in the window. -/
def Meets (p : TestParm) (region : BootmemRegion) : Prop :=
  (piece p region).lo < (piece p region).hi

/-- The region and the window have at least their bounds in common. -/
def Touches (p : TestParm) (region : BootmemRegion) : Prop :=
  p.listInfo = true ∨ (p.start ≤ (regionBytes region).hi ∧ (regionBytes region).lo ≤ p.stop)

instance (p : TestParm) (region : BootmemRegion) : Decidable (Touches p region) :=
  inferInstanceAs (Decidable (_ ∨ _))

instance (p : TestParm) (region : BootmemRegion) : Decidable (Meets p region) :=
  inferInstanceAs (Decidable (_ < _))

def rwPhysical (s : InitState) : List (Span Nat) := s.rwList.map RWRange.physical

def rdPhysical (s : InitState) : List (Span Nat) := s.rdList.map fun rd => ⟨rd.start, rd.stop⟩

/-- What the read-write regions that meet the window should have on `RW_list`. -/
def wantedRW (p : TestParm) (regions : List BootmemRegion) : List (Span Nat) :=
  (regions.filter fun region => region.type = mmtestRW ∧ Meets p region).map fun region =>
    wholePages (piece p region)

/-- The same for the other ones. -/
def wantedRD (p : TestParm) (regions : List BootmemRegion) : List (Span Nat) :=
  (regions.filter fun region => region.type ≠ mmtestRW ∧ Meets p region).map (piece p)

/-- Every region that meets the window has an entry of its own on the list of its type. -/
def AllListed (p : TestParm) (regions : List BootmemRegion) (s : InitState) : Prop :=
  (wantedRW p regions).Subperm (rwPhysical s) ∧ (wantedRD p regions).Subperm (rdPhysical s)

/-- The loop leaves neither table, and every region that meets the window is listed. -/
def LoopWithin (ks : KernelSort) (d : Globals) (env : InitEnv) (p : TestParm) : Prop :=
  (initModule ks d env p).1 ≠ .outOfTable ∧ AllListed p d.table.regions (initModule ks d env p).2

/-- All of `init_module` stays inside `raw_reg` and `node`. -/
def Within (ks : KernelSort) (d : Globals) (env : InitEnv) (p : TestParm) : Prop :=
  LoopWithin ks d env p ∧
    ((initModule ks d env p).1 = .finished →
      ∀ i ∈ listingReads (initModule ks d env p).2.rawReg.length, 0 ≤ i ∧ i < maxRegion)

/-- `init_module` returns before the loop. -/
def Refused (env : InitEnv) (p : TestParm) : Prop :=
  p.stop < p.start ∨ env.openDevice ≠ none ∨ env.getBregionNum ≠ none

/-- With `count` entries in `raw_reg` the turn of the region stays inside both tables. -/
def TurnInside (p : TestParm) (count : Nat) (region : BootmemRegion) : Prop :=
  ∀ a b, clipRegion p region = some (a, b) → count < maxRegion ∧ (a ≠ b → region.nid < nodeCount)

/-- The regions above region `k` pass, and region `k` itself does not. -/
structure ComesDownTo (env : InitEnv) (p : TestParm) (regions : List BootmemRegion) (k : Nat)
    (region : BootmemRegion) : Prop where
  get : regions[k]? = some region
  above : GetsPast env p regions regions.length (k + 1)
  fails : ¬ Passes env p k (recordedAbove p regions k) region

/-- The turn at which the loop stops stays inside the tables, and no region from there on meets the
window. -/
structure StopsInside (env : InitEnv) (p : TestParm) (regions : List BootmemRegion) (k : Nat)
    (region : BootmemRegion) : Prop extends ComesDownTo env p regions k region where
  inside : env.getBregion k = none → TurnInside p (recordedAbove p regions k) region
  unmet : ∀ r ∈ regions.take (k + 1), ¬ Meets p r

/-- The loop gets past all regions, or stops inside the tables. -/
def LoopFits (env : InitEnv) (p : TestParm) (regions : List BootmemRegion) : Prop :=
  GetsPast env p regions regions.length 0 ∨ ∃ k region, StopsInside env p regions k region

/-- The loop comes to its end all the same: region 0 is empty. -/
def EndsLoop (env : InitEnv) (p : TestParm) (regions : List BootmemRegion) (k : Nat)
    (region : BootmemRegion) : Prop :=
  k = 0 ∧ env.getBregion k = none ∧
    Stores env p k (recordedAbove p regions k) region (clipRegion p region)

/-- The loop stops inside the tables, and `init_module` returns an error. -/
def GivesUp (env : InitEnv) (p : TestParm) (regions : List BootmemRegion) : Prop :=
  ∃ k region, StopsInside env p regions k region ∧ ¬ EndsLoop env p regions k region

/-- The bounds are page numbers, and the type is one of the two that the driver gives; the region may
be empty or inverted. -/
structure DriverRegion (region : BootmemRegion) : Prop where
  startPfn_lt : region.startPfn < 2 ^ 52
  endPfn_lt : region.endPfn < 2 ^ 52
  type : region.type = mmtestRW ∨ region.type = mmtestRO

/-! ## The listing -/

-- The entry below the last one read is always entry -1.
theorem listing_reads_below (rawNum : Nat) : (-1 : Int) ∈ listingReads rawNum := by
  rw [listingReads, List.mem_append, List.mem_append]
  left
  cases rawNum with
  | zero => exact Or.inl (List.mem_singleton.mpr rfl)
  | succ n =>
      refine Or.inr (List.mem_flatMap.mpr ⟨0, ?_, by simp⟩)
      rw [List.mem_reverse, List.mem_range]
      omega

theorem not_listing_inside (rawNum : Nat) :
    ¬ ∀ i ∈ listingReads rawNum, 0 ≤ i ∧ i < (maxRegion : Int) := by
  intro h
  have hneg := (h _ (listing_reads_below rawNum)).1
  omega

/-! ## One turn of the loop -/

section Turn

variable {p : TestParm} {region : BootmemRegion}

theorem Meets.touches (hmeets : Meets p region) : Touches p region := by
  unfold Meets piece at hmeets
  unfold Touches
  split at hmeets
  · next hlist => exact Or.inl hlist
  · simp only [inWindow, Span.inter, TestParm.window] at hmeets
    omega

-- With nothing in the window the region is passed over, or what is left is empty, or the region is
-- inverted and stays as it is.
theorem clipToWindow_outside {lo hi : Nat} (hwindow : p.start ≤ p.stop)
    (hmisses : ¬ max lo p.start < min hi p.stop) :
    clipToWindow p lo hi = none ∨ (∃ a, clipToWindow p lo hi = some (a, a)) ∨
      (hi < lo ∧ clipToWindow p lo hi = some (lo, hi)) := by
  unfold clipToWindow
  split_ifs with hbelow hfirst hinside houter hsecond habove
  · exact Or.inl rfl
  · have hempty : hi = p.start := by omega
    exact Or.inr (Or.inl ⟨p.start, by rw [hempty]⟩)
  · rcases Nat.lt_or_ge hi lo with hinverted | hordered
    · exact Or.inr (Or.inr ⟨hinverted, rfl⟩)
    · have hempty : hi = lo := by omega
      exact Or.inr (Or.inl ⟨lo, by rw [hempty]⟩)
  · have hempty : p.stop = p.start := by omega
    exact Or.inr (Or.inl ⟨p.start, by rw [hempty]⟩)
  · have hempty : p.stop = lo := by omega
    exact Or.inr (Or.inl ⟨lo, by rw [hempty]⟩)
  · exact Or.inl rfl
  · exact Or.inr (Or.inl ⟨0, rfl⟩)

namespace DriverRegion

variable (hregion : DriverRegion region)

include hregion

theorem bytes : regOffset region = (regionBytes region).lo ∧ regLast region = (regionBytes region).hi := by
  have hstart := hregion.startPfn_lt
  have hend := hregion.endPfn_lt
  simp only [regOffset, regLast, regLen, ulSub, regionBytes, pageSize, pageShift]
  omega

theorem regLen_eq_zero : regLen region = 0 ↔ region.startPfn = region.endPfn := by
  have hstart := hregion.startPfn_lt
  have hend := hregion.endPfn_lt
  simp only [regLen, ulSub, pageSize, pageShift]
  omega

theorem clipRegion_eq : clipRegion p region =
    if p.listInfo then some ((regionBytes region).lo, (regionBytes region).hi)
    else clipToWindow p (regionBytes region).lo (regionBytes region).hi := by
  rw [clipRegion, hregion.bytes.1, hregion.bytes.2]

theorem wellFormed (hmeets : Meets p region) : WellFormedRegion region := by
  have hpages : (regionBytes region).lo < (regionBytes region).hi := by
    unfold Meets piece at hmeets
    split at hmeets
    · exact hmeets
    · simp only [inWindow, Span.inter] at hmeets
      omega
  refine ⟨Nat.lt_of_mul_lt_mul_right hpages, ?_, hregion.type⟩
  have hend := hregion.endPfn_lt
  simp only [pageSize, pageShift]
  omega

-- The clipped range is what the region has in the window, or it is empty, or it is the region itself and
-- inverted.
theorem clip_cases (hwindow : p.start ≤ p.stop) :
    (¬ Meets p region ∧ clipRegion p region = none) ∨
      (¬ Meets p region ∧ ∃ a, clipRegion p region = some (a, a)) ∨
      (¬ Meets p region ∧ (regionBytes region).hi < (regionBytes region).lo ∧
        clipRegion p region = some ((regionBytes region).lo, (regionBytes region).hi)) ∨
      (Meets p region ∧ clipRegion p region = some ((piece p region).lo, (piece p region).hi)) := by
  rw [hregion.clipRegion_eq]
  unfold Meets piece
  by_cases hlist : p.listInfo = true
  · simp only [hlist, if_true, Option.some.injEq, Prod.mk.injEq, and_true, reduceCtorEq, and_false,
      false_or]
    rcases Nat.lt_trichotomy (regionBytes region).lo (regionBytes region).hi with hlt | heq | hgt
    · exact Or.inr (Or.inr hlt)
    · exact Or.inl ⟨by omega, _, rfl, heq.symm⟩
    · exact Or.inr (Or.inl ⟨by omega, hgt⟩)
  · simp only [hlist, Bool.false_eq_true, if_false, inWindow, Span.inter, TestParm.window]
    generalize (regionBytes region).lo = lo
    generalize (regionBytes region).hi = hi
    by_cases hmeets : max lo p.start < min hi p.stop
    · exact Or.inr (Or.inr (Or.inr ⟨hmeets, clipToWindow_meets hmeets⟩))
    · rcases clipToWindow_outside hwindow hmeets with hnone | hempty | hinverted
      · exact Or.inl ⟨hmeets, hnone⟩
      · exact Or.inr (Or.inl ⟨hmeets, hempty⟩)
      · exact Or.inr (Or.inr (Or.inl ⟨hmeets, hinverted⟩))

-- Where nothing is left between the bounds, nothing was in the window.
theorem misses_of_clip (hwindow : p.start ≤ p.stop) (h : ∀ a b, clipRegion p region = some (a, b) → a = b) :
    ¬ Meets p region := by
  rcases hregion.clip_cases hwindow with hmisses | hmisses | hmisses | ⟨hmeets, hclip⟩
  · exact hmisses.1
  · exact hmisses.1
  · exact hmisses.1
  · exact absurd (h _ _ hclip) (ne_of_lt hmeets)

end DriverRegion

/-- The spans that are not empty or inverted. -/
def proper (spans : List (Span Nat)) : List (Span Nat) := spans.filter fun t => t.lo < t.hi

theorem wholePages_proper {t : Span Nat} (h : t.lo < t.hi) : (wholePages t).lo < (wholePages t).hi := by
  simp only [wholePages, pageSize, pageShift]
  omega

theorem wantedRW_append (p : TestParm) (low high : List BootmemRegion) :
    wantedRW p (low ++ high) = wantedRW p low ++ wantedRW p high := by
  rw [wantedRW, List.filter_append, List.map_append]
  rfl

theorem wantedRD_append (p : TestParm) (low high : List BootmemRegion) :
    wantedRD p (low ++ high) = wantedRD p low ++ wantedRD p high := by
  rw [wantedRD, List.filter_append, List.map_append]
  rfl

theorem proper_wantedRW (p : TestParm) (regions : List BootmemRegion) :
    proper (wantedRW p regions) = wantedRW p regions := by
  refine List.filter_eq_self.mpr fun t ht => ?_
  obtain ⟨region, hregion, rfl⟩ := List.mem_map.mp ht
  exact decide_eq_true (wholePages_proper (of_decide_eq_true (List.mem_filter.mp hregion).2).2)

theorem proper_wantedRD (p : TestParm) (regions : List BootmemRegion) :
    proper (wantedRD p regions) = wantedRD p regions := by
  refine List.filter_eq_self.mpr fun t ht => ?_
  obtain ⟨region, hregion, rfl⟩ := List.mem_map.mp ht
  exact decide_eq_true (of_decide_eq_true (List.mem_filter.mp hregion).2).2

theorem wanted_eq_nil {regions : List BootmemRegion} :
    wantedRW p regions = [] ∧ wantedRD p regions = [] ↔ ∀ region ∈ regions, ¬ Meets p region := by
  simp only [wantedRW, wantedRD, List.map_eq_nil_iff, List.filter_eq_nil_iff, decide_eq_true_eq]
  constructor
  · rintro ⟨hrw, hrd⟩ region hregion hmeets
    by_cases htype : region.type = mmtestRW
    · exact hrw region hregion ⟨htype, hmeets⟩
    · exact hrd region hregion ⟨htype, hmeets⟩
  · exact fun h => ⟨fun region hregion hwanted => h region hregion hwanted.2,
      fun region hregion hwanted => h region hregion hwanted.2⟩

/-- Between the two states the entries of these regions have come to the lists. -/
structure Adds (p : TestParm) (passed : List BootmemRegion) (s s' : InitState) : Prop where
  rw : proper (rwPhysical s') = wantedRW p passed ++ proper (rwPhysical s)
  rd : proper (rdPhysical s') = wantedRD p passed ++ proper (rdPhysical s)

theorem Adds.trans {p : TestParm} {low high : List BootmemRegion} {s t u : InitState}
    (hst : Adds p high s t) (htu : Adds p low t u) : Adds p (low ++ high) s u where
  rw := by rw [htu.rw, hst.rw, wantedRW_append, List.append_assoc]
  rd := by rw [htu.rd, hst.rd, wantedRD_append, List.append_assoc]

theorem Adds.nil {p : TestParm} {s s' : InitState} (hrw : rwPhysical s' = rwPhysical s)
    (hrd : rdPhysical s' = rdPhysical s) : Adds p [] s s' where
  rw := by
    rw [hrw]
    rfl
  rd := by
    rw [hrd]
    rfl

-- A region without a byte in the window has nothing to come.
theorem Adds.of_misses {s s' : InitState} (hmisses : ¬ Meets p region)
    (hrw : proper (rwPhysical s') = proper (rwPhysical s))
    (hrd : proper (rdPhysical s') = proper (rdPhysical s)) : Adds p [region] s s' := by
  obtain ⟨hnoRW, hnoRD⟩ := wanted_eq_nil.mpr (List.forall_mem_singleton.mpr hmisses)
  exact ⟨by rw [hrw, hnoRW]; rfl, by rw [hrd, hnoRD]; rfl⟩

section Stores

variable {env : InitEnv} {i a b : Nat} {s : InitState} (hregion : DriverRegion region)
  (hopen : s.fdOpen = true)

theorem addRWRange_rdPhysical (env : InitEnv) (p : TestParm) (i a b : Nat) (s : InitState) :
    rdPhysical (addRWRange env p i a b s).2 = rdPhysical s := by
  unfold addRWRange
  simp only
  split_ifs
  · rfl
  · rfl
  all_goals cases env.mmap i <;> rfl

include hopen in
-- What there is no mapping for is on no list.
theorem storeRange_unstored (h : ¬ ((region.type = mmtestRW ∧ Maps env p i a b) ∨ region.type = mmtestRO)) :
    rwPhysical (storeRange env p i region a b s).2 = rwPhysical s ∧
      rdPhysical (storeRange env p i region a b s).2 = rdPhysical s := by
  obtain ⟨hmaps, hro⟩ := not_or.mp h
  rw [storeRange, if_neg hro]
  split_ifs with hrw
  · have hfails : ¬ Maps env p i a b := fun hm => hmaps ⟨hrw, hm⟩
    unfold Maps at hfails
    obtain ⟨hlist, hlong, hmmap⟩ := not_or.mp hfails |>.imp_right not_or.mp
    rw [addRWRange, if_neg hlist, if_neg hlong, hopen]
    cases hcall : env.mmap i with
    | error errno => exact ⟨rfl, rfl⟩
    | ok addr => exact absurd ⟨addr, hcall⟩ hmmap
  · exact ⟨rfl, rfl⟩

include hregion

theorem storeRange_inside : (storeRange env p i region a b s).1 ≠ .outOfTable := by
  rw [storeRange]
  rcases hregion.type with hrw | hro
  · rw [if_pos hrw]
    unfold addRWRange
    simp only
    split_ifs
    · simp
    · simp
    all_goals cases env.mmap i <;> simp
  · rw [if_neg (by rw [hro]; decide), if_pos hro]
    simp

-- An inverted region leaves an inverted entry or none.
theorem storeRange_inverted (hinverted : (regionBytes region).hi < (regionBytes region).lo) :
    proper (rwPhysical (storeRange env p i region (regionBytes region).lo (regionBytes region).hi s).2) =
        proper (rwPhysical s) ∧
      proper (rdPhysical (storeRange env p i region (regionBytes region).lo (regionBytes region).hi s).2) =
        proper (rdPhysical s) := by
  have hend := hregion.endPfn_lt
  have hrounded : ¬ pfnStartRoundup (regionBytes region).lo < pfnEndRoundup (regionBytes region).hi := by
    simp only [regionBytes, pfnStartRoundup, pfnEndRoundup, pageSize, pageShift] at hinverted ⊢
    omega
  rw [storeRange]
  rcases hregion.type with hrw | hro
  · rw [if_pos hrw]
    rcases addRWRange_rwList env p i (regionBytes region).lo (regionBytes region).hi s with
      hsame | ⟨rw, hstart, hstop, hcons⟩
    · exact ⟨by rw [rwPhysical, hsame, rwPhysical], by rw [addRWRange_rdPhysical]⟩
    · have hphysical : rw.physical = ⟨pfnStartRoundup (regionBytes region).lo,
          pfnEndRoundup (regionBytes region).hi⟩ := by rw [RWRange.physical, hstart, hstop]
      refine ⟨?_, by rw [addRWRange_rdPhysical]⟩
      rw [rwPhysical, hcons, List.map_cons, hphysical]
      exact List.filter_cons_of_neg (by simpa using hrounded)
  · rw [if_neg (by rw [hro]; decide), if_pos hro]
    exact ⟨rfl, List.filter_cons_of_neg (by simpa using hinverted.le)⟩

include hopen

-- What the region has in the window is put on the list of its type.
theorem storeRange_stores (hmeets : Meets p region)
    (hstores : (region.type = mmtestRW ∧ Maps env p i (piece p region).lo (piece p region).hi) ∨
      region.type = mmtestRO) :
    rwPhysical (storeRange env p i region (piece p region).lo (piece p region).hi s).2 =
        wantedRW p [region] ++ rwPhysical s ∧
      rdPhysical (storeRange env p i region (piece p region).lo (piece p region).hi s).2 =
        wantedRD p [region] ++ rdPhysical s := by
  have hwell := hregion.wellFormed hmeets
  rw [storeRange]
  rcases hregion.type with hrw | hro
  · obtain ⟨-, hmaps⟩ := hstores.resolve_right (by rw [hrw]; decide)
    have hinside : (piece p region).hi ≤ region.endPfn * pageSize := by
      unfold piece
      split
      · exact le_rfl
      · exact Nat.min_le_left _ _
    obtain ⟨hstart, hend⟩ := roundup_eq_wholePages (s := piece p region) hinside hwell.addressable
    have hwanted : wantedRW p [region] = [⟨pfnStartRoundup (piece p region).lo,
        pfnEndRoundup (piece p region).hi⟩] := by
      rw [hstart, hend]
      simp [wantedRW, hrw, hmeets]
    have hnone : wantedRD p [region] = [] := by simp [wantedRD, hrw]
    rw [if_pos hrw, addRWRange_rdPhysical, hwanted, hnone]
    refine ⟨?_, rfl⟩
    by_cases hlist : p.listInfo = true
    · rw [addRWRange, if_pos hlist]
      rfl
    · have hcut : piece p region = inWindow p region := if_neg hlist
      have hlong := not_skipped hwell (p := p) (by rwa [← hcut])
      rw [← hcut] at hlong
      obtain ⟨addr, hmmap⟩ := (hmaps.resolve_left hlist).resolve_left hlong
      rw [addRWRange, if_neg hlist, if_neg hlong, hopen, if_pos rfl, hmmap]
      rfl
  · have hnotrw : region.type ≠ mmtestRW := by rw [hro]; decide
    rw [if_neg hnotrw, if_pos hro]
    constructor
    · simp [wantedRW, hnotrw, rwPhysical]
    · simp [wantedRD, hnotrw, hmeets, rdPhysical]

end Stores

/-- What the turn of a region puts on the lists, and when it leaves the tables. -/
structure TurnLists (env : InitEnv) (p : TestParm) (i : Nat) (region : BootmemRegion) (s : InitState)
    (e : InitExit × InitState) : Prop where
  leaves : e.1 = .outOfTable ↔ ¬ TurnInside p s.rawReg.length region
  stored : Stores env p i s.rawReg.length region (clipRegion p region) → Adds p [region] s e.2
  unstored : ¬ Stores env p i s.rawReg.length region (clipRegion p region) →
    rwPhysical e.2 = rwPhysical s ∧ rdPhysical e.2 = rdPhysical s

theorem turnInside_iff {a b n : Nat} (hclip : clipRegion p region = some (a, b)) :
    TurnInside p n region ↔ n < maxRegion ∧ (a ≠ b → region.nid < nodeCount) := by
  simp [TurnInside, hclip]

theorem enterRegion_adds (p : TestParm) (a b len last : Nat) (s : InitState) :
    Adds p [] s (noteRange a b (enterRegion len last s)) :=
  .nil (by simp [rwPhysical]) (by simp [rdPhysical])

section Region

variable (env : InitEnv) (i : Nat) {s : InitState} (hregion : DriverRegion region)
  (hopen : s.fdOpen = true) (hwindow : p.start ≤ p.stop)

include hregion hopen hwindow

theorem storeRange_adds {a b : Nat} (hclip : clipRegion p region = some (a, b)) (hne : a ≠ b)
    (hgoes : (region.type = mmtestRW ∧ Maps env p i a b) ∨ region.type = mmtestRO) :
    Adds p [region] s (storeRange env p i region a b s).2 := by
  rcases hregion.clip_cases hwindow with ⟨-, h⟩ | ⟨-, c, h⟩ | ⟨hmisses, hinverted, h⟩ | ⟨hmeets, h⟩
  · simp [hclip] at h
  · obtain ⟨rfl, rfl⟩ := Prod.mk.inj (Option.some.inj (hclip.symm.trans h))
    exact absurd rfl hne
  · obtain ⟨rfl, rfl⟩ := Prod.mk.inj (Option.some.inj (hclip.symm.trans h))
    obtain ⟨hrw, hrd⟩ := storeRange_inverted hregion hinverted
    exact .of_misses hmisses hrw hrd
  · obtain ⟨rfl, rfl⟩ := Prod.mk.inj (Option.some.inj (hclip.symm.trans h))
    obtain ⟨hrw, hrd⟩ := storeRange_stores hregion hopen hmeets hgoes
    constructor
    · rw [hrw, proper, List.filter_append]
      exact congrArg (· ++ _) (proper_wantedRW p [region])
    · rw [hrd, proper, List.filter_append]
      exact congrArg (· ++ _) (proper_wantedRD p [region])

-- A turn that comes to the node of the region.
theorem recordRegion_stores {len last a b : Nat} (hclip : clipRegion p region = some (a, b))
    (hne : a ≠ b) (hlen : len ≠ 0) (hroom : s.rawReg.length < maxRegion) :
    TurnLists env p i region s
      (if nodeCount ≤ region.nid then (.outOfTable, noteRange a b (enterRegion len last s))
        else storeRange env p i region a b (noteRange a b (enterRegion len last s))) := by
  have hinside := turnInside_iff (n := s.rawReg.length) hclip
  have hstores : Stores env p i s.rawReg.length region (clipRegion p region) ↔
      region.nid < nodeCount ∧ ((region.type = mmtestRW ∧ Maps env p i a b) ∨ region.type = mmtestRO) := by
    rw [hclip]
    exact ⟨fun h => h.2 hne, fun h => ⟨hroom, fun _ => h⟩⟩
  have hopen' : (noteRange a b (enterRegion len last s)).fdOpen = true := by simp [hlen, hopen]
  have henter := enterRegion_adds p a b len last s
  split_ifs with hnode
  · refine ⟨iff_of_true rfl fun h => ?_, fun h => ?_, fun _ => ?_⟩
    · exact not_lt.mpr hnode ((hinside.mp h).2 hne)
    · exact absurd (hstores.mp h).1 (not_lt.mpr hnode)
    · simp [rwPhysical, rdPhysical]
  · refine ⟨iff_of_false (storeRange_inside hregion) (not_not.mpr ?_), fun h => ?_, fun h => ?_⟩
    · exact hinside.mpr ⟨hroom, fun _ => not_le.mp hnode⟩
    · exact henter.trans (storeRange_adds env i hregion hopen' hwindow hclip hne (hstores.mp h).2)
    · have hkept := storeRange_unstored hopen' fun hgoes => h (hstores.mpr ⟨not_le.mp hnode, hgoes⟩)
      simpa [rwPhysical, rdPhysical] using hkept

theorem recordRegion_lists {offset len last : Nat}
    (hcut : (if p.listInfo then some (offset, last) else clipToWindow p offset last) = clipRegion p region)
    (hlen : ∀ a b, clipRegion p region = some (a, b) → a ≠ b → len ≠ 0) :
    TurnLists env p i region s (recordRegion env p i region offset len last s) := by
  cases hclip : clipRegion p region with
  | none =>
      have hmisses := hregion.misses_of_clip hwindow (by simp [hclip])
      rw [recordRegion_of_none (hcut.trans hclip)]
      refine ⟨iff_of_false (by simp) (not_not.mpr fun a b h => ?_), fun _ => ?_, fun h => ?_⟩
      · simp [hclip] at h
      · exact .of_misses hmisses (by simp [rwPhysical]) (by simp [rdPhysical])
      · rw [hclip] at h
        exact absurd trivial h
  | some cut =>
      obtain ⟨a, b⟩ := cut
      have hinside := turnInside_iff (n := s.rawReg.length) hclip
      by_cases hroom : s.rawReg.length < maxRegion
      swap
      · rw [recordRegion_of_full (hcut.trans hclip) (not_lt.mp hroom)]
        refine ⟨iff_of_true rfl fun h => hroom (hinside.mp h).1, fun h => ?_, fun _ => ?_⟩
        · rw [hclip] at h
          exact absurd h.1 hroom
        · simp [rwPhysical, rdPhysical]
      rw [recordRegion_of_room (hcut.trans hclip) hroom]
      by_cases heq : a = b
      · have hmisses := hregion.misses_of_clip hwindow fun c d h => by
          obtain ⟨rfl, rfl⟩ := Prod.mk.inj (Option.some.inj (hclip.symm.trans h))
          exact heq
        rw [if_pos heq]
        refine ⟨iff_of_false (by simp) (not_not.mpr (hinside.mpr ⟨hroom, fun h => absurd heq h⟩)),
          fun _ => .of_misses hmisses (by simp [rwPhysical]) (by simp [rdPhysical]), fun _ => ?_⟩
        simp [rwPhysical, rdPhysical]
      · rw [if_neg heq]
        exact recordRegion_stores env i hregion hopen hwindow hclip heq (hlen a b hclip heq) hroom

theorem initRegion_lists : TurnLists env p i region s (initRegion env p i region s) := by
  rw [initRegion_eq_recordRegion]
  exact recordRegion_lists env i hregion hopen hwindow (by rw [clipRegion]) fun a b hclip hne hlen =>
    hne (clipRegion_of_empty hwindow hlen hclip)

end Region

end Turn

/-! ## The loop -/

-- Each wanted entry has one of its own exactly if none is missing.
theorem allListed_iff {p : TestParm} {regions : List BootmemRegion} {m : Nat} {e : InitState}
    (h : Adds p (regions.drop m) ⟨true, 0, 0, [], [], []⟩ e) :
    AllListed p regions e ↔ ∀ region ∈ regions.take m, ¬ Meets p region := by
  have hrw := h.rw
  have hrd := h.rd
  rw [show proper (rwPhysical ⟨true, 0, 0, [], [], []⟩) = [] from rfl, List.append_nil] at hrw
  rw [show proper (rdPhysical ⟨true, 0, 0, [], [], []⟩) = [] from rfl, List.append_nil] at hrd
  have hsplitRW : wantedRW p regions = wantedRW p (regions.take m) ++ wantedRW p (regions.drop m) := by
    rw [← wantedRW_append, List.take_append_drop]
  have hsplitRD : wantedRD p regions = wantedRD p (regions.take m) ++ wantedRD p (regions.drop m) := by
    rw [← wantedRD_append, List.take_append_drop]
  rw [← wanted_eq_nil]
  constructor
  · rintro ⟨hlistRW, hlistRD⟩
    have hproperRW := (hlistRW.filter fun t : Span Nat => decide (t.lo < t.hi)).length_le
    have hproperRD := (hlistRD.filter fun t : Span Nat => decide (t.lo < t.hi)).length_le
    change (proper (wantedRW p regions)).length ≤ (proper (rwPhysical e)).length at hproperRW
    change (proper (wantedRD p regions)).length ≤ (proper (rdPhysical e)).length at hproperRD
    rw [proper_wantedRW, hrw, hsplitRW, List.length_append] at hproperRW
    rw [proper_wantedRD, hrd, hsplitRD, List.length_append] at hproperRD
    exact ⟨List.length_eq_zero_iff.mp (by omega), List.length_eq_zero_iff.mp (by omega)⟩
  · rintro ⟨hnoRW, hnoRD⟩
    rw [AllListed, hsplitRW, hsplitRD, hnoRW, hnoRD, List.nil_append, List.nil_append, ← hrw, ← hrd]
    exact ⟨List.filter_sublist.subperm, List.filter_sublist.subperm⟩

section Loop

variable {ks : KernelSort} {d : Globals} {env : InitEnv} {p : TestParm}
  {regions : List BootmemRegion} (hwindow : p.start ≤ p.stop)
  (htable : d.table = ⟨regions, regions.length⟩) (hregions : ∀ region ∈ regions, DriverRegion region)

theorem initLoop_closed (ks : KernelSort) (d : Globals) (env : InitEnv) (n : Nat) {s : InitState}
    (hclosed : s.fdOpen ≠ true) :
    (initLoop ks d env p n s).1 ≠ .outOfTable ∧ ((initLoop ks d env p n s).1 = .finished ↔ n = 0) ∧
      Adds p [] s (initLoop ks d env p n s).2 := by
  cases n with
  | zero => exact ⟨by simp [initLoop], by simp [initLoop], Adds.nil rfl rfl⟩
  | succ i =>
      have hloop : initLoop ks d env p (i + 1) s = (.returned ebadf, { s with fdOpen := false }) := by
        simp [initLoop, hclosed]
      rw [hloop]
      exact ⟨by simp, by simp, Adds.nil rfl rfl⟩

theorem getsPast_succ {i j : Nat} (hi : i < regions.length) (hj : j ≤ i) :
    GetsPast env p regions (i + 1) j ↔
      Passes env p i (recordedAbove p regions i) regions[i] ∧ GetsPast env p regions i j := by
  have hget : regions[i]? = some regions[i] := List.getElem?_eq_getElem hi
  constructor
  · intro h
    exact ⟨h i _ hj (Nat.lt_succ_self i) hget, fun k region hk hlt hregion => h k region hk (by omega) hregion⟩
  · rintro ⟨hpass, hpast⟩ k region hk hlt hregion
    rcases Nat.lt_succ_iff_lt_or_eq.mp hlt with hlow | rfl
    · exact hpast k region hk hlow hregion
    · obtain rfl := Option.some.inj (hget.symm.trans hregion)
      exact hpass

/-- How the loop over the first `n` regions ends if it does not get past all of them. -/
structure Stops (env : InitEnv) (p : TestParm) (regions : List BootmemRegion) (n k : Nat)
    (region : BootmemRegion) (s : InitState) (e : InitExit × InitState) : Prop where
  lt : k < n
  get : regions[k]? = some region
  above : GetsPast env p regions n (k + 1)
  fails : ¬ Passes env p k (recordedAbove p regions k) region
  leaves : e.1 = .outOfTable ↔
    env.getBregion k = none ∧ ¬ TurnInside p (recordedAbove p regions k) region
  finishes : e.1 = .finished ↔ EndsLoop env p regions k region
  adds : Adds p ((regions.take n).drop (k + 1)) s e.2

include hwindow htable hregions

-- The turn of the highest region is the last one, or the loop goes on with the regions below it.
theorem initLoop_turn {i : Nat} (hi : i < regions.length) {s : InitState} (hopen : s.fdOpen = true)
    (hcount : s.rawReg.length = recordedAbove p regions i) :
    Stops env p regions (i + 1) i regions[i] s (initLoop ks d env p (i + 1) s) ∨
      (Passes env p i (recordedAbove p regions i) regions[i] ∧
        ∃ t, initLoop ks d env p (i + 1) s = initLoop ks d env p i t ∧ t.fdOpen = true ∧
          t.rawReg.length = ((regions.drop i).countP fun region => (clipRegion p region).isSome) ∧
          Adds p [regions[i]] s t) := by
  have hget : regions[i]? = some regions[i] := List.getElem?_eq_getElem hi
  have hregion := hregions regions[i] (List.getElem_mem hi)
  have hlast : (regions.take (i + 1)).drop (i + 1) = [] := List.drop_eq_nil_of_le (List.length_take_le _ _)
  have habove : GetsPast env p regions (i + 1) (i + 1) := fun k _ hk hlt => by omega
  by_cases hread : env.getBregion i = none
  swap
  · left
    obtain ⟨errno, herrno⟩ := Option.ne_none_iff_exists'.mp hread
    have hloop : initLoop ks d env p (i + 1) s = (.returned errno, { s with fdOpen := false }) := by
      simp [initLoop, hopen, herrno]
    rw [hloop]
    exact ⟨Nat.lt_succ_self i, hget, habove, fun h => hread h.read,
      iff_of_false (by simp) fun h => hread h.1, iff_of_false (by simp) fun h => hread h.2.1,
      hlast ▸ Adds.nil rfl rfl⟩
  rw [initLoop_succ htable hi hread hopen]
  obtain ⟨hleaves, hstored, hunstored⟩ := initRegion_lists env i hregion hopen hwindow
  rw [hcount] at hleaves hstored hunstored
  have hturn := recordRegion_turn env p i regions[i] (regOffset regions[i]) (regLen regions[i])
    (regLast regions[i]) hopen (rfl : _ = clipRegion p regions[i])
    (fun hempty a b => clipRegion_of_empty hwindow hempty)
  rw [← initRegion_eq_recordRegion, hcount] at hturn
  rcases hturn with ⟨hstores, t, hrun, hfd, hraw, -, -⟩ | ⟨hstores, hstop, -⟩
  · have hadds := hstored hstores
    rw [hrun] at hleaves hadds
    have hinside := not_not.mp (mt hleaves.mpr (by simp))
    rw [hrun, if_pos rfl]
    by_cases hempty : regLen regions[i] = 0
    · -- the device is closed, and the next turn fails
      left
      have hclosed : t.fdOpen ≠ true := fun h => hfd.mp h hempty
      have hmisses : ¬ Meets p regions[i] := by
        intro hmeets
        have hpages := (hregion.wellFormed hmeets).nonempty
        exact absurd (hregion.regLen_eq_zero.mp hempty) hpages.ne
      obtain ⟨hnot, hfinish, hclosing⟩ := initLoop_closed ks d env i hclosed
      refine ⟨Nat.lt_succ_self i, hget, habove, fun h => h.nonempty hempty,
        iff_of_false hnot fun h => h.2 hinside, ?_, ?_⟩
      · rw [hfinish]
        exact ⟨fun hzero => ⟨hzero, hread, hstores⟩, fun h => h.1⟩
      · obtain ⟨hnoRW, hnoRD⟩ := wanted_eq_nil.mpr (List.forall_mem_singleton.mpr hmisses)
        rw [hlast]
        exact Adds.trans ⟨by rw [hadds.rw, hnoRW]; rfl, by rw [hadds.rd, hnoRD]; rfl⟩ hclosing
    · right
      refine ⟨⟨hread, hempty, hstores⟩, t, rfl, hfd.mpr hempty, ?_, hadds⟩
      rw [List.drop_eq_getElem_cons hi, List.countP_cons, hraw, List.length_append, hcount]
      cases hclip : clipRegion p regions[i] <;> simp [recordedAbove]
  · left
    rw [if_neg hstop]
    obtain ⟨hrw, hrd⟩ := hunstored hstores
    exact ⟨Nat.lt_succ_self i, hget, habove, fun h => hstores h.stores,
      hleaves.trans ⟨fun h => ⟨hread, h⟩, fun h => h.2⟩,
      iff_of_false hstop fun h => hstores h.2.2, hlast ▸ Adds.nil hrw hrd⟩

theorem initLoop_lists (ks : KernelSort) (env : InitEnv) (n : Nat) (hn : n ≤ regions.length)
    (s : InitState) (hopen : s.fdOpen = true)
    (hcount : s.rawReg.length = (regions.drop n).countP fun region => (clipRegion p region).isSome) :
    (GetsPast env p regions n 0 ∧ (initLoop ks d env p n s).1 = .finished ∧
        Adds p (regions.take n) s (initLoop ks d env p n s).2) ∨
      ∃ k region, Stops env p regions n k region s (initLoop ks d env p n s) := by
  induction n generalizing s with
  | zero => exact Or.inl ⟨fun k _ _ hlt => absurd hlt (Nat.not_lt_zero k), rfl, Adds.nil rfl rfl⟩
  | succ i ih =>
      have hi : i < regions.length := by omega
      have htake : regions.take (i + 1) = regions.take i ++ [regions[i]] :=
        List.take_succ_eq_append_getElem hi
      rcases initLoop_turn hwindow htable hregions hi hopen hcount with
        hstops | ⟨hpass, t, hloop, hopen', hcount', hadds⟩
      · exact Or.inr ⟨i, _, hstops⟩
      rw [hloop]
      rcases ih (by omega) t hopen' hcount' with ⟨hpast, hfinished, hrest⟩ | ⟨k, region, hstops⟩
      · left
        refine ⟨(getsPast_succ hi (Nat.zero_le i)).mpr ⟨hpass, hpast⟩, hfinished, ?_⟩
        rw [htake]
        exact hadds.trans hrest
      · right
        have hk := hstops.lt
        refine ⟨k, region, by omega, hstops.get, (getsPast_succ hi (by omega)).mpr ⟨hpass, hstops.above⟩,
          hstops.fails, hstops.leaves, hstops.finishes, ?_⟩
        rw [htake, List.drop_append_of_le_length (by rw [List.length_take]; omega)]
        exact hadds.trans hstops.adds

end Loop

/-! ## Without empty regions -/

/-- At most MAX_REGION regions touch the window, and those that meet it are on a node there is. -/
def FitsGenerator (p : TestParm) (regions : List BootmemRegion) : Prop :=
  regions.countP (fun region => Touches p region) ≤ maxRegion ∧
    ∀ region ∈ regions, Meets p region → region.nid < nodeCount

-- The lowest of the entries that are counted has the other ones behind it.
theorem exists_lowest {α : Type} {q : α → Bool} {l : List α} (h : l.countP q ≠ 0) :
    ∃ (i : Nat) (hi : i < l.length), q l[i] = true ∧ l.countP q = (l.drop (i + 1)).countP q + 1 := by
  induction l with
  | nil => simp at h
  | cons a l ih =>
      by_cases ha : q a = true
      · exact ⟨0, Nat.succ_pos _, ha, List.countP_cons_of_pos ha⟩
      · rw [List.countP_cons_of_neg ha] at h
        obtain ⟨i, hi, hq, hcount⟩ := ih h
        exact ⟨i + 1, Nat.succ_lt_succ hi, hq, (List.countP_cons_of_neg ha).trans hcount⟩

section Ordinary

variable {env : InitEnv} {addr : Nat → Nat} (henv : Succeeds env addr) {p : TestParm}
  (hwindow : p.start ≤ p.stop)

include hwindow

theorem clipRegion_isSome {region : BootmemRegion} (hregion : DriverRegion region)
    (hne : region.startPfn < region.endPfn) : (clipRegion p region).isSome = true ↔ Touches p region := by
  have hbytes : (regionBytes region).lo < (regionBytes region).hi := Nat.mul_lt_mul_of_pos_right hne (by decide)
  rw [hregion.clipRegion_eq, Touches]
  by_cases hlist : p.listInfo = true
  · simp [hlist]
  · have hnone := clipToWindow_eq_none hbytes hwindow
    rw [if_neg hlist, Option.isSome_iff_ne_none, ne_eq, hnone]
    simp only [hlist, Bool.false_eq_true, false_or]
    omega

include henv

theorem passes_iff {region : BootmemRegion} (hregion : DriverRegion region)
    (hne : region.startPfn < region.endPfn) {i count : Nat} : Passes env p i count region ↔
      (Touches p region → count < maxRegion) ∧ (Meets p region → region.nid < nodeCount) := by
  have hlen : regLen region ≠ 0 := fun h => hne.ne (hregion.regLen_eq_zero.mp h)
  have hbytes : (regionBytes region).lo < (regionBytes region).hi := Nat.mul_lt_mul_of_pos_right hne (by decide)
  have htouches := clipRegion_isSome hwindow hregion hne
  have hstores : Passes env p i count region ↔ Stores env p i count region (clipRegion p region) :=
    ⟨fun h => h.stores, fun h => ⟨henv.getBregion i, hlen, h⟩⟩
  have hgoes : ∀ a b, (region.type = mmtestRW ∧ Maps env p i a b) ∨ region.type = mmtestRO := fun a b =>
    hregion.type.imp_left fun hrw => ⟨hrw, Or.inr (Or.inr ⟨addr i, henv.mmap i⟩)⟩
  rw [hstores]
  rcases hregion.clip_cases hwindow with ⟨hmisses, h⟩ | ⟨hmisses, a, h⟩ | ⟨-, hinverted, -⟩ | ⟨hmeets, h⟩
  · have haway : ¬ Touches p region := fun ht => by simpa [h] using htouches.mpr ht
    simp [h, Stores, hmisses, haway]
  · have htouch : Touches p region := htouches.mp (by simp [h])
    simp [h, Stores, hmisses, htouch]
  · exact absurd hinverted hbytes.le.not_gt
  · have hne' : (piece p region).lo ≠ (piece p region).hi := ne_of_lt hmeets
    simp [h, Stores, hmeets, hmeets.touches, hne', hgoes]

/-- Where no region is empty and no system call fails, the loop gets past all regions exactly when they
fit. -/
theorem getsPast_iff_fits {regions : List BootmemRegion} (hregions : ∀ region ∈ regions, DriverRegion region)
    (hne : ∀ region ∈ regions, region.startPfn < region.endPfn) :
    GetsPast env p regions regions.length 0 ↔ FitsGenerator p regions := by
  have hturn : ∀ i (hi : i < regions.length), Passes env p i (recordedAbove p regions i) regions[i] ↔
      (Touches p regions[i] → (regions.drop (i + 1)).countP (fun region => Touches p region) < maxRegion) ∧
        (Meets p regions[i] → regions[i].nid < nodeCount) := by
    intro i hi
    have hmem := List.getElem_mem hi
    have hcount : recordedAbove p regions i =
        (regions.drop (i + 1)).countP fun region => Touches p region := by
      refine List.countP_congr fun region hregion => ?_
      have hin := List.mem_of_mem_drop hregion
      rw [decide_eq_true_eq, clipRegion_isSome hwindow (hregions region hin) (hne region hin)]
    rw [passes_iff henv hwindow (hregions _ hmem) (hne _ hmem), hcount]
  have hall : GetsPast env p regions regions.length 0 ↔
      ∀ i (hi : i < regions.length), Passes env p i (recordedAbove p regions i) regions[i] := by
    constructor
    · exact fun h i hi => h i _ (Nat.zero_le i) hi (List.getElem?_eq_getElem hi)
    · rintro h i region - hi hget
      obtain rfl := Option.some.inj ((List.getElem?_eq_getElem hi).symm.trans hget)
      exact h i hi
  rw [hall, FitsGenerator]
  simp only [hturn]
  constructor
  · intro h
    refine ⟨?_, fun region hregion hmeets => ?_⟩
    · -- the lowest of the regions that touch the window has the others above it
      by_contra hmany
      have hsome : regions.countP (fun region => Touches p region) ≠ 0 := fun hzero => hmany (by simp [hzero])
      obtain ⟨i, hi, hcount⟩ := exists_lowest hsome
      have hroom := (h i hi).1 (by simpa using hcount.1)
      omega
    · obtain ⟨i, hi, rfl⟩ := List.mem_iff_getElem.mp hregion
      exact (h i hi).2 hmeets
  · rintro ⟨hcount, hnodes⟩ i hi
    refine ⟨fun htouches => ?_, hnodes _ (List.getElem_mem hi)⟩
    have hsplit : regions.countP (fun region => Touches p region) =
        (regions.take i).countP (fun region => Touches p region) +
          ((regions.drop (i + 1)).countP (fun region => Touches p region) + 1) := by
      rw [← List.countP_cons_of_pos (p := fun region => decide (Touches p region)) (a := regions[i])
        (decide_eq_true htouches), ← List.drop_eq_getElem_cons hi, ← List.countP_append,
        List.take_append_drop]
    omega

end Ordinary

/-! ## What the driver hands out -/

-- Also where entries or blocks wrap or are empty.
theorem driverRegion_of_run (ks : KernelSort) {mye820 : List E820Entry} {memblks : List MemBlk}
    {memLimit : Nat} {d : Globals} (hrun : run ks (.fresh memblks) (settings mye820 memLimit) = some d) :
    d.table = ⟨d.table.regions, d.table.regions.length⟩ ∧ ∀ region ∈ d.table.regions, DriverRegion region := by
  have htable : d.table = (generateBootmemRegion memLimit
      (generateNodeMapFromE820AndSrat ks mye820 memblks [])).2 := by
    obtain rfl := Option.some.inj (hrun.symm.trans (run_settings ks (.fresh memblks) mye820 memLimit))
    rfl
  rw [htable]
  refine ⟨bregionNum_eq_length memLimit _, fun region hmem => ?_⟩
  obtain ⟨r, hr, hsplit⟩ := mem_generateBootmemRegion hmem
  obtain ⟨hstart, hend⟩ := generateNodeMap_pages ks r hr
  obtain ⟨-, hle, hside⟩ := splitRange_side hsplit
  refine ⟨?_, lt_of_le_of_lt hle hend, hside.elim (fun h => Or.inr h.1) (fun h => Or.inl h.1)⟩
  rcases splitRange_startPfn hsplit with hfirst | ⟨hlimit, hinner⟩
  · exact hfirst ▸ hstart
  · exact hlimit ▸ lt_trans hinner hend

/-- The window that the loop works with. -/
def effectiveWindow (p : TestParm) : TestParm :=
  if p.listInfo then { p with start := 0, stop := 0x1ffffffffff } else p

theorem effectiveWindow_ordered {p : TestParm} (hwindow : p.start ≤ p.stop) :
    (effectiveWindow p).start ≤ (effectiveWindow p).stop := by
  unfold effectiveWindow
  split
  · exact Nat.zero_le _
  · exact hwindow

-- List mode replaces the window, and nothing that is wanted depends on it there.
theorem piece_effectiveWindow (p : TestParm) : piece (effectiveWindow p) = piece p := by
  unfold effectiveWindow
  split
  · next hlist =>
    funext region
    simp only [piece, hlist, if_true]
  · rfl

theorem allListed_effectiveWindow (p : TestParm) : AllListed (effectiveWindow p) = AllListed p := by
  have hpiece := piece_effectiveWindow p
  have hmeets : Meets (effectiveWindow p) = Meets p := by
    unfold Meets
    rw [hpiece]
  funext regions s
  simp only [AllListed, wantedRW, wantedRD, hmeets, hpiece]

section Whole

variable {ks : KernelSort} {d : Globals} {env : InitEnv} {p : TestParm} {regions : List BootmemRegion}

theorem initModule_refused (ks : KernelSort) (d : Globals) (h : Refused env p) :
    ∃ code, initModule ks d env p = (.returned code, ⟨false, 0, 0, [], [], []⟩) := by
  rw [initModule]
  by_cases hwindow : p.stop < p.start
  · exact ⟨_, if_pos hwindow⟩
  rw [if_neg hwindow]
  cases hopen : env.openDevice with
  | some errno => exact ⟨errno, rfl⟩
  | none =>
      cases hnum : env.getBregionNum with
      | some errno => exact ⟨errno, rfl⟩
      | none => simp [Refused, hwindow, hopen, hnum] at h

theorem initModule_eq_initLoop (h : ¬ Refused env p) : initModule ks d env p =
    initLoop ks d env (effectiveWindow p) d.table.bregionNum ⟨true, 0, 0, [], [], []⟩ := by
  obtain ⟨hwindow, hopen, hnum⟩ := not_or.mp h |>.imp_right not_or.mp
  rw [initModule, if_neg hwindow]
  simp only [not_not.mp hopen, not_not.mp hnum, mmtestIoctl, if_true]
  rfl

-- Only one region can be the one that the loop comes down to.
theorem ComesDownTo.unique {k k' : Nat} {region region' : BootmemRegion}
    (h : ComesDownTo env p regions k region) (h' : ComesDownTo env p regions k' region') :
    k = k' ∧ region = region' := by
  have hk : k = k' := by
    rcases Nat.lt_trichotomy k k' with hlt | heq | hgt
    · have hlen := (List.getElem?_eq_some_iff.mp h'.get).1
      exact absurd (h.above k' region' hlt hlen h'.get) h'.fails
    · exact heq
    · have hlen := (List.getElem?_eq_some_iff.mp h.get).1
      exact absurd (h'.above k region hgt hlen h.get) h.fails
  subst hk
  exact ⟨rfl, Option.some.inj (h.get.symm.trans h'.get)⟩

theorem ComesDownTo.not_getsPast {k : Nat} {region : BootmemRegion}
    (h : ComesDownTo env p regions k region) : ¬ GetsPast env p regions regions.length 0 := fun hpast =>
  h.fails (hpast k region (Nat.zero_le k) (List.getElem?_eq_some_iff.mp h.get).1 h.get)

-- The loop, its exit and its lists.
theorem loop_within_iff (ks : KernelSort) (env : InitEnv) (hwindow : p.start ≤ p.stop)
    (htable : d.table = ⟨regions, regions.length⟩)
    (hregions : ∀ region ∈ regions, DriverRegion region) {e : InitExit × InitState}
    (he : initLoop ks d env p regions.length ⟨true, 0, 0, [], [], []⟩ = e) :
    (e.1 ≠ .outOfTable ∧ AllListed p regions e.2 ↔ LoopFits env p regions) ∧
      ((e.1 ≠ .outOfTable ∧ AllListed p regions e.2) ∧ e.1 ≠ .finished ↔ GivesUp env p regions) := by
  have hloop := initLoop_lists hwindow htable hregions ks env regions.length le_rfl
    ⟨true, 0, 0, [], [], []⟩ rfl (by simp)
  rw [he, List.take_length] at hloop
  rcases hloop with ⟨hpast, hfinished, hadds⟩ | ⟨k, region, hstops⟩
  · have hall : AllListed p regions e.2 := (allListed_iff (m := 0) hadds).mpr (by simp)
    constructor
    · exact iff_of_true ⟨by rw [hfinished]; simp, hall⟩ (Or.inl hpast)
    · refine iff_of_false (fun h => h.2 hfinished) ?_
      rintro ⟨k, region, hstops, -⟩
      exact hstops.toComesDownTo.not_getsPast hpast
  · have hadds := hstops.adds
    rw [List.take_length] at hadds
    have hcomes : ComesDownTo env p regions k region := ⟨hstops.get, hstops.above, hstops.fails⟩
    have hinside : e.1 ≠ .outOfTable ↔
        (env.getBregion k = none → TurnInside p (recordedAbove p regions k) region) := by
      rw [ne_eq, hstops.leaves, not_and, not_not]
    have hwithin : e.1 ≠ .outOfTable ∧ AllListed p regions e.2 ↔ StopsInside env p regions k region := by
      rw [hinside, allListed_iff hadds]
      exact ⟨fun h => ⟨hcomes, h.1, h.2⟩, fun h => ⟨h.inside, h.unmet⟩⟩
    rw [hwithin, ne_eq, hstops.finishes]
    constructor
    · refine ⟨fun h => Or.inr ⟨k, region, h⟩, ?_⟩
      rintro (hpast | ⟨k', region', h⟩)
      · exact absurd hpast hcomes.not_getsPast
      · obtain ⟨rfl, rfl⟩ := hcomes.unique h.toComesDownTo
        exact h
    · refine ⟨fun h => ⟨k, region, h.1, h.2⟩, ?_⟩
      rintro ⟨k', region', h, hends⟩
      obtain ⟨rfl, rfl⟩ := hcomes.unique h.toComesDownTo
      exact ⟨h, hends⟩

end Whole

def defaultWindow : TestParm := ⟨0, 0xffffffffffff, false⟩

/-- All system calls succeed. -/
def quietInit : InitEnv := ⟨none, none, fun _ => none, fun i => .ok ((i + 1) * 0x100000), 0⟩

/-- `init_module` with the default window, on a fresh module with these settings. -/
def initAfter (memblks : List MemBlk) (mye820 : List E820Entry) :
    Option (InitExit × InitState) :=
  (run insertionKernelSort (.fresh memblks) (settings mye820 0)).map fun d =>
    initModule insertionKernelSort d quietInit defaultWindow

theorem exists_of_initAfter (memblks : List MemBlk) (mye820 : List E820Entry) {e : InitExit}
    (h : (initAfter memblks mye820).map Prod.fst = some e) :
    ∃ d, run insertionKernelSort (.fresh memblks) (settings mye820 0) = some d ∧
      (initModule insertionKernelSort d quietInit defaultWindow).1 = e := by
  obtain ⟨r, hr, rfl⟩ := Option.map_eq_some_iff.mp h
  obtain ⟨d, hd, rfl⟩ := Option.map_eq_some_iff.mp hr
  exact ⟨d, hd, rfl⟩

-- An empty block without a page makes an empty region, at which the loop gives up above a window in a gap.
example : ∃ d, run insertionKernelSort (.fresh [⟨0x100000, 0x200000, 0⟩, ⟨0x300800, 0x300800, 0⟩])
      (settings [⟨0x100000, 0x300000, e820Ram⟩] 0) = some d ∧
    Within insertionKernelSort d quietInit ⟨0x280000, 0x290000, false⟩ := by
  refine ⟨_, rfl, ⟨by decide, ?_, ?_⟩, ?_⟩
  · exact (List.nil_subperm : [].Subperm _)
  · exact (List.nil_subperm : [].Subperm _)
  · exact fun h => absurd h (by decide)

/-! ## The tables of the controller -/

/-- The values of `k` in `istr[i].rinfo[k]` while the list is copied. -/
def rangeStores (rwList : List SlicedRange) : List Nat := List.range rwList.length

/-- The values of `n` in `istr[i].rinfo[k].sinfo[n]`. -/
def sliceStores (r : SlicedRange) : List Nat := List.range r.slices.length

/-- The values of `k+thread_num` while the threads of a range are created; `thread_num` is 0. -/
def threadSlots (r : SlicedRange) : List Nat :=
  (List.range r.slices.length).reverse.map fun k => k + 0

/-- Copying the list and creating the threads stays inside the tables. -/
def CopyWithin (rwList : List SlicedRange) : Prop :=
  (∀ k ∈ rangeStores rwList, k < rangeCount) ∧
    (∀ r ∈ rwList, ∀ n ∈ sliceStores r, n < halfCoreCount) ∧
    ∀ r ∈ rwList, ∀ slot ∈ threadSlots r, slot < coreCount

/-- At most RANGE_COUNT ranges and, unless there is only one slice, few enough blocks or cores. -/
def FitsController (mode : TestMode) (coreNum : Nat) (ranges : List RWRange) : Prop :=
  ranges.length ≤ rangeCount ∧ (mode = .specific ∨
    ∀ rw ∈ ranges, min (ulSub rw.stop rw.start / minBlockSize) coreNum ≤ halfCoreCount)

theorem forall_mem_range_lt {n bound : Nat} : (∀ k ∈ List.range n, k < bound) ↔ n ≤ bound := by
  simp only [List.mem_range]
  constructor
  · intro h
    by_contra hlt
    exact absurd (h bound (not_le.mp hlt)) (lt_irrefl _)
  · intro h k hk
    exact lt_of_lt_of_le hk h

-- The thread table is the largest, so the copy decides; the controller model stops there.
theorem copyWithin_iff_fits (rwList : List SlicedRange) : CopyWithin rwList ↔ FitsTables rwList := by
  have hslots : ∀ r : SlicedRange, (∀ slot ∈ threadSlots r, slot < coreCount) ↔
      r.slices.length ≤ coreCount := by
    intro r
    simp only [threadSlots, Nat.add_zero, List.map_id', List.mem_reverse, forall_mem_range_lt]
  simp only [CopyWithin, FitsTables, rangeStores, sliceStores, forall_mem_range_lt, hslots]
  constructor
  · rintro ⟨hranges, hslices, -⟩
    exact ⟨hranges, hslices⟩
  · rintro ⟨hranges, hslices⟩
    exact ⟨hranges, hslices, fun r hr => le_trans (hslices r hr) (by decide)⟩

theorem splitRange_sliceNum (mode : TestMode) (coreNum size : Nat) :
    (splitRange mode coreNum size).sliceNum =
      if mode = .specific then 1 else min (size / minBlockSize) coreNum := by
  unfold splitRange
  split
  · rfl
  · next hmode =>
    rw [if_neg hmode]
    split
    · next hmany => exact (min_eq_right hmany.le).symm
    · next hfew => exact (min_eq_left (not_lt.mp hfew)).symm

/-- Over every core count and mode that `test_policy` accepts and every list of ranges, the copy
stays inside the tables exactly when the ranges are few and no range has more than sixteen blocks to
share among more than sixteen cores. -/
theorem copyWithin_iff {coreNum : Nat} (hcore : 1 ≤ coreNum ∧ coreNum ≤ coreCount)
    {mode : TestMode} (hmode : mode ≠ .all) {cpu : Int}
    (hcpu : cpu = noSpecifyCpu ∨ (0 ≤ cpu ∧ cpu < coreNum)) (ranges : List RWRange) :
    ∃ rwList, testPolicy mode cpu coreNum ranges = .built rwList ∧
      (CopyWithin rwList ↔ FitsController (policyMode mode cpu) coreNum ranges) := by
  obtain ⟨table, -, hbuilt⟩ := testPolicy_eq_built hcore hmode hcpu ranges
  refine ⟨_, hbuilt, ?_⟩
  have hlength : ∀ rw : RWRange, (sliceRange table rw (splitRange (policyMode mode cpu) coreNum
      (ulSub rw.stop rw.start))).length =
      if policyMode mode cpu = .specific then 1
      else min (ulSub rw.stop rw.start / minBlockSize) coreNum := by
    intro rw
    rw [sliceRange, List.length_reverse, List.length_map, List.length_range, splitRange_sliceNum]
  rw [copyWithin_iff_fits, FitsTables, FitsController, List.length_map]
  simp only [List.forall_mem_map, hlength]
  by_cases hspecific : policyMode mode cpu = .specific
  · simp only [hspecific, if_true, true_or, and_true]
    exact ⟨fun h => h.1, fun h => ⟨h, fun _ _ => by decide⟩⟩
  · simp only [hspecific, if_false, false_or]

/-- The list that `init_module` builds from these RAM entries, sliced for LOCAL mode. -/
def slicedAfter (coreNum : Nat) (mye820 : List E820Entry) : Option PolicyResult :=
  (initAfter [] mye820).map fun r => testPolicy .locally noSpecifyCpu coreNum r.2.rwList

def PolicyResult.overruns : PolicyResult → Bool
  | .built rwList => !decide (FitsTables rwList)
  | _ => false

theorem exists_of_overruns {result : Option PolicyResult}
    (h : result.map PolicyResult.overruns = some true) :
    ∃ rwList, result = some (.built rwList) ∧ ¬ CopyWithin rwList := by
  obtain ⟨r, rfl, hr⟩ := Option.map_eq_some_iff.mp h
  cases r with
  | built rwList =>
      refine ⟨rwList, rfl, ?_⟩
      rw [copyWithin_iff_fits]
      simpa [PolicyResult.overruns] using hr
  | returned code => simp [PolicyResult.overruns] at hr
  | nullTable => simp [PolicyResult.overruns] at hr

/-- A range of seventeen blocks on seventeen cores has one slice more than `sinfo`, and thirteen RAM
entries give one range more than `rinfo`. -/
theorem copy_leaves_tables :
    (∃ rwList, slicedAfter 17 [⟨0x100000, 0x11000, e820Ram⟩] = some (.built rwList) ∧
      ¬ CopyWithin rwList) ∧
    ∃ rwList, slicedAfter 1 ((List.range 13).map fun i => ⟨i * 0x2000, 0x1000, e820Ram⟩) =
        some (.built rwList) ∧ ¬ CopyWithin rwList :=
  ⟨exists_of_overruns (by decide +kernel), exists_of_overruns (by decide +kernel)⟩

/-- The range of seventeen blocks on two cores. -/
theorem copyWithin_iff_two :
    ∃ rwList, testPolicy .locally noSpecifyCpu 2 [⟨0x7000, 0x18000, 0x100000, 0x111000⟩] =
        .built rwList ∧
      (CopyWithin rwList ↔ FitsController (policyMode .locally noSpecifyCpu) 2
        [⟨0x7000, 0x18000, 0x100000, 0x111000⟩]) :=
  copyWithin_iff (by decide) (by decide) (Or.inl rfl) _

end MoBoMemory.App
