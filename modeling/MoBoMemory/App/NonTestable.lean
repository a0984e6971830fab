import MoBoMemory.App.Capacity
import MoBoMemory.App.RegionLoop
import MoBoMemory.Base.Gaps

/-!
# The listing of the non-testable ranges

`init_module` prints what is left of the window between the entries of `raw_reg`, which the region
loop has filled from the highest region down.  The entry above number `i` is looked up at `i - 1`,
also for entry 0, so one of the comparisons is with what lies before the table on the stack.
-/

namespace MoBoMemory.App

open Base Driver

/-- The printed ranges; `reg` is the stack around `raw_reg`. -/
def printedGaps (reg : Int → Nat × Nat) (rawNum : Nat) (p : TestParm) (maxPhyAddr : Nat) :
    List (Span Nat) :=
  gap p.start (reg (rawNum - 1)).1 ++
    (List.range rawNum).reverse.flatMap (fun i : Nat => gap (reg i).2 (reg (i - 1)).1) ++
    gap (reg 0).2 (min p.stop maxPhyAddr)

/-- `raw_reg` was zeroed before it was filled. -/
structure OnStack (rawReg : List (Nat × Nat)) (reg : Int → Nat × Nat) : Prop where
  filled : ∀ i (hi : i < rawReg.length), reg i = rawReg[i]
  zeroed : ∀ i : Nat, rawReg.length ≤ i → i < maxRegion → reg i = (0, 0)

/-- The address is in the clipped range of the region, which is aligned to pages if it is read-write. -/
def Covered (p : TestParm) (region : BootmemRegion) (x : Nat) : Prop :=
  Meets p region ∧
    x ∈ (if region.type = mmtestRW then wholePages (piece p region) else piece p region)

/-- The ranges are the complement of the clipped ranges in the window. -/
def GapsExact (p : TestParm) (regions : List BootmemRegion) (maxPhyAddr : Nat)
    (printed : List (Span Nat)) : Prop :=
  Tile (fun x => (p.start ≤ x ∧ x < min p.stop maxPhyAddr) ∧
    ∀ region ∈ regions, ¬ Covered p region x) printed

/-- They are, and only entries of the table that are filled were read for it. -/
def ListingExact (reg : Int → Nat × Nat) (rawNum : Nat) (p : TestParm)
    (regions : List BootmemRegion) (maxPhyAddr : Nat) : Prop :=
  GapsExact p regions maxPhyAddr (printedGaps reg rawNum p maxPhyAddr) ∧
    ∀ i ∈ listingReads rawNum, 0 ≤ i ∧ i < (rawNum : Int)

/-! ## The printed ranges -/

section Printed

variable {reg : Int → Nat × Nat} {rawReg : List (Nat × Nat)}

def spanOf (e : Nat × Nat) : Span Nat := ⟨e.1, e.2⟩

/-- The entries of the table in ascending order. -/
def ascendingSpans (rawReg : List (Nat × Nat)) : List (Span Nat) := rawReg.reverse.map spanOf

-- The gaps between the lowest `n + 1` entries, which are read downwards, with that to entry -1
-- before the last.
theorem printed_upto (hstack : OnStack rawReg reg) (hi : Nat) (n : Nat) (hn : n < rawReg.length)
    (lo : Nat) : ∃ pre,
      gap lo (reg n).1 ++ (List.range (n + 1)).reverse.flatMap
          (fun i : Nat => gap (reg i).2 (reg (i - 1)).1) =
        pre ++ gap (reg 0).2 (reg (-1)).1 ∧
      gaps lo hi (ascendingSpans (rawReg.take (n + 1))) = pre ++ gap (reg 0).2 hi := by
  induction n generalizing lo with
  | zero =>
      refine ⟨gap lo (reg 0).1, ?_, ?_⟩
      · simp
      · have hfirst := hstack.filled 0 hn
        rw [List.take_succ_eq_append_getElem hn]
        simp only [Nat.cast_zero] at hfirst
        simp [ascendingSpans, gaps, spanOf, hfirst]
  | succ n ih =>
      obtain ⟨pre, hloop, hgaps⟩ := ih (by omega) (reg (n + 1 : Nat)).2
      refine ⟨gap lo (reg (n + 1 : Nat)).1 ++ pre, ?_, ?_⟩
      · rw [List.range_succ, List.reverse_append, List.flatMap_append, List.append_assoc, ← hloop]
        simp
      · have hentry := hstack.filled (n + 1) hn
        rw [List.take_succ_eq_append_getElem hn]
        rw [hentry] at hgaps
        simp only [ascendingSpans, List.reverse_append, List.reverse_singleton,
          List.singleton_append, List.map_cons, gaps, hentry, List.append_assoc]
        rw [← hgaps]
        rfl

-- All entries: the gaps between them with the one to entry -1 slipped in before the last.
theorem printed_eq (hstack : OnStack rawReg reg) (hne : rawReg ≠ []) (p : TestParm)
    (maxPhyAddr : Nat) : ∃ pre,
      printedGaps reg rawReg.length p maxPhyAddr =
        pre ++ gap (reg 0).2 (reg (-1)).1 ++ gap (reg 0).2 (min p.stop maxPhyAddr) ∧
      gaps p.start (min p.stop maxPhyAddr) (ascendingSpans rawReg) =
        pre ++ gap (reg 0).2 (min p.stop maxPhyAddr) := by
  obtain ⟨n, hn⟩ := Nat.exists_eq_succ_of_ne_zero (mt List.length_eq_zero_iff.mp hne)
  obtain ⟨pre, hloop, hgaps⟩ := printed_upto hstack (min p.stop maxPhyAddr) n (by omega) p.start
  rw [Nat.succ_eq_add_one] at hn
  rw [← hn, List.take_length] at hgaps
  refine ⟨pre, ?_, hgaps⟩
  have hlast : ((rawReg.length : Nat) : Int) - 1 = n := by omega
  rw [printedGaps, hlast, hn, hloop]

end Printed

/-! ## The entries -/

section Entries

variable {p : TestParm} {region : BootmemRegion}

/-- In order and with 64-bit addresses, but perhaps empty or of another type. -/
structure OrderedRegion (region : BootmemRegion) : Prop where
  ordered : region.startPfn ≤ region.endPfn
  addressable : region.endPfn * pageSize < 2 ^ 64

theorem OrderedRegion.bytes (hregion : OrderedRegion region) :
    regOffset region = (regionBytes region).lo ∧ regLast region = (regionBytes region).hi := by
  have haddr := hregion.addressable
  have hord := hregion.ordered
  have hend : region.endPfn < 2 ^ 52 := by
    simp only [pageSize, pageShift] at haddr
    omega
  have hoffset : regOffset region = region.startPfn * pageSize := by
    refine Nat.mod_eq_of_lt (lt_of_le_of_lt ?_ haddr)
    exact Nat.mul_le_mul_right _ hord
  have hlen : regLen region = (region.endPfn - region.startPfn) * pageSize := by
    rw [regLen, ulSub_of_le hord (by omega)]
    refine Nat.mod_eq_of_lt (lt_of_le_of_lt ?_ haddr)
    exact Nat.mul_le_mul_right _ (Nat.sub_le _ _)
  refine ⟨hoffset, ?_⟩
  rw [regLast, hoffset, hlen, ← Nat.add_mul, Nat.add_sub_cancel' hord]
  exact Nat.mod_eq_of_lt haddr

theorem exists_some_diag {a b : Nat} {P : Nat → Prop} :
    (∃ c, some (a, b) = some (c, c) ∧ P c) ↔ a = b ∧ P a := by
  simp only [Option.some.injEq, Prod.mk.injEq]
  constructor
  · rintro ⟨c, ⟨rfl, rfl⟩, h⟩
    exact ⟨rfl, h⟩
  · rintro ⟨rfl, h⟩
    exact ⟨a, ⟨rfl, rfl⟩, h⟩

-- With no byte in common the region is passed over, or an empty entry lies where they touch.
theorem clipToWindow_apart {lo hi : Nat} (hord : lo ≤ hi) (hwindow : p.start ≤ p.stop)
    (hmisses : min hi p.stop ≤ max lo p.start) :
    (clipToWindow p lo hi = none ∧ ¬ (p.start ≤ hi ∧ lo ≤ p.stop)) ∨
      ∃ a, clipToWindow p lo hi = some (a, a) ∧ p.start ≤ a ∧ a ≤ p.stop ∧ lo ≤ a ∧ a ≤ hi := by
  unfold clipToWindow
  split_ifs
  all_goals first
    | (refine Or.inl ⟨rfl, ?_⟩; omega)
    | (rw [exists_some_diag]; omega)

-- The entry of a region that meets the window lies in the region and is what the region covers.
theorem rawEntry_meets (hregion : OrderedRegion region)
    (hclip : clipRegion p region = clipToWindow p (regionBytes region).lo (regionBytes region).hi)
    (hpiece : piece p region = inWindow p region) (hmeets : Meets p region) :
    ∃ e, rawEntry p region = some e ∧ e.1 ≤ e.2 ∧ p.start ≤ e.2 ∧ e.1 ≤ p.stop ∧
      (regionBytes region).lo ≤ e.1 ∧ e.2 ≤ (regionBytes region).hi ∧
      ∀ x, x ∈ spanOf e ↔ Covered p region x := by
  have hcut : (inWindow p region).lo < (inWindow p region).hi := by rwa [← hpiece]
  have hsome : clipRegion p region = some ((inWindow p region).lo, (inWindow p region).hi) :=
    hclip.trans (clipToWindow_meets hcut)
  have hlo : (inWindow p region).lo = max (regionBytes region).lo p.start := rfl
  have hhi : (inWindow p region).hi = min (regionBytes region).hi p.stop := rfl
  by_cases hrw : region.type = mmtestRW
  · obtain ⟨hstart, hend⟩ := roundup_eq_wholePages (s := inWindow p region) (Nat.min_le_left _ _)
      hregion.addressable
    obtain ⟨hlow, hpage, hhigh⟩ := inWindow_pages hcut
    have hentry : rawEntry p region =
        some ((wholePages (inWindow p region)).lo, (wholePages (inWindow p region)).hi) := by
      rw [rawEntry, hsome, Option.map_some, if_pos ⟨hcut.ne, hrw⟩, hstart, hend]
    have hround : (wholePages (inWindow p region)).lo ≤ (inWindow p region).lo ∧
        (inWindow p region).hi ≤ (wholePages (inWindow p region)).hi := by
      simp only [wholePages, pageSize, pageShift]
      omega
    refine ⟨_, hentry, ?_, ?_, ?_, hlow, hhigh, ?_⟩
    · exact le_trans (Nat.le_add_right _ _) hpage
    · show p.start ≤ (wholePages (inWindow p region)).hi
      omega
    · show (wholePages (inWindow p region)).lo ≤ p.stop
      omega
    · intro x
      rw [Covered, if_pos hrw, hpiece, and_iff_right hmeets]
      rfl
  · have hentry : rawEntry p region =
        some ((inWindow p region).lo, (inWindow p region).hi) := by
      rw [rawEntry, hsome, Option.map_some, if_neg (fun h => hrw h.2)]
    refine ⟨_, hentry, hcut.le, ?_, ?_, ?_, ?_, ?_⟩
    · show p.start ≤ (inWindow p region).hi
      omega
    · show (inWindow p region).lo ≤ p.stop
      omega
    · exact Nat.le_max_left _ _
    · exact Nat.min_le_left _ _
    · intro x
      rw [Covered, if_neg hrw, hpiece, and_iff_right hmeets]
      rfl

-- A region is passed over when it does not touch the window; otherwise its entry lies in it, and is
-- what the region covers.
theorem rawEntry_cases (hregion : OrderedRegion region) (hlist : p.listInfo = false)
    (hwindow : p.start ≤ p.stop) :
    (¬ Touches p region ∧ rawEntry p region = none ∧ ∀ x, ¬ Covered p region x) ∨
    (Touches p region ∧ ∃ e, rawEntry p region = some e ∧ e.1 ≤ e.2 ∧ p.start ≤ e.2 ∧ e.1 ≤ p.stop ∧
      (regionBytes region).lo ≤ e.1 ∧ e.2 ≤ (regionBytes region).hi ∧
      ∀ x, x ∈ spanOf e ↔ Covered p region x) := by
  obtain ⟨hoffset, hlast⟩ := hregion.bytes
  have hord : (regionBytes region).lo ≤ (regionBytes region).hi :=
    Nat.mul_le_mul_right _ hregion.ordered
  have hclip : clipRegion p region =
      clipToWindow p (regionBytes region).lo (regionBytes region).hi := by
    rw [clipRegion, if_neg (by simp [hlist]), hoffset, hlast]
  have hpiece : piece p region = inWindow p region := if_neg (by simp [hlist])
  have htouches : Touches p region ↔
      p.start ≤ (regionBytes region).hi ∧ (regionBytes region).lo ≤ p.stop := by
    simp [Touches, hlist]
  by_cases hmeets : Meets p region
  · exact Or.inr ⟨hmeets.touches, rawEntry_meets hregion hclip hpiece hmeets⟩
  have hnone : ∀ x, ¬ Covered p region x := fun x h => hmeets h.1
  have hmisses : min (regionBytes region).hi p.stop ≤ max (regionBytes region).lo p.start := by
    unfold Meets at hmeets
    rw [hpiece] at hmeets
    exact not_lt.mp hmeets
  rcases clipToWindow_apart hord hwindow hmisses with ⟨hskip, haway⟩ | ⟨a, hempty, hstart, hstop,
    hlow, hhigh⟩
  · left
    refine ⟨fun h => haway (htouches.mp h), ?_, hnone⟩
    rw [rawEntry, hclip, hskip]
    rfl
  · -- the region only borders on the window: its entry is empty
    right
    refine ⟨htouches.mpr ⟨by omega, by omega⟩, (a, a), ?_, le_refl _, hstart, hstop, hlow, hhigh, ?_⟩
    · rw [rawEntry, hclip, hempty]
      simp
    · intro x
      simp only [hnone, iff_false, spanOf, Span.mem_def]
      omega

end Entries

/-! ## The table of a finished loop -/

section Table

variable {p : TestParm} {regions : List BootmemRegion}
  (hregions : ∀ region ∈ regions, OrderedRegion region) (hlist : p.listInfo = false)
  (hwindow : p.start ≤ p.stop)

/-- `max_phy_addr` after the loop. -/
def maxLast (regions : List BootmemRegion) : Nat :=
  regions.foldr (fun region m => max m (regLast region)) 0

theorem regLast_le_maxLast {region : BootmemRegion} (hmem : region ∈ regions) :
    regLast region ≤ maxLast regions := by
  induction regions with
  | nil => simp at hmem
  | cons r rs ih =>
      rw [maxLast, List.foldr_cons]
      rcases List.mem_cons.mp hmem with rfl | hmem
      · exact le_max_right _ _
      · exact le_trans (ih hmem) (le_max_left _ _)

/-- The entries of the regions, the lowest first. -/
def rawSpans (p : TestParm) (regions : List BootmemRegion) : List (Span Nat) :=
  (regions.filterMap (rawEntry p)).map spanOf

theorem mem_rawSpans {t : Span Nat} :
    t ∈ rawSpans p regions ↔ ∃ region ∈ regions, ∃ e, rawEntry p region = some e ∧ t = spanOf e := by
  simp only [rawSpans, List.mem_map, List.mem_filterMap]
  constructor
  · rintro ⟨e, ⟨region, hregion, he⟩, rfl⟩
    exact ⟨region, hregion, e, he, rfl⟩
  · rintro ⟨region, hregion, e, he, rfl⟩
    exact ⟨e, ⟨region, hregion, he⟩, rfl⟩

include hregions hlist hwindow

theorem rawSpans_ascending (hascends : regions.Pairwise fun r q => r.endPfn ≤ q.startPfn) :
    Ascending p.start (min p.stop (maxLast regions)) (rawSpans p regions) := by
  have hspan : ∀ region ∈ regions, ∀ e, rawEntry p region = some e → e.1 ≤ e.2 ∧ p.start ≤ e.2 ∧
      e.1 ≤ p.stop ∧ (regionBytes region).lo ≤ e.1 ∧ e.2 ≤ (regionBytes region).hi := by
    intro region hregion e he
    rcases rawEntry_cases (hregions region hregion) hlist hwindow with
      ⟨-, hnone, -⟩ | ⟨-, e', he', hfacts⟩
    · simp [he] at hnone
    · obtain rfl := Option.some.inj (he.symm.trans he')
      exact ⟨hfacts.1, hfacts.2.1, hfacts.2.2.1, hfacts.2.2.2.1, hfacts.2.2.2.2.1⟩
  refine ⟨?_, ?_, ?_⟩
  · intro t ht
    obtain ⟨region, hregion, e, he, rfl⟩ := mem_rawSpans.mp ht
    exact (hspan region hregion e he).1
  · intro t ht
    obtain ⟨region, hregion, e, he, rfl⟩ := mem_rawSpans.mp ht
    obtain ⟨hord, hstart, hstop, -, hhi⟩ := hspan region hregion e he
    refine ⟨hstart, le_min hstop ?_⟩
    have hmax := regLast_le_maxLast hregion
    rw [(hregions region hregion).bytes.2] at hmax
    exact le_trans hord (le_trans hhi hmax)
  · rw [rawSpans, List.pairwise_map, List.pairwise_filterMap]
    refine hascends.imp_of_mem fun hr hq hle e he f hf => ?_
    have hupper := (hspan _ hr e he).2.2.2.2
    have hlower := (hspan _ hq f hf).2.2.2.1
    exact le_trans hupper (le_trans (Nat.mul_le_mul_right _ hle) hlower)

-- The entries hold the addresses that the regions cover.
theorem forall_rawSpans_iff (x : Nat) :
    (∀ t ∈ rawSpans p regions, x ∉ t) ↔ ∀ region ∈ regions, ¬ Covered p region x := by
  have hmem : ∀ region ∈ regions, Covered p region x ↔ ∃ e, rawEntry p region = some e ∧
      x ∈ spanOf e := by
    intro region hregion
    rcases rawEntry_cases (hregions region hregion) hlist hwindow with
      ⟨-, hnone, hout⟩ | ⟨-, e, he, -, -, -, -, -, hiff⟩
    · simp [hnone, hout]
    · simp [he, hiff]
  constructor
  · intro h region hregion hcovered
    obtain ⟨e, he, hx⟩ := (hmem region hregion).mp hcovered
    exact h _ (mem_rawSpans.mpr ⟨region, hregion, e, he, rfl⟩) hx
  · intro h t ht hx
    obtain ⟨region, hregion, e, he, rfl⟩ := mem_rawSpans.mp ht
    exact h region hregion ((hmem region hregion).mpr ⟨e, he, hx⟩)

theorem rawSpans_eq_nil_iff : rawSpans p regions = [] ↔ ∀ region ∈ regions, ¬ Touches p region := by
  rw [rawSpans, List.map_eq_nil_iff, List.filterMap_eq_nil_iff]
  refine forall₂_congr fun region hregion => ?_
  rcases rawEntry_cases (hregions region hregion) hlist hwindow with
    ⟨htouches, hnone, -⟩ | ⟨htouches, e, he, -⟩
  · simp [htouches, hnone]
  · simp [htouches, he]

end Table

/-! ## The listing -/

-- A run that comes to the listing has been through all regions.
theorem initModule_finished {ks : KernelSort} {d : Globals} {regions : List BootmemRegion}
    (htable : d.table = ⟨regions, regions.length⟩) {env : InitEnv} {p : TestParm}
    (hwindow : p.start ≤ p.stop) {s : InitState} (hrun : initModule ks d env p = (.finished, s)) :
    s.rawReg = regions.reverse.filterMap (rawEntry (effectiveWindow p)) ∧
      s.maxPhyAddr = maxLast regions := by
  have hnum : (mmtestIoctl ks d (.getBregionNum true)).reply = .num regions.length :=
    congrArg (fun table : BootmemTable => Reply.num table.bregionNum) htable
  rw [initModule, if_neg (not_lt.mpr hwindow)] at hrun
  cases hdevice : env.openDevice with
  | some errno => simp [hdevice] at hrun
  | none =>
      cases hbregion : env.getBregionNum with
      | some errno => simp [hdevice, hbregion] at hrun
      | none =>
          simp only [hdevice, hbregion, hnum] at hrun
          rw [show (if p.listInfo then { p with start := 0, stop := 0x1ffffffffff } else p) =
            effectiveWindow p from rfl] at hrun
          have hall := initLoop_finished (effectiveWindow_ordered hwindow) htable regions.length
            (le_refl _) _ s hrun
          rwa [List.take_length, List.nil_append] at hall

-- With no entry the listing is `[start, raw_reg[-1].start)` and everything up to the end.
theorem printed_empty_tile_iff {b start stop : Nat} :
    Tile (fun x => start ≤ x ∧ x < stop) (gap start b ++ gap 0 stop) ↔
      b ≤ start ∧ (start = 0 ∨ stop = 0) := by
  constructor
  · rintro ⟨hapart, hmem⟩
    have hzero : start = 0 ∨ stop = 0 := by
      by_contra hne
      have hpos : 0 < stop := by omega
      have hlast : ⟨0, stop⟩ ∈ gap 0 stop := mem_gap.mpr ⟨hpos, rfl⟩
      have hin := (hmem 0).mp ⟨⟨0, stop⟩, by simp [hlast], le_refl _, hpos⟩
      omega
    refine ⟨?_, hzero⟩
    by_contra hlt
    have hfirst : ⟨start, b⟩ ∈ gap start b := mem_gap.mpr ⟨not_le.mp hlt, rfl⟩
    have hstart : start ∈ (⟨start, b⟩ : Span Nat) := ⟨le_refl _, not_le.mp hlt⟩
    have hin := (hmem start).mp ⟨⟨start, b⟩, by simp [hfirst], hstart⟩
    have hlast : ⟨0, stop⟩ ∈ gap 0 stop := mem_gap.mpr ⟨by omega, rfl⟩
    exact (List.pairwise_append.mp hapart).2.2 _ hfirst _ hlast start hstart ⟨Nat.zero_le _, hin.2⟩
  · rintro ⟨hle, hzero⟩
    rw [show gap start b = [] from if_neg (not_lt.mpr hle), List.nil_append]
    have hempty : Ascending 0 stop [] := ⟨by simp, by simp, by simp⟩
    have hwindow := gaps_tile hempty
    refine ⟨hwindow.1, fun x => (hwindow.2 x).trans ?_⟩
    simp only [List.not_mem_nil, false_implies, implies_true, and_true]
    omega

section Gaps

variable {p : TestParm} {regions : List BootmemRegion} {rawReg : List (Nat × Nat)}
  {reg : Int → Nat × Nat} (hregions : ∀ region ∈ regions, OrderedRegion region)
  (hlist : p.listInfo = false) (hwindow : p.start ≤ p.stop) (hstack : OnStack rawReg reg)
  (hspans : ascendingSpans rawReg = rawSpans p regions)

include hregions hlist hwindow hstack hspans

-- With an entry, only the turn that reads below the table can go wrong.
theorem gapsExact_touching (hascends : regions.Pairwise fun r q => r.endPfn ≤ q.startPfn)
    (htouches : ∃ region ∈ regions, Touches p region) :
    GapsExact p regions (maxLast regions) (printedGaps reg rawReg.length p (maxLast regions)) ↔
      (reg (-1)).1 ≤ (reg 0).2 := by
  have hne : rawReg ≠ [] := by
    intro hempty
    obtain ⟨region, hregion, htouch⟩ := htouches
    rw [hempty] at hspans
    exact (rawSpans_eq_nil_iff hregions hlist hwindow).mp hspans.symm region hregion htouch
  obtain ⟨pre, hprinted, hgaps⟩ := printed_eq hstack hne p (maxLast regions)
  have htile := gaps_tile (rawSpans_ascending hregions hlist hwindow hascends)
  simp only [forall_rawSpans_iff hregions hlist hwindow] at htile
  rw [← hspans, hgaps] at htile
  rw [GapsExact, hprinted]
  exact tile_slipped_iff htile fun x hx => hx.1.2

-- Without one, what is printed does not depend on the regions at all.
theorem gapsExact_apart (hfar : ∀ region ∈ regions, ¬ Touches p region) :
    GapsExact p regions (maxLast regions) (printedGaps reg rawReg.length p (maxLast regions)) ↔
      (reg (-1)).1 ≤ p.start ∧ (p.start = 0 ∨ min p.stop (maxLast regions) = 0) := by
  have hempty : rawReg = [] := by
    have hnil := hspans.trans ((rawSpans_eq_nil_iff hregions hlist hwindow).mpr hfar)
    simpa [ascendingSpans] using hnil
  have hzero : reg 0 = (0, 0) := hstack.zeroed 0 (by simp [hempty]) (by decide)
  have hprinted : printedGaps reg rawReg.length p (maxLast regions) =
      gap p.start (reg (-1)).1 ++ gap 0 (min p.stop (maxLast regions)) := by
    rw [printedGaps, hempty, hzero]
    simp
  have hout : ∀ x, (∀ region ∈ regions, ¬ Covered p region x) ↔ True :=
    fun x => iff_true_intro fun region hregion h => hfar region hregion h.1.touches
  simp only [GapsExact, hprinted, hout, and_true]
  exact printed_empty_tile_iff

end Gaps

/-- In no run that comes to the listing is it right as a whole, since it always reads
`raw_reg[-1]`.  Outside list mode the printed ranges alone are right exactly when what is found there
is not above the end of the highest entry or, if no region touches the window, not above its start,
and the window begins at address 0 or lies where there is no memory at all. -/
theorem listing_not_exact (ks : KernelSort) (d : Globals) {regions : List BootmemRegion}
    (htable : d.table = ⟨regions, regions.length⟩)
    (hregions : ∀ region ∈ regions, OrderedRegion region)
    (hascends : regions.Pairwise fun r q => r.endPfn ≤ q.startPfn) {env : InitEnv} {p : TestParm}
    (hwindow : p.start ≤ p.stop) {s : InitState} (hrun : initModule ks d env p = (.finished, s))
    {reg : Int → Nat × Nat} (hstack : OnStack s.rawReg reg) :
    ¬ ListingExact reg s.rawReg.length (effectiveWindow p) regions s.maxPhyAddr ∧
      (p.listInfo = false →
        (GapsExact p regions s.maxPhyAddr (printedGaps reg s.rawReg.length p s.maxPhyAddr) ↔
          if ∃ region ∈ regions, Touches p region then (reg (-1)).1 ≤ (reg 0).2
          else (reg (-1)).1 ≤ p.start ∧ (p.start = 0 ∨ min p.stop s.maxPhyAddr = 0))) := by
  obtain ⟨hraw, hmax⟩ := initModule_finished htable hwindow hrun
  constructor
  · rintro ⟨-, hreads⟩
    have hneg := (hreads _ (listing_reads_below _)).1
    omega
  · intro hlist
    have heffective : effectiveWindow p = p := by
      rw [effectiveWindow, hlist]
      rfl
    rw [heffective] at hraw
    have hspans : ascendingSpans s.rawReg = rawSpans p regions := by
      rw [hraw, ascendingSpans, List.filterMap_reverse, List.reverse_reverse, rawSpans]
    rw [hmax]
    split_ifs with htouches
    · exact gapsExact_touching hregions hlist hwindow hstack hspans hascends htouches
    · apply gapsExact_apart hregions hlist hwindow hstack hspans
      intro region hregion h
      exact htouches ⟨region, hregion, h⟩

/-- One read-write region of sixteen pages. -/
def readWriteRegion : Globals := ⟨[], 0, [], [], ⟨[⟨0x100, 0x110, 0, mmtestRW⟩], 1⟩⟩

/-- A window above it. -/
def highWindow : TestParm := ⟨0x200000, 0x300000, false⟩

def highRun : InitExit × InitState :=
  initModule insertionKernelSort readWriteRegion quietInit highWindow

theorem highRun_eq : highRun.1 = .finished ∧ highRun.2.rawReg = [] ∧
    highRun.2.maxPhyAddr = 0x110000 := by
  decide +kernel

/-- With nothing but zeros on the stack, `raw_reg[-1]` is read and the region itself is printed as
non-testable. -/
theorem listing_wrong_above_memory :
    highRun.1 = .finished ∧ OnStack highRun.2.rawReg (fun _ => (0, 0)) ∧
      (-1 : Int) ∈ listingReads highRun.2.rawReg.length ∧
      printedGaps (fun _ => (0, 0)) highRun.2.rawReg.length highWindow highRun.2.maxPhyAddr =
        [⟨0, 0x110000⟩] ∧
      ¬ GapsExact highWindow readWriteRegion.table.regions highRun.2.maxPhyAddr
        (printedGaps (fun _ => (0, 0)) highRun.2.rawReg.length highWindow highRun.2.maxPhyAddr) ∧
      ¬ ListingExact (fun _ => (0, 0)) highRun.2.rawReg.length highWindow
        readWriteRegion.table.regions highRun.2.maxPhyAddr := by
  obtain ⟨hfinished, hraw, hmax⟩ := highRun_eq
  have hwrong : ¬ GapsExact highWindow readWriteRegion.table.regions 0x110000 [⟨0, 0x110000⟩] := by
    intro h
    have hin := (h.2 0).mp ⟨⟨0, 0x110000⟩, by simp, by simp [Span.mem_def]⟩
    exact absurd hin.1.1 (by decide)
  rw [hraw, hmax]
  exact ⟨hfinished, ⟨by simp, by simp⟩, listing_reads_below 0, rfl, hwrong, fun h => hwrong h.1⟩

/-- The same run. -/
theorem listing_not_exact_above_memory :
    ¬ ListingExact (fun _ => (0, 0)) highRun.2.rawReg.length (effectiveWindow highWindow)
        readWriteRegion.table.regions highRun.2.maxPhyAddr ∧
      (highWindow.listInfo = false →
        (GapsExact highWindow readWriteRegion.table.regions highRun.2.maxPhyAddr
            (printedGaps (fun _ => (0, 0)) highRun.2.rawReg.length highWindow
              highRun.2.maxPhyAddr) ↔
          if ∃ region ∈ readWriteRegion.table.regions, Touches highWindow region then 0 ≤ 0
          else 0 ≤ highWindow.start ∧
            (highWindow.start = 0 ∨ min highWindow.stop highRun.2.maxPhyAddr = 0))) := by
  obtain ⟨hfinished, hraw, -⟩ := highRun_eq
  have hregions : ∀ region ∈ readWriteRegion.table.regions, OrderedRegion region := by
    intro region hregion
    obtain rfl : region = ⟨0x100, 0x110, 0, mmtestRW⟩ := List.mem_singleton.mp hregion
    exact ⟨by decide, by decide⟩
  have hstack : OnStack highRun.2.rawReg fun _ => (0, 0) := by
    rw [hraw]
    exact ⟨by simp, by simp⟩
  exact listing_not_exact insertionKernelSort readWriteRegion rfl hregions (by decide)
    (by decide) (Prod.ext hfinished rfl) hstack

end MoBoMemory.App
