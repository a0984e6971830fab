import MoBoMemory.Driver.NodeMap

/-!
# The boot memory regions

`generate_bootmem_region` splits the entries of the node map at the kernel's memory limit into
read-only and read-write regions, as long as the table has room.  `splitRange` is the split of one
entry; the table is a prefix of all the splits.
-/

namespace MoBoMemory.Driver

open Base

def maxBootmemRegions : Nat := 64
def mmtestRO : Nat := 0
def mmtestRW : Nat := 1

/-- `bootmem_region_t`. -/
structure BootmemRegion where
  startPfn : Nat
  endPfn : Nat
  nid : Nat
  type : Nat
deriving DecidableEq

def BootmemRegion.span (r : BootmemRegion) : Span Nat := ⟨r.startPfn, r.endPfn⟩

/-- `bootmem_regions` up to the last slot written, with `bregion_num`. -/
structure BootmemTable where
  regions : List BootmemRegion
  bregionNum : Nat
deriving DecidableEq

/-- The loop over the node map, with the return value; `regions` holds the slots below `count`. -/
def bootmemLoop (memLimitPfn : Nat) : List NodeRange → List BootmemRegion → Int × BootmemTable
  | [], regions => (0, ⟨regions, regions.length⟩)
  | r :: rs, regions =>
      if r.endPfn ≤ memLimitPfn ∨ memLimitPfn ≤ r.startPfn then
        if maxBootmemRegions ≤ regions.length then (-1, ⟨regions, maxBootmemRegions⟩)
        else
          bootmemLoop memLimitPfn rs (regions ++ [⟨r.startPfn, r.endPfn, r.nid,
            if r.endPfn ≤ memLimitPfn then mmtestRO else mmtestRW⟩])
      else if maxBootmemRegions ≤ regions.length then (-1, ⟨regions, maxBootmemRegions⟩)
      else if maxBootmemRegions ≤ regions.length + 1 then
        (-1, ⟨regions ++ [⟨r.startPfn, memLimitPfn, r.nid, mmtestRO⟩], maxBootmemRegions⟩)
      else
        bootmemLoop memLimitPfn rs (regions ++ [⟨r.startPfn, memLimitPfn, r.nid, mmtestRO⟩,
          ⟨memLimitPfn, r.endPfn, r.nid, mmtestRW⟩])

def generateBootmemRegion (memLimit : Nat) (map : List NodeRange) : Int × BootmemTable :=
  bootmemLoop (memLimit / pageSize) map []

/-- `none` is the return value -1. -/
def getBregion (table : BootmemTable) (idx : Nat) : Option BootmemRegion :=
  if table.bregionNum ≤ idx then none else table.regions[idx]?

/-! ## The split of one entry -/

def splitRange (memLimitPfn : Nat) (r : NodeRange) : List BootmemRegion :=
  if r.endPfn ≤ memLimitPfn ∨ memLimitPfn ≤ r.startPfn then
    [⟨r.startPfn, r.endPfn, r.nid, if r.endPfn ≤ memLimitPfn then mmtestRO else mmtestRW⟩]
  else
    [⟨r.startPfn, memLimitPfn, r.nid, mmtestRO⟩, ⟨memLimitPfn, r.endPfn, r.nid, mmtestRW⟩]

/-- What the loop leaves behind when `regions` are all the splits there are. -/
def clipped (regions : List BootmemRegion) : Int × BootmemTable :=
  (if regions.length ≤ maxBootmemRegions then 0 else -1,
    ⟨regions.take maxBootmemRegions, min maxBootmemRegions regions.length⟩)

theorem clipped_full {regions rest : List BootmemRegion}
    (hfull : regions.length = maxBootmemRegions) (hrest : rest ≠ []) :
    clipped (regions ++ rest) = (-1, ⟨regions, maxBootmemRegions⟩) := by
  have hpos := List.length_pos_of_ne_nil hrest
  rw [clipped, ← hfull, List.take_left, List.length_append, if_neg (by omega),
    Nat.min_eq_left (by omega)]

-- The loop writes as many of the splits as fit, and fails if some are left.
theorem bootmemLoop_eq (memLimitPfn : Nat) (rs : List NodeRange) (regions : List BootmemRegion)
    (hlen : regions.length ≤ maxBootmemRegions) :
    bootmemLoop memLimitPfn rs regions =
      clipped (regions ++ rs.flatMap (splitRange memLimitPfn)) := by
  induction rs generalizing regions with
  | nil =>
      rw [List.flatMap_nil, List.append_nil, clipped, if_pos hlen, List.take_of_length_le hlen,
        Nat.min_eq_right hlen, bootmemLoop]
  | cons r rs ih =>
      rw [bootmemLoop, List.flatMap_cons]
      by_cases hwhole : r.endPfn ≤ memLimitPfn ∨ memLimitPfn ≤ r.startPfn
      · -- on one side of the limit: one region
        rw [if_pos hwhole, splitRange, if_pos hwhole]
        by_cases hfull : maxBootmemRegions ≤ regions.length
        · rw [if_pos hfull, clipped_full (by omega) (by simp)]
        · rw [if_neg hfull, ih _ (by simp; omega), List.append_assoc]
      · rw [if_neg hwhole, splitRange, if_neg hwhole]
        by_cases hfull : maxBootmemRegions ≤ regions.length
        · rw [if_pos hfull, clipped_full (by omega) (by simp)]
        · rw [if_neg hfull]
          by_cases hlast : maxBootmemRegions ≤ regions.length + 1
          · -- the read-only half takes the last slot
            have hhalf := List.append_cons regions ⟨r.startPfn, memLimitPfn, r.nid, mmtestRO⟩
              (⟨memLimitPfn, r.endPfn, r.nid, mmtestRW⟩ :: rs.flatMap (splitRange memLimitPfn))
            rw [if_pos hlast, List.cons_append, List.cons_append, List.nil_append, hhalf,
              clipped_full (by simp; omega) (by simp)]
          · rw [if_neg hlast, ih _ (by simp; omega), List.append_assoc]

theorem generateBootmemRegion_eq (memLimit : Nat) (map : List NodeRange) :
    generateBootmemRegion memLimit map =
      clipped (map.flatMap (splitRange (memLimit / pageSize))) :=
  bootmemLoop_eq _ map [] (by decide)

-- A call that succeeds has written all the splits.
theorem generateBootmemRegion_of_success {memLimit : Nat} {map : List NodeRange}
    (h : (generateBootmemRegion memLimit map).1 = 0) :
    (map.flatMap (splitRange (memLimit / pageSize))).length ≤ maxBootmemRegions ∧
      (generateBootmemRegion memLimit map).2 =
        ⟨map.flatMap (splitRange (memLimit / pageSize)),
          (map.flatMap (splitRange (memLimit / pageSize))).length⟩ := by
  rw [generateBootmemRegion_eq, clipped] at *
  have hlen : (map.flatMap (splitRange (memLimit / pageSize))).length ≤ maxBootmemRegions := by
    by_contra hover
    exact absurd ((if_neg hover).symm.trans h) (by decide)
  exact ⟨hlen, by rw [List.take_of_length_le hlen, Nat.min_eq_right hlen]⟩

-- The slots below `bregion_num` are those written.
theorem bregionNum_eq_length (memLimit : Nat) (map : List NodeRange) :
    (generateBootmemRegion memLimit map).2 =
      ⟨(generateBootmemRegion memLimit map).2.regions,
        (generateBootmemRegion memLimit map).2.regions.length⟩ := by
  rw [generateBootmemRegion_eq, clipped]
  simp only [List.length_take]

theorem mem_generateBootmemRegion {memLimit : Nat} {map : List NodeRange} {region : BootmemRegion}
    (h : region ∈ (generateBootmemRegion memLimit map).2.regions) :
    ∃ r ∈ map, region ∈ splitRange (memLimit / pageSize) r := by
  rw [generateBootmemRegion_eq] at h
  exact List.mem_flatMap.mp (List.mem_of_mem_take h)

theorem getBregion_of_lt (regions : List BootmemRegion) {idx : Nat} (h : idx < regions.length) :
    getBregion ⟨regions, regions.length⟩ idx = some regions[idx] := by
  rw [getBregion, if_neg (Nat.not_le.mpr h), List.getElem?_eq_getElem h]

section Split

variable {memLimitPfn : Nat} {r : NodeRange} {region : BootmemRegion}

theorem splitRange_nid (h : region ∈ splitRange memLimitPfn r) : region.nid = r.nid := by
  unfold splitRange at h
  split_ifs at h <;> simp only [List.mem_cons, List.not_mem_nil, or_false] at h
  · rw [h]
  · rw [h]
  · rcases h with rfl | rfl <;> rfl

-- A split region lies on one side of the limit, inside its entry, and says so in its type.
theorem splitRange_side (h : region ∈ splitRange memLimitPfn r) :
    r.startPfn ≤ region.startPfn ∧ region.endPfn ≤ r.endPfn ∧
      ((region.type = mmtestRO ∧ region.endPfn ≤ memLimitPfn) ∨
        (region.type = mmtestRW ∧ memLimitPfn ≤ region.startPfn)) := by
  unfold splitRange at h
  split_ifs at h <;> simp only [List.mem_cons, List.not_mem_nil, or_false] at h
  · subst h
    exact ⟨Nat.le_refl _, Nat.le_refl _, Or.inl ⟨rfl, by assumption⟩⟩
  · subst h
    exact ⟨Nat.le_refl _, Nat.le_refl _, Or.inr ⟨rfl, by simp only; omega⟩⟩
  · rcases h with rfl | rfl
    · exact ⟨Nat.le_refl _, by simp only; omega, Or.inl ⟨rfl, Nat.le_refl _⟩⟩
    · exact ⟨by simp only; omega, Nat.le_refl _, Or.inr ⟨rfl, Nat.le_refl _⟩⟩

-- A part begins with the entry, or with the limit inside of it.
theorem splitRange_startPfn (h : region ∈ splitRange memLimitPfn r) :
    region.startPfn = r.startPfn ∨ (region.startPfn = memLimitPfn ∧ memLimitPfn < r.endPfn) := by
  unfold splitRange at h
  split_ifs at h <;> simp only [List.mem_cons, List.not_mem_nil, or_false] at h
  · exact Or.inl (congrArg BootmemRegion.startPfn h)
  · exact Or.inl (congrArg BootmemRegion.startPfn h)
  · rcases h with rfl | rfl
    · exact Or.inl rfl
    · exact Or.inr ⟨rfl, by omega⟩

-- A region is the whole entry or has pages.
theorem splitRange_whole_or_pages (h : region ∈ splitRange memLimitPfn r) :
    (region.startPfn = r.startPfn ∧ region.endPfn = r.endPfn) ∨ region.startPfn < region.endPfn := by
  unfold splitRange at h
  split_ifs at h <;> simp only [List.mem_cons, List.not_mem_nil, or_false] at h
  · exact Or.inl (h ▸ ⟨rfl, rfl⟩)
  · exact Or.inl (h ▸ ⟨rfl, rfl⟩)
  · right
    rcases h with rfl | rfl <;> simp only <;> omega

-- A non-empty entry splits into non-empty regions.
theorem splitRange_nonempty (hr : r.startPfn < r.endPfn) (h : region ∈ splitRange memLimitPfn r) :
    region.startPfn < region.endPfn := by
  have hregion := splitRange_whole_or_pages h
  omega

theorem splitRange_ordered (hr : r.startPfn ≤ r.endPfn) (h : region ∈ splitRange memLimitPfn r) :
    region.startPfn ≤ region.endPfn := by
  have hregion := splitRange_whole_or_pages h
  omega

-- The regions of an entry cover exactly its pages.
theorem splitRange_mem (pfn : Nat) :
    (∃ region ∈ splitRange memLimitPfn r, pfn ∈ region.span) ↔ pfn ∈ r.span := by
  unfold splitRange
  split_ifs <;> simp only [List.mem_cons, List.not_mem_nil, or_false, exists_eq_left,
    exists_eq_or_imp, BootmemRegion.span, NodeRange.span, Span.mem_def]
  omega

theorem splitRange_ascending :
    (splitRange memLimitPfn r).Pairwise fun a b => a.endPfn ≤ b.startPfn := by
  unfold splitRange
  split_ifs <;> simp

end Split

theorem length_splitRange_pos (memLimitPfn : Nat) (r : NodeRange) :
    0 < (splitRange memLimitPfn r).length := by
  unfold splitRange
  split_ifs <;> simp

-- There are at least as many splits as entries.
theorem length_le_splits (memLimitPfn : Nat) (map : List NodeRange) :
    map.length ≤ (map.flatMap (splitRange memLimitPfn)).length := by
  induction map with
  | nil => simp
  | cons r rs ih =>
      have hr := length_splitRange_pos memLimitPfn r
      simp only [List.length_cons, List.flatMap_cons, List.length_append]
      omega

-- An ascending node map splits into ascending regions.
theorem splits_ascending {memLimitPfn : Nat} {map : List NodeRange}
    (hmap : map.Pairwise fun a b => a.endPfn ≤ b.startPfn) :
    (map.flatMap (splitRange memLimitPfn)).Pairwise fun a b => a.endPfn ≤ b.startPfn := by
  rw [List.pairwise_flatMap]
  refine ⟨fun _ _ => splitRange_ascending, hmap.imp ?_⟩
  intro r q hrq a ha b hb
  have hinside := (splitRange_side ha).2.1
  have hafter := (splitRange_side hb).1
  omega

/-! ## Splitting at the limit -/

/-- The part of a range below the limit. -/
def belowLimit (memLimitPfn : Nat) (r : NodeRange) : BootmemRegion :=
  ⟨r.startPfn, min r.endPfn memLimitPfn, r.nid, mmtestRO⟩

/-- The part of a range at or above the limit. -/
def aboveLimit (memLimitPfn : Nat) (r : NodeRange) : BootmemRegion :=
  ⟨max r.startPfn memLimitPfn, r.endPfn, r.nid, mmtestRW⟩

/-- Each range in order becomes its part below the limit and its part above, without empty ones. -/
def partsAtLimit (memLimitPfn : Nat) (map : List NodeRange) : List BootmemRegion :=
  (map.flatMap fun r => [belowLimit memLimitPfn r, aboveLimit memLimitPfn r]).filter
    fun region => decide (region.startPfn < region.endPfn)

-- One range: the comparisons with the limit find out which of the parts are empty.
theorem splitRange_eq_parts {memLimitPfn : Nat} {r : NodeRange} (hne : r.startPfn < r.endPfn) :
    splitRange memLimitPfn r = [belowLimit memLimitPfn r, aboveLimit memLimitPfn r].filter
      fun region => decide (region.startPfn < region.endPfn) := by
  unfold splitRange belowLimit aboveLimit
  by_cases hbelow : r.endPfn ≤ memLimitPfn
  · have habove : ¬ max r.startPfn memLimitPfn < r.endPfn := by omega
    simp [hbelow, habove, hne]
  · by_cases habove : memLimitPfn ≤ r.startPfn
    · have hnone : ¬ r.startPfn < min r.endPfn memLimitPfn := by omega
      simp [hbelow, habove, hnone, hne]
    · have hlow : r.startPfn < min r.endPfn memLimitPfn := by omega
      have hhigh : max r.startPfn memLimitPfn < r.endPfn := by omega
      have hmin : min r.endPfn memLimitPfn = memLimitPfn := by omega
      have hmax : max r.startPfn memLimitPfn = memLimitPfn := by omega
      rw [hmin] at hlow
      rw [hmax] at hhigh
      simp [hbelow, habove, hmin, hmax, hlow, hhigh]

theorem splits_eq_parts {memLimitPfn : Nat} {map : List NodeRange}
    (hmap : ∀ r ∈ map, r.startPfn < r.endPfn) :
    map.flatMap (splitRange memLimitPfn) = partsAtLimit memLimitPfn map := by
  rw [partsAtLimit, List.filter_flatMap]
  exact List.flatMap_congr fun r hr => splitRange_eq_parts (hmap r hr)

/-- The table takes the first 64 parts, in order; the count is theirs, and the call succeeds exactly
when there are no more. -/
theorem generateBootmemRegion_splits (memLimit : Nat) {map : List NodeRange}
    (hmap : ∀ r ∈ map, r.startPfn < r.endPfn) :
    (generateBootmemRegion memLimit map).2.regions =
        (partsAtLimit (memLimit / pageSize) map).take maxBootmemRegions ∧
      (generateBootmemRegion memLimit map).2.bregionNum =
        min (partsAtLimit (memLimit / pageSize) map).length maxBootmemRegions ∧
      (generateBootmemRegion memLimit map).1 =
        (if (partsAtLimit (memLimit / pageSize) map).length ≤ maxBootmemRegions then 0 else -1) ∧
      (generateBootmemRegion memLimit map).2.regions.length ≤ maxBootmemRegions := by
  rw [generateBootmemRegion_eq, splits_eq_parts hmap, clipped]
  refine ⟨rfl, Nat.min_comm .., rfl, ?_⟩
  exact List.length_take_le _ _

/-- A range across the limit behind one below it. -/
theorem generateBootmemRegion_splits_two :
    (generateBootmemRegion 0x5000 [⟨0, 1, 3⟩, ⟨0, 4, 7⟩]).2.regions =
        (partsAtLimit (0x5000 / pageSize) [⟨0, 1, 3⟩, ⟨0, 4, 7⟩]).take maxBootmemRegions ∧
      (generateBootmemRegion 0x5000 [⟨0, 1, 3⟩, ⟨0, 4, 7⟩]).2.bregionNum =
        min (partsAtLimit (0x5000 / pageSize) [⟨0, 1, 3⟩, ⟨0, 4, 7⟩]).length maxBootmemRegions ∧
      (generateBootmemRegion 0x5000 [⟨0, 1, 3⟩, ⟨0, 4, 7⟩]).1 =
        (if (partsAtLimit (0x5000 / pageSize) [⟨0, 1, 3⟩, ⟨0, 4, 7⟩]).length ≤ maxBootmemRegions
          then 0 else -1) ∧
      (generateBootmemRegion 0x5000 [⟨0, 1, 3⟩, ⟨0, 4, 7⟩]).2.regions.length ≤
        maxBootmemRegions :=
  generateBootmemRegion_splits 0x5000 (by decide)

end MoBoMemory.Driver
