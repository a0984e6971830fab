import MoBoMemory.Driver.Mmap

/-!
# Where the pieces of a mapping are placed

`mmtest_mmap` writes the bounds of each piece into the VMA, hands the VMA to `remap_pfn_range` and
puts the bounds back before it looks at the result.  The loop on the VMA in place makes the calls of
`mmapLoop`, and every piece lies in the request and in one MTRR.  A request that ends at pfn 2^32 has
the truncated end 0, and no piece at all.
-/

namespace MoBoMemory.Driver

open Base

/-- The fields of the VMA that the driver writes. -/
structure VmaBounds where
  vmStart : Nat
  vmEnd : Nat
  vmPgoff : Nat
deriving DecidableEq

def Vma.bounds (vma : Vma) : VmaBounds := ⟨vma.vmStart, vma.vmEnd, vma.vmPgoff⟩

section Source

/-- `map_start_pfn`. -/
def mapStartPfn (startPfn : Nat) (r : MtrrVarRange) : Nat :=
  (if r.mtrrStart < startPfn * pageSize then startPfn * pageSize / pageSize
    else r.mtrrStart / pageSize) % 2 ^ 32

/-- `map_end_pfn`. -/
def mapEndPfn (endPfn : Nat) (r : MtrrVarRange) : Nat :=
  (if r.mtrrEnd < endPfn * pageSize then r.mtrrEnd / pageSize
    else endPfn * pageSize / pageSize) % 2 ^ 32

/-- The VMA as it is when `remap_pfn_range` is called. -/
def narrow (startPfn endPfn : Nat) (r : MtrrVarRange) (cur : VmaBounds) : VmaBounds :=
  let vmStart :=
    (cur.vmStart + (mapStartPfn startPfn r + 2 ^ 32 - startPfn) % 2 ^ 32 * pageSize) % 2 ^ 64
  { vmStart := vmStart
    vmEnd := (vmStart + (mapEndPfn endPfn r + 2 ^ 32 - mapStartPfn startPfn r) % 2 ^ 32 * pageSize) %
      2 ^ 64
    vmPgoff := mapStartPfn startPfn r }

/-- The loop with the VMA; `remap` is `remap_pfn_range`, which is given the VMA and may change it. -/
def placeLoop (remap : List RemapCall → VmaBounds → RemapCall → Int × VmaBounds)
    (startPfn endPfn : Nat) (original : VmaBounds) :
    List MtrrVarRange → VmaBounds → List RemapCall → Int × VmaBounds × List RemapCall
  | [], cur, calls => (0, cur, calls)
  | r :: rs, cur, calls =>
      if !r.valid then placeLoop remap startPfn endPfn original rs cur calls
      else if r.mtrrEnd ≤ startPfn * pageSize ∨ endPfn * pageSize ≤ r.mtrrStart then
        placeLoop remap startPfn endPfn original rs cur calls
      else
        let cur := narrow startPfn endPfn r cur
        let call : RemapCall := ⟨cur.vmStart, mapStartPfn startPfn r,
          (mapEndPfn endPfn r + 2 ^ 32 - mapStartPfn startPfn r) % 2 ^ 32 * pageSize⟩
        let (ret, cur) := remap calls cur call
        let cur := { cur with
          vmStart := original.vmStart, vmEnd := original.vmEnd, vmPgoff := original.vmPgoff }
        if ret < 0 then (ret, cur, calls ++ [call])
        else placeLoop remap startPfn endPfn original rs cur (calls ++ [call])

/-- `mmtest_mmap`: the return value, the VMA and the calls made. -/
def mmtestMmapInPlace (remap : List RemapCall → VmaBounds → RemapCall → Int × VmaBounds)
    (varRanges : List MtrrVarRange) (vma : Vma) : Int × VmaBounds × List RemapCall :=
  placeLoop remap vma.startPfn vma.endPfn vma.bounds varRanges vma.bounds []

end Source

/-- The VMA of a call. -/
def RemapCall.bounds (c : RemapCall) : VmaBounds := ⟨c.addr, (c.addr + c.size) % 2 ^ 64, c.pfn⟩

/-- The call on the piece. -/
def pieceCall (startPfn endPfn : Nat) (r : MtrrVarRange) (cur : VmaBounds) : RemapCall :=
  ⟨(narrow startPfn endPfn r cur).vmStart, mapStartPfn startPfn r,
    (mapEndPfn endPfn r + 2 ^ 32 - mapStartPfn startPfn r) % 2 ^ 32 * pageSize⟩

theorem narrow_eq_bounds (startPfn endPfn : Nat) (r : MtrrVarRange) (cur : VmaBounds) :
    narrow startPfn endPfn r cur = (pieceCall startPfn endPfn r cur).bounds := rfl

theorem remapCall_eq_pieceCall (vma : Vma) (r : MtrrVarRange) : remapCall vma r =
    if !r.valid then none
    else if r.mtrrEnd ≤ vma.startPfn * pageSize ∨ vma.endPfn * pageSize ≤ r.mtrrStart then none
    else some (pieceCall vma.startPfn vma.endPfn r vma.bounds) := by
  unfold remapCall pieceCall narrow mapStartPfn mapEndPfn
  rfl

section Refines

variable (remap : List RemapCall → VmaBounds → RemapCall → Int × VmaBounds) (vma : Vma)

-- A turn without a call.
theorem placeLoop_skips {r : MtrrVarRange} (hnone : remapCall vma r = none) (rs : List MtrrVarRange)
    (calls : List RemapCall) :
    placeLoop remap vma.startPfn vma.endPfn vma.bounds (r :: rs) vma.bounds calls =
      placeLoop remap vma.startPfn vma.endPfn vma.bounds rs vma.bounds calls := by
  rw [remapCall_eq_pieceCall] at hnone
  rw [placeLoop]
  split_ifs at hnone with hvalid hskip
  · rw [if_pos hvalid]
  · rw [if_neg hvalid, if_pos hskip]

-- A turn with a call: it is made on the piece, and leaves the VMA as it was.
theorem placeLoop_calls {r : MtrrVarRange} {call : RemapCall} (hcall : remapCall vma r = some call)
    (rs : List MtrrVarRange) (calls : List RemapCall) :
    placeLoop remap vma.startPfn vma.endPfn vma.bounds (r :: rs) vma.bounds calls =
      if (remap calls call.bounds call).1 < 0 then
        ((remap calls call.bounds call).1, vma.bounds, calls ++ [call])
      else placeLoop remap vma.startPfn vma.endPfn vma.bounds rs vma.bounds (calls ++ [call]) := by
  rw [remapCall_eq_pieceCall] at hcall
  rw [placeLoop]
  split_ifs at hcall with hvalid hskip
  obtain rfl := Option.some.inj hcall
  rw [if_neg hvalid, if_neg hskip, narrow_eq_bounds]
  rfl

-- The VMA is put back after each call, so every turn finds it as it was: the calls and the return
-- value are those of the loop without it.
theorem placeLoop_eq (rs : List MtrrVarRange) (calls : List RemapCall) :
    placeLoop remap vma.startPfn vma.endPfn vma.bounds rs vma.bounds calls =
      ((mmapLoop vma (fun calls c => (remap calls c.bounds c).1) rs calls).1, vma.bounds,
        (mmapLoop vma (fun calls c => (remap calls c.bounds c).1) rs calls).2) := by
  induction rs generalizing calls with
  | nil => rfl
  | cons r rs ih =>
      rw [mmapLoop]
      cases hcall : remapCall vma r with
      | none => rw [placeLoop_skips remap vma hcall, ih]
      | some call =>
          rw [placeLoop_calls remap vma hcall, ih]
          simp only
          split <;> rfl

theorem mmtestMmapInPlace_eq (varRanges : List MtrrVarRange) :
    mmtestMmapInPlace remap varRanges vma =
      ((mmtestMmap vma (fun calls c => (remap calls c.bounds c).1) varRanges).1, vma.bounds,
        (mmtestMmap vma (fun calls c => (remap calls c.bounds c).1) varRanges).2) :=
  placeLoop_eq remap vma varRanges []

end Refines

/-! ## The pieces -/

/-- The physical addresses of an MTRR. -/
def MtrrVarRange.span (r : MtrrVarRange) : Span Nat := ⟨r.mtrrStart, r.mtrrStart + 2 ^ r.lowBit⟩

/-- The physical page lies in a valid MTRR. -/
def InMtrr (varRanges : List MtrrVarRange) (pfn : Nat) : Prop :=
  ∃ r ∈ varRanges, r.valid = true ∧ r.span.lo ≤ pfn * pageSize ∧ (pfn + 1) * pageSize ≤ r.span.hi

/-- The piece lies in the request and in one MTRR, as far into the one as into the other. -/
structure Placed (varRanges : List MtrrVarRange) (vma : Vma) (c : RemapCall) : Prop where
  nonempty : 0 < c.size
  inVma : vma.vmStart ≤ c.addr ∧ c.addr + c.size ≤ vma.vmEnd
  inMtrr : ∃ r ∈ varRanges, r.valid = true ∧ r.span.lo ≤ c.pfn * pageSize ∧
    c.pfn * pageSize + c.size ≤ r.span.hi
  offset : vma.vmPgoff ≤ c.pfn ∧ c.addr = vma.vmStart + (c.pfn - vma.vmPgoff) * pageSize

section Loop

variable {vma : Vma} {remap : List RemapCall → RemapCall → Int}

-- Every call is the one of some MTRR.
theorem mem_mmapLoop {rs : List MtrrVarRange} {calls : List RemapCall} {c : RemapCall}
    (hc : c ∈ (mmapLoop vma remap rs calls).2) : c ∈ calls ∨ ∃ r ∈ rs, remapCall vma r = some c := by
  induction rs generalizing calls with
  | nil => exact Or.inl hc
  | cons r rs ih =>
      rw [mmapLoop] at hc
      cases hcall : remapCall vma r with
      | none =>
          rw [hcall] at hc
          rcases ih hc with hold | ⟨q, hq, hsome⟩
          · exact Or.inl hold
          · exact Or.inr ⟨q, by simp [hq], hsome⟩
      | some call =>
          rw [hcall] at hc
          simp only at hc
          have hnew : c ∈ calls ++ [call] →
              c ∈ calls ∨ ∃ q ∈ r :: rs, remapCall vma q = some c := by
            intro hmem
            rcases List.mem_append.mp hmem with hold | hlast
            · exact Or.inl hold
            · obtain rfl := List.mem_singleton.mp hlast
              exact Or.inr ⟨r, by simp, hcall⟩
          split at hc
          · exact hnew hc
          · rcases ih hc with hold | ⟨q, hq, hsome⟩
            · exact hnew hold
            · exact Or.inr ⟨q, by simp [hq], hsome⟩

theorem mmapLoop_of_none {rs : List MtrrVarRange} (hnone : ∀ r ∈ rs, remapCall vma r = none)
    (calls : List RemapCall) : mmapLoop vma remap rs calls = (0, calls) := by
  induction rs with
  | nil => rfl
  | cons r rs ih =>
      rw [mmapLoop, hnone r (by simp)]
      exact ih fun q hq => hnone q (by simp [hq])

end Loop

/-! ## Where they are -/

section Place

variable {varRanges : List MtrrVarRange} {vma : Vma} (hwell : ∀ r ∈ varRanges, r.WellFormed)
  (hbelow : vma.vmPgoff + vma.pages ≤ 2 ^ 32)

omit hwell in
include hbelow in
-- The start is not truncated, and the end is unless it is pfn 2^32.
theorem Vma.pfns_of_below : vma.startPfn = vma.vmPgoff ∧
    (vma.endPfn = vma.vmPgoff + vma.pages ∨
      (vma.vmPgoff + vma.pages = 2 ^ 32 ∧ vma.endPfn = 0)) := by
  have hpos := vma.pages_pos
  have hstart : vma.startPfn = vma.vmPgoff := Nat.mod_eq_of_lt (by omega)
  refine ⟨hstart, ?_⟩
  rw [Vma.endPfn, hstart]
  omega

-- An MTRR that begins at a 32-bit pfn ends where it should.
theorem MtrrVarRange.end_of_low {r : MtrrVarRange} (hr : r.WellFormed) (hvalid : r.valid = true)
    (hlow : r.mtrrStart / pageSize < 2 ^ 32) : r.mtrrEnd = r.span.hi := by
  obtain ⟨-, hhi⟩ := MtrrVarRange.lowBit_bounds hr hvalid
  have hle : 2 ^ r.lowBit ≤ 2 ^ 63 := Nat.pow_le_pow_right (by decide) (by omega)
  refine Nat.mod_eq_of_lt ?_
  simp only [pageSize, pageShift] at hlow
  omega

include hwell hbelow

theorem remapCall_placed {r : MtrrVarRange} (hr : r ∈ varRanges) {c : RemapCall}
    (hcall : remapCall vma r = some c) : Placed varRanges vma c := by
  obtain ⟨hstart, hend⟩ := vma.pfns_of_below hbelow
  have hsize := vma.size_eq
  rw [remapCall_eq vma (hwell r hr), hstart] at hcall
  split_ifs at hcall with hmeet
  obtain rfl := Option.some.inj hcall
  obtain ⟨hvalid, hlow, hhigh⟩ := hmeet
  obtain ⟨hendAligned, hstartAligned, -⟩ := MtrrVarRange.end_facts (hwell r hr) hvalid
  have hstop := MtrrVarRange.end_of_low (hwell r hr) hvalid (Nat.lt_trans hhigh vma.endPfn_lt)
  have horder := MtrrVarRange.start_lt_end (hwell r hr) hvalid vma.endPfn_lt hhigh
  have hlo : r.mtrrStart / pageSize * pageSize = r.span.lo :=
    Nat.div_mul_cancel (Nat.dvd_of_mod_eq_zero hstartAligned)
  have hhi : r.mtrrEnd / pageSize * pageSize = r.span.hi :=
    (Nat.div_mul_cancel (Nat.dvd_of_mod_eq_zero hendAligned)).trans hstop
  have hlt := vma.endPfn_lt
  have hrequest := vma.pages_pos
  generalize r.mtrrStart / pageSize = a at *
  generalize r.mtrrEnd / pageSize = b at *
  -- the piece goes from the later of the two starts to the earlier of the two ends
  have hpages : (min b vma.endPfn + 2 ^ 32 - max a vma.vmPgoff) % 2 ^ 32 =
      min b vma.endPfn - max a vma.vmPgoff := by
    omega
  have hpos : 0 < min b vma.endPfn - max a vma.vmPgoff := by omega
  have hpage : pageSize = 4096 := rfl
  rw [hpages]
  refine ⟨Nat.mul_pos hpos (by decide), ?_, ⟨r, hr, hvalid, ?_, ?_⟩, Nat.le_max_right .., rfl⟩
  · rw [hpage] at hsize ⊢
    simp only
    omega
  · rw [← hlo]
    exact Nat.mul_le_mul_right _ (Nat.le_max_left ..)
  · simp only
    rw [← hhi, ← Nat.add_mul]
    exact Nat.mul_le_mul_right _ (by omega)

-- Short of pfn 2^32 the piece of an MTRR covers the pages that are in it.
theorem remapCall_covers (hshort : vma.vmPgoff + vma.pages < 2 ^ 32) {r : MtrrVarRange}
    (hr : r ∈ varRanges) (hvalid : r.valid = true) {i : Nat} (hi : i < vma.pages)
    (hlo : r.span.lo ≤ (vma.vmPgoff + i) * pageSize)
    (hhi : (vma.vmPgoff + i + 1) * pageSize ≤ r.span.hi) :
    ∃ c, remapCall vma r = some c ∧ vma.vmStart + i * pageSize ∈ c.span := by
  obtain ⟨hstart, -⟩ := vma.pfns_of_below hbelow
  rw [remapCall_reaches vma (hwell r hr), hstart]
  have hlow : r.mtrrStart / pageSize ≤ vma.vmPgoff + i := by
    apply Nat.div_le_of_le_mul
    rw [Nat.mul_comm pageSize]
    exact hlo
  have hstop := MtrrVarRange.end_of_low (hwell r hr) hvalid (by omega)
  have hhigh : vma.vmPgoff + i < r.mtrrEnd / pageSize := by
    rw [hstop]
    exact (Nat.le_div_iff_mul_le (by decide)).mpr hhi
  refine ⟨hvalid, (reaches_iff_of_fits hshort ?_ hi fun _ => by omega).mpr ⟨hlow, hhigh⟩⟩
  rw [Vma.endPfn, hstart]

-- A request that ends at pfn 2^32 has no piece at all.
theorem remapCall_of_end (hend : vma.vmPgoff + vma.pages = 2 ^ 32) {r : MtrrVarRange}
    (hr : r ∈ varRanges) : remapCall vma r = none := by
  have hzero : vma.endPfn = 0 := by
    rw [Vma.endPfn, (vma.pfns_of_below hbelow).1, hend, Nat.mod_self]
  rw [remapCall_eq vma (hwell r hr), if_neg]
  rintro ⟨-, -, hlt⟩
  rw [hzero] at hlt
  exact Nat.not_lt_zero _ hlt

end Place

/-- What is claimed of a run: its pieces are placed right, success means that no page in an MTRR is
left out, and the VMA is as it was. -/
structure PlacementRight (varRanges : List MtrrVarRange) (vma : Vma)
    (run : Int × VmaBounds × List RemapCall) : Prop where
  placed : ∀ c ∈ run.2.2, Placed varRanges vma c
  covered : run.1 = 0 → ∀ i < vma.pages, InMtrr varRanges (vma.vmPgoff + i) →
    ∃ c ∈ run.2.2, vma.vmStart + i * pageSize ∈ c.span
  restored : run.2.1 = vma.bounds

/-- Over every setting of the MTRRs, every request below pfn 2^32 and whatever `remap_pfn_range`
answers: a run is right unless the last page of the request is the last one below pfn 2^32 and some
page of it lies in an MTRR. -/
theorem mmtestMmap_placement_iff {varRanges : List MtrrVarRange}
    (hwell : ∀ r ∈ varRanges, r.WellFormed) {vma : Vma} (hbelow : vma.vmPgoff + vma.pages ≤ 2 ^ 32)
    (remap : List RemapCall → VmaBounds → RemapCall → Int × VmaBounds) :
    PlacementRight varRanges vma (mmtestMmapInPlace remap varRanges vma) ↔
      vma.vmPgoff + vma.pages < 2 ^ 32 ∨ ∀ i < vma.pages, ¬ InMtrr varRanges (vma.vmPgoff + i) := by
  rw [mmtestMmapInPlace_eq]
  have hplaced : ∀ c ∈ (mmtestMmap vma (fun calls c => (remap calls c.bounds c).1) varRanges).2,
      Placed varRanges vma c := by
    intro c hc
    rcases mem_mmapLoop hc with hnil | ⟨r, hr, hcall⟩
    · simp at hnil
    · exact remapCall_placed hwell hbelow hr hcall
  constructor
  · intro hright
    by_contra hbad
    simp only [not_or, not_lt, not_forall, not_not] at hbad
    obtain ⟨hend, i, hi, hmtrr⟩ := hbad
    have hnone : ∀ r ∈ varRanges, remapCall vma r = none :=
      fun r hr => remapCall_of_end hwell hbelow (le_antisymm hbelow hend) hr
    have hrun : mmapLoop vma (fun calls c => (remap calls c.bounds c).1) varRanges [] = (0, []) :=
      mmapLoop_of_none hnone []
    obtain ⟨c, hc, -⟩ := hright.covered (congrArg Prod.fst hrun) i hi hmtrr
    rcases mem_mmapLoop hc with hnil | ⟨r, hr, hcall⟩
    · simp at hnil
    · simp [hnone r hr] at hcall
  · intro hcond
    refine ⟨hplaced, fun hret i hi hmtrr => ?_, rfl⟩
    have hshort := hcond.resolve_right fun hnone => hnone i hi hmtrr
    obtain ⟨r, hr, hvalid, hlo, hhi⟩ := hmtrr
    obtain ⟨c, hcall, hcover⟩ := remapCall_covers hwell hbelow hshort hr hvalid hi hlo hhi
    refine ⟨c, ?_, hcover⟩
    have hcalls := mmapLoop_of_zero vma hret
    simp only [mmtestMmap, hcalls, List.nil_append]
    exact List.mem_filterMap.mpr ⟨r, hr, hcall⟩

/-- The last page below pfn 2^32, in an MTRR of 256 MiB that ends there. -/
def lastPage : Vma := ⟨0x7000, 0x8000, 0xffffffff, by decide, by decide, by decide, by decide⟩

def lastMtrr : MtrrVarRange := ⟨0xf0000006, 0xfff, 0xf0000800, 0xfffff⟩

/-- Nothing is mapped, and the return value is 0. -/
theorem last_page_not_covered :
    (∀ r ∈ [lastMtrr], r.WellFormed) ∧ lastPage.vmPgoff + lastPage.pages ≤ 2 ^ 32 ∧
      mmtestMmapInPlace (fun _ cur _ => (0, cur)) [lastMtrr] lastPage =
        (0, lastPage.bounds, []) ∧
      InMtrr [lastMtrr] lastPage.vmPgoff ∧
      ¬ PlacementRight [lastMtrr] lastPage
        (mmtestMmapInPlace (fun _ cur _ => (0, cur)) [lastMtrr] lastPage) := by
  have hrun : mmtestMmapInPlace (fun _ cur _ => (0, cur)) [lastMtrr] lastPage =
      (0, lastPage.bounds, []) := by decide
  have hmtrr : InMtrr [lastMtrr] lastPage.vmPgoff :=
    ⟨lastMtrr, by simp, by decide, by decide, by decide⟩
  refine ⟨fun r hr => ?_, by decide, hrun, hmtrr, fun hright => ?_⟩
  · obtain rfl := List.mem_singleton.mp hr
    exact fun _ => ⟨28, by decide, by decide, by decide⟩
  · rw [hrun] at hright
    obtain ⟨c, hc, -⟩ := hright.covered rfl 0 (by decide) hmtrr
    simp at hc

/-- The same page and MTRR. -/
theorem mmtestMmap_placement_iff_last :
    PlacementRight [lastMtrr] lastPage
        (mmtestMmapInPlace (fun _ cur _ => (0, cur)) [lastMtrr] lastPage) ↔
      lastPage.vmPgoff + lastPage.pages < 2 ^ 32 ∨
        ∀ i < lastPage.pages, ¬ InMtrr [lastMtrr] (lastPage.vmPgoff + i) := by
  refine mmtestMmap_placement_iff (fun r hr => ?_) (by decide) _
  obtain rfl := List.mem_singleton.mp hr
  exact fun _ => ⟨28, by decide, by decide, by decide⟩

end MoBoMemory.Driver
