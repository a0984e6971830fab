import MoBoMemory.Driver.E820

/-!
# The mapping of physical pages

`mmtest_mmap` assembles a mapping from the intersections of the request with the variable MTRRs, one
`remap_pfn_range` call each.  Its pfn variables are 32 bits wide, and a page that no MTRR covers is
passed over without an error, so the return value 0 promises the requested mapping only under the
condition that is made exact here.
-/

namespace MoBoMemory.Driver

open Base

/-- A `vm_area_struct` as the kernel hands it to a driver. -/
structure Vma where
  vmStart : Nat
  vmEnd : Nat
  vmPgoff : Nat
  aligned : pageSize ∣ vmStart
  alignedEnd : pageSize ∣ vmEnd
  nonempty : vmStart < vmEnd
  noWrap : vmEnd < 2 ^ 64

def Vma.pages (vma : Vma) : Nat := (vma.vmEnd - vma.vmStart) / pageSize

/-- `struct mtrr_var_range`. -/
structure MtrrVarRange where
  baseLo : BitVec 32
  baseHi : BitVec 32
  maskLo : BitVec 32
  maskHi : BitVec 32

def MtrrVarRange.valid (r : MtrrVarRange) : Bool := r.maskLo.getLsbD 11

def MtrrVarRange.mtrrStart (r : MtrrVarRange) : Nat :=
  r.baseHi.toNat * 2 ^ 32 + r.baseLo.toNat / pageSize * pageSize

def MtrrVarRange.mask (r : MtrrVarRange) : Nat :=
  r.maskHi.toNat * 2 ^ 32 + r.maskLo.toNat / pageSize * pageSize

/-- `for ( j = 12; j < 64; j ++ ) if( mask & ( (u64)1 << j ) ) break;` -/
def MtrrVarRange.lowBit (r : MtrrVarRange) : Nat :=
  ((List.range' 12 52).find? fun j => r.mask.testBit j).getD 64

def MtrrVarRange.mtrrEnd (r : MtrrVarRange) : Nat := (r.mtrrStart + 2 ^ r.lowBit) % 2 ^ 64

/-- The arguments of a `remap_pfn_range` call; the bounds of the VMA are those of the call while it
runs and are put back after it. -/
structure RemapCall where
  addr : Nat
  pfn : Nat
  size : Nat
deriving DecidableEq

section Source

variable (vma : Vma)

/-- `unsigned int start_pfn`. -/
def Vma.startPfn : Nat := vma.vmPgoff % 2 ^ 32

/-- `unsigned int end_pfn`. -/
def Vma.endPfn : Nat := (vma.startPfn + vma.pages) % 2 ^ 32

/-- One turn of the loop over the MTRRs, up to the call it makes. -/
def remapCall (r : MtrrVarRange) : Option RemapCall :=
  let physStart := vma.startPfn * pageSize
  let physEnd := vma.endPfn * pageSize
  if !r.valid then none
  else if r.mtrrEnd ≤ physStart ∨ physEnd ≤ r.mtrrStart then none
  else
    let mapStartPfn :=
      (if r.mtrrStart < physStart then physStart / pageSize else r.mtrrStart / pageSize) % 2 ^ 32
    let mapEndPfn :=
      (if r.mtrrEnd < physEnd then r.mtrrEnd / pageSize else physEnd / pageSize) % 2 ^ 32
    some {
      addr := (vma.vmStart + (mapStartPfn + 2 ^ 32 - vma.startPfn) % 2 ^ 32 * pageSize) % 2 ^ 64
      pfn := mapStartPfn
      size := (mapEndPfn + 2 ^ 32 - mapStartPfn) % 2 ^ 32 * pageSize }

/-- The loop, with the calls made so far; `remap` is `remap_pfn_range` after these calls. -/
def mmapLoop (remap : List RemapCall → RemapCall → Int) :
    List MtrrVarRange → List RemapCall → Int × List RemapCall
  | [], calls => (0, calls)
  | r :: rs, calls =>
      match remapCall vma r with
      | none => mmapLoop remap rs calls
      | some call =>
          if remap calls call < 0 then (remap calls call, calls ++ [call])
          else mmapLoop remap rs (calls ++ [call])

def mmtestMmap (remap : List RemapCall → RemapCall → Int) (varRanges : List MtrrVarRange) :
    Int × List RemapCall :=
  mmapLoop vma remap varRanges []

end Source

/-! ## What is claimed of a mapping -/

def RemapCall.span (c : RemapCall) : Span Nat := ⟨c.addr, c.addr + c.size⟩

instance (c : RemapCall) (va : Nat) : Decidable (va ∈ c.span) :=
  inferInstanceAs (Decidable (_ ∧ _))

/-- The pfn to which the call maps a virtual address that it covers. -/
def RemapCall.pfnAt (c : RemapCall) (va : Nat) : Nat := c.pfn + (va - c.addr) / pageSize

/-- `remap_pfn_range` refuses a page that one of the calls so far has mapped. -/
def Refusing (remap : List RemapCall → RemapCall → Int) : Prop :=
  ∀ calls c d, d ∈ calls → ¬ d.span.Apart c.span → remap calls c < 0

/-- Every page of the VMA is covered by exactly one call, which maps it to the requested pfn. -/
def MapsExactly (vma : Vma) (calls : List RemapCall) : Prop :=
  ∀ i < vma.pages, ∃ c,
    calls.filter (fun c => vma.vmStart + i * pageSize ∈ c.span) = [c] ∧
      c.pfnAt (vma.vmStart + i * pageSize) = vma.vmPgoff + i

/-! ## The loop -/

section Loop

variable (vma : Vma) {remap : List RemapCall → RemapCall → Int}

-- A loop that returns 0 has made its first call, if there is one, and that call was not refused.
theorem mmapLoop_step {r : MtrrVarRange} {rs : List MtrrVarRange} {calls : List RemapCall}
    (hret : (mmapLoop vma remap (r :: rs) calls).1 = 0) :
    (∀ call, remapCall vma r = some call → ¬ remap calls call < 0) ∧
      mmapLoop vma remap (r :: rs) calls =
        mmapLoop vma remap rs (calls ++ (remapCall vma r).toList) := by
  rw [mmapLoop] at hret ⊢
  cases hcall : remapCall vma r with
  | none => exact ⟨fun _ h => absurd h (by simp), by simp⟩
  | some call =>
      rw [hcall] at hret
      simp only at hret ⊢
      have hnonneg : ¬ remap calls call < 0 := by
        intro hneg
        rw [if_pos hneg] at hret
        exact absurd hret hneg.ne
      rw [if_neg hnonneg]
      exact ⟨fun c hc => Option.some.inj hc ▸ hnonneg, rfl⟩

-- It has made the calls of all MTRRs.
theorem mmapLoop_of_zero {rs : List MtrrVarRange} {calls : List RemapCall}
    (hret : (mmapLoop vma remap rs calls).1 = 0) :
    (mmapLoop vma remap rs calls).2 = calls ++ rs.filterMap (remapCall vma) := by
  induction rs generalizing calls with
  | nil => simp [mmapLoop]
  | cons r rs ih =>
      obtain ⟨-, hstep⟩ := mmapLoop_step vma hret
      rw [hstep] at hret ⊢
      rw [ih hret, List.append_assoc]
      cases hcall : remapCall vma r with
      | none => rw [List.filterMap_cons_none hcall]; rfl
      | some call => rw [List.filterMap_cons_some hcall]; rfl

-- Under a refusing `remap_pfn_range` they are on pages that are apart.
theorem mmapLoop_apart (hrefuse : Refusing remap) {rs : List MtrrVarRange} {calls : List RemapCall}
    (hcalls : calls.Pairwise fun c d => c.span.Apart d.span)
    (hret : (mmapLoop vma remap rs calls).1 = 0) :
    (mmapLoop vma remap rs calls).2.Pairwise fun c d => c.span.Apart d.span := by
  induction rs generalizing calls with
  | nil => exact hcalls
  | cons r rs ih =>
      obtain ⟨hnonneg, hstep⟩ := mmapLoop_step vma hret
      rw [hstep] at hret ⊢
      refine ih (List.pairwise_append.mpr ⟨hcalls, ?_, fun d hd c hc => ?_⟩) hret
      · cases remapCall vma r with
        | none => exact List.Pairwise.nil
        | some call => exact List.pairwise_singleton ..
      · -- a call that meets an earlier one would have been refused
        by_contra hmeet
        exact hnonneg c (Option.mem_toList.mp hc) (hrefuse calls c d hd hmeet)

/-- The `remap_pfn_range` that refuses nothing else. -/
def remapUnlessMapped (calls : List RemapCall) (c : RemapCall) : Int :=
  if calls.any fun d => max d.addr c.addr < min (d.addr + d.size) (c.addr + c.size) then -16 else 0

theorem not_apart_iff {c d : RemapCall} :
    ¬ d.span.Apart c.span ↔ max d.addr c.addr < min (d.addr + d.size) (c.addr + c.size) := by
  simp only [Span.Apart, RemapCall.span, Span.mem_def, not_forall, not_not]
  constructor
  · rintro ⟨va, hd, hc⟩
    omega
  · intro h
    exact ⟨max d.addr c.addr, by omega, by omega⟩

theorem remapUnlessMapped_refusing : Refusing remapUnlessMapped := by
  intro calls c d hd hmeet
  rw [remapUnlessMapped, if_pos]
  · decide
  · exact List.any_eq_true.mpr ⟨d, hd, by simpa using not_apart_iff.mp hmeet⟩

theorem mmapLoop_unlessMapped (rs : List MtrrVarRange) (calls : List RemapCall)
    (hapart : (calls ++ rs.filterMap (remapCall vma)).Pairwise fun c d => c.span.Apart d.span) :
    mmapLoop vma remapUnlessMapped rs calls = (0, calls ++ rs.filterMap (remapCall vma)) := by
  induction rs generalizing calls with
  | nil => simp [mmapLoop]
  | cons r rs ih =>
      rw [mmapLoop]
      cases hcall : remapCall vma r with
      | none =>
          rw [List.filterMap_cons_none hcall] at hapart ⊢
          exact ih calls hapart
      | some call =>
          rw [List.filterMap_cons_some hcall] at hapart ⊢
          have haccept : remapUnlessMapped calls call = 0 := by
            rw [remapUnlessMapped, if_neg]
            intro hany
            obtain ⟨d, hd, hmeet⟩ := List.any_eq_true.mp hany
            exact not_apart_iff.mpr (by simpa using hmeet)
              ((List.pairwise_append.mp hapart).2.2 d hd call (by simp))
          simp only [haccept]
          rw [if_neg (by decide), ih _ (by simpa using hapart), List.append_assoc,
            List.singleton_append]

end Loop

/-! ## The calls in pages -/

theorem Vma.size_eq (vma : Vma) : vma.vmEnd = vma.vmStart + vma.pages * pageSize := by
  have hstart := vma.aligned
  have hend := vma.alignedEnd
  have hlt := vma.nonempty
  simp only [Vma.pages, pageSize, pageShift] at *
  omega

theorem Vma.pages_pos (vma : Vma) : 0 < vma.pages := by
  have hsize := vma.size_eq
  have hlt := vma.nonempty
  by_contra hzero
  simp only [Nat.eq_zero_of_not_pos hzero] at hsize
  omega

/-- A valid MTRR has a mask bit among 12..63, as the hardware requires. -/
def MtrrVarRange.WellFormed (r : MtrrVarRange) : Prop :=
  r.valid = true → ∃ j, 12 ≤ j ∧ j < 64 ∧ r.mask.testBit j = true

theorem MtrrVarRange.lowBit_bounds {r : MtrrVarRange} (hr : r.WellFormed) (hvalid : r.valid = true) :
    12 ≤ r.lowBit ∧ r.lowBit < 64 := by
  obtain ⟨j, hlo, hhi, hbit⟩ := hr hvalid
  unfold MtrrVarRange.lowBit
  cases hfind : (List.range' 12 52).find? fun j => r.mask.testBit j with
  | none =>
      have hnone := List.find?_eq_none.mp hfind j (List.mem_range'.mpr ⟨j - 12, by omega, by omega⟩)
      exact absurd hbit hnone
  | some k =>
      obtain ⟨i, hi, rfl⟩ := List.mem_range'.mp (List.mem_of_find?_eq_some hfind)
      simp only [Option.getD_some]
      omega

-- The end of a valid MTRR is page aligned like its start, and only the end of one that reaches past
-- all the pfns of a request may wrap.
theorem MtrrVarRange.end_facts {r : MtrrVarRange} (hr : r.WellFormed) (hvalid : r.valid = true) :
    r.mtrrEnd % pageSize = 0 ∧ r.mtrrStart % pageSize = 0 ∧
      (r.mtrrStart < 2 ^ 63 → r.mtrrStart < r.mtrrEnd) := by
  obtain ⟨hlo, hhi⟩ := lowBit_bounds hr hvalid
  have hpow : 2 ^ r.lowBit = pageSize * 2 ^ (r.lowBit - 12) := by
    rw [pageSize, pageShift, ← Nat.pow_add]
    congr 1
    omega
  have hpos : 0 < 2 ^ (r.lowBit - 12) := Nat.two_pow_pos _
  have hle : 2 ^ r.lowBit ≤ 2 ^ 63 := Nat.pow_le_pow_right (by decide) (by omega)
  unfold MtrrVarRange.mtrrEnd
  have hstart : r.mtrrStart % pageSize = 0 := by
    simp only [MtrrVarRange.mtrrStart, pageSize, pageShift]
    omega
  simp only [pageSize, pageShift] at *
  refine ⟨?_, hstart, fun hbound => ?_⟩
  · omega
  · omega

-- `map_start_pfn`: the later of the two starts.
theorem later_pfn {start pfn : Nat} (haligned : start % pageSize = 0)
    (hstart : start / pageSize < 2 ^ 32) (hpfn : pfn < 2 ^ 32) :
    (if start < pfn * pageSize then pfn * pageSize / pageSize else start / pageSize) % 2 ^ 32 =
      max (start / pageSize) pfn := by
  by_cases hlt : start < pfn * pageSize
  · rw [if_pos hlt]
    simp only [pageSize, pageShift] at *
    omega
  · rw [if_neg hlt]
    simp only [pageSize, pageShift] at *
    omega

-- `map_end_pfn`: the earlier of the two ends.
theorem earlier_pfn {stop pfn : Nat} (haligned : stop % pageSize = 0) (hpfn : pfn < 2 ^ 32) :
    (if stop < pfn * pageSize then stop / pageSize else pfn * pageSize / pageSize) % 2 ^ 32 =
      min (stop / pageSize) pfn := by
  by_cases hlt : stop < pfn * pageSize
  · rw [if_pos hlt]
    simp only [pageSize, pageShift] at *
    omega
  · rw [if_neg hlt]
    simp only [pageSize, pageShift] at *
    omega

-- The start of a piece that lies in the address space.
theorem piece_addr {vmStart first pfn : Nat} (hle : pfn ≤ first) (hfirst : first < 2 ^ 32)
    (hwrap : vmStart + (first - pfn) * pageSize < 2 ^ 64) :
    (vmStart + (first + 2 ^ 32 - pfn) % 2 ^ 32 * pageSize) % 2 ^ 64 =
      vmStart + (first - pfn) * pageSize := by
  have hpages : (first + 2 ^ 32 - pfn) % 2 ^ 32 = first - pfn := by omega
  rw [hpages, Nat.mod_eq_of_lt hwrap]

theorem Vma.startPfn_lt (vma : Vma) : vma.startPfn < 2 ^ 32 := Nat.mod_lt _ (by decide)

theorem Vma.endPfn_lt (vma : Vma) : vma.endPfn < 2 ^ 32 := Nat.mod_lt _ (by decide)

-- A piece that begins below the end of the request begins inside it.
theorem Vma.piece_inside (vma : Vma) {pfn : Nat} (hpfn : pfn < vma.endPfn) :
    max pfn vma.startPfn < 2 ^ 32 ∧ max pfn vma.startPfn - vma.startPfn ≤ vma.pages := by
  have hs := vma.startPfn_lt
  have he := vma.endPfn_lt
  have hend : vma.endPfn = (vma.startPfn + vma.pages) % 2 ^ 32 := rfl
  omega

section Pages

variable (vma : Vma) {r : MtrrVarRange}

-- The call for an MTRR in pages: from the later of the two starts to the earlier of the two ends,
-- in 32 bits.
theorem remapCall_eq (hr : r.WellFormed) :
    remapCall vma r =
      if r.valid = true ∧ vma.startPfn < r.mtrrEnd / pageSize ∧
          r.mtrrStart / pageSize < vma.endPfn then
        some {
          addr := vma.vmStart +
            (max (r.mtrrStart / pageSize) vma.startPfn - vma.startPfn) * pageSize
          pfn := max (r.mtrrStart / pageSize) vma.startPfn
          size := (min (r.mtrrEnd / pageSize) vma.endPfn + 2 ^ 32 -
            max (r.mtrrStart / pageSize) vma.startPfn) % 2 ^ 32 * pageSize }
      else none := by
  have hsize := vma.size_eq
  have hwrap := vma.noWrap
  unfold remapCall
  by_cases hvalid : r.valid = true
  · obtain ⟨hend, hstart, -⟩ := MtrrVarRange.end_facts hr hvalid
    simp only [hvalid, Bool.not_true, Bool.false_eq_true, if_false, true_and]
    -- the bounds are page aligned, so the comparison in bytes is one in pages
    by_cases hskip : r.mtrrEnd ≤ vma.startPfn * pageSize ∨ vma.endPfn * pageSize ≤ r.mtrrStart
    · rw [if_pos hskip, if_neg]
      simp only [pageSize, pageShift] at *
      omega
    · have hmeet : vma.startPfn < r.mtrrEnd / pageSize ∧ r.mtrrStart / pageSize < vma.endPfn := by
        simp only [pageSize, pageShift] at *
        omega
      have hlo := later_pfn hstart (Nat.lt_trans hmeet.2 vma.endPfn_lt) vma.startPfn_lt
      have hhi := earlier_pfn hend vma.endPfn_lt
      rw [if_neg hskip, if_pos hmeet, hlo, hhi]
      obtain ⟨hfirst, hinside⟩ := vma.piece_inside hmeet.2
      have hbound : vma.vmStart + (max (r.mtrrStart / pageSize) vma.startPfn - vma.startPfn) *
          pageSize < 2 ^ 64 :=
        Nat.lt_of_le_of_lt (Nat.add_le_add_left (Nat.mul_le_mul_right pageSize hinside) _)
          (hsize ▸ hwrap)
      rw [piece_addr (Nat.le_max_right ..) hfirst hbound]
  · simp [hvalid]

/-- Pages of the VMA that the call for an MTRR reaches: `k` pages into it, for the length of the
piece. -/
def Reaches (a b s e i : Nat) : Prop :=
  s < b ∧ a < e ∧ max a s - s ≤ i ∧ i < max a s - s + (min b e + 2 ^ 32 - max a s) % 2 ^ 32

theorem mem_piece_iff {k m pfn i : Nat} :
    vma.vmStart + i * pageSize ∈
        (⟨vma.vmStart + k * pageSize, pfn, m * pageSize⟩ : RemapCall).span ↔ k ≤ i ∧ i < k + m := by
  simp only [RemapCall.span, Span.mem_def, pageSize, pageShift]
  omega

theorem remapCall_reaches (hr : r.WellFormed) {i : Nat} :
    (∃ c, remapCall vma r = some c ∧ vma.vmStart + i * pageSize ∈ c.span) ↔
      r.valid = true ∧
        Reaches (r.mtrrStart / pageSize) (r.mtrrEnd / pageSize) vma.startPfn vma.endPfn i := by
  rw [remapCall_eq vma hr]
  by_cases hmeet : r.valid = true ∧ vma.startPfn < r.mtrrEnd / pageSize ∧
      r.mtrrStart / pageSize < vma.endPfn
  · simp only [if_pos hmeet, Option.some.injEq, exists_eq_left', mem_piece_iff, Reaches]
    simp only [hmeet, true_and]
  · simp only [if_neg hmeet, reduceCtorEq, false_and, exists_false, false_iff]
    exact fun h => hmeet ⟨h.1, h.2.1, h.2.2.1⟩

-- Wherever a call reaches, it maps to the pfn at that distance from the truncated start.
theorem remapCall_pfnAt (hr : r.WellFormed) {c : RemapCall} (hcall : remapCall vma r = some c)
    {i : Nat} (hi : vma.vmStart + i * pageSize ∈ c.span) :
    c.pfnAt (vma.vmStart + i * pageSize) = vma.startPfn + i := by
  rw [remapCall_eq vma hr] at hcall
  split_ifs at hcall
  obtain rfl := Option.some.inj hcall
  have hreach := (mem_piece_iff vma).mp hi
  have hle := Nat.le_max_right (r.mtrrStart / pageSize) vma.startPfn
  simp only [RemapCall.pfnAt]
  generalize max (r.mtrrStart / pageSize) vma.startPfn = first at hreach hle
  simp only [pageSize, pageShift]
  omega

end Pages

section Reach

variable {a b s e n i : Nat}

-- A request whose pfns fit in 32 bits: the piece reaches its own pages.
theorem reaches_iff_of_fits (hfit : s + n < 2 ^ 32) (he : e = (s + n) % 2 ^ 32) (hi : i < n)
    (hab : a < e → a < b) : Reaches a b s e i ↔ a ≤ s + i ∧ s + i < b := by
  unfold Reaches
  omega

-- A request that crosses pfn 2^32: a piece that meets both truncated bounds is the whole request.
theorem reaches_iff_of_crosses (hs : s < 2 ^ 32) (hn : n < 2 ^ 32) (hcross : 2 ^ 32 ≤ s + n)
    (he : e = (s + n) % 2 ^ 32) (hi : i < n) : Reaches a b s e i ↔ s < b ∧ a < e := by
  unfold Reaches
  omega

-- No piece reaches the last page of a request of 2^32 pages or more.
theorem not_reaches_last (hs : s < 2 ^ 32) (hn : 2 ^ 32 ≤ n) (he : e < 2 ^ 32)
    (hab : a < e → a < b) : ¬ Reaches a b s e (n - 1) := by
  unfold Reaches
  omega

end Reach

/-! ## The exact condition -/

/-- The pfns of the request fit in 32 bits and every page is inside a valid MTRR; or the request
crosses pfn 2^32 and some valid MTRR reaches past its start and begins below its truncated end. -/
def Served (varRanges : List MtrrVarRange) (vma : Vma) : Prop :=
  vma.vmPgoff < 2 ^ 32 ∧ vma.pages < 2 ^ 32 ∧
    ((vma.vmPgoff + vma.pages < 2 ^ 32 ∧ ∀ i < vma.pages, ∃ r ∈ varRanges, r.valid = true ∧
        r.mtrrStart / pageSize ≤ vma.vmPgoff + i ∧ vma.vmPgoff + i < r.mtrrEnd / pageSize) ∨
      (2 ^ 32 ≤ vma.vmPgoff + vma.pages ∧ ∃ r ∈ varRanges, r.valid = true ∧
        vma.vmPgoff < r.mtrrEnd / pageSize ∧
        r.mtrrStart / pageSize < (vma.vmPgoff + vma.pages) % 2 ^ 32))

theorem MtrrVarRange.start_lt_end {r : MtrrVarRange} (hr : r.WellFormed) (hvalid : r.valid = true)
    {pfn : Nat} (hpfn : pfn < 2 ^ 32) (hlt : r.mtrrStart / pageSize < pfn) :
    r.mtrrStart / pageSize < r.mtrrEnd / pageSize := by
  obtain ⟨hend, hstart, hbelow⟩ := MtrrVarRange.end_facts hr hvalid
  simp only [pageSize, pageShift] at *
  omega

section Exact

variable {varRanges : List MtrrVarRange} {vma : Vma} (hwell : ∀ r ∈ varRanges, r.WellFormed)

include hwell

-- Calls that are apart map the request exactly if they reach every page of it and its first pfn is
-- not truncated.
theorem mapsExactly_iff
    (hapart : (varRanges.filterMap (remapCall vma)).Pairwise fun c d => c.span.Apart d.span) :
    MapsExactly vma (varRanges.filterMap (remapCall vma)) ↔
      vma.vmPgoff < 2 ^ 32 ∧ ∀ i < vma.pages, ∃ r ∈ varRanges, r.valid = true ∧
        Reaches (r.mtrrStart / pageSize) (r.mtrrEnd / pageSize) vma.startPfn vma.endPfn i := by
  have hpgoff : vma.startPfn = vma.vmPgoff % 2 ^ 32 := rfl
  constructor
  · intro hexact
    -- an exactly mapped page is in one call, which maps it to a pfn counted from the truncated start
    have hreach : ∀ i < vma.pages, ∃ r ∈ varRanges, ∃ c, remapCall vma r = some c ∧
        vma.vmStart + i * pageSize ∈ c.span ∧ vma.startPfn + i = vma.vmPgoff + i := by
      intro i hi
      obtain ⟨c, hfilter, hpfn⟩ := hexact i hi
      have hmem : c ∈ (varRanges.filterMap (remapCall vma)).filter
          (fun c => vma.vmStart + i * pageSize ∈ c.span) := by simp [hfilter]
      obtain ⟨hcalls, hcovers⟩ := List.mem_filter.mp hmem
      obtain ⟨r, hr, hcall⟩ := List.mem_filterMap.mp hcalls
      have hcover : vma.vmStart + i * pageSize ∈ c.span := by simpa using hcovers
      exact ⟨r, hr, c, hcall, hcover,
        (remapCall_pfnAt vma (hwell r hr) hcall hcover).symm.trans hpfn⟩
    refine ⟨?_, fun i hi => ?_⟩
    · obtain ⟨r, -, c, -, -, hpfn⟩ := hreach 0 vma.pages_pos
      omega
    · obtain ⟨r, hr, c, hcall, hcover, -⟩ := hreach i hi
      exact ⟨r, hr, (remapCall_reaches vma (hwell r hr)).mp ⟨c, hcall, hcover⟩⟩
  · rintro ⟨hfit, hreach⟩ i hi
    obtain ⟨r, hr, hvalid⟩ := hreach i hi
    obtain ⟨c, hcall, hcover⟩ := (remapCall_reaches vma (hwell r hr)).mpr hvalid
    refine ⟨c, filter_mem_eq_singleton RemapCall.span hapart
      (List.mem_filterMap.mpr ⟨r, hr, hcall⟩) hcover, ?_⟩
    rw [remapCall_pfnAt vma (hwell r hr) hcall hcover, hpgoff, Nat.mod_eq_of_lt hfit]

theorem served_iff :
    (vma.vmPgoff < 2 ^ 32 ∧ ∀ i < vma.pages, ∃ r ∈ varRanges, r.valid = true ∧
      Reaches (r.mtrrStart / pageSize) (r.mtrrEnd / pageSize) vma.startPfn vma.endPfn i) ↔
      Served varRanges vma := by
  unfold Served
  refine and_congr_right fun hfit => ?_
  have hs : vma.startPfn = vma.vmPgoff := Nat.mod_eq_of_lt hfit
  have he : vma.endPfn = (vma.vmPgoff + vma.pages) % 2 ^ 32 := by rw [Vma.endPfn, hs]
  have hpos := vma.pages_pos
  have horder : ∀ r ∈ varRanges, r.valid = true → r.mtrrStart / pageSize < vma.endPfn →
      r.mtrrStart / pageSize < r.mtrrEnd / pageSize := fun r hr hvalid hlt =>
    MtrrVarRange.start_lt_end (hwell r hr) hvalid vma.endPfn_lt hlt
  by_cases hpages : vma.pages < 2 ^ 32
  · simp only [hpages, true_and, hs]
    by_cases hsum : vma.vmPgoff + vma.pages < 2 ^ 32
    · rw [or_iff_left (by omega), and_iff_right hsum]
      refine forall₂_congr fun i hi => exists_congr fun r => and_congr_right fun hr =>
        and_congr_right fun hvalid => ?_
      exact reaches_iff_of_fits hsum he hi (horder r hr hvalid)
    · -- past pfn 2^32 only a piece that meets both truncated bounds reaches anything
      rw [or_iff_right (by omega), and_iff_right (by omega)]
      have hcross : ∀ i < vma.pages, ∀ r : MtrrVarRange, Reaches (r.mtrrStart / pageSize)
          (r.mtrrEnd / pageSize) vma.vmPgoff vma.endPfn i ↔
            vma.vmPgoff < r.mtrrEnd / pageSize ∧ r.mtrrStart / pageSize < vma.endPfn :=
        fun i hi r => reaches_iff_of_crosses hfit hpages (by omega) he hi
      rw [← he]
      constructor
      · intro h
        obtain ⟨r, hr, hvalid, hreach⟩ := h 0 hpos
        exact ⟨r, hr, hvalid, (hcross 0 hpos r).mp hreach⟩
      · rintro ⟨r, hr, hvalid, hreach⟩ i hi
        exact ⟨r, hr, hvalid, (hcross i hi r).mpr hreach⟩
  · -- the lengths are 32 bits wide, so the last page stays out of reach
    simp only [hpages, false_and, iff_false]
    intro h
    obtain ⟨r, hr, hvalid, hreach⟩ := h (vma.pages - 1) (by omega)
    exact not_reaches_last vma.startPfn_lt (by omega) vma.endPfn_lt (horder r hr hvalid) hreach

/-- A mapping that returns 0 is the requested one, whatever `remap_pfn_range` refuses besides mapped
pages, exactly if two of the pieces overlap (so that it cannot return 0) or the request is served. -/
theorem mmtestMmap_exact_iff :
    (∀ remap, Refusing remap → (mmtestMmap vma remap varRanges).1 = 0 →
      MapsExactly vma (mmtestMmap vma remap varRanges).2) ↔
    (¬ (varRanges.filterMap (remapCall vma)).Pairwise (fun c d => c.span.Apart d.span) ∨
      Served varRanges vma) := by
  rw [← served_iff hwell]
  constructor
  · intro h
    by_cases hapart : (varRanges.filterMap (remapCall vma)).Pairwise fun c d => c.span.Apart d.span
    · right
      have hrun := mmapLoop_unlessMapped vma varRanges [] hapart
      have hexact := h remapUnlessMapped remapUnlessMapped_refusing
      rw [mmtestMmap, hrun] at hexact
      exact (mapsExactly_iff hwell hapart).mp (hexact rfl)
    · exact Or.inl hapart
  · intro h remap hrefuse hret
    have hcalls := mmapLoop_of_zero vma hret
    have hapart := mmapLoop_apart vma hrefuse List.Pairwise.nil hret
    rw [hcalls, List.nil_append] at hapart
    rw [mmtestMmap, hcalls, List.nil_append]
    exact (mapsExactly_iff hwell hapart).mpr (h.resolve_left (not_not.mpr hapart))

end Exact

/-- One page above the only valid MTRR, which is the first 256 MiB: the return value is 0 and nothing
is mapped. -/
theorem mmtestMmap_maps_nothing :
    (∀ r ∈ [(⟨6, 0, 0xf0000800, 0xf⟩ : MtrrVarRange)], r.WellFormed) ∧ Refusing remapUnlessMapped ∧
      mmtestMmap ⟨0x7000, 0x8000, 0x100000, by decide, by decide, by decide, by decide⟩
        remapUnlessMapped [⟨6, 0, 0xf0000800, 0xf⟩] = (0, []) ∧
      ¬ MapsExactly ⟨0x7000, 0x8000, 0x100000, by decide, by decide, by decide, by decide⟩ [] := by
  refine ⟨fun r hr => ?_, remapUnlessMapped_refusing, by decide, fun hexact => ?_⟩
  · obtain rfl := List.mem_singleton.mp hr
    exact fun _ => ⟨28, by decide, by decide, by decide⟩
  · obtain ⟨c, hfilter, -⟩ := hexact 0 (by decide)
    exact absurd hfilter (by simp)

/-- One page inside one MTRR. -/
theorem mmtestMmap_exact_iff_page :
    (∀ remap, Refusing remap →
      (mmtestMmap ⟨0x7000, 0x8000, 0x100, by decide, by decide, by decide, by decide⟩ remap
        [⟨6, 0, 0xf0000800, 0xf⟩]).1 = 0 →
      MapsExactly ⟨0x7000, 0x8000, 0x100, by decide, by decide, by decide, by decide⟩
        (mmtestMmap ⟨0x7000, 0x8000, 0x100, by decide, by decide, by decide, by decide⟩ remap
          [⟨6, 0, 0xf0000800, 0xf⟩]).2) ↔
    (¬ ([⟨6, 0, 0xf0000800, 0xf⟩].filterMap
        (remapCall ⟨0x7000, 0x8000, 0x100, by decide, by decide, by decide, by decide⟩)).Pairwise
          (fun c d => c.span.Apart d.span) ∨
      Served [⟨6, 0, 0xf0000800, 0xf⟩]
        ⟨0x7000, 0x8000, 0x100, by decide, by decide, by decide, by decide⟩) := by
  apply mmtestMmap_exact_iff
  intro r hr
  obtain rfl := List.mem_singleton.mp hr
  exact fun _ => ⟨28, by decide, by decide, by decide⟩

end MoBoMemory.Driver
