import MoBoMemory.Driver.Mmap

/-!
# Where the mappings lead

The page table that the driver's `remap_pfn_range` calls make, for a process with several mappings.
Under MTRRs that cover the pages of all requests the calls of one mapping stay inside its addresses, so
mappings that are apart do not disturb each other, and byte `i` of a mapping is byte `i` of the
requested pages.
-/

namespace MoBoMemory.Driver

open Base

/-- The physical address behind a virtual one, once these calls have been made. -/
def physAddr (calls : List RemapCall) (va : Nat) : Option Nat :=
  (calls.find? fun c => va ∈ c.span).map fun c => c.pfnAt va * pageSize + va % pageSize

def Vma.span (vma : Vma) : Span Nat := ⟨vma.vmStart, vma.vmEnd⟩

/-- The page is inside a valid MTRR. -/
def MtrrPage (varRanges : List MtrrVarRange) (pfn : Nat) : Prop :=
  ∃ r ∈ varRanges, r.valid = true ∧ r.mtrrStart / pageSize ≤ pfn ∧ pfn < r.mtrrEnd / pageSize

/-- The pages of the request have 32-bit numbers and are inside MTRRs. -/
structure Vma.Covered (varRanges : List MtrrVarRange) (vma : Vma) : Prop where
  fits : vma.vmPgoff + vma.pages < 2 ^ 32
  mtrrPages : ∀ i < vma.pages, MtrrPage varRanges (vma.vmPgoff + i)

section Request

variable {varRanges : List MtrrVarRange} {vma : Vma}

theorem Vma.Covered.served (h : vma.Covered varRanges) : Served varRanges vma := by
  have hfits := h.fits
  exact ⟨by omega, by omega, Or.inl ⟨hfits, h.mtrrPages⟩⟩

-- The piece of a request that fits: from the later start to the earlier end, without a wrap.
theorem piece_pages {a b s n : Nat} (hfit : s + n < 2 ^ 32) (hab : a < b) (hlo : s < b)
    (hhi : a < s + n) (hn : 0 < n) :
    (min b (s + n) + 2 ^ 32 - max a s) % 2 ^ 32 = min b (s + n) - max a s ∧
      max a s - s + (min b (s + n) - max a s) ≤ n := by
  omega

-- A call for a covered request maps some of its pages, each to its own pfn.
theorem remapCall_pages {r : MtrrVarRange} (hr : r.WellFormed)
    (hfits : vma.vmPgoff + vma.pages < 2 ^ 32) {c : RemapCall} (hcall : remapCall vma r = some c) :
    ∃ k m, k + m ≤ vma.pages ∧ c = ⟨vma.vmStart + k * pageSize, vma.vmPgoff + k, m * pageSize⟩ := by
  rw [remapCall_eq vma hr] at hcall
  split_ifs at hcall with hmeet
  obtain ⟨hvalid, hlo, hhi⟩ := hmeet
  have horder := MtrrVarRange.start_lt_end hr hvalid vma.endPfn_lt hhi
  have hstart : vma.startPfn = vma.vmPgoff := Nat.mod_eq_of_lt (by omega)
  have hend : vma.endPfn = vma.vmPgoff + vma.pages := by
    rw [Vma.endPfn, hstart, Nat.mod_eq_of_lt hfits]
  rw [hstart] at hcall hlo
  rw [hend] at hcall hhi
  obtain ⟨hpages, hinside⟩ := piece_pages hfits horder hlo hhi vma.pages_pos
  rw [hpages] at hcall
  refine ⟨_, _, hinside, ?_⟩
  rw [← Option.some.inj hcall, Nat.add_sub_cancel' (Nat.le_max_right ..)]

end Request

-- All bytes of a page are in the same calls.
theorem mem_pages_iff {start k m pfn offset : Nat} :
    start + offset ∈ (⟨start + k * pageSize, pfn, m * pageSize⟩ : RemapCall).span ↔
      start + offset / pageSize * pageSize ∈
        (⟨start + k * pageSize, pfn, m * pageSize⟩ : RemapCall).span := by
  simp only [RemapCall.span, Span.mem_def, pageSize, pageShift]
  omega

/-! ## Several mappings -/

/-- A request with the `remap_pfn_range` that its `mmtest_mmap` finds. -/
structure Mapping where
  vma : Vma
  remap : List RemapCall → RemapCall → Int

section Mappings

variable (varRanges : List MtrrVarRange)

def Mapping.calls (mapping : Mapping) : List RemapCall :=
  (mmtestMmap mapping.vma mapping.remap varRanges).2

/-- The calls of all mappings of the process. -/
def allCalls (mappings : List Mapping) : List RemapCall :=
  mappings.flatMap (Mapping.calls varRanges)

/-- A covered request for which `mmtest_mmap` has returned 0. -/
structure Mapping.Succeeded (mapping : Mapping) : Prop where
  refusing : Refusing mapping.remap
  returned : (mmtestMmap mapping.vma mapping.remap varRanges).1 = 0
  covered : mapping.vma.Covered varRanges

variable {varRanges} (hwell : ∀ r ∈ varRanges, r.WellFormed) {mapping : Mapping}
  (hmapping : mapping.Succeeded varRanges)

include hmapping

theorem Mapping.Succeeded.calls_eq :
    mapping.calls varRanges = varRanges.filterMap (remapCall mapping.vma) := by
  rw [Mapping.calls, mmtestMmap, mmapLoop_of_zero _ hmapping.returned, List.nil_append]

include hwell

theorem Mapping.Succeeded.calls_pages {c : RemapCall} (hc : c ∈ mapping.calls varRanges) :
    ∃ k m, k + m ≤ mapping.vma.pages ∧
      c = ⟨mapping.vma.vmStart + k * pageSize, mapping.vma.vmPgoff + k, m * pageSize⟩ := by
  rw [hmapping.calls_eq] at hc
  obtain ⟨r, hr, hcall⟩ := List.mem_filterMap.mp hc
  exact remapCall_pages (hwell r hr) hmapping.covered.fits hcall

theorem Mapping.Succeeded.calls_inside {c : RemapCall} (hc : c ∈ mapping.calls varRanges) :
    ∀ va ∈ c.span, va ∈ mapping.vma.span := by
  obtain ⟨k, m, hpages, rfl⟩ := hmapping.calls_pages hwell hc
  have hsize := mapping.vma.size_eq
  have hbytes := Nat.mul_le_mul_right pageSize hpages
  rw [Nat.add_mul] at hbytes
  intro va hva
  simp only [RemapCall.span, Vma.span, Span.mem_def] at hva ⊢
  omega

theorem Mapping.Succeeded.mapsExactly : MapsExactly mapping.vma (mapping.calls varRanges) := by
  have hapart := mmapLoop_apart mapping.vma hmapping.refusing List.Pairwise.nil hmapping.returned
  change (mapping.calls varRanges).Pairwise _ at hapart
  rw [hmapping.calls_eq] at hapart ⊢
  exact (mapsExactly_iff hwell hapart).mpr ((served_iff hwell).mpr hmapping.covered.served)

-- Bytes of a mapping, by the only call for their page.
theorem Mapping.Succeeded.find_own {offset : Nat}
    (hoffset : offset < mapping.vma.vmEnd - mapping.vma.vmStart) :
    ∃ k m, k * pageSize ≤ offset ∧
      (mapping.calls varRanges).find? (fun c => mapping.vma.vmStart + offset ∈ c.span) =
        some ⟨mapping.vma.vmStart + k * pageSize, mapping.vma.vmPgoff + k, m * pageSize⟩ := by
  have hsize := mapping.vma.size_eq
  have hpage : offset / pageSize < mapping.vma.pages := by
    rw [Nat.div_lt_iff_lt_mul (by decide)]
    omega
  obtain ⟨c, hfilter, -⟩ := hmapping.mapsExactly hwell (offset / pageSize) hpage
  have hfilter' :
      (mapping.calls varRanges).filter (fun d => mapping.vma.vmStart + offset ∈ d.span) = [c] := by
    rw [← hfilter]
    apply List.filter_congr
    intro d hd
    obtain ⟨k, m, -, rfl⟩ := hmapping.calls_pages hwell hd
    exact decide_eq_decide.mpr mem_pages_iff
  have hc :
      c ∈ (mapping.calls varRanges).filter (fun d => mapping.vma.vmStart + offset ∈ d.span) := by
    rw [hfilter']
    exact List.mem_singleton.mpr rfl
  obtain ⟨hcall, hspan⟩ := List.mem_filter.mp hc
  obtain ⟨k, m, -, rfl⟩ := hmapping.calls_pages hwell hcall
  refine ⟨k, m, ?_, by rw [← List.head?_filter, hfilter', List.head?_cons]⟩
  simp only [decide_eq_true_eq, RemapCall.span, Span.mem_def] at hspan
  omega

omit hmapping in
/-- Byte `offset` of a mapping is byte `offset` of the pages it was requested for, whatever else the
process maps elsewhere. -/
theorem physAddr_mapping {mappings : List Mapping}
    (hmappings : ∀ mapping ∈ mappings, mapping.Succeeded varRanges)
    (hapart : mappings.Pairwise fun a b => a.vma.span.Apart b.vma.span)
    (hmem : mapping ∈ mappings) {offset : Nat}
    (hoffset : offset < mapping.vma.vmEnd - mapping.vma.vmStart) :
    physAddr (allCalls varRanges mappings) (mapping.vma.vmStart + offset) =
      some (mapping.vma.vmPgoff * pageSize + offset) := by
  have hva : mapping.vma.vmStart + offset ∈ mapping.vma.span := by
    simp only [Vma.span, Span.mem_def]
    omega
  obtain ⟨k, m, hk, hfind⟩ := (hmappings mapping hmem).find_own hwell hoffset
  obtain ⟨pre, post, rfl⟩ := List.append_of_mem hmem
  obtain ⟨-, -, hcross⟩ := List.pairwise_append.mp hapart
  -- the calls of the mappings before do not reach the address
  have hpre : (allCalls varRanges pre).find?
      (fun c => mapping.vma.vmStart + offset ∈ c.span) = none := by
    rw [List.find?_eq_none]
    intro c hc
    obtain ⟨other, hother, hcalls⟩ := List.mem_flatMap.mp hc
    rw [decide_eq_true_eq]
    intro hin
    have hsucceeded := hmappings other (by simp [hother])
    exact hcross other hother mapping (by simp) _ (hsucceeded.calls_inside hwell hcalls _ hin) hva
  have hsplit : allCalls varRanges (pre ++ mapping :: post) =
      allCalls varRanges pre ++ (mapping.calls varRanges ++ allCalls varRanges post) := by
    simp only [allCalls, List.flatMap_append, List.flatMap_cons]
  have hbyte : (mapping.vma.vmPgoff + k +
      (mapping.vma.vmStart + offset - (mapping.vma.vmStart + k * pageSize)) / pageSize) * pageSize +
      (mapping.vma.vmStart + offset) % pageSize = mapping.vma.vmPgoff * pageSize + offset := by
    obtain ⟨j, hj⟩ := mapping.vma.aligned
    simp only [hj, pageSize, pageShift] at hk ⊢
    omega
  rw [physAddr, hsplit, List.find?_append, hpre, Option.none_or, List.find?_append, hfind,
    Option.some_or, Option.map_some, RemapCall.pfnAt, hbyte]

end Mappings

end MoBoMemory.Driver
