import MoBoMemory.App.Capacity
import MoBoMemory.App.RegionLoop
import MoBoMemory.Base.Walks

/-!
# The read-only test

The ranges on `RD_list` are clipped to the window and, unlike the read-write ones, not aligned to
pages; `read_only_test` maps each of them at its start and reads it word by word.  A range can be
mapped exactly when the window does not begin inside its region off a page boundary.
-/

namespace MoBoMemory.App

open Base Driver

/-- `sizeof(UL)`. -/
def ulBytes : Nat := 8

/-- The `do ... while` over a mapping of `len` bytes: the offsets that it reads.  Each turn adds a
word to `size`, so `len + 1` turns are enough unless `size` wraps. -/
def readOnlyLoop (len : Nat) : Option (List Nat) :=
  (doWalk (fun size => decide ((size + ulBytes) % 2 ^ 64 < len))
    (fun size => (size + ulBytes) % 2 ^ 64) (fun size reads => (reads ++ [size], false))
    (len + 1) 0 []).map Prod.fst

/-- What `read_only_test` does with one range; `mapFails` returns `errno`. -/
inductive RangeRead where
  | mapFails
  | reads (offsets : Option (List Nat))

/-- `mmap` refuses a file offset that is not a multiple of the page size. -/
def readOnlyRange (rd : RDRange) : RangeRead :=
  if rd.start % pageSize ≠ 0 then .mapFails
  else .reads (readOnlyLoop (ulSub rd.stop rd.start))

/-- What `mmap` maps for a length: whole pages. -/
def pageAlign (len : Nat) : Nat := (len + (pageSize - 1)) / pageSize * pageSize

/-- The range is mapped, and the loop reads inside the mapping and leaves no word of the range out. -/
def Testable (mapped : Nat → Nat) (rd : RDRange) : Prop :=
  ∃ offsets, readOnlyRange rd = .reads (some offsets) ∧
    (∀ off ∈ offsets, off + ulBytes ≤ mapped (ulSub rd.stop rd.start)) ∧
    ∀ k, k * ulBytes + ulBytes ≤ ulSub rd.stop rd.start → k * ulBytes ∈ offsets

/-- The window does not begin inside the region off a page boundary. -/
def StartFits (p : TestParm) (region : BootmemRegion) : Prop :=
  p.listInfo = true ∨ p.start % pageSize = 0 ∨
    ¬ (regOffset region ≤ p.start ∧ p.start < regLast region ∧ p.start < p.stop)

/-- The window does not end inside the region off a word boundary. -/
def StopFits (p : TestParm) (region : BootmemRegion) : Prop :=
  p.listInfo = true ∨ p.stop % ulBytes = 0 ∨
    ¬ (regOffset region < p.stop ∧ p.start < p.stop ∧ p.stop < regLast region)

/-! ## The loop -/

section ReadLoop

variable {len : Nat}

/-- The offsets of the words that begin below `len`. -/
def wordOffsets (len : Nat) : List Nat := (List.range ((len + 7) / 8)).map (· * ulBytes)

theorem mem_wordOffsets {off : Nat} :
    off ∈ wordOffsets len ↔ ∃ k, k * ulBytes < len ∧ off = k * ulBytes := by
  simp only [wordOffsets, List.mem_map, List.mem_range, ulBytes]
  constructor
  · rintro ⟨k, hk, rfl⟩
    exact ⟨k, by omega, rfl⟩
  · rintro ⟨k, hk, rfl⟩
    exact ⟨k, by omega, rfl⟩

theorem sweep_push (ps reads : List Nat) :
    sweep (fun size reads => (reads ++ [size], false)) ps reads = (reads ++ ps, false) := by
  induction ps generalizing reads with
  | nil => simp [sweep]
  | cons p ps ih => simp [sweep, ih]

-- From word `k` on, the loop goes through all words that begin below `len`.
theorem doVisits_words (hlen : len ≤ 2 ^ 64 - ulBytes) (n k : Nat) (hk : k * ulBytes < len)
    (hn : k + n + 1 = (len + 7) / 8) :
    ∃ q, DoVisits (fun size => decide ((size + ulBytes) % 2 ^ 64 < len))
      (fun size => (size + ulBytes) % 2 ^ 64) (k * ulBytes)
      ((List.range' k (n + 1)).map (· * ulBytes)) q := by
  have hwrap : (k * ulBytes + ulBytes) % 2 ^ 64 = (k + 1) * ulBytes := by
    simp only [ulBytes] at *
    omega
  induction n generalizing k with
  | zero =>
      refine ⟨_, .last ?_⟩
      simp only [hwrap, decide_eq_false_iff_not, ulBytes] at *
      omega
  | succ n ih =>
      have hnext : (k + 1) * ulBytes < len := by
        simp only [ulBytes] at *
        omega
      obtain ⟨q, hvisits⟩ := ih (k + 1) hnext (by omega) (by simp only [ulBytes] at *; omega)
      refine ⟨q, .step ?_ ?_⟩
      · simpa only [hwrap, decide_eq_true_eq] using hnext
      · rw [hwrap]
        exact hvisits

theorem readOnlyLoop_eq (hpos : 0 < len) (hlen : len ≤ 2 ^ 64 - ulBytes) :
    readOnlyLoop len = some (wordOffsets len) := by
  obtain ⟨q, hvisits⟩ := doVisits_words hlen ((len + 7) / 8 - 1) 0 (by simpa using hpos) (by omega)
  have hcount : (len + 7) / 8 - 1 + 1 = (len + 7) / 8 := by omega
  rw [hcount, ← List.range_eq_range', Nat.zero_mul] at hvisits
  rw [readOnlyLoop, doWalk_eq_sweepTo hvisits (by simp; omega), sweepTo, sweep_push]
  rfl

end ReadLoop

-- The last word fits when the length is a number of words.
theorem words_fit_iff (len : Nat) :
    (∀ k, k * ulBytes < len → k * ulBytes + ulBytes ≤ len) ↔ len % ulBytes = 0 := by
  simp only [ulBytes]
  constructor
  · intro h
    have := h (len / 8)
    omega
  · intro h k hk
    omega

section Range

variable {rd : RDRange} (hpos : 0 < ulSub rd.stop rd.start)
  (hlen : ulSub rd.stop rd.start ≤ 2 ^ 64 - ulBytes)

include hpos hlen

theorem testable_iff (mapped : Nat → Nat) : Testable mapped rd ↔ rd.start % pageSize = 0 ∧
    ∀ k, k * ulBytes < ulSub rd.stop rd.start →
      k * ulBytes + ulBytes ≤ mapped (ulSub rd.stop rd.start) := by
  unfold Testable readOnlyRange
  rw [readOnlyLoop_eq hpos hlen]
  by_cases halign : rd.start % pageSize = 0
  · simp only [halign, ne_eq, not_true, if_false, RangeRead.reads.injEq, Option.some.injEq,
      exists_eq_left', true_and, mem_wordOffsets]
    constructor
    · rintro ⟨hinside, -⟩ k hk
      exact hinside _ ⟨k, hk, rfl⟩
    · intro hinside
      constructor
      · rintro _ ⟨k, hk, rfl⟩
        exact hinside k hk
      · intro k hk
        exact ⟨k, by simp only [ulBytes] at *; omega, rfl⟩
  · simp [halign]

-- Whole pages hold every word that begins in the range.
theorem testable_pages_iff : Testable pageAlign rd ↔ rd.start % pageSize = 0 := by
  rw [testable_iff hpos hlen, and_iff_left]
  intro k hk
  simp only [ulBytes, pageAlign, pageSize, pageShift] at *
  omega

-- The length itself does if it is a number of words.
theorem testable_bytes_iff :
    Testable (fun len => len) rd ↔ rd.start % pageSize = 0 ∧ ulSub rd.stop rd.start % ulBytes = 0 := by
  rw [testable_iff hpos hlen]
  exact and_congr_right fun _ => words_fit_iff _

end Range

/-! ## The ranges of the list -/

theorem pageSize_dvd_word : pageSize ∣ 2 ^ 64 := ⟨2 ^ 52, by decide⟩

section Entry

variable {p : TestParm} {region : BootmemRegion} {rd : RDRange}

theorem rdEntry_eq_some : rdEntry p region = some rd ↔
    clipRegion p region = some (rd.start, rd.stop) ∧ rd.start ≠ rd.stop ∧
      region.type = mmtestRO := by
  cases hclip : clipRegion p region with
  | none => simp [rdEntry, hclip]
  | some cut =>
      obtain ⟨a, b⟩ := cut
      obtain ⟨start, stop⟩ := rd
      simp only [rdEntry, hclip, Option.bind_some, Option.ite_none_right_eq_some,
        Option.some.injEq, RDRange.mk.injEq, Prod.mk.injEq]
      constructor
      · rintro ⟨hcond, rfl, rfl⟩
        exact ⟨⟨rfl, rfl⟩, hcond⟩
      · rintro ⟨⟨rfl, rfl⟩, hcond⟩
        exact ⟨hcond, rfl, rfl⟩

-- Bounds of regions are page addresses on 64 bits.
theorem regOffset_aligned (region : BootmemRegion) : pageSize ∣ regOffset region :=
  (Nat.dvd_mod_iff pageSize_dvd_word).mpr (Nat.dvd_mul_left _ _)

theorem regLast_aligned (region : BootmemRegion) : pageSize ∣ regLast region := by
  have hlen : pageSize ∣ regLen region :=
    (Nat.dvd_mod_iff pageSize_dvd_word).mpr (Nat.dvd_mul_left _ _)
  exact (Nat.dvd_mod_iff pageSize_dvd_word).mpr (Nat.dvd_add (regOffset_aligned region) hlen)

theorem regOffset_lt (region : BootmemRegion) : regOffset region < 2 ^ 64 := Nat.mod_lt _ (by decide)

theorem regLast_lt (region : BootmemRegion) : regLast region < 2 ^ 64 := Nat.mod_lt _ (by decide)

-- A bound of a clipped range is that of the region, or the window's where it cuts the region.
theorem clipRegion_cases (hwindow : p.start ≤ p.stop) {a b : Nat}
    (hcut : clipRegion p region = some (a, b)) (hne : a ≠ b) :
    (a = regOffset region ∨ (a = p.start ∧ a < b ∧ p.listInfo = false ∧
      regOffset region ≤ p.start ∧ p.start < regLast region ∧ p.start < p.stop)) ∧
    (b = regLast region ∨ (b = p.stop ∧ a < b ∧ p.listInfo = false ∧
      regOffset region < p.stop ∧ p.start < p.stop ∧ p.stop < regLast region)) := by
  unfold clipRegion clipToWindow at hcut
  by_cases hlist : p.listInfo = true
  · rw [if_pos hlist] at hcut
    obtain ⟨rfl, rfl⟩ := Prod.mk.inj (Option.some.inj hcut)
    exact ⟨Or.inl rfl, Or.inl rfl⟩
  · rw [if_neg hlist] at hcut
    have hlist' : p.listInfo = false := by simpa using hlist
    simp only [hlist', true_and]
    split_ifs at hcut
    all_goals
      obtain ⟨rfl, rfl⟩ := Prod.mk.inj (Option.some.inj hcut)
      omega

-- The length is what the loop can count.
theorem rdEntry_len (hwindow : p.start ≤ p.stop) (hentry : rdEntry p region = some rd) :
    0 < ulSub rd.stop rd.start ∧ ulSub rd.stop rd.start ≤ 2 ^ 64 - ulBytes := by
  obtain ⟨hcut, hne, -⟩ := rdEntry_eq_some.mp hentry
  obtain ⟨hstart, hstop⟩ := clipRegion_cases hwindow hcut hne
  have hlt := regLast_lt region
  have hlt' := regOffset_lt region
  have halign := Nat.mod_eq_zero_of_dvd (regLast_aligned region)
  have halign' := Nat.mod_eq_zero_of_dvd (regOffset_aligned region)
  have hpage : pageSize = 4096 := rfl
  rw [hpage] at halign halign'
  generalize regLast region = last at *
  generalize regOffset region = offset at *
  unfold ulSub ulBytes
  omega

-- A window that cuts the region leaves a range with that bound.
theorem clipRegion_of_cut (p : TestParm) (region : BootmemRegion) (hlist : ¬ p.listInfo = true)
    (hmeets : max (regOffset region) p.start < min (regLast region) p.stop) :
    clipRegion p region = some (max (regOffset region) p.start, min (regLast region) p.stop) := by
  rw [clipRegion, if_neg hlist, clipToWindow_meets hmeets]

-- A clipped range begins on a page unless the window begins off a page inside the region.
theorem rdEntry_start_iff (hwindow : p.start ≤ p.stop) (htype : region.type = mmtestRO) :
    (∀ rd, rdEntry p region = some rd → rd.start % pageSize = 0) ↔ StartFits p region := by
  have halign := Nat.mod_eq_zero_of_dvd (regOffset_aligned region)
  constructor
  · intro h
    by_contra hcuts
    simp only [StartFits, not_or, not_not] at hcuts
    obtain ⟨hlist, hoff, hlo, hlast, hstop⟩ := hcuts
    have hcut := clipRegion_of_cut p region hlist (by omega)
    rw [max_eq_right hlo] at hcut
    refine hoff (h ⟨p.start, min (regLast region) p.stop⟩ (rdEntry_eq_some.mpr ⟨hcut, ?_, htype⟩))
    simp only
    omega
  · intro hfits rd hentry
    obtain ⟨hcut, hne, -⟩ := rdEntry_eq_some.mp hentry
    obtain ⟨hstart | ⟨hstart, -, hlist, hinside⟩, -⟩ := clipRegion_cases hwindow hcut hne
    · rw [hstart, halign]
    · rw [hstart]
      rcases hfits with hlist' | halign' | houtside
      · simp [hlist] at hlist'
      · exact halign'
      · exact absurd hinside houtside

-- From a page on, it is a number of words unless the window ends off a word inside the region.
theorem rdEntry_stop_iff (hwindow : p.start ≤ p.stop) (htype : region.type = mmtestRO)
    (hstart : ∀ rd, rdEntry p region = some rd → rd.start % pageSize = 0) :
    (∀ rd, rdEntry p region = some rd → ulSub rd.stop rd.start % ulBytes = 0) ↔
      StopFits p region := by
  have hlt := regLast_lt region
  have hlt' := regOffset_lt region
  have halign := Nat.mod_eq_zero_of_dvd (regLast_aligned region)
  have hpage : pageSize = 4096 := rfl
  constructor
  · intro h
    by_contra hcuts
    simp only [StopFits, not_or, not_not] at hcuts
    obtain ⟨hlist, hoff, hlo, hwin, hstop⟩ := hcuts
    have hcut := clipRegion_of_cut p region hlist (by omega)
    rw [min_eq_right hstop.le] at hcut
    have hentry : rdEntry p region = some ⟨max (regOffset region) p.start, p.stop⟩ :=
      rdEntry_eq_some.mpr ⟨hcut, by simp only; omega, htype⟩
    have hfirst := hstart _ hentry
    have hlen := h _ hentry
    simp only [hpage] at hfirst hlen
    rw [ulSub_of_le (by omega) (by omega)] at hlen
    unfold ulBytes at *
    omega
  · intro hfits rd hentry
    have hfirst := hstart rd hentry
    obtain ⟨hcut, hne, -⟩ := rdEntry_eq_some.mp hentry
    obtain ⟨hstart', hstop⟩ := clipRegion_cases hwindow hcut hne
    have hwords : rd.stop % ulBytes = 0 := by
      rcases hstop with hstop | ⟨hstop, -, hlist, hinside⟩
      · rw [hpage] at halign
        unfold ulBytes
        omega
      · rw [hstop]
        rcases hfits with hlist' | hwords | houtside
        · simp [hlist] at hlist'
        · exact hwords
        · exact absurd hinside houtside
    rw [hpage] at hfirst
    unfold ulSub ulBytes at *
    omega

end Entry

/-! ## The test -/

/-- Every read-only region that `init_module` gets past is fit for the test. -/
def ReadOnlyRegionsFit (env : InitEnv) (p : TestParm) (regions : List BootmemRegion)
    (fits : BootmemRegion → Prop) : Prop :=
  env.openDevice = none → env.getBregionNum = none → ∀ i region, regions[i]? = some region →
    GetsPast env (effectiveWindow p) regions regions.length i → region.type = mmtestRO → fits region

theorem startFits_effectiveWindow (p : TestParm) : StartFits (effectiveWindow p) = StartFits p := by
  funext region
  unfold effectiveWindow
  split
  · next hlist => simp only [StartFits, hlist, true_or]
  · rfl

theorem stopFits_effectiveWindow (p : TestParm) : StopFits (effectiveWindow p) = StopFits p := by
  funext region
  unfold effectiveWindow
  split
  · next hlist => simp only [StopFits, hlist, true_or]
  · rfl

theorem readOnlyRegionsFit_congr {env : InitEnv} {p : TestParm} {regions : List BootmemRegion}
    {fits fits' : BootmemRegion → Prop}
    (h : ∀ region, region.type = mmtestRO → (fits region ↔ fits' region)) :
    ReadOnlyRegionsFit env p regions fits ↔ ReadOnlyRegionsFit env p regions fits' := by
  refine forall₄_congr fun _ _ i region => forall₃_congr fun _ _ htype => ?_
  exact h region htype

section Module

variable {ks : KernelSort} {d : Globals} {regions : List BootmemRegion}
  (htable : d.table = ⟨regions, regions.length⟩) {env : InitEnv} {p : TestParm}
  (hwindow : p.start ≤ p.stop)

include htable hwindow

theorem mem_initModule_rdList (rd : RDRange) : rd ∈ (initModule ks d env p).2.rdList ↔
    env.openDevice = none ∧ env.getBregionNum = none ∧
      Stored env (effectiveWindow p) regions regions.length rd := by
  have hwindow' := effectiveWindow_ordered hwindow
  have hnum : (mmtestIoctl ks d (.getBregionNum true)).reply = .num regions.length :=
    congrArg (fun table : BootmemTable => Reply.num table.bregionNum) htable
  rw [initModule, if_neg (not_lt.mpr hwindow)]
  cases hdevice : env.openDevice with
  | some errno => simp
  | none =>
      cases hbregion : env.getBregionNum with
      | some errno => simp
      | none =>
          simp only [hnum, true_and]
          rw [show (if p.listInfo then { p with start := 0, stop := 0x1ffffffffff } else p) =
            effectiveWindow p from rfl]
          rw [mem_initLoop_rdList hwindow' htable regions.length (le_refl _) _ rfl (by simp)]
          simp

-- A property of all ranges on the list is one of the entries of the regions that are got past.
theorem forall_rdList_iff (P : RDRange → Prop) :
    (∀ rd ∈ (initModule ks d env p).2.rdList, P rd) ↔ ReadOnlyRegionsFit env p regions
      fun region => ∀ rd, rdEntry (effectiveWindow p) region = some rd → P rd := by
  simp only [mem_initModule_rdList htable hwindow, Stored]
  constructor
  · intro h hdevice hbregion i region hregion hpast _ rd hentry
    have hi : i < regions.length := (List.getElem?_eq_some_iff.mp hregion).1
    exact h rd ⟨hdevice, hbregion, i, region, hi, hregion, hpast, hentry⟩
  · rintro h rd ⟨hdevice, hbregion, i, region, -, hregion, hpast, hentry⟩
    exact h hdevice hbregion i region hregion hpast (rdEntry_eq_some.mp hentry).2.2 rd hentry

end Module

/-- One read-only region of sixteen pages. -/
def readOnlyRegion : Globals := ⟨[], 0, [], [], ⟨[⟨0x100, 0x110, 0, mmtestRO⟩], 1⟩⟩

end MoBoMemory.App
