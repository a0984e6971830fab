import Mathlib.Data.List.Sort
import MoBoMemory.Base.Spans
import MoBoMemory.Base.Tables
import MoBoMemory.Driver.E820

/-!
# The node map

`early_node_map` and the functions that fill it.  `add_active_range` offers a new range to the
entries of its node one after the other (`absorb`) and appends it if none takes it.  One lemma says
what the table covers after a registration: everything it covered, and of the new range what the
entry that took it keeps.  A run of registrations then covers what some registration gained.
-/

namespace MoBoMemory.Driver

open Base

def maxActiveRegions : Nat := 256

/-- `struct node_active_region`. -/
structure NodeRange where
  nid : Nat
  startPfn : Nat
  endPfn : Nat
deriving DecidableEq

def NodeRange.span (r : NodeRange) : Span Nat := ⟨r.startPfn, r.endPfn⟩

/-- One turn of the merge loop: the entry after it took the new range, or `none` to go on. -/
def absorb (new r : NodeRange) : Option NodeRange :=
  if r.nid ≠ new.nid then none
  else if r.startPfn ≤ new.startPfn ∧ new.endPfn ≤ r.endPfn then some r
  else if new.startPfn ≤ r.endPfn ∧ r.endPfn < new.endPfn then
    some { r with endPfn := new.endPfn }
  else if new.startPfn < r.endPfn ∧ r.startPfn ≤ new.endPfn then
    some { r with startPfn := new.startPfn }
  else none

def addActiveRange (map : List NodeRange) (new : NodeRange) : List NodeRange :=
  match absorbFirst (absorb new) map with
  | some map' => map'
  | none => if maxActiveRegions ≤ map.length then map else map ++ [new]

def e820RegisterActiveRegions (mye820 : List E820Entry) (nid startPfn lastPfn : Nat)
    (map : List NodeRange) : List NodeRange :=
  mye820.foldl (fun map ei =>
    match e820FindActiveRegion ei startPfn lastPfn with
    | some (eiStartPfn, eiEndPfn) => addActiveRange map ⟨nid, eiStartPfn, eiEndPfn⟩
    | none => map) map

/-- A recorded memory block: `node_memblk_range[i]` with `memblk_nodeid[i]`. -/
structure MemBlk where
  start : Nat
  stop : Nat
  nid : Nat
deriving DecidableEq

/-- The kernel's `sort` with `cmp_node_active_region`: it sorts, but need not be stable. -/
structure KernelSort where
  sort : List NodeRange → List NodeRange
  perm : ∀ l, (sort l).Perm l
  sorted : ∀ l, (sort l).Pairwise fun a b => a.startPfn ≤ b.startPfn

/-- One such sort. -/
def insertionKernelSort : KernelSort where
  sort := List.insertionSort fun a b => a.startPfn ≤ b.startPfn
  perm := List.perm_insertionSort _
  sorted l := by
    have htrans : IsTrans NodeRange fun a b => a.startPfn ≤ b.startPfn := ⟨fun _ _ _ => Nat.le_trans⟩
    have htotal : Std.Total fun a b : NodeRange => a.startPfn ≤ b.startPfn :=
      ⟨fun _ _ => Nat.le_total _ _⟩
    exact List.pairwise_insertionSort _ l

def generateNodeMapFromE820AndSrat (ks : KernelSort) (mye820 : List E820Entry)
    (memblks : List MemBlk) (map : List NodeRange) : List NodeRange :=
  let map := memblks.foldl (fun map blk =>
    e820RegisterActiveRegions mye820 blk.nid (blk.start / pageSize) (blk.stop / pageSize) map) map
  let map :=
    if memblks.length = 0 then
      mye820.foldl (fun map ei =>
        e820RegisterActiveRegions mye820 0 (ei.addr / pageSize) (ei.last / pageSize) map) map
    else map
  ks.sort map

/-! ## One registration -/

/-- Page `pfn` is in some entry of node `n`. -/
def Covers (n pfn : Nat) (map : List NodeRange) : Prop :=
  ∃ r ∈ map, r.nid = n ∧ pfn ∈ r.span

@[simp] theorem covers_cons {n pfn : Nat} {r : NodeRange} {map : List NodeRange} :
    Covers n pfn (r :: map) ↔ (r.nid = n ∧ pfn ∈ r.span) ∨ Covers n pfn map := by
  simp [Covers]

@[simp] theorem covers_append {n pfn : Nat} {map map' : List NodeRange} :
    Covers n pfn (map ++ map') ↔ Covers n pfn map ∨ Covers n pfn map' := by
  simp [Covers, or_and_right, exists_or]

@[simp] theorem not_covers_nil {n pfn : Nat} : ¬ Covers n pfn [] := by
  simp [Covers]

/-- The first entry that takes the new range. -/
def taker (map : List NodeRange) (new : NodeRange) : Option NodeRange :=
  map.find? fun r => (absorb new r).isSome

/-- The registration keeps page `pfn`: it does not extend an entry forward that begins above the
page. -/
def Keeps (pfn : Nat) (map : List NodeRange) (new : NodeRange) : Prop :=
  ∀ r, taker map new = some r → r.endPfn < new.endPfn → r.startPfn ≤ pfn

/-- The table has room for the registration if it needs an entry of its own. -/
def Room (map : List NodeRange) (new : NodeRange) : Prop :=
  taker map new = none → map.length < maxActiveRegions

theorem absorb_nid {new r r' : NodeRange} (h : absorb new r = some r') :
    r.nid = new.nid ∧ r'.nid = new.nid := by
  unfold absorb at h
  split_ifs at h with hnid
  all_goals
    obtain rfl := Option.some.inj h
    exact ⟨not_not.mp hnid, not_not.mp hnid⟩

-- The entry becomes the union, except that a forward extension drops what lies below it.
theorem absorb_mem {new r r' : NodeRange} (h : absorb new r = some r') (pfn : Nat) :
    pfn ∈ r'.span ↔
      pfn ∈ r.span ∨ (pfn ∈ new.span ∧ (r.endPfn < new.endPfn → r.startPfn ≤ pfn)) := by
  unfold absorb at h
  split_ifs at h
  all_goals
    obtain rfl := Option.some.inj h
    simp only [Span.mem_def, NodeRange.span]
    omega

theorem absorb_endPfn {new r r' : NodeRange} (h : absorb new r = some r') :
    r'.endPfn = r.endPfn ∨ r'.endPfn = new.endPfn := by
  unfold absorb at h
  split_ifs at h
  all_goals
    obtain rfl := Option.some.inj h
    first
      | exact Or.inl rfl
      | exact Or.inr rfl

theorem absorb_startPfn {new r r' : NodeRange} (h : absorb new r = some r') :
    r'.startPfn = r.startPfn ∨ r'.startPfn = new.startPfn := by
  unfold absorb at h
  split_ifs at h
  all_goals
    obtain rfl := Option.some.inj h
    first
      | exact Or.inl rfl
      | exact Or.inr rfl

theorem absorb_ordered {new r r' : NodeRange} (h : absorb new r = some r')
    (hr : r.startPfn ≤ r.endPfn) : r'.startPfn ≤ r'.endPfn := by
  unfold absorb at h
  split_ifs at h
  · exact Option.some.inj h ▸ hr
  all_goals
    obtain rfl := Option.some.inj h
    simp only
    omega

-- Everything a registration can do: one entry takes the range, or the range is appended, or the
-- full table drops it.
theorem addActiveRange_cases (map : List NodeRange) (new : NodeRange) :
    (∃ pre r r' post, map = pre ++ r :: post ∧ (∀ q ∈ pre, absorb new q = none) ∧
      taker map new = some r ∧ absorb new r = some r' ∧
      addActiveRange map new = pre ++ r' :: post) ∨
    (taker map new = none ∧ map.length < maxActiveRegions ∧
      addActiveRange map new = map ++ [new]) ∨
    (taker map new = none ∧ maxActiveRegions ≤ map.length ∧ addActiveRange map new = map) := by
  cases htake : absorbFirst (absorb new) map with
  | some map' =>
      left
      obtain ⟨pre, r, r', post, hmap, hpre, hr, hmap'⟩ := absorbFirst_eq_some.mp htake
      refine ⟨pre, r, r', post, hmap, hpre, ?_, hr, by rw [addActiveRange, htake, hmap']⟩
      have hfirst : pre.find? (fun r => (absorb new r).isSome) = none := by
        simpa using hpre
      rw [taker, hmap, List.find?_append, hfirst]
      simp [hr]
  | none =>
      right
      have hnone : taker map new = none := by
        simpa [taker] using absorbFirst_eq_none.mp htake
      rw [addActiveRange, htake]
      by_cases hfull : maxActiveRegions ≤ map.length
      · exact Or.inr ⟨hnone, hfull, if_pos hfull⟩
      · exact Or.inl ⟨hnone, by omega, if_neg hfull⟩

-- What an entry keeps when it takes a range, all entries keep.
theorem addActiveRange_forall {Q : NodeRange → Prop} {map : List NodeRange} {new : NodeRange}
    (habsorb : ∀ r r', absorb new r = some r' → Q r → Q r') (hnew : Q new)
    (hmap : ∀ r ∈ map, Q r) : ∀ r ∈ addActiveRange map new, Q r := by
  obtain ⟨pre, r, r', post, rfl, -, -, hr, heq⟩ | ⟨-, -, heq⟩ | ⟨-, -, heq⟩ :=
    addActiveRange_cases map new
  · rw [heq]
    simp only [List.forall_mem_append, List.forall_mem_cons] at hmap ⊢
    exact ⟨hmap.1, habsorb r r' hr hmap.2.1, hmap.2.2⟩
  · rw [heq]
    simpa [or_imp, forall_and] using ⟨hmap, hnew⟩
  · rwa [heq]

-- What the table covers after a registration that it has room for.
theorem covers_addActiveRange {n pfn : Nat} {map : List NodeRange} {new : NodeRange}
    (hroom : Room map new) :
    Covers n pfn (addActiveRange map new) ↔
      Covers n pfn map ∨ (new.nid = n ∧ pfn ∈ new.span ∧ Keeps pfn map new) := by
  obtain ⟨pre, r, r', post, hmap, -, htaker, hr, heq⟩ | ⟨htaker, -, heq⟩ | ⟨htaker, hfull, -⟩ :=
    addActiveRange_cases map new
  · obtain ⟨hnid, hnid'⟩ := absorb_nid hr
    have hkeeps : Keeps pfn map new ↔ (r.endPfn < new.endPfn → r.startPfn ≤ pfn) := by
      simp [Keeps, htaker]
    rw [heq, hkeeps, hmap, covers_append, covers_append, covers_cons, covers_cons, hnid, hnid',
      absorb_mem hr pfn, and_or_left, or_assoc, or_assoc, or_assoc,
      or_comm (a := Covers n pfn post)]
  · have hkeeps : Keeps pfn map new := by simp [Keeps, htaker]
    rw [heq, covers_append, covers_cons]
    simp [hkeeps]
  · exact absurd (hroom htaker) (Nat.not_lt.mpr hfull)

-- Nothing is covered that neither the table nor the new range covers.
theorem covers_of_addActiveRange {n pfn : Nat} {map : List NodeRange} {new : NodeRange}
    (h : Covers n pfn (addActiveRange map new)) :
    Covers n pfn map ∨ (new.nid = n ∧ pfn ∈ new.span) := by
  by_cases hroom : Room map new
  · rcases (covers_addActiveRange hroom).mp h with h | h
    · exact Or.inl h
    · exact Or.inr ⟨h.1, h.2.1⟩
  · obtain ⟨_, _, _, _, _, _, htaker, _⟩ | ⟨_, hlt, _⟩ | ⟨_, _, heq⟩ := addActiveRange_cases map new
    · exact absurd (fun hnone => by simp [hnone] at htaker) hroom
    · exact absurd (fun _ => hlt) hroom
    · exact Or.inl (heq ▸ h)

/-! ## The registrations of a run -/

def memblkWindow (blk : MemBlk) : NodeRange := ⟨blk.nid, blk.start / pageSize, blk.stop / pageSize⟩

def e820Window (ei : E820Entry) : NodeRange := ⟨0, ei.addr / pageSize, ei.last / pageSize⟩

/-- The windows for which `e820_register_active_regions` is called: the recorded blocks, or without
any block the entries of the e820 map on node 0. -/
def windows (mye820 : List E820Entry) (memblks : List MemBlk) : List NodeRange :=
  if memblks.length = 0 then mye820.map e820Window else memblks.map memblkWindow

def found (w : NodeRange) (ei : E820Entry) : Option NodeRange :=
  (e820FindActiveRegion ei w.startPfn w.endPfn).map fun region => ⟨w.nid, region.1, region.2⟩

/-- The calls of `add_active_range` in their order. -/
def registrations (mye820 : List E820Entry) (memblks : List MemBlk) : List NodeRange :=
  (windows mye820 memblks).flatMap fun w => mye820.filterMap (found w)

theorem e820RegisterActiveRegions_eq (mye820 : List E820Entry) (w : NodeRange)
    (map : List NodeRange) :
    e820RegisterActiveRegions mye820 w.nid w.startPfn w.endPfn map =
      (mye820.filterMap (found w)).foldl addActiveRange map := by
  rw [List.foldl_filterMap, e820RegisterActiveRegions]
  congr 1
  funext map ei
  cases hfind : e820FindActiveRegion ei w.startPfn w.endPfn <;> simp [found, hfind]

theorem generateNodeMap_eq (ks : KernelSort) (mye820 : List E820Entry) (memblks : List MemBlk)
    (map : List NodeRange) :
    generateNodeMapFromE820AndSrat ks mye820 memblks map =
      ks.sort ((registrations mye820 memblks).foldl addActiveRange map) := by
  have hstep : ∀ w : NodeRange, ∀ map, e820RegisterActiveRegions mye820 w.nid w.startPfn w.endPfn
      map = (mye820.filterMap (found w)).foldl addActiveRange map :=
    fun w map => e820RegisterActiveRegions_eq mye820 w map
  unfold generateNodeMapFromE820AndSrat registrations windows
  by_cases hlen : memblks.length = 0
  · obtain rfl := List.length_eq_zero_iff.mp hlen
    simp only [List.length_nil, if_true, List.foldl_nil, List.foldl_flatMap, List.foldl_map]
    congr 1
    congr 1
    funext map ei
    exact hstep (e820Window ei) map
  · simp only [if_neg hlen, List.foldl_flatMap, List.foldl_map]
    congr 1
    congr 1
    funext map blk
    exact hstep (memblkWindow blk) map

section Run

variable {mye820 : List E820Entry} {memblks : List MemBlk}

theorem windows_ordered (hwrap : ∀ ei ∈ mye820, ei.NoWrap)
    (hblks : ∀ blk ∈ memblks, blk.start ≤ blk.stop) :
    ∀ w ∈ windows mye820 memblks, w.startPfn ≤ w.endPfn := by
  intro w hw
  unfold windows at hw
  split at hw
  · obtain ⟨ei, hei, rfl⟩ := List.mem_map.mp hw
    simp only [e820Window, (hwrap ei hei).last_eq]
    exact Nat.div_le_div_right (Nat.le_add_right ..)
  · obtain ⟨blk, hblk, rfl⟩ := List.mem_map.mp hw
    exact Nat.div_le_div_right (hblks blk hblk)

theorem mem_registrations {c : NodeRange} :
    c ∈ registrations mye820 memblks ↔
      ∃ w ∈ windows mye820 memblks, ∃ ei ∈ mye820, found w ei = some c := by
  simp [registrations]

theorem found_eq_some {w c : NodeRange} {ei : E820Entry} :
    found w ei = some c ↔ c.nid = w.nid ∧
      e820FindActiveRegion ei w.startPfn w.endPfn = some (c.startPfn, c.endPfn) := by
  unfold found
  constructor
  · intro h
    obtain ⟨region, hfind, rfl⟩ := Option.map_eq_some_iff.mp h
    exact ⟨rfl, hfind⟩
  · rintro ⟨hnid, hfind⟩
    rw [hfind, Option.map_some, ← hnid]

theorem registrations_ordered (hwrap : ∀ ei ∈ mye820, ei.NoWrap)
    (hblks : ∀ blk ∈ memblks, blk.start ≤ blk.stop) :
    ∀ c ∈ registrations mye820 memblks, c.startPfn ≤ c.endPfn := by
  intro c hc
  obtain ⟨w, hw, ei, hei, hfound⟩ := mem_registrations.mp hc
  exact e820FindActiveRegion_le (hwrap ei hei) (windows_ordered hwrap hblks w hw)
    (found_eq_some.mp hfound).2

-- No rounded end reaches the last page of the address space.
theorem registrations_bounded (hwrap : ∀ ei ∈ mye820, ei.NoWrap) :
    ∀ c ∈ registrations mye820 memblks, c.endPfn < 2 ^ 52 := by
  intro c hc
  obtain ⟨w, -, ei, hei, hfound⟩ := mem_registrations.mp hc
  obtain ⟨-, -, -, -, -, hend⟩ :=
    (e820FindActiveRegion_eq_some (hwrap ei hei)).mp (found_eq_some.mp hfound).2
  have hlast := (hwrap ei hei).2
  simp only [pageSize, pageShift] at hend
  omega

-- A page is registered on a node exactly if it is a RAM page in a window of that node.
theorem registered_iff (hwrap : ∀ ei ∈ mye820, ei.NoWrap) {n pfn : Nat} :
    (∃ c ∈ registrations mye820 memblks, c.nid = n ∧ pfn ∈ c.span) ↔
      RamPage mye820 pfn ∧ ∃ w ∈ windows mye820 memblks, w.nid = n ∧ pfn ∈ w.span := by
  constructor
  · rintro ⟨c, hc, rfl, hmem⟩
    obtain ⟨w, hw, ei, hei, hfound⟩ := mem_registrations.mp hc
    obtain ⟨hnid, hfind⟩ := found_eq_some.mp hfound
    obtain ⟨hpage, hwindow⟩ := (e820FindActiveRegion_mem (hwrap ei hei) hfind pfn).mp hmem
    have hram := ((e820FindActiveRegion_eq_some (hwrap ei hei)).mp hfind).1
    exact ⟨⟨ei, hei, hram, hpage⟩, w, hw, hnid.symm, hwindow⟩
  · rintro ⟨⟨ei, hei, hram, hpage⟩, w, hw, rfl, hstart, hlast⟩
    obtain ⟨s, e, hfind⟩ := e820FindActiveRegion_isSome (hwrap ei hei) hram hpage hstart hlast
    refine ⟨⟨w.nid, s, e⟩, mem_registrations.mpr ⟨w, hw, ei, hei, ?_⟩, rfl, ?_⟩
    · exact found_eq_some.mpr ⟨rfl, hfind⟩
    · exact (e820FindActiveRegion_mem (hwrap ei hei) hfind pfn).mpr ⟨hpage, hstart, hlast⟩

-- A run covers no page that was not covered before or registered.
theorem covers_of_foldl {n pfn : Nat} (cs : List NodeRange) {map : List NodeRange}
    (h : Covers n pfn (cs.foldl addActiveRange map)) :
    Covers n pfn map ∨ ∃ c ∈ cs, c.nid = n ∧ pfn ∈ c.span := by
  induction cs generalizing map with
  | nil => exact Or.inl h
  | cons c cs ih =>
      rcases ih h with h | ⟨d, hd, hdmem⟩
      · rcases covers_of_addActiveRange h with h | h
        · exact Or.inl h
        · exact Or.inr ⟨c, by simp, h⟩
      · exact Or.inr ⟨d, by simp [hd], hdmem⟩

theorem covers_sort (ks : KernelSort) {n pfn : Nat} {map : List NodeRange} :
    Covers n pfn (ks.sort map) ↔ Covers n pfn map := by
  simp only [Covers, (ks.perm map).mem_iff]

-- Soundness: from an empty table, every page of every entry is a RAM page.
theorem ramPage_of_covers (ks : KernelSort) (hwrap : ∀ ei ∈ mye820, ei.NoWrap) {n pfn : Nat}
    (h : Covers n pfn (generateNodeMapFromE820AndSrat ks mye820 memblks [])) :
    RamPage mye820 pfn := by
  rw [generateNodeMap_eq, covers_sort] at h
  rcases covers_of_foldl _ h with h | h
  · exact absurd h not_covers_nil
  · exact ((registered_iff hwrap).mp h).1

-- From an empty table, the entries have their bounds in order and in the address space.
theorem generateNodeMap_bounds (ks : KernelSort) (hwrap : ∀ ei ∈ mye820, ei.NoWrap)
    (hblks : ∀ blk ∈ memblks, blk.start ≤ blk.stop) :
    ∀ r ∈ generateNodeMapFromE820AndSrat ks mye820 memblks [],
      r.startPfn ≤ r.endPfn ∧ r.endPfn < 2 ^ 52 := by
  intro r hr
  rw [generateNodeMap_eq, (ks.perm _).mem_iff] at hr
  refine foldl_preserves
    (I := fun map : List NodeRange => ∀ r ∈ map, r.startPfn ≤ r.endPfn ∧ r.endPfn < 2 ^ 52)
    (fun c : NodeRange => c.startPfn ≤ c.endPfn ∧ c.endPfn < 2 ^ 52) ?_
    (fun c hc => ⟨registrations_ordered hwrap hblks c hc, registrations_bounded hwrap c hc⟩)
    (by simp) r hr
  intro map c hc hmap
  refine addActiveRange_forall (fun q q' hq hbounds => ?_) hc hmap
  exact ⟨absorb_ordered hq hbounds.1, by rcases absorb_endPfn hq with h | h <;> omega⟩

-- Whatever wraps, the bounds are page numbers.
theorem generateNodeMap_pages (ks : KernelSort) :
    ∀ r ∈ generateNodeMapFromE820AndSrat ks mye820 memblks [], r.startPfn < 2 ^ 52 ∧ r.endPfn < 2 ^ 52 := by
  intro r hr
  rw [generateNodeMap_eq, (ks.perm _).mem_iff] at hr
  refine foldl_preserves
    (I := fun map : List NodeRange => ∀ r ∈ map, r.startPfn < 2 ^ 52 ∧ r.endPfn < 2 ^ 52)
    (fun c : NodeRange => c.startPfn < 2 ^ 52 ∧ c.endPfn < 2 ^ 52) ?_ ?_ (by simp) r hr
  · intro map c hc hmap
    refine addActiveRange_forall (fun q q' hq hbounds => ?_) hc hmap
    rcases absorb_startPfn hq with hstart | hstart <;> rcases absorb_endPfn hq with hend | hend <;> omega
  · intro c hc
    obtain ⟨w, -, ei, -, hfound⟩ := mem_registrations.mp hc
    exact e820FindActiveRegion_lt (found_eq_some.mp hfound).2

end Run

end MoBoMemory.Driver
