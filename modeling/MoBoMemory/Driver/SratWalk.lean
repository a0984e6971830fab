import MoBoMemory.Base.Loop
import MoBoMemory.Driver.Srat

/-!
# Walking the bytes of the SRAT

`__acpi_table_parse_entries` steps from entry to entry by the length byte of each, and the handlers
read an entry of the right length whole.  Nothing checks that the length is positive, that the entry
ends before the table does, or that its proximity domain has a place in `pxm_to_node_map`; the walk
is safe exactly for the tables of which all three are true.
-/

namespace MoBoMemory.Driver

open Base

/-- The SRAT in memory: the length field, and the bytes from the start of its header on, also those
behind its end. -/
structure SratTable where
  length : Nat
  byte : Nat → UInt8
  length_lt : length < 2 ^ 32

/-- A little-endian field of so many bytes. -/
def SratTable.field (t : SratTable) : Nat → Nat → Nat
  | _, 0 => 0
  | off, n + 1 => (t.byte off).toNat + 256 * t.field (off + 1) n

def sizeofSubtableHeader : Nat := 2

/-- `sizeof(struct acpi_table_srat)`. -/
def sizeofTableSrat : Nat := 48

def SratTable.entryType (t : SratTable) (off : Nat) : Nat := (t.byte off).toNat
def SratTable.entryLength (t : SratTable) (off : Nat) : Nat := (t.byte (off + 1)).toNat

/-- The header of the loop, and its step. -/
def SratTable.more (t : SratTable) (off : Nat) : Bool := off + sizeofSubtableHeader < t.length
def SratTable.next (t : SratTable) (off : Nat) : Nat := off + t.entryLength off

/-- What a handler knows of its entries: the type and the size of the structure, where the flags are,
the offset and width of the proximity domain, and the bytes it reads of an enabled entry. -/
structure Affinity where
  entryId : Nat
  size : Nat
  flagsOffset : Nat
  pxmOffset : Nat
  pxmBytes : Nat
  fields : List Nat
  before_flags : ∀ k ∈ fields, k < flagsOffset + 4
  pxm_word : pxmBytes ≤ 4

/-- `struct acpi_srat_cpu_affinity`, of which the low byte of the domain is read. -/
def processorAffinity : Affinity := ⟨0, 16, 4, 2, 1, [2], by decide, by decide⟩

/-- `struct acpi_srat_mem_affinity`: the base address, the length and the domain are read. -/
def memoryAffinity : Affinity :=
  ⟨1, 40, 28, 2, 4, List.range' 8 16 ++ List.range' 2 4, by decide, by decide⟩

section Source

variable (a : Affinity) (t : SratTable)

/-- `flags & ACPI_SRAT_CPU_ENABLED`, `flags & ACPI_SRAT_MEM_ENABLED`. -/
def Affinity.enabled (off : Nat) : Bool := t.field (off + a.flagsOffset) 4 % 2 = 1

def Affinity.pxm (off : Nat) : Nat := t.field (off + a.pxmOffset) a.pxmBytes

/-- The bytes that the handler reads of the entry at `off`. -/
def Affinity.reads (off : Nat) : List Nat :=
  (off + 1) ::
    if t.entryLength off = a.size then
      List.range' (off + a.flagsOffset) 4 ++
        if a.enabled t off then a.fields.map (off + ·) else []
    else []

/-- `int pxm`. -/
def toInt (x : Nat) : Int := if x < 2 ^ 31 then x else (x : Int) - 2 ^ 32

/-- The index into `pxm_to_node_map`, if the handler comes so far. -/
def Affinity.index (off : Nat) : Option Int :=
  if t.entryLength off = a.size ∧ a.enabled t off then some (toInt (a.pxm t off)) else none

structure WalkState where
  count : Nat
  reads : List Nat
  indices : List Int
  scan : SratScan

variable (handle : Nat → SratScan → SratScan) (maxEntries : Nat)

/-- One turn of the loop; both handlers return 0. -/
def parseBody (off : Nat) (s : WalkState) : WalkState × Bool :=
  if t.entryType off = a.entryId then
    let handled := maxEntries = 0 ∨ s.count < maxEntries
    let s' := if maxEntries = 0 then s else { s with count := (s.count + 1) % 2 ^ 32 }
    (if handled then
      { s' with
        reads := s.reads ++ a.reads t off
        indices := s.indices ++ (a.index t off).toList
        scan := handle off s.scan }
    else s', false)
  else (s, false)

/-- `__acpi_table_parse_entries`, once the table is there. -/
def acpiTableParseEntries (scan : SratScan) (fuel : Nat) : Option (WalkState × Bool) :=
  loop t.more t.next (parseBody a t handle maxEntries) fuel sizeofTableSrat ⟨0, [], [], scan⟩

end Source

def cpuAffinityAt (t : SratTable) (off : Nat) : SratCpuAffinity where
  wellFormed := t.entryLength off = processorAffinity.size
  enabled := processorAffinity.enabled t off
  proximityDomain := processorAffinity.pxm t off

def memAffinityAt (t : SratTable) (off : Nat) : SratMemAffinity where
  wellFormed := t.entryLength off = memoryAffinity.size
  enabled := memoryAffinity.enabled t off
  proximityDomain := memoryAffinity.pxm t off
  baseAddress := t.field (off + 8) 8
  length := t.field (off + 16) 8

def acpiParseProcessorAffinity (limits : NumaLimits) (t : SratTable) (off : Nat) (scan : SratScan) :
    SratScan :=
  acpiNumaProcessorAffinityInit limits scan (cpuAffinityAt t off)

def acpiParseMemoryAffinity (limits : NumaLimits) (t : SratTable) (off : Nat) (scan : SratScan) :
    SratScan :=
  acpiNumaMemoryAffinityInit limits scan (memAffinityAt t off)

/-! ## The entries -/

/-- The offsets of the first `n` entries from `off` on. -/
def SratTable.entriesFrom (t : SratTable) : Nat → Nat → List Nat
  | 0, _ => []
  | n + 1, off =>
      if t.more off then off :: t.entriesFrom n (t.next off) else []

/-- As many entries as there are bytes. -/
def SratTable.entries (t : SratTable) : List Nat := t.entriesFrom t.length sizeofTableSrat

/-- The entries that are handed to the handler. -/
def Affinity.handled (a : Affinity) (maxEntries : Nat) (t : SratTable) : List Nat :=
  if maxEntries = 0 then t.entries.filter fun off => t.entryType off = a.entryId
  else (t.entries.filter fun off => t.entryType off = a.entryId).take maxEntries

/-- Every entry has a length, and every entry for the handler that has the right length lies in the
table as far as it is read and, if enabled, has a domain with a place in the map. -/
structure EntriesFit (a : Affinity) (maxEntries maxPxmDomains : Nat) (t : SratTable) : Prop where
  progress : ∀ off ∈ t.entries, 0 < t.entryLength off
  inside : ∀ off ∈ a.handled maxEntries t, t.entryLength off = a.size →
    off + a.flagsOffset + 4 ≤ t.length
  domain : ∀ off ∈ a.handled maxEntries t, t.entryLength off = a.size → a.enabled t off = true →
    a.pxm t off < maxPxmDomains ∧ a.pxm t off < 2 ^ 31

/-- The walk ends, what its handler has read lies in the table, and its indices in the map. -/
def WalkSafe (a : Affinity) (handle : Nat → SratScan → SratScan) (maxEntries maxPxmDomains : Nat)
    (t : SratTable) (scan : SratScan) : Prop :=
  ∃ fuel s, acpiTableParseEntries a t handle maxEntries scan fuel = some (s, false) ∧
    (∀ i ∈ s.reads, i < t.length) ∧ ∀ pxm ∈ s.indices, 0 ≤ pxm ∧ pxm < (maxPxmDomains : Int)

section Entries

variable {t : SratTable}

theorem SratTable.more_iff {off : Nat} : t.more off = true ↔ off + 2 < t.length := by
  rw [SratTable.more, decide_eq_true_iff, sizeofSubtableHeader]

-- Entries that all have a length are all that the loop comes to.
theorem visits_entriesFrom (n off : Nat) (hn : t.length ≤ n + off)
    (hprogress : ∀ x ∈ t.entriesFrom n off, 0 < t.entryLength x) :
    Visits t.more t.next off (t.entriesFrom n off) := by
  induction n generalizing off with
  | zero =>
      refine .stop ?_
      rw [Bool.eq_false_iff, ne_eq, SratTable.more_iff]
      omega
  | succ n ih =>
      rw [SratTable.entriesFrom] at hprogress ⊢
      by_cases hgo : t.more off = true
      · rw [if_pos hgo] at hprogress ⊢
        have hpos := hprogress off (by simp)
        refine .step hgo (ih _ ?_ fun x hx => hprogress x (by simp [hx]))
        rw [SratTable.next]
        omega
      · rw [if_neg hgo]
        exact .stop (by simpa using hgo)

-- Whatever the loop comes to has a length, or the loop would not end.
theorem entriesFrom_of_visits {off : Nat} {ps : List Nat} (hvisits : Visits t.more t.next off ps)
    (n : Nat) : ∀ x ∈ t.entriesFrom n off, 0 < t.entryLength x := by
  induction hvisits generalizing n with
  | @stop off hstop =>
      cases n with
      | zero => simp [SratTable.entriesFrom]
      | succ n => simp [SratTable.entriesFrom, hstop]
  | @step off ps hgo hrest ih =>
      cases n with
      | zero => simp [SratTable.entriesFrom]
      | succ n =>
          rw [SratTable.entriesFrom, if_pos hgo, List.forall_mem_cons]
          refine ⟨?_, ih n⟩
          by_contra hzero
          have hstill : t.next off = off := by
            rw [SratTable.next]
            omega
          have hstop := (Visits.step hgo hrest).moves hstill
          rw [hgo] at hstop
          cases hstop

theorem mem_entriesFrom {n off x : Nat} (hx : x ∈ t.entriesFrom n off) : x + 2 < t.length := by
  induction n generalizing off with
  | zero => simp [SratTable.entriesFrom] at hx
  | succ n ih =>
      rw [SratTable.entriesFrom] at hx
      by_cases hgo : t.more off = true
      · rw [if_pos hgo] at hx
        rcases List.mem_cons.mp hx with rfl | hx
        · exact SratTable.more_iff.mp hgo
        · exact ih hx
      · rw [if_neg hgo] at hx
        simp at hx

theorem length_entriesFrom (n off : Nat) : (t.entriesFrom n off).length ≤ n := by
  induction n generalizing off with
  | zero => simp [SratTable.entriesFrom]
  | succ n ih =>
      rw [SratTable.entriesFrom]
      split
      · exact Nat.succ_le_succ (ih _)
      · exact Nat.zero_le _

end Entries

/-! ## The walk over the entries -/

section Walk

variable (a : Affinity) (t : SratTable) (handle : Nat → SratScan → SratScan) (maxEntries : Nat)

/-- The entries handed out of a list when `count` have been before. -/
def handedOut (count : Nat) (offs : List Nat) : List Nat :=
  if maxEntries = 0 then offs.filter fun off => t.entryType off = a.entryId
  else (offs.filter fun off => t.entryType off = a.entryId).take (maxEntries - count)

theorem parseBody_stays (off : Nat) (s : WalkState) :
    (parseBody a t handle maxEntries off s).2 = false := by
  unfold parseBody
  split <;> rfl

/-- The count after an entry. -/
def countAfter (count off : Nat) : Nat :=
  if t.entryType off = a.entryId ∧ maxEntries ≠ 0 then count + 1 else count

theorem handedOut_cons (count off : Nat) (offs : List Nat) :
    handedOut a t maxEntries count (off :: offs) =
      (if t.entryType off = a.entryId ∧ (maxEntries = 0 ∨ count < maxEntries) then [off] else []) ++
        handedOut a t maxEntries (countAfter a t maxEntries count off) offs := by
  unfold handedOut countAfter
  by_cases htype : t.entryType off = a.entryId
  · by_cases hzero : maxEntries = 0
    · simp [htype, hzero]
    · by_cases hroom : count < maxEntries
      · have hsucc : maxEntries - count = maxEntries - (count + 1) + 1 := by omega
        simp [htype, hzero, hroom, hsucc]
      · have hfull : maxEntries - count = 0 := by omega
        have hfull' : maxEntries - (count + 1) = 0 := by omega
        simp [htype, hzero, hroom, hfull, hfull']
  · simp [htype]

-- What one turn adds.
theorem parseBody_eq (off : Nat) (s : WalkState) (hcount : s.count + 1 < 2 ^ 32) :
    let now := if t.entryType off = a.entryId ∧ (maxEntries = 0 ∨ s.count < maxEntries) then [off]
      else []
    (parseBody a t handle maxEntries off s).1 = {
      count := countAfter a t maxEntries s.count off
      reads := s.reads ++ now.flatMap (a.reads t)
      indices := s.indices ++ now.filterMap (a.index t)
      scan := now.foldl (fun scan off => handle off scan) s.scan } := by
  have hindex : [off].filterMap (a.index t) = (a.index t off).toList := by
    cases hidx : a.index t off <;> simp [hidx]
  unfold parseBody countAfter
  simp only
  by_cases htype : t.entryType off = a.entryId
  · by_cases hzero : maxEntries = 0
    · simp [htype, hzero, hindex]
    · by_cases hroom : s.count < maxEntries
      · simp [htype, hzero, hroom, hindex]
        omega
      · simp [htype, hzero, hroom]
        omega
  · simp [htype]

-- What a walk over a list of entries collects.
theorem sweep_parseBody (offs : List Nat) (s : WalkState) (hcount : s.count + offs.length < 2 ^ 32) :
    let s' := (sweep (parseBody a t handle maxEntries) offs s).1
    (sweep (parseBody a t handle maxEntries) offs s).2 = false ∧
      s'.reads = s.reads ++ (handedOut a t maxEntries s.count offs).flatMap (a.reads t) ∧
      s'.indices = s.indices ++ (handedOut a t maxEntries s.count offs).filterMap (a.index t) ∧
      s'.scan = (handedOut a t maxEntries s.count offs).foldl (fun scan off => handle off scan)
        s.scan := by
  induction offs generalizing s with
  | nil => simp [sweep, handedOut]
  | cons off offs ih =>
      rw [List.length_cons] at hcount
      have hbody := parseBody_eq a t handle maxEntries off s (by omega)
      have hafter : countAfter a t maxEntries s.count off ≤ s.count + 1 := by
        unfold countAfter
        split <;> omega
      simp only [sweep, parseBody_stays, Bool.false_eq_true, if_false, handedOut_cons]
      have hrest := ih (parseBody a t handle maxEntries off s).1 (by rw [hbody]; simp only; omega)
      simp only [hbody] at hrest ⊢
      obtain ⟨hstay, hreads, hindices, hscan⟩ := hrest
      refine ⟨hstay, ?_, ?_, ?_⟩
      · rw [hreads, List.flatMap_append, List.append_assoc]
      · rw [hindices, List.filterMap_append, List.append_assoc]
      · rw [hscan, List.foldl_append]

theorem handled_eq : a.handled maxEntries t = handedOut a t maxEntries 0 t.entries := rfl

variable {a t handle maxEntries}

-- A walk that ends has been over the entries, all of which have a length.
theorem acpiTableParseEntries_eq {scan : SratScan} {fuel : Nat} {r : WalkState × Bool}
    (hrun : acpiTableParseEntries a t handle maxEntries scan fuel = some r) :
    (∀ off ∈ t.entries, 0 < t.entryLength off) ∧
      r = sweep (parseBody a t handle maxEntries) t.entries ⟨0, [], [], scan⟩ := by
  obtain ⟨ps, hvisits, hsweep⟩ :=
    exists_visits_of_loop (parseBody_stays a t handle maxEntries) hrun
  have hprogress := entriesFrom_of_visits hvisits t.length
  have hentries := visits_entriesFrom t.length sizeofTableSrat (by omega) hprogress
  exact ⟨hprogress, by rw [hsweep, hvisits.unique hentries, SratTable.entries]⟩

theorem exists_parseEntries (hprogress : ∀ off ∈ t.entries, 0 < t.entryLength off)
    (scan : SratScan) : ∃ fuel, acpiTableParseEntries a t handle maxEntries scan fuel =
      some (sweep (parseBody a t handle maxEntries) t.entries ⟨0, [], [], scan⟩) := by
  have hvisits := visits_entriesFrom t.length sizeofTableSrat (by omega) hprogress
  exact ⟨t.entries.length + 1, loop_eq_sweep hvisits (by rw [SratTable.entries]; omega) _⟩

theorem length_entries_lt : t.entries.length < 2 ^ 32 :=
  lt_of_le_of_lt (length_entriesFrom _ _) t.length_lt

-- The handler has been called for the entries handed out, in order.
theorem scan_of_walk {scan : SratScan} {fuel : Nat} {r : WalkState × Bool}
    (hrun : acpiTableParseEntries a t handle maxEntries scan fuel = some r) :
    r.1.scan = (a.handled maxEntries t).foldl (fun scan off => handle off scan) scan := by
  obtain ⟨-, rfl⟩ := acpiTableParseEntries_eq hrun
  exact (sweep_parseBody a t handle maxEntries t.entries ⟨0, [], [], scan⟩
    (by simpa using length_entries_lt)).2.2.2

-- The bytes that are read of an entry lie in the table.
theorem reads_inside_iff {off : Nat} (hoff : off + 2 < t.length) :
    (∀ i ∈ a.reads t off, i < t.length) ↔
      (t.entryLength off = a.size → off + a.flagsOffset + 4 ≤ t.length) := by
  unfold Affinity.reads
  rw [List.forall_mem_cons, and_iff_right (by omega)]
  by_cases hsize : t.entryLength off = a.size
  · simp only [hsize, if_true, forall_const, List.forall_mem_append, List.mem_range'_1]
    constructor
    · rintro ⟨hflags, -⟩
      have := hflags (off + a.flagsOffset + 3) (by omega)
      omega
    · intro hinside
      refine ⟨fun i hi => by omega, fun i hi => ?_⟩
      split at hi
      · obtain ⟨k, hk, rfl⟩ := List.mem_map.mp hi
        have := a.before_flags k hk
        omega
      · simp at hi
  · simp [hsize]

theorem toInt_bounds {x bound : Nat} (hx : x < 2 ^ 32) :
    0 ≤ toInt x ∧ toInt x < (bound : Int) ↔ x < bound ∧ x < 2 ^ 31 := by
  unfold toInt
  split <;> omega

theorem field_lt (off n : Nat) : t.field off n < 256 ^ n := by
  induction n generalizing off with
  | zero => simp [SratTable.field]
  | succ n ih =>
      have hbyte := (t.byte off).toNat_lt
      have hrest := ih (off + 1)
      rw [SratTable.field, Nat.pow_succ]
      omega

theorem pxm_lt (off : Nat) : a.pxm t off < 2 ^ 32 := by
  have hpow : 256 ^ a.pxmBytes ≤ 256 ^ 4 := Nat.pow_le_pow_right (by decide) a.pxm_word
  exact lt_of_lt_of_le (field_lt _ _) hpow

theorem index_inside_iff {off maxPxmDomains : Nat} :
    (∀ pxm ∈ a.index t off, 0 ≤ pxm ∧ pxm < (maxPxmDomains : Int)) ↔
      (t.entryLength off = a.size → a.enabled t off = true →
        a.pxm t off < maxPxmDomains ∧ a.pxm t off < 2 ^ 31) := by
  unfold Affinity.index
  by_cases hread : t.entryLength off = a.size ∧ a.enabled t off = true
  · simp only [hread, and_self, if_true, Option.mem_some_iff, forall_eq', forall_const]
    exact toInt_bounds (pxm_lt off)
  · rw [if_neg hread]
    simp only [Option.not_mem_none, false_implies, implies_true, true_iff]
    exact fun hsize henabled => absurd ⟨hsize, henabled⟩ hread

-- A walk is safe exactly if the entries fit.
theorem walkSafe_iff (maxPxmDomains : Nat) (scan : SratScan) :
    WalkSafe a handle maxEntries maxPxmDomains t scan ↔
      EntriesFit a maxEntries maxPxmDomains t := by
  have hhandled : ∀ off ∈ a.handled maxEntries t, off + 2 < t.length := by
    intro off hoff
    have hmem : off ∈ t.entries.filter fun off => t.entryType off = a.entryId := by
      unfold Affinity.handled at hoff
      split at hoff
      · exact hoff
      · exact List.mem_of_mem_take hoff
    exact mem_entriesFrom (List.mem_filter.mp hmem).1
  obtain ⟨hstay, hreads, hindices, -⟩ := sweep_parseBody a t handle maxEntries t.entries
    ⟨0, [], [], scan⟩ (by simpa using length_entries_lt)
  rw [← handled_eq, List.nil_append] at hreads hindices
  constructor
  · rintro ⟨fuel, s, hrun, hinside, hdomain⟩
    obtain ⟨hprogress, hsweep⟩ := acpiTableParseEntries_eq hrun
    obtain rfl : s = _ := congrArg Prod.fst hsweep
    rw [hreads] at hinside
    rw [hindices] at hdomain
    refine ⟨hprogress, fun off hoff => ?_, fun off hoff => ?_⟩
    · refine (reads_inside_iff (hhandled off hoff)).mp fun i hi => ?_
      exact hinside i (List.mem_flatMap.mpr ⟨off, hoff, hi⟩)
    · refine index_inside_iff.mp fun pxm hpxm => ?_
      exact hdomain pxm (List.mem_filterMap.mpr ⟨off, hoff, hpxm⟩)
  · rintro ⟨hprogress, hinside, hdomain⟩
    obtain ⟨fuel, hrun⟩ : ∃ fuel, acpiTableParseEntries a t handle maxEntries scan fuel =
        some (sweep (parseBody a t handle maxEntries) t.entries ⟨0, [], [], scan⟩) :=
      exists_parseEntries hprogress scan
    refine ⟨fuel, _, hrun.trans (congrArg some (Prod.ext rfl hstay)), ?_, ?_⟩
    · rw [hreads]
      intro i hi
      obtain ⟨off, hoff, hi⟩ := List.mem_flatMap.mp hi
      exact (reads_inside_iff (hhandled off hoff)).mpr (hinside off hoff) i hi
    · rw [hindices]
      intro pxm hpxm
      obtain ⟨off, hoff, hpxm⟩ := List.mem_filterMap.mp hpxm
      exact index_inside_iff.mpr (hdomain off hoff) pxm hpxm

end Walk

-- Two walks that end have recorded the blocks of the entries they came to.
theorem acpiNumaInit_of_walks {limits : NumaLimits} (hmemblks : 0 < limits.nrNodeMemblks)
    {nrCpus fuel : Nat} {t : SratTable} {cpus mems : WalkState × Bool}
    (hcpus : acpiTableParseEntries processorAffinity t (acpiParseProcessorAffinity limits t) nrCpus
      ⟨[], []⟩ fuel = some cpus)
    (hmems : acpiTableParseEntries memoryAffinity t (acpiParseMemoryAffinity limits t)
      limits.nrNodeMemblks cpus.1.scan fuel = some mems) :
    mems.1.scan.memblks = acpiNumaInit limits
      ((processorAffinity.handled nrCpus t).map (cpuAffinityAt t))
      ((memoryAffinity.handled limits.nrNodeMemblks t).map (memAffinityAt t)) := by
  have hshort : (memoryAffinity.handled limits.nrNodeMemblks t).length ≤ limits.nrNodeMemblks := by
    rw [Affinity.handled, if_neg hmemblks.ne']
    exact List.length_take_le _ _
  rw [acpiNumaInit, List.take_of_length_le (by simpa using hshort), List.foldl_map, List.foldl_map,
    scan_of_walk hmems, scan_of_walk hcpus]
  rfl

/-- For every table, kernel configuration and state of the scan: both walks of `acpi_numa_init` end,
read inside the table and index inside the map exactly if every entry has a length, and every entry
handed to its handler is there as far as the handler reads it and has a domain in the map. -/
theorem sratWalks_safe_iff (limits : NumaLimits) (nrCpus maxPxmDomains : Nat) (t : SratTable)
    (scan scan' : SratScan) :
    (WalkSafe processorAffinity (acpiParseProcessorAffinity limits t) nrCpus maxPxmDomains t scan ∧
      WalkSafe memoryAffinity (acpiParseMemoryAffinity limits t) limits.nrNodeMemblks maxPxmDomains t
        scan') ↔
    EntriesFit processorAffinity nrCpus maxPxmDomains t ∧
      EntriesFit memoryAffinity limits.nrNodeMemblks maxPxmDomains t :=
  and_congr (walkSafe_iff maxPxmDomains scan) (walkSafe_iff maxPxmDomains scan')

/-- A table of these bytes behind its header, in memory that is zero elsewhere. -/
def sratOf (entries : List UInt8) (h : sizeofTableSrat + entries.length < 2 ^ 32) : SratTable where
  length := sizeofTableSrat + entries.length
  byte := fun off => if off < sizeofTableSrat then 0 else entries.getD (off - sizeofTableSrat) 0
  length_lt := h

/-- An entry of length 0, over which the walk does not get. -/
def zeroLengthSrat : SratTable := sratOf [0, 0, 0] (by decide)

/-- A memory entry of which only the first three bytes are in the table. -/
def truncatedSrat : SratTable := sratOf [1, 40, 0] (by decide)

/-- An enabled memory entry of proximity domain 0x10000. -/
def farDomainSrat : SratTable :=
  sratOf ([1, 40, 0, 0, 1, 0] ++ List.replicate 22 0 ++ [1] ++ List.replicate 12 0) (by decide)

/-- Each of them makes the walk for memory entries unsafe. -/
theorem sratWalk_unsafe :
    (∀ fuel, acpiTableParseEntries memoryAffinity zeroLengthSrat
      (acpiParseMemoryAffinity ⟨64, 128⟩ zeroLengthSrat) 128 ⟨[], []⟩ fuel = none) ∧
    ¬ WalkSafe memoryAffinity (acpiParseMemoryAffinity ⟨64, 128⟩ truncatedSrat) 128 256 truncatedSrat
      ⟨[], []⟩ ∧
    ¬ WalkSafe memoryAffinity (acpiParseMemoryAffinity ⟨64, 128⟩ farDomainSrat) 128 256 farDomainSrat
      ⟨[], []⟩ := by
  refine ⟨fun fuel => ?_, fun hsafe => ?_, fun hsafe => ?_⟩
  · cases hrun : acpiTableParseEntries memoryAffinity zeroLengthSrat
        (acpiParseMemoryAffinity ⟨64, 128⟩ zeroLengthSrat) 128 ⟨[], []⟩ fuel with
    | none => rfl
    | some r =>
        have hpos := (acpiTableParseEntries_eq hrun).1 48 (by decide)
        exact absurd hpos (by decide)
  · have hinside := ((walkSafe_iff 256 _).mp hsafe).inside 48 (by decide) (by decide)
    exact absurd hinside (by decide)
  · have hdomain := ((walkSafe_iff 256 _).mp hsafe).domain 48 (by decide) (by decide) (by decide)
    exact absurd hdomain.1 (by decide)

end MoBoMemory.Driver
