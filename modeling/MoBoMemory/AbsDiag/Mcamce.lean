import Mathlib.Algebra.Order.Ring.Int
import Mathlib.Logic.Function.Basic
import MoBoMemory.Base.Tables

/-!
# The machine check poller

`mcamce_check` looks at the status of every bank and adds to one of two counters.  Nothing clears a
status and nothing remembers which one has been counted, so an error is counted at every poll until
the next one overwrites it.  Beside the code's state a run keeps what the hardware knows: which banks
no poll has seen since their last arrival, and how many errors have arrived since the last reset.
-/

namespace MoBoMemory.AbsDiag

open Base

/-- `IA32_MCi_STATUS`, in two halves. -/
structure McaStatus where
  lo : BitVec 32
  hi : BitVec 32
deriving DecidableEq

/-- `MCEVAL`. -/
def McaStatus.Valid (st : McaStatus) : Prop := st.hi &&& (1#32 <<< 31) ≠ 0

instance (st : McaStatus) : Decidable st.Valid := inferInstanceAs (Decidable (_ ≠ _))

/-- The two proc files that count errors: memory and cache ECC. -/
inductive EccFile where
  | mecc
  | cecc
deriving DecidableEq

/-- `mecc_procfs_add` and `cecc_procfs_add`. -/
def procfsAdd (gCnt : Nat) : Nat := if gCnt < 2 ^ 64 - 1 then gCnt + 1 else 0

/-- A simple error, bits[15:0]. -/
def simpleError (lo : BitVec 32) : Option EccFile :=
  if lo &&& 0xff00 = 0x0100 then some .mecc
  else if lo &&& 0xf800 = 0x8800 then none
  else if lo &&& 0xff00 = 0 then some .cecc
  else none

/-- The file that the code adds to. -/
def countedIn (lo : BitVec 32) : Option EccFile :=
  if lo &&& 0xffff ≠ 0 then simpleError lo
  else if 1 = lo &&& (1#32 <<< 16) then some .cecc
  else none

/-- One turn of the loop over the banks, with the return value. -/
def mcamceCheckBank : Int × (EccFile → Nat) → McaStatus → Int × (EccFile → Nat)
  | (ret, gCnt), st =>
      if st.Valid then
        match countedIn st.lo with
        | some file => (1, Function.update gCnt file (procfsAdd (gCnt file)))
        | none => (1, gCnt)
      else (ret, gCnt)

def mcamceCheck (banks : List McaStatus) (gCnt : EccFile → Nat) : Int × (EccFile → Nat) :=
  banks.foldl mcamceCheckBank (0, gCnt)

/-! ## What a poll counts -/

/-- The code takes the status for an error of this file. -/
def McaStatus.CountsIn (file : EccFile) (st : McaStatus) : Prop :=
  st.Valid ∧ countedIn st.lo = some file

instance (file : EccFile) (st : McaStatus) : Decidable (st.CountsIn file) :=
  inferInstanceAs (Decidable (_ ∧ _))

theorem procfsAdd_eq {gCnt : Nat} (h : gCnt < 2 ^ 64) : procfsAdd gCnt = (gCnt + 1) % 2 ^ 64 := by
  unfold procfsAdd
  split_ifs with hlast
  · rw [Nat.mod_eq_of_lt (by omega)]
  · have hmax : gCnt + 1 = 2 ^ 64 := by omega
    rw [hmax, Nat.mod_self]

-- One bank adds one to the file it counts in, and nothing to the other.
theorem mcamceCheckBank_apply (acc : Int × (EccFile → Nat)) (st : McaStatus) (file : EccFile) :
    (mcamceCheckBank acc st).2 file =
      if st.CountsIn file then procfsAdd (acc.2 file) else acc.2 file := by
  obtain ⟨ret, gCnt⟩ := acc
  unfold mcamceCheckBank McaStatus.CountsIn
  by_cases hvalid : st.Valid
  · simp only [hvalid, true_and]
    cases hfile : countedIn st.lo with
    | none => simp
    | some f =>
        by_cases hf : f = file
        · subst hf
          simp
        · simp [hf, Function.update_of_ne (Ne.symm hf)]
  · simp [hvalid]

-- A poll adds the number of banks that count in the file, in 64 bits.
theorem mcamceCheck_apply (banks : List McaStatus) {gCnt : EccFile → Nat} (file : EccFile)
    (h : gCnt file < 2 ^ 64) :
    (mcamceCheck banks gCnt).2 file =
      (gCnt file + banks.countP fun st => st.CountsIn file) % 2 ^ 64 := by
  have hloop : ∀ (acc : Int × (EccFile → Nat)), acc.2 file < 2 ^ 64 →
      (banks.foldl mcamceCheckBank acc).2 file =
        (acc.2 file + banks.countP fun st => st.CountsIn file) % 2 ^ 64 := by
    induction banks with
    | nil =>
        intro acc hacc
        exact (Nat.mod_eq_of_lt hacc).symm
    | cons st banks ih =>
        intro acc hacc
        have hone := mcamceCheckBank_apply acc st file
        rw [List.foldl_cons, List.countP_cons]
        by_cases hcounts : st.CountsIn file
        · rw [if_pos hcounts, procfsAdd_eq hacc] at hone
          rw [ih _ (by rw [hone]; exact Nat.mod_lt _ (by decide)), hone]
          simp only [hcounts, decide_true, if_true]
          omega
        · rw [if_neg hcounts] at hone
          rw [ih _ (by rwa [hone]), hone]
          simp [hcounts]
  exact hloop (0, gCnt) h

/-- The file that an error belongs to; a tag parity error is a cache error. -/
def errorIn (lo : BitVec 32) : Option EccFile :=
  if lo &&& 0xffff ≠ 0 then simpleError lo
  else if lo &&& (1#32 <<< 16) ≠ 0 then some .cecc
  else none

def TagParity (lo : BitVec 32) : Prop := lo &&& 0xffff = 0 ∧ lo &&& (1#32 <<< 16) ≠ 0

instance (lo : BitVec 32) : Decidable (TagParity lo) := inferInstanceAs (Decidable (_ ∧ _))

-- The code compares the tag parity bit with 1, which bit 16 never is.
theorem countedIn_of_no_simple {lo : BitVec 32} (h : lo &&& 0xffff = 0) : countedIn lo = none := by
  have hbit : ¬ 1 = lo &&& (1#32 <<< 16) := by
    intro hone
    have hzero := congrArg (fun v => v.getLsbD 0) hone
    simp at hzero
  rw [countedIn, if_neg (not_not.mpr h), if_neg hbit]

theorem countedIn_eq_errorIn {lo : BitVec 32} : countedIn lo = errorIn lo ↔ ¬ TagParity lo := by
  by_cases hsimple : lo &&& 0xffff = 0
  · rw [countedIn_of_no_simple hsimple, errorIn, if_neg (not_not.mpr hsimple)]
    by_cases hbit : lo &&& (1#32 <<< 16) ≠ 0
    · rw [if_pos hbit]
      exact iff_of_false (by simp) (not_not.mpr ⟨hsimple, hbit⟩)
    · rw [if_neg hbit]
      exact iff_of_true rfl fun h => hbit h.2
  · rw [countedIn, errorIn, if_pos hsimple, if_pos hsimple]
    exact iff_of_true rfl fun h => hsimple h.1

/-! ## Arrivals, polls and resets -/

/-- A bank; `fresh` if no poll has seen it since its last arrival. -/
structure McaBank where
  status : McaStatus
  fresh : Bool
deriving DecidableEq

/-- The banks and the two counters, with the numbers of errors that have arrived since the last
reset of each. -/
structure Mca where
  banks : List McaBank
  gCnt : EccFile → Nat
  arrived : EccFile → Nat

/-- A loaded module; the banks hold whatever they held before. -/
def Mca.loaded (banks : List McaStatus) : Mca :=
  ⟨banks.map fun st => ⟨st, false⟩, fun _ => 0, fun _ => 0⟩

/-- An error arrives with a valid status; a reset does nothing if it is interrupted at the
semaphore. -/
inductive McaEvent where
  | arrive (bank : Nat) (st : {st : McaStatus // st.Valid})
  | poll
  | reset (file : EccFile) (interrupted : Bool)

/-- An error of the file is waiting in the bank for its first poll. -/
def McaBank.Waiting (file : EccFile) (bank : McaBank) : Prop :=
  bank.fresh = true ∧ errorIn bank.status.lo = some file

instance (file : EccFile) (bank : McaBank) : Decidable (bank.Waiting file) :=
  inferInstanceAs (Decidable (_ ∧ _))

def Mca.waiting (s : Mca) (file : EccFile) : Nat := s.banks.countP fun bank => bank.Waiting file

/-- No error arrives in a bank before its last one has been polled. -/
def Mca.step (s : Mca) : McaEvent → Option Mca
  | .arrive i st =>
      match s.banks[i]? with
      | some bank =>
          if bank.fresh then none
          else some { s with
            banks := s.banks.set i ⟨st, true⟩
            arrived := fun file => s.arrived file + if errorIn st.val.lo = some file then 1 else 0 }
      | none => none
  | .poll => some { s with
      banks := s.banks.map fun bank => { bank with fresh := false }
      gCnt := (mcamceCheck (s.banks.map McaBank.status) s.gCnt).2 }
  | .reset file interrupted =>
      if interrupted then some s
      else some { s with
        gCnt := Function.update s.gCnt file 0
        arrived := Function.update s.arrived file 0 }

/-- The counters are the numbers of arrivals, up to those that wait for their first poll, and a poll
counts a bank exactly if it is fresh. -/
def Mca.CountsOnce (s : Mca) (ev : McaEvent) : Prop :=
  (∀ s', s.step ev = some s' → ∀ file, s'.gCnt file + s'.waiting file = s'.arrived file) ∧
    (ev = .poll → ∀ bank ∈ s.banks, ∀ file, bank.status.CountsIn file ↔ bank.Waiting file)

/-- A poll finds no counted error that an earlier one has seen, no fresh tag parity error, and room in
the counters; a reset finds no error of its file waiting. -/
def Mca.Countable (s : Mca) : McaEvent → Prop
  | .arrive _ _ => True
  | .poll => (∀ bank ∈ s.banks, if bank.fresh then ¬ TagParity bank.status.lo
        else ∀ file, ¬ bank.status.CountsIn file) ∧
      ∀ file, s.gCnt file + s.waiting file < 2 ^ 64
  | .reset file interrupted => interrupted = true ∨ s.waiting file = 0

/-- What a run that counts once keeps. -/
structure Mca.Counted (s : Mca) : Prop where
  total : ∀ file, s.gCnt file + s.waiting file = s.arrived file
  small : ∀ file, s.gCnt file < 2 ^ 64
  fresh : ∀ bank ∈ s.banks, bank.fresh = true → bank.status.Valid

/-! ## Which runs count once -/

section Steps

variable {s s' : Mca}

-- One bank is counted as it should be if it waits and is not a tag parity error, or counts nowhere.
theorem counted_bank_iff {bank : McaBank} (hvalid : bank.fresh = true → bank.status.Valid) :
    (∀ file, bank.status.CountsIn file ↔ bank.Waiting file) ↔
      if bank.fresh then ¬ TagParity bank.status.lo else ∀ file, ¬ bank.status.CountsIn file := by
  cases hfresh : bank.fresh with
  | true =>
      simp only [McaStatus.CountsIn, McaBank.Waiting, hvalid hfresh, hfresh, true_and, if_true]
      rw [← Option.ext_iff]
      exact countedIn_eq_errorIn
  | false => simp [McaBank.Waiting, hfresh]

-- An arrival meets a bank that has been polled since its last one.
theorem step_arrive {i : Nat} {st : {st : McaStatus // st.Valid}}
    (h : s.step (.arrive i st) = some s') :
    ∃ hi : i < s.banks.length, s.banks[i].fresh = false ∧ s' = { s with
      banks := s.banks.set i ⟨st, true⟩
      arrived := fun file => s.arrived file + if errorIn st.val.lo = some file then 1 else 0 } := by
  rw [Mca.step] at h
  cases hbank : s.banks[i]? with
  | none => simp [hbank] at h
  | some bank =>
      obtain ⟨hi, rfl⟩ := List.getElem?_eq_some_iff.mp hbank
      cases hfresh : s.banks[i].fresh with
      | true => simp [hbank, hfresh] at h
      | false =>
          simp only [hbank, hfresh, Bool.false_eq_true, if_false] at h
          exact ⟨hi, hfresh, (Option.some.inj h).symm⟩

theorem waiting_arrive {i : Nat} {st : {st : McaStatus // st.Valid}}
    (h : s.step (.arrive i st) = some s') (file : EccFile) :
    s'.waiting file = s.waiting file + if errorIn st.val.lo = some file then 1 else 0 := by
  obtain ⟨hi, hfresh, rfl⟩ := step_arrive h
  have hold : decide (s.banks[i].Waiting file) = false := by
    simp [McaBank.Waiting, hfresh]
  have hnew : decide (McaBank.Waiting file ⟨st, true⟩) = decide (errorIn st.val.lo = some file) := by
    simp [McaBank.Waiting]
  rw [Mca.waiting, List.countP_set hi, hold, hnew]
  simp [Mca.waiting]

-- After a poll nothing waits.
theorem waiting_poll (h : s.step .poll = some s') (file : EccFile) : s'.waiting file = 0 := by
  obtain rfl := Option.some.inj h
  rw [Mca.waiting, List.countP_eq_zero]
  intro bank hbank
  obtain ⟨old, -, rfl⟩ := List.mem_map.mp hbank
  simp [McaBank.Waiting]

-- A poll that counts every bank as it should adds what waits.
theorem gCnt_poll (h : s.step .poll = some s') (hs : s.Counted)
    (hbanks : ∀ bank ∈ s.banks, ∀ file, bank.status.CountsIn file ↔ bank.Waiting file)
    (file : EccFile) : s'.gCnt file = (s.gCnt file + s.waiting file) % 2 ^ 64 := by
  obtain rfl := Option.some.inj h
  have hcount : (s.banks.map McaBank.status).countP (fun st => st.CountsIn file) =
      s.waiting file := by
    rw [List.countP_map, Mca.waiting]
    apply List.countP_congr
    intro bank hbank
    simpa using hbanks bank hbank file
  show (mcamceCheck (s.banks.map McaBank.status) s.gCnt).2 file = _
  rw [mcamceCheck_apply _ file (hs.small file), hcount]

theorem countsOnce_poll (hs : s.Counted) : s.CountsOnce .poll ↔ s.Countable .poll := by
  obtain ⟨s', hstep⟩ : ∃ s', s.step .poll = some s' := ⟨_, rfl⟩
  have harrived : s'.arrived = s.arrived := by
    obtain rfl := Option.some.inj hstep
    rfl
  have hbanks : (∀ bank ∈ s.banks, ∀ file, bank.status.CountsIn file ↔ bank.Waiting file) ↔
      ∀ bank ∈ s.banks, if bank.fresh then ¬ TagParity bank.status.lo
        else ∀ file, ¬ bank.status.CountsIn file :=
    forall_congr' fun bank => forall_congr' fun hbank => counted_bank_iff (hs.fresh bank hbank)
  -- with the right banks counted, only a counter that wraps goes wrong
  have htotal (hcounts : ∀ bank ∈ s.banks, ∀ file, bank.status.CountsIn file ↔ bank.Waiting file)
      (file : EccFile) :
      s'.gCnt file + s'.waiting file = s'.arrived file ↔ s.gCnt file + s.waiting file < 2 ^ 64 := by
    rw [gCnt_poll hstep hs hcounts, waiting_poll hstep, harrived, ← hs.total file, Nat.add_zero]
    exact Nat.mod_eq_iff_lt (by decide)
  constructor
  · rintro ⟨hstates, hpoll⟩
    have hcounts := hpoll rfl
    exact ⟨hbanks.mp hcounts, fun file => (htotal hcounts file).mp (hstates s' hstep file)⟩
  · rintro ⟨hcond, hroom⟩
    have hcounts := hbanks.mpr hcond
    refine ⟨?_, fun _ => hcounts⟩
    intro t ht file
    obtain rfl : s' = t := Option.some.inj (hstep.symm.trans ht)
    exact (htotal hcounts file).mpr (hroom file)

theorem countsOnce_reset (hs : s.Counted) (file : EccFile) (interrupted : Bool) :
    s.CountsOnce (.reset file interrupted) ↔ s.Countable (.reset file interrupted) := by
  cases interrupted with
  | true =>
      refine iff_of_true ⟨?_, by simp⟩ (Or.inl rfl)
      rintro _ ⟨⟩
      exact hs.total
  | false =>
      constructor
      · intro hcounts
        have hzero := hcounts.1 _ rfl file
        simp only [Function.update_self, Nat.zero_add] at hzero
        exact Or.inr hzero
      · intro hcond
        have hnone : s.waiting file = 0 := by simpa [Mca.Countable] using hcond
        refine ⟨?_, by simp⟩
        rintro _ ⟨⟩ other
        by_cases hother : other = file
        · subst hother
          simp only [Function.update_self, Nat.zero_add]
          exact hnone
        · simp only [Function.update_of_ne hother]
          exact hs.total other

theorem countsOnce_iff (ev : McaEvent) (hs : s.Counted) : s.CountsOnce ev ↔ s.Countable ev := by
  cases ev with
  | poll => exact countsOnce_poll hs
  | reset file interrupted => exact countsOnce_reset hs file interrupted
  | arrive i st =>
      refine iff_of_true ⟨?_, by simp⟩ trivial
      intro s' hstep file
      have hwaiting := waiting_arrive hstep file
      obtain ⟨-, -, rfl⟩ := step_arrive hstep
      have htotal := hs.total file
      simp only [hwaiting]
      omega

theorem counted_step (ev : McaEvent) (hcounts : s.CountsOnce ev) (hs : s.Counted)
    (hstep : s.step ev = some s') : s'.Counted := by
  refine ⟨hcounts.1 s' hstep, ?_, ?_⟩
  · intro file
    cases ev with
    | arrive i st =>
        obtain ⟨-, -, rfl⟩ := step_arrive hstep
        exact hs.small file
    | poll =>
        rw [gCnt_poll hstep hs (hcounts.2 rfl)]
        exact Nat.mod_lt _ (by decide)
    | reset other interrupted =>
        cases interrupted with
        | true =>
            obtain rfl := Option.some.inj hstep
            exact hs.small file
        | false =>
            obtain rfl := Option.some.inj hstep
            by_cases hother : file = other
            · subst hother
              simp
            · simp only [Function.update_of_ne hother]
              exact hs.small file
  · intro bank hbank hfresh
    cases ev with
    | arrive i st =>
        obtain ⟨-, -, rfl⟩ := step_arrive hstep
        rcases List.mem_or_eq_of_mem_set hbank with hold | rfl
        · exact hs.fresh bank hold hfresh
        · exact st.property
    | poll =>
        obtain rfl := Option.some.inj hstep
        obtain ⟨old, -, rfl⟩ := List.mem_map.mp hbank
        exact absurd hfresh (by simp)
    | reset other interrupted =>
        cases interrupted with
        | true =>
            obtain rfl := Option.some.inj hstep
            exact hs.fresh bank hbank hfresh
        | false =>
            obtain rfl := Option.some.inj hstep
            exact hs.fresh bank hbank hfresh

end Steps

theorem counted_loaded (banks : List McaStatus) : (Mca.loaded banks).Counted := by
  refine ⟨?_, ?_, ?_⟩
  · intro file
    have hnone : (Mca.loaded banks).waiting file = 0 := by
      rw [Mca.waiting, List.countP_eq_zero]
      intro bank hbank
      obtain ⟨st, -, rfl⟩ := List.mem_map.mp hbank
      simp [McaBank.Waiting]
    rw [hnone]
    rfl
  · intro file
    exact Nat.pos_of_ne_zero (by decide)
  · intro bank hbank hfresh
    obtain ⟨st, -, rfl⟩ := List.mem_map.mp hbank
    exact absurd hfresh (by simp)

/-- A run of arrivals, polls and resets counts every error once exactly if each of its polls finds
only errors that no poll has seen before, or that are not counted at all. -/
theorem mcamce_counts_once_iff (banks : List McaStatus) (evs : List McaEvent) :
    EachStep Mca.step Mca.CountsOnce (.loaded banks) evs ↔
      EachStep Mca.step Mca.Countable (.loaded banks) evs :=
  EachStep.congr (fun _ ev _ hcounts hs hstep => counted_step ev hcounts hs hstep)
    (fun _ ev hs => countsOnce_iff ev hs) (counted_loaded banks)

/-- The counters after a run. -/
def countersAfter (banks : List McaStatus) (evs : List McaEvent) : Option (Nat × Nat) :=
  (evs.foldlM Mca.step (.loaded banks)).map fun s => (s.gCnt .mecc, s.gCnt .cecc)

/-- One memory error and two polls make two, and a tag parity error makes none. -/
theorem mcamce_miscounts :
    countersAfter [⟨0, 0⟩] [.arrive 0 ⟨⟨0x0100, 0x80000000⟩, by decide⟩, .poll, .poll] =
        some (2, 0) ∧
      countersAfter [⟨0, 0⟩] [.arrive 0 ⟨⟨0x10000, 0x80000000⟩, by decide⟩, .poll] =
        some (0, 0) ∧
      ¬ EachStep Mca.step Mca.CountsOnce (.loaded [⟨0, 0⟩])
        [.arrive 0 ⟨⟨0x0100, 0x80000000⟩, by decide⟩, .poll, .poll] := by
  refine ⟨by decide, by decide, ?_⟩
  rintro ⟨-, hrest⟩
  obtain ⟨-, hrest⟩ := hrest _ rfl
  obtain ⟨hcounts, -⟩ := hrest _ rfl
  exact absurd (hcounts.1 _ rfl .mecc) (by decide)

end MoBoMemory.AbsDiag
