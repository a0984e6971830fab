import MoBoMemory.TestLib.AddrWalk

/-!
# The banks that are probed

The second phase of item 0 checks the address bits in each bank of 1 MiB.  Its pointer is one to words, so
that `p += bank` leaves eight banks behind, and only a block with no second bank is probed in all of them.
-/

namespace MoBoMemory.TestLib

open Base

/-! ## The rounds -/

section Rounds

variable {σ γ : Type}

/-- The rounds over the banks, with any `turn` for what is done to the memory at a base word. -/
def bankRounds (turn : UL → Nat → Scan σ γ → Scan σ γ) (fuel startP cnt : Nat) : Nat → UL → Part σ γ
  | 0, _ => Part.stop startP
  | n + 1, p1 =>
      let stop := ptrAdd startP cnt
      Part.andThen (walk (fun p => decide (p < stop)) (nextBank stop)
        (fun p s => (turn p1 p s, false)) fuel (roundup startP (bank - 1))) fun p =>
      (Part.bail p).andThen fun _ =>
      bankRounds turn fuel startP cnt n (~~~p1)

theorem bankBits_eq_rounds (bus : Bus σ) (fuel startP cnt : Nat) (noComp : Int) (n : Nat) (p1 : UL) :
    bankBits bus fuel startP cnt noComp n p1 =
      bankRounds (fun p1 => walkOnes bus noComp (ptrAdd startP cnt) p1 50 200) fuel startP cnt n p1 := by
  induction n generalizing p1 with
  | zero => rfl
  | succ n ih => rw [bankBits, bankRounds, ih]

end Rounds

/-- A turn that only notes the base word, and the pattern which is stored there first. -/
def noteBase (p1 : UL) (p : Nat) (s : Scan (List (UL × Nat)) Unit) : Scan (List (UL × Nat)) Unit :=
  { s with mem := s.mem ++ [(p1, p)] }

/-- The base words of both rounds. -/
def probed (fuel startP cnt : Nat) : Option (List (UL × Nat)) :=
  (bankRounds noteBase fuel startP cnt 2 0 ⟨[], errSuccess, ()⟩).map fun out => out.1.mem

/-- The banks of the block: its words at multiples of 1 MiB. -/
def Block.banks (b : Block) : List Nat := b.addrs.filter fun p => decide (bank ∣ p)

/-- Both rounds end, and each has had every bank of the block as a base word once, in ascending order. -/
def ProbesEveryBank (b : Block) : Prop :=
  ∃ fuel₀, ∀ fuel, fuel₀ ≤ fuel →
    probed fuel b.start b.cnt = some (b.banks.map (fun p => (0, p)) ++ b.banks.map fun p => (~~~0, p))

theorem Block.mem_banks (b : Block) {p : Nat} :
    p ∈ b.banks ↔ b.start ≤ p ∧ p < b.start + 8 * b.cnt ∧ bank ∣ p := by
  rw [Block.banks, List.mem_filter, b.mem_addrs, decide_eq_true_eq]
  constructor
  · rintro ⟨⟨hlow, hhigh, -⟩, hbank⟩
    exact ⟨hlow, hhigh, hbank⟩
  · rintro ⟨hlow, hhigh, hbank⟩
    exact ⟨⟨hlow, hhigh, (show 8 ∣ bank by decide).trans hbank⟩, hbank⟩

theorem Block.pairwise_banks (b : Block) : b.banks.Pairwise (· < ·) :=
  b.pairwise_addrs.filter _

/-! ## One round -/

theorem sweep_noteBase (p1 : UL) (ps : List Nat) (s : Scan (List (UL × Nat)) Unit) :
    sweep (fun p s => (noteBase p1 p s, false)) ps s =
      ({ s with mem := s.mem ++ ps.map fun p => (p1, p) }, false) := by
  induction ps generalizing s with
  | nil => simp [sweep]
  | cons p ps ih =>
      rw [sweep, if_neg (by simp), ih, noteBase]
      simp

theorem bankRounds_noteBase {startP cnt q : Nat} {ps : List Nat}
    (hvisits : VisitsTo (fun p => decide (p < ptrAdd startP cnt)) (nextBank (ptrAdd startP cnt))
      (roundup startP (bank - 1)) ps q) {fuel : Nat} (hfuel : ps.length < fuel) (n : Nat) (p1 : UL)
    (notes : List (UL × Nat)) :
    bankRounds noteBase fuel startP cnt (n + 1) p1 ⟨notes, errSuccess, ()⟩ =
      bankRounds noteBase fuel startP cnt n (~~~p1)
        ⟨notes ++ ps.map fun p => (p1, p), errSuccess, ()⟩ := by
  rw [bankRounds, Part.andThen, walk_eq_sweepTo hvisits hfuel, sweepTo, sweep_noteBase]
  rfl

theorem probed_eq {startP cnt : Nat} {ps : List Nat}
    (hvisits : Visits (fun p => decide (p < ptrAdd startP cnt)) (nextBank (ptrAdd startP cnt))
      (roundup startP (bank - 1)) ps) {fuel : Nat} (hfuel : ps.length < fuel) :
    probed fuel startP cnt = some (ps.map (fun p => (0, p)) ++ ps.map fun p => (~~~0, p)) := by
  obtain ⟨q, hvisits⟩ := hvisits.visitsTo
  rw [probed, bankRounds_noteBase hvisits hfuel, bankRounds_noteBase hvisits hfuel]
  rfl

-- What is probed is what the header lets through.
theorem probesEveryBank_iff_visits {b : Block} {ps : List Nat}
    (hvisits : Visits (fun p => decide (p < ptrAdd b.start b.cnt)) (nextBank (ptrAdd b.start b.cnt))
      (roundup b.start (bank - 1)) ps) :
    ProbesEveryBank b ↔ ps = b.banks := by
  constructor
  · rintro ⟨fuel₀, hprobed⟩
    have hboth := hprobed (fuel₀ + ps.length + 1) (by omega)
    rw [probed_eq hvisits (by omega)] at hboth
    have hlength := congrArg List.length (Option.some.inj hboth)
    simp only [List.length_append, List.length_map] at hlength
    have hfirst := (List.append_inj (Option.some.inj hboth) (by simp; omega)).1
    exact List.map_injective_iff.mpr (fun p q heq => congrArg Prod.snd heq) hfirst
  · rintro rfl
    exact ⟨b.banks.length + 1, fun fuel hfuel => probed_eq hvisits hfuel⟩

/-! ## The header -/

theorem lt_nextBank {stop p : Nat} (hp : p < stop) : p < nextBank stop p := by
  unfold nextBank
  split
  · assumption
  · exact hp

-- Each turn climbs, also where `p + bank` wraps around.
theorem exists_visits_nextBank (stop p : Nat) :
    ∃ ps, Visits (fun p => decide (p < stop)) (nextBank stop) p ps := by
  induction hleft : stop - p using Nat.strong_induction_on generalizing p with
  | h left ih =>
      by_cases hp : p < stop
      · have hclimbs := lt_nextBank hp
        obtain ⟨ps, hrest⟩ := ih (stop - nextBank stop p) (by omega) _ rfl
        exact ⟨p :: ps, .step (by simpa using hp) hrest⟩
      · exact ⟨[], .stop (by simpa using hp)⟩

-- Behind the first base word there are none before the end or the eighth bank from it.
theorem le_nextBank {stop p : Nat} (hstop : stop < 2 ^ 64) (hp : p < stop) :
    min stop (p + 8 * bank) ≤ nextBank stop p := by
  unfold nextBank ptrAdd bank
  split <;> omega

theorem visits_nextBank_ge {stop p : Nat} {ps : List Nat}
    (hvisits : Visits (fun p => decide (p < stop)) (nextBank stop) p ps) : ∀ r ∈ ps, p ≤ r := by
  induction hvisits with
  | stop => exact fun r hr => absurd hr List.not_mem_nil
  | @step p ps hgo hrest ih =>
      have hclimbs := lt_nextBank (of_decide_eq_true hgo)
      intro r hr
      rcases List.mem_cons.mp hr with rfl | hr
      · exact le_rfl
      · exact (Nat.le_of_lt hclimbs).trans (ih r hr)

/-! ## The first bank -/

theorem roundup_bank {startP : Nat} (hfits : startP + (bank - 1) < 2 ^ 64) :
    startP ≤ roundup startP (bank - 1) ∧ bank ∣ roundup startP (bank - 1) ∧
      ∀ p, startP ≤ p → bank ∣ p → roundup startP (bank - 1) ≤ p := by
  have hround := @roundup_eq startP 20 (by decide) hfits
  rw [show 2 ^ 20 - 1 = bank - 1 from rfl] at hround
  rw [hround]
  unfold bank
  refine ⟨by omega, by omega, fun p hp hbank => ?_⟩
  omega

-- In the last bank of the address space the sum wraps around, and the walk begins at address 0.
theorem roundup_bank_wraps {startP : Nat} (hwraps : 2 ^ 64 ≤ startP + (bank - 1))
    (hstart : startP < 2 ^ 64) : roundup startP (bank - 1) = 0 := by
  have hsmall : (startP + (bank - 1)) % 2 ^ 64 < 2 ^ 20 := by
    unfold bank at hwraps ⊢
    omega
  unfold roundup
  rw [show 2 ^ 64 - (bank - 1 + 1) = (2 ^ 44 - 1) * 2 ^ 20 by decide]
  generalize (startP + (bank - 1)) % 2 ^ 64 = x at hsmall
  apply Nat.eq_of_testBit_eq
  intro i
  rw [← Nat.shiftLeft_eq, Nat.testBit_and, Nat.testBit_shiftLeft, Nat.zero_testBit]
  by_cases hi : 20 ≤ i
  · have hbit : x.testBit i = false :=
      Nat.testBit_lt_two_pow (lt_of_lt_of_le hsmall (Nat.pow_le_pow_right (by decide) hi))
    simp [hbit]
  · simp [hi]

/-! ## Which blocks are probed -/

section Probed

variable {b : Block}

-- With a second bank there is one that is skipped; the walk does not even begin in the block if the sum
-- wraps around.
theorem bank_missed (hmore : roundup b.start (bank - 1) + bank < ptrAdd b.start b.cnt) :
    ¬ ProbesEveryBank b := by
  have hwrap := b.noWrap
  have hpos := b.start_pos
  obtain ⟨ps, hvisits⟩ := exists_visits_nextBank (ptrAdd b.start b.cnt) (roundup b.start (bank - 1))
  rw [probesEveryBank_iff_visits hvisits]
  intro hall
  rw [b.end_eq] at hmore hvisits
  generalize hfirst : roundup b.start (bank - 1) = first at hmore hvisits
  by_cases hfits : b.start + (bank - 1) < 2 ^ 64
  · obtain ⟨hle, hbank, -⟩ := roundup_bank hfits
    rw [hfirst] at hle hbank
    have hsecond : first + bank ∈ ps := by
      rw [hall]
      exact b.mem_banks.mpr ⟨by omega, hmore, Nat.dvd_add_self_right.mpr hbank⟩
    cases hvisits with
    | stop hstop => exact absurd hsecond List.not_mem_nil
    | @step _ ps hgo hrest =>
        have hjump := le_nextBank hwrap (of_decide_eq_true hgo)
        rcases List.mem_cons.mp hsecond with heq | hrest'
        · unfold bank at heq
          omega
        · have hge := visits_nextBank_ge hrest _ hrest'
          unfold bank at hge hjump hmore
          omega
  · have hzero := roundup_bank_wraps (Nat.not_lt.mp hfits) (by omega)
    rw [hfirst] at hzero
    have hin : first ∈ ps := by
      cases hvisits with
      | stop hstop =>
          rw [decide_eq_false_iff_not] at hstop
          omega
      | step => exact List.mem_cons_self
    rw [hall] at hin
    have hlow := (b.mem_banks.mp hin).1
    omega

theorem banks_probed (hone : ptrAdd b.start b.cnt ≤ roundup b.start (bank - 1) + bank) :
    ProbesEveryBank b := by
  have hwrap := b.noWrap
  obtain ⟨ps, hvisits⟩ := exists_visits_nextBank (ptrAdd b.start b.cnt) (roundup b.start (bank - 1))
  rw [probesEveryBank_iff_visits hvisits]
  rw [b.end_eq] at hone hvisits
  have hcnt := b.cnt_pos
  have hfits : b.start + (bank - 1) < 2 ^ 64 := by
    by_contra hwraps
    rw [roundup_bank_wraps (Nat.not_lt.mp hwraps) (by omega)] at hone
    unfold bank at hone hwraps
    omega
  obtain ⟨hle, hbank, hleast⟩ := roundup_bank hfits
  generalize hfirst : roundup b.start (bank - 1) = first at *
  cases hvisits with
  | stop hstop =>
      rw [decide_eq_false_iff_not] at hstop
      have hnone : ∀ p, p ∉ b.banks := by
        intro p hp
        obtain ⟨hlow, hhigh, hp⟩ := b.mem_banks.mp hp
        have := hleast p hlow hp
        omega
      exact (List.eq_nil_iff_forall_not_mem.mpr hnone).symm
  | @step _ ps hgo hrest =>
      rw [decide_eq_true_eq] at hgo
      have hjump := le_nextBank hwrap hgo
      have hnil : ps = [] := hrest.nil_of_stop (decide_eq_false (by omega))
      rw [hnil]
      apply List.Pairwise.eq_of_mem_iff (r := (· < ·)) (by simp) b.pairwise_banks
      intro p
      rw [List.mem_singleton, b.mem_banks]
      constructor
      · rintro rfl
        exact ⟨hle, hgo, hbank⟩
      · rintro ⟨hlow, hhigh, hp⟩
        have hge := hleast p hlow hp
        unfold bank at *
        omega

end Probed

/-- Every bank is probed just in the blocks that end at most one bank behind their first one. -/
theorem probesEveryBank_iff (b : Block) :
    ProbesEveryBank b ↔ ptrAdd b.start b.cnt ≤ roundup b.start (bank - 1) + bank := by
  refine ⟨fun hevery => ?_, banks_probed⟩
  by_contra hmore
  exact bank_missed (Nat.not_le.mp hmore) hevery

/-- One page more than a bank, from a bank on. -/
def twoBanks : Block := ⟨0x100000, 131584, by decide, by decide, by decide, by decide⟩

theorem twoBanks_missed :
    4096 ∣ twoBanks.start ∧ 4096 ∣ 8 * twoBanks.cnt ∧ ¬ ProbesEveryBank twoBanks :=
  ⟨by decide, by decide, bank_missed (by decide)⟩

end MoBoMemory.TestLib
