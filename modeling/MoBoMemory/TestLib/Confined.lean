import MoBoMemory.TestLib.Aliases
import MoBoMemory.TestLib.Banks
import MoBoMemory.TestLib.BlockMove
import MoBoMemory.TestLib.MovInvLong
import MoBoMemory.TestLib.Modulo
import MoBoMemory.TestLib.Sessions
import MoBoMemory.TestLib.Unflagged

/-!
# Tests stay in their blocks

Every test but the one with random addresses is a dialogue about the words of its block, whatever the
memory answers: it comes to an end, and no access is to a word outside.
-/

namespace MoBoMemory.TestLib

open Base

/-! ## Moving inversions -/

section MovInv

variable (b : Block) (noComp : Int)

theorem movinv1Rounds_spoken (p1 p2 : UL) {fuel : Nat} (hfuel : b.cnt < fuel) (n p : Nat) :
    ∃ q, SpokenPart (· ∈ b.addrs)
      (fun _ bus => movinv1Rounds bus.toBus fuel b.start b.cnt noComp p1 p2 n p) q := by
  induction n generalizing p with
  | zero => exact ⟨p, stop_spoken p⟩
  | succ n ih =>
      obtain ⟨q₁, hup⟩ := passUp_block_spoken false (t := fun _ p => ⟨p, expect noComp p1, some p2⟩) id b
        (fun (_ : Unit) _ => rfl) stop_spoken hfuel
      obtain ⟨q₂, hdown⟩ := passDown_block_spoken false
        (t := fun _ p => ⟨p, expect noComp p2, some p1⟩) id b (fun (_ : Unit) _ => rfl) stop_spoken hfuel
      obtain ⟨q₃, hrest⟩ := ih q₂
      exact ⟨q₃, hup.andThen (hdown.andThen hrest)⟩

theorem movinv1_spoken (iter : Nat) (p1 p2 : UL) :
    SpokenTest (· ∈ b.addrs) b.cnt fun _ fuel bus mem =>
      (movinv1 bus.toBus fuel b.start b.cnt noComp iter p1 p2).test () mem := by
  refine spokenTest_of_part (fun fuel hfuel => ?_) ()
  obtain ⟨q₁, hfill⟩ := passUp_block_spoken false (t := fun _ p => ⟨p, none, some p1⟩) id b
    (fun (_ : Unit) _ => rfl) stop_spoken hfuel
  obtain ⟨q₂, hrounds⟩ := movinv1Rounds_spoken b noComp p1 p2 hfuel iter q₁
  exact ⟨q₂, hfill.andThen hrounds⟩

end MovInv

section MovInvTests

variable (b : Block) (iter : Nat) (noComp : Int)

theorem testMovinv10_spoken :
    SpokenTest (· ∈ b.addrs) b.cnt (testMovinv10 b.start (8 * b.cnt) iter noComp) := by
  unfold testMovinv10
  rw [cnt_of_bytes]
  exact (movinv1_spoken b noComp iter 0 (~~~0)).thenTest _
    ((movinv1_spoken b noComp iter (~~~0) 0).thenTest _ done_spoken)

theorem movinv8bitRounds_spoken (n : Nat) (p0 : UL) :
    SpokenTest (· ∈ b.addrs) b.cnt (movinv8bitRounds b.start (8 * b.cnt) iter noComp n p0) := by
  induction n generalizing p0 with
  | zero => exact done_spoken
  | succ n ih =>
      unfold movinv8bitRounds
      rw [cnt_of_bytes]
      exact (movinv1_spoken b noComp iter _ _).thenTest _
        ((movinv1_spoken b noComp iter _ _).thenTest _ (ih (p0 >>> 1)))

theorem movinvRandomRounds_spoken (n : Nat) (r : Prandr) :
    SpokenTest (· ∈ b.addrs) b.cnt (movinvRandomRounds b.start (8 * b.cnt) noComp n r) := by
  induction n generalizing r with
  | zero => exact done_spoken
  | succ n ih =>
      unfold movinvRandomRounds
      rw [cnt_of_bytes]
      exact (movinv1_spoken b noComp 2 _ _).thenTest _ (ih _)

end MovInvTests

/-! ## Changing patterns -/

section Movinv32

variable (b : Block) (noComp : Int) (p1 lb hb sval : UL)

theorem movinv32Rounds_spoken (off : Int) {fuel : Nat} (hfuel : b.cnt < fuel) (n p : Nat) :
    ∃ q, SpokenPart (· ∈ b.addrs)
      (fun _ bus => movinv32Rounds bus.toBus fuel b.start b.cnt noComp p1 lb hb sval off n p) q := by
  induction n generalizing p with
  | zero => exact ⟨p, stop_spoken p⟩
  | succ n ih =>
      obtain ⟨q₁, hup⟩ := passUp_block_spoken false (t := fun g p => ⟨p, expect noComp g.pat, some (~~~g.pat)⟩)
        (forwardPattern lb sval) b (fun _ _ => rfl) bail_spoken hfuel
      obtain ⟨q₂, hdown⟩ := passDown_block_spoken false
        (t := fun g p => ⟨p, expect noComp (~~~g.pat), some g.pat⟩) (backwardPattern hb sval) b
        (fun _ _ => rfl) bail_spoken hfuel
      obtain ⟨q₃, hrest⟩ := ih q₂
      refine ⟨q₃, ?_⟩
      simp only [movinv32Rounds]
      refine (hup.regen fun _ => ⟨off, p1⟩).andThen ?_
      exact (hdown.regen (backUpPattern lb sval)).andThen hrest

theorem movinv32_spoken (iter : Nat) (off : Int) (gen : Pattern) :
    SpokenTest (· ∈ b.addrs) b.cnt fun _ fuel bus mem =>
      (movinv32 bus.toBus fuel b.start b.cnt noComp iter p1 lb hb sval off).test gen mem := by
  refine spokenTest_of_part (fun fuel hfuel => ?_) gen
  obtain ⟨q₁, hfill⟩ := passUp_block_spoken false (t := fun g p => ⟨p, none, some g.pat⟩)
    (forwardPattern lb sval) b (fun _ _ => rfl) stop_spoken hfuel
  obtain ⟨q₂, hrounds⟩ := movinv32Rounds_spoken b noComp p1 lb hb sval off hfuel iter q₁
  refine ⟨q₂, ?_⟩
  simp only [movinv32]
  refine (hfill.regen fun _ => ⟨off, p1⟩).andThen ?_
  exact hrounds

end Movinv32

section Changing

variable (b : Block) (iter : Nat) (noComp : Int)

-- The loop over the bits ends after 64 turns.
theorem movinvLongRounds_spoken {turns j : Nat} (hturns : 64 < turns + j) (hj : j ≤ 64) :
    SpokenTest (· ∈ b.addrs) b.cnt
      (movinvLongRounds b.start (8 * b.cnt) iter noComp turns j ((1 : UL) <<< j)) := by
  induction turns generalizing j with
  | zero => omega
  | succ turns ih =>
      unfold movinvLongRounds
      by_cases hlast : j = 64
      · have hzero : (1 : UL) <<< j = 0 := by rw [hlast]; decide
        simp only [hzero, if_true]
        exact done_spoken
      · have hnext : ((1 : UL) <<< j) <<< 1 = (1 : UL) <<< (j + 1) := (BitVec.shiftLeft_add 1 j 1).symm
        simp only [if_neg (oneBit_ne_zero j (by omega)), hnext]
        rw [cnt_of_bytes]
        exact (movinv32_spoken b noComp _ _ _ _ iter _ _).thenTest _
          ((movinv32_spoken b noComp _ _ _ _ iter _ _).thenTest _
            (ih (j := j + 1) (by omega) (by omega)))

theorem testMovinvLong_spoken (hcnt : 64 ≤ b.cnt) :
    SpokenTest (· ∈ b.addrs) b.cnt (testMovinvLong b.start (8 * b.cnt) iter noComp) := by
  intro fuel hfuel
  exact movinvLongRounds_spoken b iter noComp (show 64 < fuel + 0 by omega) (by decide) fuel hfuel

theorem randomPass_spoken {t : Prandr → Nat → Touch} (haddr : ∀ r p, (t r p).addr = p) {fuel : Nat}
    (hfuel : b.cnt < fuel) :
    ∃ q, SpokenPart (· ∈ b.addrs) (fun _ bus s => passUp bus.toBus true t nextRandom Part.stop 1 fuel
      b.start (ptrAdd b.start b.cnt) b.start
      { s with gen := randSeed s.gen (movinvrSeed1 b.cnt) (movinvrSeed2 b.cnt) }) q := by
  obtain ⟨q, hpass⟩ := passUp_block_spoken true nextRandom b haddr stop_spoken hfuel
  exact ⟨q, hpass.regen fun r => randSeed r (movinvrSeed1 b.cnt) (movinvrSeed2 b.cnt)⟩

theorem testRandomNumSequence_spoken :
    SpokenTest (· ∈ b.addrs) b.cnt (testRandomNumSequence b.start (8 * b.cnt) noComp) := by
  unfold testRandomNumSequence
  rw [cnt_of_bytes]
  refine SpokenTest.thenTest _ (spokenTest_of_part (fun fuel hfuel => ?_) _) done_spoken
  obtain ⟨q₁, hfill⟩ := randomPass_spoken b (t := fun r p => ⟨p, none, some (randFunction r).1⟩)
    (fun _ _ => rfl) hfuel
  obtain ⟨q₂, hfirst⟩ := randomPass_spoken b (t := movinvrTouch noComp 0) (fun _ _ => rfl) hfuel
  obtain ⟨q₃, hsecond⟩ := randomPass_spoken b (t := movinvrTouch noComp 1) (fun _ _ => rfl) hfuel
  exact ⟨q₃, hfill.andThen (hfirst.andThen hsecond)⟩

end Changing

/-! ## Modulo 20 -/

section Modulo

variable (b : Block) (noComp : Int) {offset : Nat}

theorem residuePass_spoken (hroom : b.Roomy) (hoffset : offset < modSz) (quit : Bool)
    (good word : Option UL) {fuel : Nat} (hfuel : b.cnt < fuel) :
    ∃ q, SpokenPart (· ∈ b.addrs) (fun σ bus => (passUp bus.toBus quit (fun _ p => ⟨p, good, word⟩) id
      Part.stop modSz fuel b.start (ptrAdd b.start b.cnt) (ptrAdd b.start offset) : Part σ Nat)) q := by
  have hlength := @length_residues b offset
  have hstart : ptrAdd b.start offset < b.start + 8 * spinsz := by
    unfold Block.Roomy ptrAdd modSz spinsz at *
    omega
  refine passUp_spoken quit (t := fun _ p => ⟨p, good, word⟩) id b.noWrap (fun _ _ => rfl) stop_spoken
    modSz (by decide) hstart (visits_residues b hroom hoffset) (by rw [List.length_map]; omega) hfuel ?_
  intro x hx
  obtain ⟨i, hi, rfl⟩ := List.mem_map.mp hx
  exact List.mem_range'.mpr ⟨i, ((mem_residues b hoffset i).mp hi).1, rfl⟩

theorem modtstRest_spoken (p2 : UL) {fuel : Nat} (hfuel : b.cnt < fuel) (n p : Nat) :
    ∃ q, SpokenPart (· ∈ b.addrs)
      (fun _ bus => modtstRest bus.toBus fuel b.start b.cnt offset p2 n p) q := by
  induction n generalizing p with
  | zero => exact ⟨p, stop_spoken p⟩
  | succ n ih =>
      obtain ⟨q₁, hpass⟩ := passUp_block_spoken false
        (t := fun k p => ⟨p, none, if k ≠ offset then some p2 else none⟩) nextResidue b
        (fun _ _ => rfl) stop_spoken hfuel
      obtain ⟨q₂, hrest⟩ := ih q₁
      refine ⟨q₂, ?_⟩
      simp only [modtstRest]
      refine (hpass.regen fun _ => 0).andThen ?_
      exact hrest

theorem modtst_spoken (hroom : b.Roomy) (hoffset : offset < modSz) (iter : Nat) (p1 p2 : UL)
    (gen : Nat) :
    SpokenTest (· ∈ b.addrs) b.cnt fun _ fuel bus mem =>
      (modtst bus.toBus fuel b.start b.cnt noComp iter offset p1 p2).test gen mem := by
  refine spokenTest_of_part (fun fuel hfuel => ?_) gen
  obtain ⟨q₁, hfill⟩ := residuePass_spoken b hroom hoffset false none (some p1) hfuel
  obtain ⟨q₂, hrest⟩ := modtstRest_spoken b p2 hfuel iter q₁
  obtain ⟨q₃, hcheck⟩ := residuePass_spoken b hroom hoffset true (expect noComp p1) none hfuel
  exact ⟨q₃, hfill.andThen (hrest.andThen hcheck)⟩

theorem memModuloOffsets_spoken (hroom : b.Roomy) {rest : MemTest}
    (hrest : SpokenTest (· ∈ b.addrs) b.cnt rest) {n k : Nat} (hk : k + n ≤ modSz) (p1 : UL) :
    SpokenTest (· ∈ b.addrs) b.cnt (memModuloOffsets b.start (8 * b.cnt) noComp rest n k p1) := by
  induction n generalizing k p1 with
  | zero => exact hrest
  | succ n ih =>
      unfold memModuloOffsets
      rw [cnt_of_bytes]
      exact (modtst_spoken b noComp hroom (by omega) 2 _ _ 0).thenTest _
        ((modtst_spoken b noComp hroom (by omega) 2 _ _ 0).thenTest _ (ih (by omega) _))

theorem memModuloRounds_spoken (hroom : b.Roomy) (n : Nat) (r : Prandr) :
    SpokenTest (· ∈ b.addrs) b.cnt (memModuloRounds b.start (8 * b.cnt) noComp n r) := by
  induction n generalizing r with
  | zero => exact done_spoken
  | succ n ih => exact memModuloOffsets_spoken b noComp hroom (ih _) (by decide) _

end Modulo

/-! ## Address walks -/

section Own

variable (b : Block) (noComp : Int)

theorem curLoop_spoken (quit : Bool) {t : Nat → Touch} (haddr : ∀ p, (t p).addr = p) {fuel : Nat}
    (hfuel : b.cnt < fuel) :
    ∃ q, SpokenPart (· ∈ b.addrs) (fun _ bus => curLoop bus.toBus fuel b.start b.cnt quit t) q := by
  obtain ⟨q, hvisits⟩ := b.visits_up.visitsTo
  have hsweep : SpokenPart (· ∈ b.addrs)
      (fun _ bus s => some (sweepTo (touchBody bus.toBus quit (fun _ : Unit => t) id) q b.addrs s)) q :=
    sweepTo_spoken (fun p hp => touchBody_spoken quit id fun _ => by rwa [haddr]) q
  exact ⟨q, hsweep.congr fun _ _ s => walk_eq_sweepTo hvisits (by simpa using hfuel) s⟩

theorem testAddrWalkOwn_spoken :
    SpokenTest (· ∈ b.addrs) b.cnt (testAddrWalkOwn b.start (8 * b.cnt) noComp) := by
  unfold testAddrWalkOwn
  rw [cnt_of_bytes]
  refine SpokenTest.thenTest _ (spokenTest_of_part (fun fuel hfuel => ?_) _) done_spoken
  obtain ⟨q₁, hfill⟩ := curLoop_spoken b false (t := fun cur => ⟨cur, none, some (BitVec.ofNat 64 cur)⟩)
    (fun _ => rfl) hfuel
  obtain ⟨q₂, hverify⟩ := curLoop_spoken b true
    (t := fun cur => ⟨cur, expect noComp (BitVec.ofNat 64 cur), none⟩) (fun _ => rfl) hfuel
  exact ⟨q₂, hfill.andThen hverify⟩

end Own

section Ones

variable {A : Nat → Prop} (noComp : Int) {stop p : Nat} (p1 : UL) (leave : Nat)

theorem probe_spoken {t : Touch} (ht : A t.addr) :
    SpokenScan A fun _ bus s => (probe bus.toBus t leave s, ()) := by
  have hleave : ∀ left : Bool, SpokenScan A fun _ _ (s : Scan _ Nat) =>
      (⟨s.mem, s.ret, if left then leave else s.gen⟩, ()) :=
    fun left => spokenScan_pure (fun ret _ => ret) (fun _ gen => if left then leave else gen) fun _ _ => ()
  refine ((touch_spoken true ht).bind hleave).congr fun σ bus s => ?_
  by_cases hseen : (touch bus.toBus true t s).2 = true <;> simp [probe, hseen]

-- The words that are written are below the end, and where the base word has a 0 they have a 1.
theorem maskBody_spoken (hp : A p) {mask : Nat} (hword : p ||| mask < stop → A (p ||| mask)) :
    SpokenScan A fun _ bus => maskBody bus.toBus noComp stop p1 leave p mask := by
  by_cases hsame : p ||| mask = p
  · exact (spokenScan_pure (fun ret _ => ret) (fun _ gen => gen) fun _ _ => false).congr
      fun _ _ s => by simp [maskBody, hsame]
  · by_cases hend : stop ≤ p ||| mask
    · exact (spokenScan_pure (fun ret _ => ret) (fun _ gen => gen) fun _ _ => true).congr
        fun _ _ s => by simp [maskBody, hsame, hend]
    · have hwrite : SpokenScan A fun _ bus (s : Scan _ Nat) =>
          touch bus.toBus false ⟨p ||| mask, none, some p1⟩ s :=
        touch_spoken false (hword (Nat.not_le.mp hend))
      have hstay : SpokenScan A fun _ _ (s : Scan _ Nat) => (s, false) :=
        spokenScan_pure (fun ret _ => ret) (fun _ gen => gen) fun _ _ => false
      refine (hwrite.bind fun _ => (probe_spoken leave (t := ⟨p, expect noComp (~~~p1), none⟩) hp).bind
        fun _ => hstay).congr fun σ bus s => ?_
      simp [maskBody, hsame, hend]

theorem maskRounds_spoken (hp : A p) (hword : ∀ mask ∈ masks, p ||| mask < stop → A (p ||| mask))
    (rounds n : Nat) :
    SpokenScan A fun _ bus s => (maskRounds bus.toBus noComp stop p1 rounds leave p n s, ()) := by
  have hdone : SpokenScan A fun _ _ (s : Scan _ Nat) => (s, ()) :=
    spokenScan_pure (fun ret _ => ret) (fun _ gen => gen) fun _ _ => ()
  induction n with
  | zero => exact hdone
  | succ n ih =>
      have hsweep : SpokenScan A fun σ bus =>
          sweep (fun mask => maskBody bus.toBus noComp stop p1 leave p mask) masks :=
        sweep_spoken (f := fun mask _ bus => maskBody bus.toBus noComp stop p1 leave p mask)
          fun mask hmask => maskBody_spoken noComp p1 leave hp (hword mask hmask)
      have hcount : SpokenScan A fun _ _ (s : Scan _ Nat) => (⟨s.mem, s.ret, s.gen + 1⟩, ()) :=
        spokenScan_pure (fun ret _ => ret) (fun _ gen => gen + 1) fun _ _ => ()
      have hturn := hsweep.bind fun _ => hcount.bind fun _ => ih
      exact (spokenScan_if (fun _ gen => gen < rounds) hturn hdone).congr fun σ bus s => by
        rw [maskRounds]
        split <;> rfl

theorem walkOnes_spoken (hp : A p) (hword : ∀ mask ∈ masks, p ||| mask < stop → A (p ||| mask))
    (rounds : Nat) :
    SpokenScan A fun _ bus s => (walkOnes bus.toBus noComp stop p1 rounds leave p s, ()) := by
  have hwrite : SpokenScan A fun _ bus (s : Scan _ Nat) => touch bus.toBus false ⟨p, none, some p1⟩ s :=
    touch_spoken false hp
  have hreset : SpokenScan A fun _ _ (s : Scan _ Nat) => (⟨s.mem, s.ret, 0⟩, ()) :=
    spokenScan_pure (fun ret _ => ret) (fun _ _ => 0) fun _ _ => ()
  exact hwrite.bind fun _ => hreset.bind fun _ =>
    maskRounds_spoken noComp (~~~p1) leave hp hword rounds rounds

end Ones

section OnesTest

variable (b : PageBlock) (noComp : Int)

-- Words of the block, once they are below its end.
theorem Block.or_mask_mem (b : Block) {p mask : Nat} (hp : p ∈ b.addrs) (hmask : mask ∈ masks)
    (hstop : p ||| mask < ptrAdd b.start b.cnt) : p ||| mask ∈ b.addrs := by
  obtain ⟨hlow, -, hword⟩ := b.mem_addrs.mp hp
  obtain ⟨j, hj, -, rfl⟩ := mem_masks.mp hmask
  rw [b.end_eq] at hstop
  exact b.mem_addrs.mpr ⟨le_trans hlow Nat.left_le_or, hstop, or_two_pow_word hword hj⟩

theorem walkOnes_block_spoken (b : Block) {p : Nat} (hp : p ∈ b.addrs) (p1 : UL) (rounds leave : Nat) :
    SpokenScan (· ∈ b.addrs) fun _ bus s =>
      (walkOnes bus.toBus noComp (ptrAdd b.start b.cnt) p1 rounds leave p s, ()) :=
  walkOnes_spoken noComp p1 leave hp (fun _ hmask hstop => b.or_mask_mem hp hmask hstop) rounds

theorem globalBits_spoken (n : Nat) (p1 : UL) :
    ∃ q, SpokenPart (· ∈ b.addrs) (fun _ bus => globalBits bus.toBus b.start b.cnt noComp n p1) q := by
  induction n generalizing p1 with
  | zero => exact ⟨b.start, stop_spoken _⟩
  | succ n ih =>
      obtain ⟨q, hrest⟩ := ih (~~~p1)
      refine ⟨q, ?_⟩
      simp only [globalBits, b.roundup_page]
      refine (turn_spoken (walkOnes_block_spoken noComp b.toBlock b.start_mem_addrs p1 100 1000)
        b.start).andThen ?_
      exact (bail_spoken b.start).andThen hrest

theorem bankBits_spoken {fuel : Nat} {ps : List Nat}
    (hvisits : Visits (fun p => decide (p < ptrAdd b.start b.cnt)) (nextBank (ptrAdd b.start b.cnt))
      (roundup b.start (bank - 1)) ps) (hfuel : ps.length < fuel) (hwords : ∀ p ∈ ps, p ∈ b.addrs)
    (n : Nat) (p1 : UL) :
    ∃ q, SpokenPart (· ∈ b.addrs) (fun _ bus => bankBits bus.toBus fuel b.start b.cnt noComp n p1) q := by
  obtain ⟨q, hvisits⟩ := hvisits.visitsTo
  induction n generalizing p1 with
  | zero => exact ⟨b.start, stop_spoken _⟩
  | succ n ih =>
      have hstay : ∀ _ : Unit, SpokenScan (· ∈ b.addrs) fun _ _ (s : Scan _ Nat) => (s, false) :=
        fun _ => spokenScan_pure (fun ret _ => ret) (fun _ gen => gen) fun _ _ => false
      have hsweep : SpokenPart (· ∈ b.addrs) (fun _ bus s => some (sweepTo
          (fun p s => (walkOnes bus.toBus noComp (ptrAdd b.start b.cnt) p1 50 200 p s, false)) q ps s)) q :=
        sweepTo_spoken (f := fun p _ bus s =>
          (walkOnes bus.toBus noComp (ptrAdd b.start b.cnt) p1 50 200 p s, false))
          (fun p hp => (walkOnes_block_spoken noComp b.toBlock (hwords p hp) p1 50 200).bind hstay) q
      obtain ⟨q', hrest⟩ := ih (~~~p1)
      refine ⟨q', ?_⟩
      simp only [bankBits]
      refine (hsweep.congr fun σ bus s => walk_eq_sweepTo hvisits hfuel s).andThen ?_
      exact (bail_spoken q).andThen hrest

theorem PageBlock.exists_visits_banks :
    ∃ ps, Visits (fun p => decide (p < ptrAdd b.start b.cnt)) (nextBank (ptrAdd b.start b.cnt))
      (roundup b.start (bank - 1)) ps ∧ ps.length ≤ b.cnt ∧ ∀ p ∈ ps, p ∈ b.addrs := by
  have huser := b.user
  obtain ⟨hle, hbank, -⟩ := @roundup_bank b.start (by unfold bank; omega)
  obtain ⟨ps, hvisits, hlength, hwords⟩ := @visits_banks (b.start + 8 * b.cnt) huser b.cnt
    (roundup b.start (bank - 1)) (by omega) ((show 8 ∣ bank by decide).trans hbank)
  rw [← b.end_eq] at hvisits
  refine ⟨ps, hvisits, hlength, fun r hr => ?_⟩
  obtain ⟨hlow, hhigh, hr8⟩ := hwords r hr
  exact b.mem_addrs.mpr ⟨hle.trans hlow, hhigh, hr8⟩

theorem testAddrWalkOnes_spoken :
    SpokenTest (· ∈ b.addrs) b.cnt (testAddrWalkOnes b.start (8 * b.cnt) noComp) := by
  unfold testAddrWalkOnes
  rw [cnt_of_bytes]
  refine SpokenTest.thenTest _ (spokenTest_of_part (fun fuel hfuel => ?_) _) done_spoken
  obtain ⟨ps, hvisits, hlength, hwords⟩ := b.exists_visits_banks
  obtain ⟨q₁, hglobal⟩ := globalBits_spoken b noComp 2 0
  obtain ⟨q₂, hbanks⟩ := bankBits_spoken b noComp hvisits (Nat.lt_of_le_of_lt hlength hfuel) hwords 2 0
  exact ⟨q₂, hglobal.andThen hbanks⟩

end OnesTest

/-! ## Block moves -/

section Moves

variable {A : Nat → Prop}

theorem fillGroups_spoken {n rdi : Nat} (hwrap : rdi + 64 * n < 2 ^ 64)
    (hwords : ∀ k < 8 * n, A (rdi + 8 * k)) (rax : UL) (cf : Bool) :
    Spoken A fun _ bus mem => ((), (fillGroups bus n rdi rax cf mem).1) := by
  induction n generalizing rdi rax cf with
  | zero => exact spoken_ret ()
  | succ n ih =>
      have hnext : ptrAdd rdi 8 = rdi + 64 := Nat.mod_eq_of_lt (by omega)
      have hgroup : Spoken A fun _ bus mem => ((), fillGroup bus rdi rax mem) := by
        refine spoken_foldl (f := fun k _ bus mem => bus.write mem (ptrAdd rdi k) (groupWord rax k))
          fun k hk => spoken_write ?_ _
        rw [List.mem_range] at hk
        rw [ptrAdd, Nat.mod_eq_of_lt (by omega)]
        exact hwords k (by omega)
      have hrest := @ih (ptrAdd rdi 8) (by omega) (fun k hk => by
        rw [hnext, show rdi + 64 + 8 * k = rdi + 8 * (8 + k) by omega]
        exact hwords (8 + k) (by omega)) (rclq rax cf).1 (rclq rax cf).2
      exact hgroup.bind fun _ => hrest

theorem repMovsl_spoken {n rsi rdi : Nat} (hrsi : rsi % 4 = 0) (hrdi : rdi % 4 = 0)
    (hwrap : rsi + 4 * n < 2 ^ 64 ∧ rdi + 4 * n < 2 ^ 64)
    (hfrom : ∀ k < n, A ((rsi + 4 * k) / 8 * 8)) (hto : ∀ k < n, A ((rdi + 4 * k) / 8 * 8)) :
    Spoken A fun _ bus mem => ((), repMovsl bus n rsi rdi mem) := by
  induction n generalizing rsi rdi with
  | zero => exact spoken_ret ()
  | succ n ih =>
      have hrsi' : (rsi + 4) % 2 ^ 64 = rsi + 4 := Nat.mod_eq_of_lt (by omega)
      have hrdi' : (rdi + 4) % 2 ^ 64 = rdi + 4 := Nat.mod_eq_of_lt (by omega)
      have hshift : ∀ r k : Nat, r + 4 + 4 * k = r + 4 * (k + 1) := fun r k => by omega
      have hrest := @ih ((rsi + 4) % 2 ^ 64) ((rdi + 4) % 2 ^ 64) (by omega) (by omega) (by omega)
        (fun k hk => by rw [hrsi', hshift]; exact hfrom (k + 1) (by omega))
        (fun k hk => by rw [hrdi', hshift]; exact hto (k + 1) (by omega))
      exact (spoken_readl (hfrom 0 (by omega)) hrsi).bind fun word =>
        (spoken_writel (hto 0 (by omega)) hrdi word).bind fun _ => hrest

theorem moveOnce_spoken {p half : Nat} (hp : p % 8 = 0) (hwrap : p + 16 * half < 2 ^ 64)
    (hhalf : 4 ≤ half) (hwords : ∀ k < 2 * half, A (p + 8 * k)) :
    Spoken A fun _ bus mem => ((), moveOnce bus p (p + 8 * half) (2 * half) mem) := by
  have hrest : (2 * half + 2 ^ 64 - 8) % 2 ^ 64 = 2 * (half - 4) := by omega
  have hsrc : (p + 8 * half + 4 * (2 * (half - 4))) % 2 ^ 64 = p + 8 * half + 8 * (half - 4) := by omega
  have hdst : (p + 32) % 2 ^ 64 = p + 32 := Nat.mod_eq_of_lt (by omega)
  -- an address in the section is in one of its words
  have hword : ∀ a, p ≤ a → a < p + 16 * half → A (a / 8 * 8) := by
    intro a hlow hhigh
    rw [show a / 8 * 8 = p + 8 * ((a - p) / 8) by omega]
    exact hwords _ (by omega)
  have hup : Spoken A fun _ bus mem => ((), repMovsl bus (2 * half) p (p + 8 * half) mem) :=
    repMovsl_spoken (by omega) (by omega) (by omega) (fun k hk => hword _ (by omega) (by omega))
      fun k hk => hword _ (by omega) (by omega)
  have hdown : Spoken A fun _ bus mem => ((), repMovsl bus (2 * (half - 4)) (p + 8 * half) (p + 32) mem) :=
    repMovsl_spoken (by omega) (by omega) (by omega) (fun k hk => hword _ (by omega) (by omega))
      fun k hk => hword _ (by omega) (by omega)
  have hfront : Spoken A fun _ bus mem =>
      ((), repMovsl bus 8 (p + 8 * half + 8 * (half - 4)) p mem) :=
    repMovsl_spoken (by omega) (by omega) (by omega) (fun k hk => hword _ (by omega) (by omega))
      fun k hk => hword _ (by omega) (by omega)
  simp only [moveOnce, hrest, hsrc, hdst]
  exact hup.bind fun _ => hdown.bind fun _ => hfront

theorem differs_spoken {i j : Nat} (hi : A i) (hj : A j) (f : UL → UL) :
    Spoken A fun _ bus mem => differs bus i f j mem :=
  (spoken_read hi).bind fun x => (spoken_read hj).map fun y => decide (x ≠ f y)

theorem failIf_spoken {cond : (σ : Type) → LongBus σ → σ → Bool × σ} (hcond : Spoken A cond) :
    SpokenScan A fun σ bus s => (failIf s (cond σ bus), ()) :=
  hcond.scan (fun fails ret _ => if fails then errFail else ret) (fun _ _ gen => gen) fun _ _ _ => ()

theorem groupChecks_spoken {p : Nat} (hwords : ∀ k < 8, A (ptrAdd p k)) (hp : A p) :
    SpokenScan A fun _ bus s => ((groupChecks bus p).foldl failIf s, ()) := by
  have hthird : Spoken A fun _ bus mem =>
      if (differs bus p id (ptrAdd p 3) mem).1 then
        differs bus p id (ptrAdd p 4) (differs bus p id (ptrAdd p 3) mem).2
      else differs bus p id (ptrAdd p 3) mem := by
    have hagain : ∀ fails : Bool, Spoken A fun _ bus mem =>
        if fails then differs bus p id (ptrAdd p 4) mem else (fails, mem) := by
      intro fails
      cases fails with
      | true => exact differs_spoken hp (hwords 4 (by decide)) id
      | false => exact spoken_ret false
    refine ((differs_spoken hp (hwords 3 (by decide)) id).bind hagain).congr fun σ bus mem => ?_
    split <;> rfl
  exact (failIf_spoken (differs_spoken hp (hwords 1 (by decide)) id)).bind fun _ =>
    (failIf_spoken (differs_spoken (hwords 2 (by decide)) hp (~~~·))).bind fun _ =>
    (failIf_spoken hthird).bind fun _ =>
    (failIf_spoken (differs_spoken (hwords 5 (by decide)) hp (~~~·))).bind fun _ =>
    (failIf_spoken (differs_spoken hp (hwords 6 (by decide)) id)).bind fun _ =>
    failIf_spoken (differs_spoken (hwords 7 (by decide)) hp (~~~·))

theorem Spoken.part {γ : Type} {f : (σ : Type) → LongBus σ → σ → σ}
    (hf : Spoken A fun σ bus mem => ((), f σ bus mem)) (q : Nat) :
    SpokenPart A (fun σ bus (s : Scan σ γ) => some ({ s with mem := f σ bus s.mem }, some q)) q :=
  turn_spoken (hf.scan (fun _ ret _ => ret) (fun _ _ gen => gen) fun _ _ _ => ()) q

end Moves

section MoveSections

variable (b : PageBlock) (carry : Nat → Bool) (noComp : Int)

theorem PageBlock.Section.word {b : PageBlock} {p pe : Nat} (h : b.Section p pe) {k : Nat}
    (hk : p + 8 * k < pe) : p + 8 * k ∈ b.addrs := by
  obtain ⟨⟨hlow, hhigh⟩, ⟨hpage, -⟩, -⟩ := h
  exact b.mem_addrs.mpr ⟨by omega, by omega, by omega⟩

theorem sections_spoken {chunk : Nat → Nat → (σ : Type) → LongBus σ → Part σ Unit}
    (hchunk : ∀ p pe, b.Section p pe → SpokenPart (· ∈ b.addrs) (chunk p pe) pe) {fuel : Nat}
    (hfuel : b.cnt < fuel) :
    ∃ q, SpokenPart (· ∈ b.addrs) (fun σ bus => spinUp (spinsz * 4) (ptrAdd b.start b.cnt)
      (fun p pe => chunk p pe σ bus) fuel b.start b.start) q := by
  have huser := b.user
  have hcnt := b.cnt_pos
  have hpages := b.pages
  rw [b.end_eq]
  refine @spinUp_spoken_run _ _ _ _ _
    (fun pe p => p = pe ∧ (pe < b.start + 8 * b.cnt → ∃ k, pe = b.chunkStart k))
    (by unfold spinsz; omega) (by unfold spinsz; omega) b.noWrap ?_ fuel b.start b.start (by omega)
    (by omega) ⟨rfl, fun _ => ⟨0, rfl⟩⟩
  rintro pe p hpe ⟨rfl, hwhere⟩
  obtain ⟨k, rfl⟩ := hwhere hpe
  have hsection : b.Section (b.chunkStart k) (b.chunkEnd k) := by
    unfold Block.chunkEnd Block.chunkStart spinsz at *
    exact ⟨by omega, by omega, by omega⟩
  refine ⟨Nat.ne_of_lt hsection.lt, _, hchunk _ _ hsection, rfl, fun hmore => ⟨k + 1, ?_⟩⟩
  unfold Block.chunkStart spinsz at hmore ⊢
  omega

theorem fill_spoken {fuel : Nat} (hfuel : b.cnt < fuel) :
    ∃ q, SpokenPart (· ∈ b.addrs) (fun _ bus => spinUp (spinsz * 4) (ptrAdd b.start b.cnt)
      (fillChunk bus carry) fuel b.start b.start) q := by
  refine sections_spoken b (fun p pe h => ?_) hfuel
  have huser := b.user
  have hend := h.inside.2
  have hlt := h.lt
  have hgroups : Spoken (· ∈ b.addrs) fun _ bus mem =>
      ((), (fillGroups bus ((pe - p) / 64) p 1 (carry p) mem).1) :=
    fillGroups_spoken (by omega) (fun k hk => h.word (by omega)) 1 (carry p)
  exact (hgroups.part pe).congr fun _ bus s => fillChunk_eq b.toBlock bus carry h.chunk s

theorem move_spoken (iter : Nat) {fuel : Nat} (hfuel : b.cnt < fuel) :
    ∃ q, SpokenPart (· ∈ b.addrs) (fun _ bus => spinUp (spinsz * 4) (ptrAdd b.start b.cnt)
      (moveChunk bus iter) fuel b.start b.start) q := by
  refine sections_spoken b (fun p pe h => ?_) hfuel
  have huser := b.user
  have hend := h.inside.2
  have hpages := h.pages
  have hlt := h.lt
  have hmove : Spoken (· ∈ b.addrs) fun _ bus mem =>
      ((), moveOnce bus p (p + 8 * ((pe - p) / 16)) (2 * ((pe - p) / 16)) mem) :=
    moveOnce_spoken (by omega) (by omega) (by omega) fun k hk => h.word (by omega)
  exact ((hmove.iterate iter).part pe).congr fun _ bus s => moveChunk_eq b.toBlock bus iter h.chunk s

theorem checkChunk_spoken {A : Nat → Prop} {p : Nat} (hwords : ∀ k < 8, A (ptrAdd p k)) (hp : A p)
    (pe : Nat) : SpokenPart A (fun _ bus => checkChunk bus noComp p pe) (ptrAdd p 8) := by
  have hkeep : SpokenScan A fun _ _ (s : Scan _ Unit) => (s, ()) :=
    spokenScan_pure (fun ret _ => ret) (fun _ gen => gen) fun _ _ => ()
  have hchecks := spokenScan_if (fun _ _ => noComp ≠ hasComparision) hkeep
    (groupChecks_spoken hwords hp)
  have hcode : ∀ _ : Unit, SpokenScan A fun _ _ (s : Scan _ Unit) => (s, decide (s.ret ≠ errSuccess)) :=
    fun _ => spokenScan_pure (fun ret _ => ret) (fun _ gen => gen) fun ret _ => decide (ret ≠ errSuccess)
  refine ⟨_, hchecks.bind hcode, fun σ bus s => ?_⟩
  by_cases hno : noComp ≠ hasComparision <;> simp [checkChunk, hno]

-- There are not more sections than groups, so that the groups are in the block.
theorem check_spoken {fuel : Nat} (hfuel : b.cnt < fuel) :
    ∃ q, SpokenPart (· ∈ b.addrs) (fun _ bus => spinUp (spinsz * 4) (ptrAdd b.start b.cnt)
      (checkChunk bus noComp) fuel b.start b.start) q := by
  have huser := b.user
  have hcnt := b.cnt_ge
  have haligned := b.aligned
  rw [b.end_eq]
  refine spinUp_spoken_run (fun p pe _ bus => checkChunk bus noComp p pe)
    (I := fun pe p => pe < b.start + 8 * b.cnt →
      ∃ k, p = b.start + 64 * k ∧ pe = b.start + 8 * (spinsz * 4) * k)
    (by unfold spinsz; omega) (by unfold spinsz; omega) b.noWrap ?_ (by omega) (by omega)
    fun _ => ⟨0, rfl, rfl⟩
  intro pe p hpe hwhere
  obtain ⟨k, rfl, rfl⟩ := hwhere hpe
  have hword : ∀ j < 8, ptrAdd (b.start + 64 * k) j ∈ b.addrs := by
    intro j hj
    unfold spinsz at hpe
    rw [ptrAdd, Nat.mod_eq_of_lt (by omega)]
    exact b.mem_addrs.mpr ⟨by omega, by omega, by omega⟩
  have hbase : b.start + 64 * k ∈ b.addrs := by
    unfold spinsz at hpe
    exact b.mem_addrs.mpr ⟨by omega, by omega, by omega⟩
  unfold spinsz at *
  refine ⟨by omega, _, checkChunk_spoken noComp hword hbase _, fun hmore => ⟨k + 1, ?_, by omega⟩⟩
  unfold ptrAdd
  omega

theorem testBlockMove_spoken (iter : Nat) :
    SpokenTest (· ∈ b.addrs) b.cnt (testBlockMove carry b.start (8 * b.cnt) iter noComp) := by
  unfold testBlockMove
  rw [cnt_of_bytes]
  refine SpokenTest.thenTest _ (spokenTest_of_part (fun fuel hfuel => ?_) _) done_spoken
  obtain ⟨q₁, hfill⟩ := fill_spoken b carry hfuel
  obtain ⟨q₂, hmove⟩ := move_spoken b iter hfuel
  obtain ⟨q₃, hcheck⟩ := check_spoken b noComp hfuel
  exact ⟨q₃, hfill.andThen (hmove.andThen hcheck)⟩

end MoveSections

/-! ## March C -/

section March

variable {A : Nat → Prop}

/-- A pass that keeps the error log is a dialogue about words with `A`. -/
def SpokenPass (A : Nat → Prop) (pass : (σ : Type) → LongBus σ → Machine σ → Machine σ × Bool) : Prop :=
  ∀ log, Spoken A fun σ bus mem =>
    (((pass σ bus ⟨mem, log⟩).1.log, (pass σ bus ⟨mem, log⟩).2), (pass σ bus ⟨mem, log⟩).1.mem)

variable {pass rest : (σ : Type) → LongBus σ → Machine σ → Machine σ × Bool}

theorem SpokenPass.unlessLeft (h : SpokenPass A pass) (h' : SpokenPass A rest) :
    SpokenPass A fun σ bus m =>
      if (pass σ bus m).2 then ((pass σ bus m).1, true) else rest σ bus (pass σ bus m).1 := by
  intro log
  have hrest : ∀ out : List Complaint × Bool, Spoken A fun σ bus mem =>
      if out.2 then ((out.1, true), mem)
      else (((rest σ bus ⟨mem, out.1⟩).1.log, (rest σ bus ⟨mem, out.1⟩).2),
        (rest σ bus ⟨mem, out.1⟩).1.mem) := by
    rintro ⟨log, left⟩
    cases left with
    | true => exact spoken_ret (log, true)
    | false => exact h' log
  refine ((h log).bind hrest).congr fun σ bus mem => ?_
  cases hleft : (pass σ bus ⟨mem, log⟩).2 <;> simp [hleft]

theorem sweep_spokenPass {f : Nat → (σ : Type) → LongBus σ → Machine σ → Machine σ × Bool}
    {ps : List Nat} (hbody : ∀ p ∈ ps, SpokenPass A (f p)) :
    SpokenPass A fun σ bus => sweep (fun p => f p σ bus) ps := by
  induction ps with
  | nil => exact fun log => spoken_ret (log, false)
  | cons p ps ih =>
      exact (hbody p List.mem_cons_self).unlessLeft (ih fun q hq => hbody q (List.mem_cons_of_mem p hq))

theorem verifyAWriteB_spoken (patternA patternB : UL) {p : Nat} (hp : A p) :
    SpokenPass A fun _ bus => verifyAWriteBBody bus.toBus patternA patternB p := by
  intro log
  have hrest : ∀ bad : UL, Spoken A fun _ bus mem =>
      if bad ≠ patternA then ((log ++ [⟨p, patternA, bad⟩], true), mem)
      else ((log, false), bus.write mem p patternB) := by
    intro bad
    by_cases hbad : bad ≠ patternA
    · simp only [if_pos hbad]
      exact spoken_ret (log ++ [⟨p, patternA, bad⟩], true)
    · simp only [if_neg hbad]
      exact (spoken_write hp patternB).map fun _ => (log, false)
  refine ((spoken_read hp).bind hrest).congr fun σ bus mem => ?_
  by_cases hbad : (bus.read mem p).1 = patternA <;> simp [verifyAWriteBBody, hbad]

theorem verifyA_spoken (patternA : UL) {p : Nat} (hp : A p) :
    SpokenPass A fun _ bus => verifyABody bus.toBus patternA p := by
  intro log
  have hrest : ∀ bad : UL, Spoken A fun σ (_ : LongBus σ) mem =>
      if bad ≠ patternA then ((log ++ [⟨p, patternA, bad⟩], true), mem) else ((log, false), mem) := by
    intro bad
    by_cases hbad : bad ≠ patternA
    · simp only [if_pos hbad]
      exact spoken_ret (log ++ [⟨p, patternA, bad⟩], true)
    · simp only [if_neg hbad]
      exact spoken_ret (log, false)
  refine ((spoken_read hp).bind hrest).congr fun σ bus mem => ?_
  by_cases hbad : (bus.read mem p).1 = patternA <;> simp [verifyABody, hbad]

theorem fillup_spoken (pattern : UL) {p : Nat} (hp : A p) :
    SpokenPass A fun _ bus => fillupBody bus.toBus pattern p :=
  fun log => (spoken_write hp pattern).map fun _ => (log, false)

variable (b : Block)

theorem checkedPart_spoken (p1 : UL) :
    SpokenPass (· ∈ b.addrs) fun _ bus => checkedPart bus.toBus b p1 := by
  have hdone : SpokenPass (· ∈ b.addrs) fun _ _ m => (m, false) := fun log => spoken_ret (log, false)
  have hup : ∀ patternA patternB, SpokenPass (· ∈ b.addrs) fun _ bus =>
      sweep (verifyAWriteBBody bus.toBus patternA patternB) b.addrs := fun patternA patternB =>
    sweep_spokenPass (f := fun p _ bus => verifyAWriteBBody bus.toBus patternA patternB p)
      fun _ hp => verifyAWriteB_spoken patternA patternB hp
  have hdown : ∀ patternA patternB, SpokenPass (· ∈ b.addrs) fun _ bus =>
      sweep (verifyAWriteBBody bus.toBus patternA patternB) b.addrs.reverse := fun patternA patternB =>
    sweep_spokenPass (f := fun p _ bus => verifyAWriteBBody bus.toBus patternA patternB p)
      fun _ hp => verifyAWriteB_spoken patternA patternB (List.mem_reverse.mp hp)
  have hlook : SpokenPass (· ∈ b.addrs) fun _ bus => sweep (verifyABody bus.toBus p1) b.addrs :=
    sweep_spokenPass (f := fun p _ bus => verifyABody bus.toBus p1 p)
      fun _ hp => verifyA_spoken p1 hp
  exact (hup p1 (~~~p1)).unlessLeft ((hup (~~~p1) p1).unlessLeft (hlook.unlessLeft
    ((hdown p1 (~~~p1)).unlessLeft ((hdown (~~~p1) p1).unlessLeft hdone))))

theorem closingPass_spoken (p1 : UL) :
    SpokenPass (· ∈ b.addrs) fun _ bus => closingPass bus.toBus b p1 :=
  sweep_spokenPass (f := fun p _ bus => verifyABody bus.toBus p1 p)
    fun _ hp => verifyA_spoken p1 (List.mem_reverse.mp hp)

theorem marchCRounds_spoken (p1 : UL) {fuel : Nat} (hfuel : b.cnt < fuel) (n ret : Nat)
    (log : List Complaint) :
    ∃ f : (σ : Type) → LongBus σ → σ → (Nat × List Complaint) × σ, Spoken (· ∈ b.addrs) f ∧
      ∀ σ bus mem, marchCRounds bus.toBus fuel b.start b.cnt p1 n ret ⟨mem, log⟩ =
        some ((f σ bus mem).1.1, ⟨(f σ bus mem).2, (f σ bus mem).1.2⟩) := by
  induction n generalizing ret log with
  | zero => exact ⟨_, spoken_ret (ret, log), fun _ _ _ => rfl⟩
  | succ n ih =>
      obtain ⟨rest, hrest⟩ := Classical.axiomOfChoice fun out : Nat × List Complaint => ih out.1 out.2
      -- the closing pass, and the next rounds with its verdict
      have hclosing := fun log => ((closingPass_spoken b p1 log).map fun out =>
        ((if out.2 then errFail else errSuccess), out.1)).bind fun out => (hrest out).1
      have hleft : ∀ out : List Complaint × Bool, Spoken (· ∈ b.addrs) fun σ bus mem =>
          if out.2 then ((errFail, out.1), mem)
          else
            let m := closingPass bus.toBus b p1 ⟨mem, out.1⟩
            rest (if m.2 then errFail else errSuccess, m.1.log) σ bus m.1.mem := by
        rintro ⟨log, left⟩
        cases left with
        | true => exact spoken_ret (errFail, log)
        | false => exact hclosing log
      refine ⟨_, (checkedPart_spoken b p1 log).bind hleft, fun σ bus mem => ?_⟩
      rw [marchCRounds_succ b hfuel, checkRet_exitCode]
      dsimp only
      split
      · rfl
      · exact (hrest (_, _)).2 σ bus _

theorem testMarchC_spoken (iter : Nat) (noComp : Int) :
    SpokenTest (· ∈ b.addrs) b.cnt (testMarchC b.start (8 * b.cnt) iter noComp) := by
  unfold testMarchC
  rw [cnt_of_bytes]
  refine SpokenTest.thenTest _ (fun fuel hfuel => ?_) done_spoken
  have hfill : SpokenPass (· ∈ b.addrs) fun _ bus => sweep (fillupBody bus.toBus 0) b.addrs :=
    sweep_spokenPass (f := fun p _ bus => fillupBody bus.toBus 0 p) fun _ hp => fillup_spoken 0 hp
  obtain ⟨rounds, hrounds⟩ := Classical.axiomOfChoice fun log : List Complaint =>
    marchCRounds_spoken b 0 hfuel iter errSuccess log
  refine ⟨_, ((hfill []).bind fun out => (hrounds out.1).1).map fun out => out.1, fun σ bus mem => ?_⟩
  show (marchC bus.toBus fuel b.start b.cnt noComp 0 iter ⟨mem, []⟩).map _ = _
  rw [marchC_eq b hfuel]
  exact congrArg (Option.map fun out => (out.1, out.2.mem)) ((hrounds _).2 σ bus _)

end March

end MoBoMemory.TestLib
