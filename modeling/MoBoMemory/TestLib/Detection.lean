import MoBoMemory.TestLib.Confined
import MoBoMemory.TestLib.StuckBits

/-!
# What any memory with a stuck bit does to the tests

Seven items compare every word with some pattern and with its complement.  If all answers for a word have
the same value in some bit, one of the two comparisons fails, whatever else the memory does: it may have
other faults, and other threads may use it too.
-/

namespace MoBoMemory.TestLib

open Base

/-- All answers for the word have the same value in the bit. -/
def Stuck {σ : Type} (bus : Bus σ) (cell : Cell) (value : Bool) : Prop :=
  ∀ mem, bitOf (bus.read mem cell.addr).1 cell.bit = value

/-- Every memory with a stuck bit in the block fails the test. -/
def Finds (b : Block) (err : Nat) (test : MemTest) : Prop :=
  ∀ σ (bus : LongBus σ) cell value, cell.addr ∈ b.addrs → Stuck bus.toBus cell value →
    ∀ mem fuel, b.cnt < fuel → ∃ mem', test σ fuel bus mem = some (err, mem')

section Rules

variable {σ : Type} {bus : Bus σ} {cell : Cell} {value : Bool} {script : List Touch} {good : UL}

-- A comparison that wants the other value of the bit fails.
theorem Stuck.play (hstuck : Stuck bus cell value) {t : Touch} (ht : t ∈ script)
    (haddr : t.addr = cell.addr) (hgood : t.good = some good) (hbit : bitOf good cell.bit ≠ value)
    (mem : σ) : play bus script mem = none := by
  refine play_of_mem ht (fun mem => ?_) mem
  have hread : (bus.read mem t.addr).1 ≠ good := by
    intro heq
    apply hbit
    rw [← heq, haddr]
    exact hstuck mem
  simp only [Touch.play, hgood]
  exact if_neg hread

theorem Stuck.play_of_both (hstuck : Stuck bus cell value) {b : Block} (hboth : ChecksBoth b script)
    (hcell : cell.addr ∈ b.addrs) (mem : σ) : TestLib.play bus script mem = none := by
  obtain ⟨good, ⟨t, ht, haddr, hgood⟩, u, hu, haddr', hgood'⟩ := hboth cell.addr hcell
  by_cases hbit : bitOf good cell.bit = value
  · refine hstuck.play hu haddr' hgood' ?_ mem
    rw [bitOf_not, hbit]
    simp
  · exact hstuck.play ht haddr hgood hbit mem

variable {b : Block} {err code : Nat} {test rest : MemTest}

theorem finds_of_plays {γ : Type} {gen : γ} {part : (σ : Type) → Nat → LongBus σ → Part σ γ}
    (hboth : ChecksBoth b script)
    (hplays : ∀ σ fuel (bus : LongBus σ), b.cnt < fuel →
      ∃ gen' q, Plays bus.toBus (part σ fuel bus) gen script gen' q) :
    Finds b errFail fun σ fuel bus mem => (part σ fuel bus).test gen mem := by
  intro σ bus cell value hcell hstuck mem fuel hfuel
  obtain ⟨gen', q, hpart⟩ := hplays σ fuel bus hfuel
  exact hpart.test_dirty (hstuck.play_of_both hboth hcell mem)

theorem Finds.thenTest (err : Nat) (h : Finds b code test) (hcode : code ≠ errSuccess) :
    Finds b err fun σ fuel bus mem => TestLib.thenTest err (test σ fuel bus mem) (rest σ fuel bus) := by
  intro σ bus cell value hcell hstuck mem fuel hfuel
  obtain ⟨mem', hrun⟩ := h σ bus cell value hcell hstuck mem fuel hfuel
  exact ⟨mem', (congrArg (fun first => TestLib.thenTest err first _) hrun).trans (if_pos hcode)⟩

/-- What the answer to a read of the word looks like. -/
def StuckAnswer (cell : Cell) (value : Bool) : (op : Access) → op.Answer → Prop
  | .read p, word => p = cell.addr → bitOf word cell.bit = value
  | _, _ => True

theorem exists_stuckAnswer (cell : Cell) (value : Bool) (op : Access) :
    ∃ answer, StuckAnswer cell value op answer := by
  cases op with
  | read p => exact ⟨putBit 0 cell.bit value, fun _ => bitOf_putBit_self _ _ _⟩
  | write p w => exact ⟨(), trivial⟩
  | readl p => exact ⟨(0 : BitVec 32), trivial⟩
  | writel p w => exact ⟨(), trivial⟩

-- So the dialogue fails with such answers, wherever they come from.
theorem Finds.always (h : Finds b err test) (hcell : cell.addr ∈ b.addrs) {fuel : Nat}
    (hfuel : b.cnt < fuel) {d : Session Nat} (hd : Speaks fuel test d) :
    d.Always (StuckAnswer cell value) (· = err) := by
  refine Dialogue.always_of_run (exists_stuckAnswer cell value) fun σ handler hanswers mem => ?_
  have hstuck : Stuck (LongBus.ofHandler handler).toBus cell value :=
    fun mem => hanswers (.read cell.addr) mem rfl
  obtain ⟨mem', hrun⟩ := h σ (LongBus.ofHandler handler) cell value hcell hstuck mem fuel hfuel
  rw [hd.run_eq] at hrun
  exact congrArg Prod.fst (Option.some.inj hrun)

end Rules

/-! ## Moving inversions -/

section MovInv

variable (b : PageBlock) {iter : Nat}

theorem movinv1_finds (hiter : 0 < iter) (p1 : UL) :
    Finds b.toBlock errFail fun _ fuel bus mem =>
      (movinv1 bus.toBus fuel b.start b.cnt hasComparision iter p1 (~~~p1)).test () mem := by
  obtain ⟨n, rfl⟩ : ∃ n, iter = n + 1 := ⟨iter - 1, by omega⟩
  exact finds_of_plays (movinv1Passes_checks b.toBlock p1 n) fun σ fuel bus hfuel =>
    ⟨(), movinv1_plays b.toBlock p1 (~~~p1) b.pages.2 bus.toBus hfuel (n + 1)⟩

theorem testMovinv10_finds (hiter : 0 < iter) :
    Finds b.toBlock errMovinv10 (testMovinv10 b.start (8 * b.cnt) iter hasComparision) := by
  unfold testMovinv10
  rw [cnt_of_bytes]
  exact (movinv1_finds b hiter 0).thenTest _ (by decide)

theorem testMovinv8bit_finds (hiter : 0 < iter) :
    Finds b.toBlock errMovinv8bit (testMovinv8bit b.start (8 * b.cnt) iter hasComparision) := by
  unfold testMovinv8bit movinv8bitRounds
  rw [cnt_of_bytes]
  exact (movinv1_finds b hiter _).thenTest _ (by decide)

theorem testMovinvRandom_finds (hiter : 0 < iter) :
    Finds b.toBlock errMovinvRandom (testMovinvRandom b.start (8 * b.cnt) iter hasComparision) := by
  obtain ⟨n, rfl⟩ : ∃ n, iter = n + 1 := ⟨iter - 1, by omega⟩
  unfold testMovinvRandom movinvRandomRounds
  rw [cnt_of_bytes]
  exact (movinv1_finds b (by decide) _).thenTest _ (by decide)

theorem testMovinvLong_finds (hiter : 0 < iter) :
    Finds b.toBlock errMovinv32bit (testMovinvLong b.start (8 * b.cnt) iter hasComparision) := by
  obtain ⟨n, rfl⟩ : ∃ n, iter = n + 1 := ⟨iter - 1, by omega⟩
  have hcall : Finds b.toBlock errFail fun _ fuel bus mem =>
      (longCall bus.toBus fuel b.toBlock hasComparision (n + 1) false 0).test ⟨0, 0⟩ mem :=
    finds_of_plays (patternPasses_checks b.toBlock false (show 0 < 64 by decide) n)
      fun σ fuel bus hfuel => longCall_plays b.toBlock hasComparision false (by decide) b.pages.2
        bus.toBus hfuel (n + 1) ⟨0, 0⟩
  intro σ bus cell value hcell hstuck mem fuel hfuel
  obtain ⟨turns, rfl⟩ : ∃ turns, fuel = turns + 1 := ⟨fuel - 1, by omega⟩
  obtain ⟨mem', hrun⟩ := thenTest_failed errMovinv32bit _
    (hcall σ bus cell value hcell hstuck mem _ hfuel)
  refine ⟨mem', ?_⟩
  rw [testMovinvLong, movinvLongRounds, cnt_of_bytes]
  exact (if_neg (by decide)).trans hrun

theorem testRandomNumSequence_finds :
    Finds b.toBlock errRandomNumSeq (testRandomNumSequence b.start (8 * b.cnt) hasComparision) := by
  have hcall : Finds b.toBlock errFail fun _ fuel bus mem =>
      (movinvr bus.toBus fuel b.start b.cnt hasComparision).test randFunctionInit mem :=
    finds_of_plays (randomPasses_checks b.toBlock randFunctionInit) fun σ fuel bus hfuel =>
      (movinvr_block b.toBlock hasComparision randFunctionInit).1 σ fuel bus.toBus hfuel
  unfold testRandomNumSequence
  rw [cnt_of_bytes]
  exact hcall.thenTest _ (by decide)

end MovInv

/-! ## Modulo 20 -/

section Modulo

variable (b : PageBlock) {σ : Type} {bus : LongBus σ} {cell : Cell} {value : Bool} {i fuel : Nat}
  (hi : i < b.cnt) (haddr : cell.addr = b.start + 8 * i) (hstuck : Stuck bus.toBus cell value)
  (hfuel : b.cnt < fuel)

include hi haddr hstuck hfuel

-- The call whose last pass wants the other value of the bit.
theorem modtst_finds {offset : Nat} (hoffset : i % modSz = offset) {p1 : UL} (p2 : UL)
    (hbit : bitOf p1 cell.bit ≠ value) (iter gen : Nat) (mem : σ) :
    ∃ mem', (modtst bus.toBus fuel b.start b.cnt hasComparision iter offset p1 p2).test gen mem =
      some (errFail, mem') := by
  have hlt : offset < modSz := hoffset ▸ Nat.mod_lt i (by decide)
  have hword : i ∈ residues b.toBlock offset := (mem_residues b.toBlock hlt i).mpr ⟨hi, hoffset⟩
  have hmem : (⟨b.start + 8 * i, expect hasComparision p1, none⟩ : Touch) ∈
      modtstScript hasComparision p1 p2 b.toBlock offset iter :=
    List.mem_append_right _ (List.mem_append_right _ (List.mem_map_of_mem hword))
  obtain ⟨gen', q, hplays⟩ := modtst_plays b.toBlock hasComparision p1 p2 b.roomy hlt bus.toBus hfuel
    iter gen
  exact hplays.test_dirty (hstuck.play hmem haddr.symm (expect_has p1) hbit mem)

-- At the offset of the word one of the two calls fails.
theorem memModuloOffsets_finds (rest : MemTest) {n k : Nat} (hlow : k ≤ i % modSz)
    (hhigh : i % modSz < k + n) (hn : k + n ≤ modSz) (p1 : UL) (mem : σ) :
    ∃ mem', memModuloOffsets b.start (8 * b.cnt) hasComparision rest n k p1 σ fuel bus mem =
      some (errModulo, mem') := by
  induction n generalizing k p1 mem with
  | zero => omega
  | succ n ih =>
      have hends : ∀ p1 p2 mem, ∃ ret mem', (modtst bus.toBus fuel b.start b.cnt hasComparision 2 k p1
          p2).test 0 mem = some (ret, mem') :=
        fun p1 p2 => test_ends (modtst_plays b.toBlock hasComparision p1 p2 b.roomy (by omega) bus.toBus
          hfuel 2 0)
      unfold memModuloOffsets
      rw [cnt_of_bytes]
      by_cases hoffset : i % modSz = k
      · by_cases hbit : bitOf p1 cell.bit = value
        · have hbit' : bitOf (~~~p1) cell.bit ≠ value := by
            rw [bitOf_not, hbit]
            simp
          exact thenTest_fails (hends _ _ mem) fun mem =>
            thenTest_failed _ _ (modtst_finds b hi haddr hstuck hfuel hoffset p1 hbit' 2 0 mem)
        · exact thenTest_failed _ _ (modtst_finds b hi haddr hstuck hfuel hoffset _ hbit 2 0 mem)
      · exact thenTest_fails (hends _ _ mem) fun mem => thenTest_fails (hends _ _ mem) fun mem =>
          ih (by omega) (by omega) (by omega) _ mem

end Modulo

theorem testMemModulo_finds (b : PageBlock) {iter : Nat} (hiter : 0 < iter) :
    Finds b.toBlock errModulo (testMemModulo b.start (8 * b.cnt) iter hasComparision) := by
  obtain ⟨n, rfl⟩ : ∃ n, iter = n + 1 := ⟨iter - 1, by omega⟩
  intro σ bus cell value hcell hstuck mem fuel hfuel
  obtain ⟨i, hi, haddr⟩ := List.mem_range'.mp hcell
  exact memModuloOffsets_finds b hi haddr hstuck hfuel _ (Nat.zero_le _)
    (by simpa using Nat.mod_lt i (show 0 < modSz by decide)) le_rfl _ mem

/-! ## March C -/

-- A position at which the body always leaves.
theorem sweep_leaves {α σ : Type} {body : α → σ → σ × Bool} {p : α} {ps : List α} (hp : p ∈ ps)
    (hbody : ∀ s, (body p s).2 = true) (s : σ) : (sweep body ps s).2 = true := by
  induction ps generalizing s with
  | nil => cases hp
  | cons q ps ih =>
      rw [sweep]
      split
      · rfl
      · rename_i hstay
        rcases List.mem_cons.mp hp with rfl | hp
        · exact absurd (hbody s) hstay
        · exact ih hp _

-- The first pass wants zeros and the second one ones.
theorem checkedPart_finds {b : Block} {σ : Type} {bus : Bus σ} {cell : Cell} {value : Bool}
    (hcell : cell.addr ∈ b.addrs) (hstuck : Stuck bus cell value) (p1 : UL) (m : Machine σ) :
    (checkedPart bus b p1 m).2 = true := by
  have hpass : ∀ good word : UL, bitOf good cell.bit ≠ value → ∀ m,
      (sweep (verifyAWriteBBody bus good word) b.addrs m).2 = true := by
    intro good word hbit
    refine sweep_leaves hcell fun m => ?_
    have hread : (bus.read m.mem cell.addr).1 ≠ good := by
      intro heq
      apply hbit
      rw [← heq]
      exact hstuck m.mem
    rw [verifyAWriteBBody, if_pos hread]
  have hleaves : ∀ {pass}, pass ∈ checkedPasses bus b p1 → (∀ m, (pass m).2 = true) →
      (checkedPart bus b p1 m).2 = true :=
    fun {pass} hmem hpass => @sweep_leaves (Machine σ → Machine σ × Bool) (Machine σ)
      (fun pass m => pass m) pass (checkedPasses bus b p1) hmem hpass m
  by_cases hbit : bitOf p1 cell.bit = value
  · have hbit' : bitOf (~~~p1) cell.bit ≠ value := by
      rw [bitOf_not, hbit]
      simp
    exact hleaves (List.mem_cons_of_mem _ List.mem_cons_self) (hpass _ p1 hbit')
  · exact hleaves List.mem_cons_self (hpass _ (~~~p1) hbit)

theorem testMarchC_finds (b : PageBlock) {iter : Nat} (hiter : 0 < iter) (noComp : Int) :
    Finds b.toBlock errMarchC (testMarchC b.start (8 * b.cnt) iter noComp) := by
  obtain ⟨n, rfl⟩ : ∃ n, iter = n + 1 := ⟨iter - 1, by omega⟩
  intro σ bus cell value hcell hstuck mem fuel hfuel
  have hdecisive : decisiveMismatch bus.toBus b.toBlock 0 (n + 1)
      (filled bus.toBus b.toBlock 0 ⟨mem, []⟩) = true := by
    rw [decisiveMismatch, checkedPart_finds hcell hstuck]
    rfl
  obtain ⟨m', hrun, -⟩ := marchCRounds_verdict bus.toBus b.toBlock hfuel 0 n errSuccess
    (filled bus.toBus b.toBlock 0 ⟨mem, []⟩)
  refine ⟨m'.mem, ?_⟩
  unfold testMarchC
  rw [cnt_of_bytes]
  dsimp only
  rw [marchC_eq b.toBlock hfuel, hrun, hdecisive]
  rfl

end MoBoMemory.TestLib
