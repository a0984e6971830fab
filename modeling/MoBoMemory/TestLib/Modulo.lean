import MoBoMemory.TestLib.MovInv

/-!
# Modulo 20

Item 9: `modtst` writes a pattern to every twentieth word, then its complement to all the others, and
looks whether the first words have kept theirs.
-/

namespace MoBoMemory.TestLib

open Base

def errModulo : Nat := 0x10200018
def modSz : Nat := 20

/-- `if (++k > MOD_SZ-1) k = 0;` -/
def nextResidue (k : Nat) : Nat := if modSz - 1 < k + 1 then 0 else k + 1

section Modtst

variable {σ : Type} (bus : Bus σ) (fuel startP cnt : Nat) (noComp : Int)

/-- The `for (l=0; l<iter; l++)` loop, which resets `k`. -/
def modtstRest (offset : Nat) (p2 : UL) : Nat → Nat → Part σ Nat
  | 0, p => Part.stop p
  | n + 1, _ =>
      Part.andThen (fun s => passUp bus false
        (fun k p => ⟨p, none, if k ≠ offset then some p2 else none⟩) nextResidue Part.stop 1 fuel startP
        (ptrAdd startP cnt) startP { s with gen := 0 }) fun p =>
      modtstRest offset p2 n p

def modtst (iter offset : Nat) (p1 p2 : UL) : Part σ Nat :=
  (passUp bus false (fun _ p => ⟨p, none, some p1⟩) id Part.stop modSz fuel startP
    (ptrAdd startP cnt) (ptrAdd startP offset)).andThen fun p =>
  (modtstRest bus fuel startP cnt offset p2 iter p).andThen fun _ =>
  passUp bus true (fun _ p => ⟨p, expect noComp p1, none⟩) id Part.stop modSz fuel startP
    (ptrAdd startP cnt) (ptrAdd startP offset)

end Modtst

/-! ## Every twentieth word -/

section Modulo

variable (b : Block) {offset : Nat}

/-- The indices of the words that the first and the last pass touch. -/
def residues (b : Block) (offset : Nat) : List Nat :=
  List.range' offset ((b.cnt - offset + 19) / 20) 20

theorem mem_residues (hoffset : offset < modSz) (i : Nat) :
    i ∈ residues b offset ↔ i < b.cnt ∧ i % modSz = offset := by
  simp only [residues, List.mem_range', modSz] at *
  constructor
  · rintro ⟨j, hj, rfl⟩
    omega
  · rintro ⟨hi, hmod⟩
    exact ⟨i / 20, by omega, by omega⟩

/-- The addresses of the words behind the block that a stride may reach do not wrap. -/
def Block.Roomy (b : Block) : Prop := b.start + 8 * (b.cnt + modSz) < 2 ^ 64

theorem PageBlock.roomy (b : PageBlock) : b.Roomy := by
  have huser := b.user
  unfold Block.Roomy modSz
  omega

theorem visits_residues (hroom : b.Roomy) (hoffset : offset < modSz) :
    Visits (fun r => decide (r < ptrAdd b.start b.cnt)) (fun r => ptrAdd r modSz)
      (ptrAdd b.start offset) ((residues b offset).map fun i => b.start + 8 * i) := by
  unfold Block.Roomy modSz at hroom
  have hwalk : ∀ n i, (∀ j < n, i + 20 * j < b.cnt) → b.cnt ≤ i + 20 * n → i < b.cnt + 20 →
      Visits (fun r => decide (r < b.start + 8 * b.cnt)) (fun r => ptrAdd r modSz)
        (b.start + 8 * i) ((List.range' i n 20).map fun i => b.start + 8 * i) := by
    intro n
    induction n with
    | zero =>
        intro i _ hend _
        exact .stop (by simp; omega)
    | succ n ih =>
        intro i hall hend hi
        have hfirst := hall 0 (by omega)
        rw [List.range'_succ, List.map_cons]
        refine .step (by simp; omega) ?_
        have hnext : ptrAdd (b.start + 8 * i) modSz = b.start + 8 * (i + 20) := by
          unfold ptrAdd modSz
          omega
        rw [hnext]
        exact ih (i + 20) (fun j hj => by have := hall (j + 1) (by omega); omega) (by omega) (by omega)
  have hstart : ptrAdd b.start offset = b.start + 8 * offset := by
    unfold ptrAdd modSz at *
    omega
  unfold modSz at hoffset
  rw [b.end_eq, hstart]
  exact hwalk _ offset (fun j hj => by omega) (by omega) (by omega)

theorem residue_iterate (i : Nat) : nextResidue^[i] 0 = i % modSz := by
  induction i with
  | zero => rfl
  | succ i ih =>
      rw [Function.iterate_succ_apply', ih]
      unfold nextResidue modSz
      split <;> omega

variable (noComp : Int) (p1 p2 : UL)

/-- The first and the last pass. -/
def residueScript (b : Block) (offset : Nat) (good word : Option UL) : List Touch :=
  (residues b offset).map fun i => ⟨b.start + 8 * i, good, word⟩

def restScript (b : Block) (offset : Nat) (p2 : UL) : Nat → List Touch
  | 0 => []
  | n + 1 =>
      touches (fun k p => ⟨p, none, if k ≠ offset then some p2 else none⟩) nextResidue b.addrs 0 ++
        restScript b offset p2 n

def modtstScript (b : Block) (offset : Nat) (n : Nat) : List Touch :=
  residueScript b offset none (some p1) ++ (restScript b offset p2 n ++
    residueScript b offset (expect noComp p1) none)

theorem touches_residues (good word : Option UL) (gen : Nat) :
    touches (fun _ p => ⟨p, good, word⟩) id ((residues b offset).map fun i => b.start + 8 * i)
      gen = residueScript b offset good word := by
  rw [touches_const, List.map_map]
  rfl

theorem length_residues : (residues b offset).length ≤ b.cnt := by
  simp only [residues, List.length_range']
  omega

theorem residuePass_plays (hroom : b.Roomy) {σ : Type} (bus : Bus σ) {fuel : Nat}
    (hfuel : b.cnt < fuel) (hoffset : offset < modSz) (quit : Bool) (good word : Option UL) (gen : Nat) :
    ∃ gen' q, Plays bus (passUp bus quit (fun _ p => ⟨p, good, word⟩) id Part.stop modSz fuel b.start
      (ptrAdd b.start b.cnt) (ptrAdd b.start offset)) gen (residueScript b offset good word)
      gen' q := by
  have hlength := @length_residues b offset
  have hstart : ptrAdd b.start offset < b.start + 8 * spinsz := by
    unfold Block.Roomy ptrAdd modSz spinsz at *
    omega
  obtain ⟨q, hplays⟩ := passUp_plays bus quit (fun _ p => ⟨p, good, word⟩) id b.noWrap stop_plays
    modSz (by decide) hstart (visits_residues b hroom hoffset) (by rw [List.length_map]; omega) hfuel gen
  rw [touches_residues] at hplays
  exact ⟨_, q, hplays⟩

theorem modtstRest_plays {σ : Type} (bus : Bus σ) {fuel : Nat} (hfuel : b.cnt < fuel) (n p gen : Nat) :
    ∃ gen' q, Plays bus (modtstRest bus fuel b.start b.cnt offset p2 n p) gen
      (restScript b offset p2 n) gen' q := by
  induction n generalizing p gen with
  | zero => exact ⟨gen, p, stop_plays p gen⟩
  | succ n ih =>
      obtain ⟨q₁, hpass⟩ := passUp_block bus false
        (fun k p => ⟨p, none, if k ≠ offset then some p2 else none⟩) nextResidue b stop_plays
        hfuel 0
      obtain ⟨gen', q₂, hrest⟩ := ih q₁ (nextResidue^[b.cnt] 0)
      exact ⟨gen', q₂, (Plays.regen (fun _ => 0) gen hpass).andThen _ hrest⟩

theorem residueScript_keeps (hoffset : offset < modSz) {f : Nat → UL} {good word : Option UL}
    (hblind : noComp ≠ hasComparision → good = none)
    (hgood : ∀ g, good = some g → ∀ i, i % modSz = offset → g = f i) :
    Keeps b noComp f (residueScript b offset good word)
      fun i => if i % modSz = offset then word.getD (f i) else f i := by
  refine ⟨fun hno t ht => ?_, fun mem hmem => ?_⟩
  · obtain ⟨i, -, rfl⟩ := List.mem_map.mp ht
    exact hblind hno
  · have hlt : ∀ i ∈ residues b offset, i < b.cnt :=
      fun i hi => ((mem_residues b hoffset i).mp hi).1
    have hnodup : (residues b offset).Nodup := by
      unfold residues
      exact List.nodup_range' _ (by decide)
    obtain ⟨mem', hplay, hholds⟩ := @play_indexed _ _ _ hmem _ hnodup hlt
      (fun i => ⟨b.start + 8 * i, good, word⟩) (fun _ => rfl)
      (fun i hi g hcase => hgood g hcase i ((mem_residues b hoffset i).mp hi).2)
    refine ⟨mem', hplay, fun i hi => ?_⟩
    rw [hholds i hi]
    simp only [mem_residues b hoffset, hi, true_and]

-- One turn already puts `p2` everywhere else.
theorem restScript_keeps (n : Nat) (f : Nat → UL) :
    Keeps b noComp f (restScript b offset p2 n)
      fun i => if i % modSz = offset ∨ n = 0 then f i else p2 := by
  induction n generalizing f with
  | zero =>
      simp only [or_true, if_true]
      exact Keeps.nil f
  | succ n ih =>
      have hpass : Keeps b noComp f
          (touches (fun k p => ⟨p, none, if k ≠ offset then some p2 else none⟩) nextResidue b.addrs 0)
          fun i => if i % modSz ≠ offset then p2 else f i := by
        refine keeps_up (fun _ _ => rfl) (fun _ _ _ => rfl) (fun _ _ _ hgood => by cases hgood) ?_
        intro i _
        rw [residue_iterate]
        dsimp only
        split <;> rfl
      have hboth := hpass.append (ih fun i => if i % modSz ≠ offset then p2 else f i)
      refine cast (congrArg (Keeps b noComp f _) (funext fun i => ?_)) hboth
      by_cases hi : i % modSz = offset <;> simp [hi]

theorem modtst_plays (hroom : b.Roomy) (hoffset : offset < modSz) {σ : Type} (bus : Bus σ) {fuel : Nat}
    (hfuel : b.cnt < fuel) (iter gen : Nat) :
    ∃ gen' q, Plays bus (modtst bus fuel b.start b.cnt noComp iter offset p1 p2) gen
      (modtstScript noComp p1 p2 b offset iter) gen' q := by
  obtain ⟨gen₁, q₁, hfill⟩ := residuePass_plays b hroom bus hfuel hoffset false none (some p1) gen
  obtain ⟨gen₂, q₂, hrest⟩ := modtstRest_plays b p2 bus hfuel iter q₁ gen₁
  obtain ⟨gen₃, q₃, hcheck⟩ := residuePass_plays b hroom bus hfuel hoffset true (expect noComp p1) none
    gen₂
  exact ⟨gen₃, q₃, hfill.andThen _ (hrest.andThen _ hcheck)⟩

theorem modtstScript_keeps (hoffset : offset < modSz) (iter : Nat) (f : Nat → UL) :
    Keeps b noComp f (modtstScript noComp p1 p2 b offset iter)
      fun i => if i % modSz = offset then p1 else if iter = 0 then f i else p2 := by
  have hfill : Keeps b noComp f (residueScript b offset none (some p1))
      fun i => if i % modSz = offset then p1 else f i :=
    residueScript_keeps b noComp hoffset (fun _ => rfl) (fun _ h => by cases h)
  have hrest : Keeps b noComp (fun i => if i % modSz = offset then p1 else f i)
      (restScript b offset p2 iter)
      fun i => if i % modSz = offset then p1 else if iter = 0 then f i else p2 := by
    refine cast (congrArg (Keeps b noComp _ _) (funext fun i => ?_)) (restScript_keeps b noComp p2 iter _)
    by_cases hi : i % modSz = offset <;> simp [hi]
  have hcheck : Keeps b noComp (fun i => if i % modSz = offset then p1 else if iter = 0 then f i else p2)
      (residueScript b offset (expect noComp p1) none)
      fun i => if i % modSz = offset then p1 else if iter = 0 then f i else p2 := by
    refine cast (congrArg (Keeps b noComp _ _) (funext fun i => ?_)) (residueScript_keeps b noComp hoffset
      (fun hno => expect_none hno p1) ?_)
    · simp
    · intro g hgood i hi
      rw [expect_some hgood, if_pos hi]
  exact hfill.append (hrest.append hcheck)

theorem modtst_honours (b : PageBlock) (hoffset : offset < modSz) (iter gen : Nat) :
    Honours noComp b.cnt errFail fun _ fuel bus mem =>
      (modtst bus.toBus fuel b.start b.cnt noComp iter offset p1 p2).test gen mem := by
  have hsound : Sound noComp (modtstScript noComp p1 p2 b.toBlock offset iter) := by
    refine sound_of_keeps (fun f => ⟨_, modtstScript_keeps b.toBlock noComp p1 p2 hoffset iter f⟩) ?_
    intro hyes
    have hmem : offset ∈ residues b.toBlock offset := by
      have hcnt := b.cnt_ge
      refine (mem_residues b.toBlock hoffset offset).mpr ⟨?_, Nat.mod_eq_of_lt hoffset⟩
      unfold modSz at hoffset
      omega
    refine ⟨_, List.mem_append_right _ (List.mem_append_right _ (List.mem_map_of_mem hmem)), ?_⟩
    simp [expect, hyes]
  exact honours_of_plays hsound fun σ fuel bus hfuel =>
    modtst_plays b.toBlock noComp p1 p2 b.roomy hoffset bus.toBus hfuel iter gen

end Modulo

/-! ## The test -/

section Test

variable (startP blockBytes iter : Nat) (noComp : Int)

/-- The loop over the offsets; `p1` and its complement change places in every turn. -/
def memModuloOffsets (rest : MemTest) : Nat → Nat → UL → MemTest
  | 0, _, _ => rest
  | n + 1, k, p1 => fun σ fuel bus mem =>
      let run := fun p1 p2 => (modtst bus.toBus fuel startP (blockBytes / 8) noComp 2 k p1 p2).test 0
      thenTest errModulo (run p1 (~~~p1) mem) fun mem =>
      -- Switch patterns
      thenTest errModulo (run (~~~p1) p1 mem) fun mem =>
      memModuloOffsets rest n (k + 1) (~~~p1) σ fuel bus mem

def memModuloRounds : Nat → Prandr → MemTest
  | 0, _ => fun _ _ _ mem => some (errSuccess, mem)
  | n + 1, r => memModuloOffsets startP blockBytes noComp
      (memModuloRounds n (randFunction r).2) modSz 0 (randFunction r).1

def testMemModulo : MemTest := memModuloRounds startP blockBytes noComp iter randFunctionInit

end Test

section TestFlag

variable (b : PageBlock) (noComp : Int)

theorem memModuloOffsets_harmless {rest : MemTest} (hrest : Harmless noComp b.cnt rest) {n k : Nat}
    (hk : k + n ≤ modSz) (p1 : UL) :
    Harmless noComp b.cnt (memModuloOffsets b.start (8 * b.cnt) noComp rest n k p1) := by
  induction n generalizing k p1 with
  | zero => exact hrest
  | succ n ih =>
      unfold memModuloOffsets
      rw [cnt_of_bytes]
      exact (modtst_honours noComp _ _ b (by omega) 2 0).toHarmless.thenTest _
        ((modtst_honours noComp _ _ b (by omega) 2 0).toHarmless.thenTest _ (ih (by omega) _))

theorem memModuloRounds_harmless (n : Nat) (r : Prandr) :
    Harmless noComp b.cnt (memModuloRounds b.start (8 * b.cnt) noComp n r) := by
  induction n generalizing r with
  | zero => exact harmless_done
  | succ n ih => exact memModuloOffsets_harmless b noComp (ih _) (by decide) _

theorem testMemModulo_honours {iter : Nat} (hiter : 0 < iter) :
    Honours noComp b.cnt errModulo (testMemModulo b.start (8 * b.cnt) iter noComp) := by
  obtain ⟨n, rfl⟩ : ∃ n, iter = n + 1 := ⟨iter - 1, by omega⟩
  unfold testMemModulo memModuloRounds modSz memModuloOffsets
  rw [cnt_of_bytes]
  exact (modtst_honours noComp _ _ b (by decide) 2 0).thenTest _ (by decide)
    ((modtst_honours noComp _ _ b (by decide) 2 0).toHarmless.thenTest _
      (memModuloOffsets_harmless b noComp (memModuloRounds_harmless b noComp n _) (by decide) _))

end TestFlag

end MoBoMemory.TestLib
