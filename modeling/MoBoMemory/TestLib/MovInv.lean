import MoBoMemory.TestLib.Spin

/-!
# Moving inversions

Items 3, 4 and 5: `movinv1` fills the block with a pattern and then inverts it word by word, upwards
and downwards, `iter` times.  Items 7 and 8: the same with a pattern that moves from word to word, and
with random words.
-/

namespace MoBoMemory.TestLib

open Base

def errMovinv10 : Nat := 0x10200012
def errMovinv8bit : Nat := 0x10200013
def errMovinvRandom : Nat := 0x10200014

/-! ## Random words -/

/-- `prandr_t`. -/
structure Prandr where
  s0 : UL
  s1 : UL

def randFunctionInit : Prandr := ⟨521288629, 362436069⟩

def randFunction (p : Prandr) : UL × Prandr :=
  let s0 := 18000 * (p.s0 &&& 0xFFFF) + (p.s0 >>> 16)
  let s1 := 30903 * (p.s1 &&& 0xFFFF) + (p.s1 >>> 16)
  (((s0 <<< 16) + (s1 &&& 0xFFFF)) <<< 32, ⟨s0, s1⟩)

/-- A seed of 0 leaves the old one. -/
def randSeed (p : Prandr) (seed1 seed2 : UL) : Prandr :=
  ⟨if seed1 ≠ 0 then seed1 else p.s0, if seed2 ≠ 0 then seed2 else p.s1⟩

/-! ## One pattern -/

section Movinv1

variable {σ : Type} (bus : Bus σ) (fuel startP cnt : Nat) (noComp : Int)

/-- The `for (i=0; i<iter; i++)` loop. -/
def movinv1Rounds (p1 p2 : UL) : Nat → Nat → Part σ Unit
  | 0, p => Part.stop p
  | n + 1, _ =>
      (passUp bus false (fun _ p => ⟨p, expect noComp p1, some p2⟩) id Part.stop 1 fuel startP
        (ptrAdd startP cnt) startP).andThen fun _ =>
      (passDown bus false (fun _ p => ⟨p, expect noComp p2, some p1⟩) id Part.stop fuel startP
        (ptrPred (ptrAdd startP cnt))).andThen fun p =>
      movinv1Rounds p1 p2 n p

def movinv1 (iter : Nat) (p1 p2 : UL) : Part σ Unit :=
  (passUp bus false (fun _ p => ⟨p, none, some p1⟩) id Part.stop 1 fuel startP (ptrAdd startP cnt)
    startP).andThen fun p =>
  movinv1Rounds bus fuel startP cnt noComp p1 p2 iter p

end Movinv1

section Movinv1Flag

variable (b : Block) {noComp : Int} (p1 p2 : UL)

-- Whole pages are never a word more than whole sections.
theorem Block.rest_ne_one (hpages : 512 ∣ b.cnt) : 1 < b.cnt ∧ (b.cnt - 1) % spinsz ≠ 1 := by
  have hpos := b.cnt_pos
  unfold spinsz
  omega

def movinv1Script (noComp : Int) (b : Block) (p1 p2 : UL) : Nat → List Touch
  | 0 => []
  | n + 1 =>
      touches (fun _ p => ⟨p, expect noComp p1, some p2⟩) id b.addrs () ++
        (touches (fun _ p => ⟨p, expect noComp p2, some p1⟩) id b.addrs.reverse () ++
          movinv1Script noComp b p1 p2 n)

theorem movinv1Rounds_plays (hpages : 512 ∣ b.cnt) {σ : Type} (bus : Bus σ) {fuel : Nat}
    (hfuel : b.cnt < fuel) (n p : Nat) :
    ∃ q, Plays bus (movinv1Rounds bus fuel b.start b.cnt noComp p1 p2 n p) ()
      (movinv1Script noComp b p1 p2 n) () q := by
  induction n generalizing p with
  | zero => exact ⟨p, stop_plays p ()⟩
  | succ n ih =>
      obtain ⟨hcnt, hrest⟩ := b.rest_ne_one hpages
      obtain ⟨q₁, hup⟩ := passUp_block bus false (fun _ p => ⟨p, expect noComp p1, some p2⟩) id
        b stop_plays hfuel ()
      obtain ⟨q₂, hdown⟩ := passDown_block bus false (fun _ p => ⟨p, expect noComp p2, some p1⟩) id
        b stop_plays hfuel hcnt hrest ()
      obtain ⟨q₃, hrest⟩ := ih q₂
      exact ⟨q₃, hup.andThen _ (hdown.andThen _ hrest)⟩

theorem movinv1Script_keeps (n : Nat) :
    Keeps b noComp (fun _ => p1) (movinv1Script noComp b p1 p2 n) (fun _ => p1) := by
  induction n with
  | zero => exact Keeps.nil _
  | succ n ih =>
      have hup : Keeps b noComp (fun _ => p1)
          (touches (fun _ p => ⟨p, expect noComp p1, some p2⟩) id b.addrs ()) (fun _ => p2) :=
        keeps_up (fun _ _ => rfl) (fun hno _ _ => expect_none hno _)
          (fun _ _ _ hgood => expect_some hgood) (fun _ _ => rfl)
      have hdown : Keeps b noComp (fun _ => p2)
          (touches (fun _ p => ⟨p, expect noComp p2, some p1⟩) id b.addrs.reverse ())
          (fun _ => p1) :=
        keeps_down (fun _ _ => rfl) (fun hno _ _ => expect_none hno _)
          (fun _ _ _ hgood => expect_some hgood) (fun _ _ => rfl)
      exact hup.append (hdown.append ih)

/-- The filling pass and the rounds. -/
def movinv1Passes (noComp : Int) (b : Block) (p1 p2 : UL) (iter : Nat) : List Touch :=
  touches (fun _ p => ⟨p, none, some p1⟩) id b.addrs () ++ movinv1Script noComp b p1 p2 iter

theorem movinv1_plays (hpages : 512 ∣ b.cnt) {σ : Type} (bus : Bus σ) {fuel : Nat}
    (hfuel : b.cnt < fuel) (iter : Nat) :
    ∃ q, Plays bus (movinv1 bus fuel b.start b.cnt noComp iter p1 p2) ()
      (movinv1Passes noComp b p1 p2 iter) () q := by
  obtain ⟨q₁, hfill⟩ := passUp_block bus false (fun _ p => ⟨p, none, some p1⟩) id b stop_plays hfuel ()
  obtain ⟨q₂, hrounds⟩ := movinv1Rounds_plays b p1 p2 hpages bus hfuel iter q₁
  exact ⟨q₂, hfill.andThen _ hrounds⟩

theorem movinv1Passes_keeps (iter : Nat) (f : Nat → UL) :
    Keeps b noComp f (movinv1Passes noComp b p1 p2 iter) fun _ => p1 := by
  have hfill : Keeps b noComp f (touches (fun _ p => ⟨p, none, some p1⟩) id b.addrs ()) fun _ => p1 :=
    keeps_fill (fun _ _ => rfl) (fun _ _ => rfl) (fun _ _ => rfl) f
  exact hfill.append (movinv1Script_keeps b p1 p2 iter)

theorem movinv1_honours (b : PageBlock) (p1 p2 : UL) {iter : Nat} (hiter : 0 < iter) :
    Honours noComp b.cnt errFail fun _ fuel bus mem =>
      (movinv1 bus.toBus fuel b.start b.cnt noComp iter p1 p2).test () mem := by
  obtain ⟨n, rfl⟩ : ∃ n, iter = n + 1 := ⟨iter - 1, by omega⟩
  have hsound : Sound noComp (movinv1Passes noComp b.toBlock p1 p2 (n + 1)) := by
    refine sound_of_keeps (fun f => ⟨_, movinv1Passes_keeps b.toBlock p1 p2 _ f⟩) ?_
    intro hyes
    refine ⟨⟨b.start, expect noComp p1, some p2⟩, ?_, by simp [expect, hyes]⟩
    have hfirst := @first_touch_mem _ (fun _ p => ⟨p, expect noComp p1, some p2⟩) id () b.toBlock
    simp only [movinv1Passes, movinv1Script, List.mem_append]
    exact Or.inr (Or.inl hfirst)
  exact honours_of_plays hsound fun σ fuel bus hfuel =>
    ⟨(), movinv1_plays b.toBlock p1 p2 b.pages.2 bus.toBus hfuel (n + 1)⟩

end Movinv1Flag

/-! ## The tests with one pattern -/

section Tests

variable (startP blockBytes iter : Nat) (noComp : Int)

def testMovinv10 : MemTest := fun _ fuel bus mem =>
  let run := fun p1 p2 => (movinv1 bus.toBus fuel startP (blockBytes / 8) noComp iter p1 p2).test ()
  thenTest errMovinv10 (run 0 (~~~0) mem) fun mem =>
  -- Switch patterns
  thenTest errMovinv10 (run (~~~0) 0 mem) fun mem => some (errSuccess, mem)

/-- `p0` in all eight bytes. -/
def bytesOf (p0 : UL) : UL :=
  p0 ||| (p0 <<< 8) ||| (p0 <<< 16) ||| (p0 <<< 24) ||| (p0 <<< 32) ||| (p0 <<< 40) |||
    (p0 <<< 48) ||| (p0 <<< 56)

/-- The `for (j=0; j<8; j++, p0=p0>>1)` loop. -/
def movinv8bitRounds : Nat → UL → MemTest
  | 0, _ => fun _ _ _ mem => some (errSuccess, mem)
  | n + 1, p0 => fun σ fuel bus mem =>
      let run := fun p1 p2 =>
        (movinv1 bus.toBus fuel startP (blockBytes / 8) noComp iter p1 p2).test ()
      let p1 := bytesOf p0
      thenTest errMovinv8bit (run p1 (~~~p1) mem) fun mem =>
      thenTest errMovinv8bit (run (~~~p1) p1 mem) fun mem =>
      movinv8bitRounds n (p0 >>> 1) σ fuel bus mem

def testMovinv8bit : MemTest := movinv8bitRounds startP blockBytes iter noComp 8 0x80

/-- The `for (j=0; j<iter; j++)` loop. -/
def movinvRandomRounds : Nat → Prandr → MemTest
  | 0, _ => fun _ _ _ mem => some (errSuccess, mem)
  | n + 1, r => fun σ fuel bus mem =>
      let p1 := (randFunction r).1
      thenTest errMovinvRandom
        ((movinv1 bus.toBus fuel startP (blockBytes / 8) noComp 2 p1 (~~~p1)).test () mem) fun mem =>
      movinvRandomRounds n (randFunction r).2 σ fuel bus mem

def testMovinvRandom : MemTest := movinvRandomRounds startP blockBytes noComp iter randFunctionInit

end Tests

section TestsFlag

variable (b : PageBlock) {iter : Nat} (noComp : Int)

theorem testMovinv10_honours (hiter : 0 < iter) :
    Honours noComp b.cnt errMovinv10 (testMovinv10 b.start (8 * b.cnt) iter noComp) := by
  unfold testMovinv10
  rw [cnt_of_bytes]
  exact (movinv1_honours b 0 (~~~0) hiter).thenTest _ (by decide)
    ((movinv1_honours b (~~~0) 0 hiter).toHarmless.thenTest _ harmless_done)

theorem movinv8bitRounds_harmless (hiter : 0 < iter) (n : Nat) (p0 : UL) :
    Harmless noComp b.cnt (movinv8bitRounds b.start (8 * b.cnt) iter noComp n p0) := by
  induction n generalizing p0 with
  | zero => exact harmless_done
  | succ n ih =>
      unfold movinv8bitRounds
      rw [cnt_of_bytes]
      exact (movinv1_honours b _ _ hiter).toHarmless.thenTest _
        ((movinv1_honours b _ _ hiter).toHarmless.thenTest _ (ih (p0 >>> 1)))

theorem testMovinv8bit_honours (hiter : 0 < iter) :
    Honours noComp b.cnt errMovinv8bit (testMovinv8bit b.start (8 * b.cnt) iter noComp) := by
  unfold testMovinv8bit movinv8bitRounds
  rw [cnt_of_bytes]
  exact (movinv1_honours b _ _ hiter).thenTest _ (by decide)
    ((movinv1_honours b _ _ hiter).toHarmless.thenTest _
      (movinv8bitRounds_harmless b noComp hiter 7 _))

theorem movinvRandomRounds_harmless (n : Nat) (r : Prandr) :
    Harmless noComp b.cnt (movinvRandomRounds b.start (8 * b.cnt) noComp n r) := by
  induction n generalizing r with
  | zero => exact harmless_done
  | succ n ih =>
      unfold movinvRandomRounds
      rw [cnt_of_bytes]
      exact (movinv1_honours b _ _ (by decide)).toHarmless.thenTest _ (ih _)

theorem testMovinvRandom_honours (hiter : 0 < iter) :
    Honours noComp b.cnt errMovinvRandom (testMovinvRandom b.start (8 * b.cnt) iter noComp) := by
  obtain ⟨n, rfl⟩ : ∃ n, iter = n + 1 := ⟨iter - 1, by omega⟩
  unfold testMovinvRandom movinvRandomRounds
  rw [cnt_of_bytes]
  exact (movinv1_honours b _ _ (by decide)).thenTest _ (by decide)
    (movinvRandomRounds_harmless b noComp n _)

end TestsFlag

end MoBoMemory.TestLib
