import MoBoMemory.TestLib.MovInv

/-!
# Moving inversions with changing patterns

Items 7 and 8.  In `movinv32` one bit, set or clear, slides through the words; on the way down the
pattern is backed up by one step and then shifted the other way.  In `movinvr` every word has its own
random pattern, and there are only forward passes.
-/

namespace MoBoMemory.TestLib

open Base

def errMovinv32bit : Nat := 0x10200016
def errRandomNumSeq : Nat := 0x10200017
def ulSize : Int := 64

/-! ## A sliding pattern -/

/-- The variables `k` and `pat`. -/
structure Pattern where
  k : Int
  pat : UL

/-- `if (++k >= UL_SIZE) { pat = lb; k = 0; } else { pat = pat << 1; pat |= sval; }` -/
def forwardPattern (lb sval : UL) (g : Pattern) : Pattern :=
  if ulSize ≤ g.k + 1 then ⟨0, lb⟩ else ⟨g.k + 1, (g.pat <<< 1) ||| sval⟩

/-- `if (--k <= 0) { pat = hb; k = UL_SIZE; } else { pat = pat >> 1; pat |= p3; }` -/
def backwardPattern (hb sval : UL) (g : Pattern) : Pattern :=
  if g.k - 1 ≤ 0 then ⟨ulSize, hb⟩ else ⟨g.k - 1, (g.pat >>> 1) ||| (sval <<< 63)⟩

/-- Backs both up one step; the mask on `k` is `UL_SIZE - 1`. -/
def backUpPattern (lb sval : UL) (g : Pattern) : Pattern :=
  let k := (g.k - 1) % ulSize
  if k ≠ 0 then
    let pat := lb <<< k.toNat
    ⟨k + 1, if sval ≠ 0 then pat ||| ((sval <<< k.toNat) - 1) else pat⟩
  else ⟨k + 1, lb⟩

section Movinv32

variable {σ : Type} (bus : Bus σ) (fuel startP cnt : Nat) (noComp : Int)

def movinv32Rounds (p1 lb hb sval : UL) (off : Int) : Nat → Nat → Part σ Pattern
  | 0, p => Part.stop p
  | n + 1, _ =>
      Part.andThen (fun s => passUp bus false (fun g p => ⟨p, expect noComp g.pat, some (~~~g.pat)⟩)
        (forwardPattern lb sval) Part.bail 1 fuel startP (ptrAdd startP cnt) startP
        { s with gen := ⟨off, p1⟩ }) fun _ =>
      Part.andThen (fun s => passDown bus false
        (fun g p => ⟨p, expect noComp (~~~g.pat), some g.pat⟩)
        (backwardPattern hb sval) Part.bail fuel startP (ptrPred (ptrAdd startP cnt))
        { s with gen := backUpPattern lb sval s.gen }) fun p =>
      movinv32Rounds p1 lb hb sval off n p

def movinv32 (iter : Nat) (p1 lb hb sval : UL) (off : Int) : Part σ Pattern :=
  Part.andThen (fun s => passUp bus false (fun g p => ⟨p, none, some g.pat⟩)
    (forwardPattern lb sval) Part.stop 1 fuel startP (ptrAdd startP cnt) startP
    { s with gen := ⟨off, p1⟩ }) fun p =>
  movinv32Rounds bus fuel startP cnt noComp p1 lb hb sval off iter p

end Movinv32

/-! ## Which bit it is -/

/-- The word with one bit set, or all but one. -/
def slide (ones : Bool) (i : Nat) : UL :=
  if ones then ~~~((1 : UL) <<< (i % 64)) else (1 : UL) <<< (i % 64)

def slideVal (ones : Bool) : UL := if ones then 1 else 0

section Slide

variable (ones : Bool)

theorem slide_mod (i : Nat) : slide ones (i % 64) = slide ones i := by
  rw [slide, slide, Nat.mod_mod]

theorem slide_forward : ∀ r < 63, (slide ones r <<< 1) ||| slideVal ones = slide ones (r + 1) := by
  cases ones <;> decide +kernel

theorem slide_backward :
    ∀ r < 63, (slide ones (r + 1) >>> 1) ||| (slideVal ones <<< 63) = slide ones r := by
  cases ones <;> decide +kernel

theorem slide_jump : ∀ k : Nat, k < 64 →
    (if slideVal ones ≠ 0 then (slide ones 0 <<< k) ||| ((slideVal ones <<< k) - 1)
      else slide ones 0 <<< k : UL) = slide ones k := by
  cases ones <;> decide +kernel

-- The variables on the way up and on the way down, when the word with bit `a` is next.
def upPattern (a : Nat) : Pattern := ⟨(a % 64 : Nat), slide ones a⟩

def downPattern (a : Nat) : Pattern := ⟨(a % 64 : Nat) + 1, slide ones a⟩

theorem forwardPattern_up (a : Nat) :
    forwardPattern (slide ones 0) (slideVal ones) (upPattern ones a) = upPattern ones (a + 1) := by
  have hr := Nat.mod_lt a (by decide : 0 < 64)
  unfold forwardPattern upPattern ulSize
  by_cases hlast : a % 64 = 63
  · have hnext : (a + 1) % 64 = 0 := by omega
    rw [if_pos (by dsimp only; omega), hnext, ← slide_mod ones (a + 1), hnext]
    rfl
  · have hnext : (a + 1) % 64 = a % 64 + 1 := by omega
    rw [if_neg (by dsimp only; omega), hnext, ← slide_mod ones (a + 1), hnext, ← slide_mod ones a,
      slide_forward ones (a % 64) (by omega)]
    rfl

theorem backwardPattern_down (a : Nat) :
    backwardPattern (slide ones 63) (slideVal ones) (downPattern ones (a + 1)) =
      downPattern ones a := by
  have hr := Nat.mod_lt a (by decide : 0 < 64)
  unfold backwardPattern downPattern ulSize
  by_cases hlast : a % 64 = 63
  · have hnext : (a + 1) % 64 = 0 := by omega
    rw [if_pos (by dsimp only; omega), ← slide_mod ones a, hlast]
    rfl
  · have hnext : (a + 1) % 64 = a % 64 + 1 := by omega
    rw [if_neg (by dsimp only; omega), ← slide_mod ones (a + 1), hnext, ← slide_mod ones a,
      slide_backward ones (a % 64) (by omega)]
    simp

theorem backUpPattern_up (a : Nat) :
    backUpPattern (slide ones 0) (slideVal ones) (upPattern ones (a + 1)) = downPattern ones a := by
  have hr := Nat.mod_lt a (by decide : 0 < 64)
  have hk : (((a + 1) % 64 : Nat) - 1 : Int) % ulSize = (a % 64 : Nat) := by
    unfold ulSize
    omega
  unfold backUpPattern upPattern downPattern
  simp only [hk, Int.toNat_natCast]
  by_cases hzero : a % 64 = 0
  · rw [if_neg (by simp [hzero]), ← slide_mod ones a, hzero]
  · rw [if_pos (by omega), slide_jump ones (a % 64) hr, slide_mod]

theorem forward_iterate (a n : Nat) :
    (forwardPattern (slide ones 0) (slideVal ones))^[n] (upPattern ones a) =
      upPattern ones (a + n) := by
  induction n with
  | zero => rfl
  | succ n ih => rw [Function.iterate_succ_apply', ih, forwardPattern_up, Nat.add_assoc]

theorem backward_iterate {a n : Nat} (hn : n ≤ a) :
    (backwardPattern (slide ones 63) (slideVal ones))^[n] (downPattern ones a) =
      downPattern ones (a - n) := by
  induction n with
  | zero => rfl
  | succ n ih =>
      rw [Function.iterate_succ_apply', ih (by omega), show a - n = a - (n + 1) + 1 by omega,
        backwardPattern_down]

end Slide

section Movinv32Flag

variable (b : Block) (noComp : Int) (ones : Bool) (j : Nat)

def slideFill (b : Block) : List Touch :=
  touches (fun g p => ⟨p, none, some g.pat⟩) (forwardPattern (slide ones 0) (slideVal ones)) b.addrs
    (upPattern ones j)

def slideUp (b : Block) : List Touch :=
  touches (fun g p => ⟨p, expect noComp g.pat, some (~~~g.pat)⟩)
    (forwardPattern (slide ones 0) (slideVal ones)) b.addrs (upPattern ones j)

def slideDown (b : Block) : List Touch :=
  touches (fun g p => ⟨p, expect noComp (~~~g.pat), some g.pat⟩)
    (backwardPattern (slide ones 63) (slideVal ones)) b.addrs.reverse
    (downPattern ones (j + (b.cnt - 1)))

def slideScript (b : Block) : Nat → List Touch
  | 0 => []
  | n + 1 => slideUp noComp ones j b ++ (slideDown noComp ones j b ++ slideScript b n)

theorem upPattern_start {j : Nat} (hj : j < 64) : (⟨j, slide ones j⟩ : Pattern) = upPattern ones j := by
  rw [upPattern, Nat.mod_eq_of_lt hj]

-- Backed up at the end of the block, the pattern is that of its last word.
theorem backUpPattern_last :
    backUpPattern (slide ones 0) (slideVal ones) (upPattern ones (j + b.cnt)) =
      downPattern ones (j + (b.cnt - 1)) := by
  rw [← backUpPattern_up, Nat.add_assoc, Nat.sub_add_cancel b.cnt_pos]

theorem movinv32Rounds_plays (hpages : 512 ∣ b.cnt) {σ : Type} (bus : Bus σ) {fuel : Nat}
    (hfuel : b.cnt < fuel) (hj : j < 64) (n p : Nat) (gen : Pattern) :
    ∃ gen' q, Plays bus (movinv32Rounds bus fuel b.start b.cnt noComp (slide ones j) (slide ones 0)
      (slide ones 63) (slideVal ones) j n p) gen (slideScript noComp ones j b n) gen' q := by
  induction n generalizing p gen with
  | zero => exact ⟨gen, p, stop_plays p gen⟩
  | succ n ih =>
      obtain ⟨hcnt, hone⟩ := b.rest_ne_one hpages
      obtain ⟨q₁, hup⟩ := passUp_block bus false
        (fun g p => ⟨p, expect noComp g.pat, some (~~~g.pat)⟩)
        (forwardPattern (slide ones 0) (slideVal ones)) b bail_plays hfuel (upPattern ones j)
      rw [forward_iterate] at hup
      obtain ⟨q₂, hdown⟩ := passDown_block bus false
        (fun g p => ⟨p, expect noComp (~~~g.pat), some g.pat⟩)
        (backwardPattern (slide ones 63) (slideVal ones)) b bail_plays hfuel hcnt hone
        (downPattern ones (j + (b.cnt - 1)))
      obtain ⟨gen', q₃, hrest⟩ := ih q₂
        ((backwardPattern (slide ones 63) (slideVal ones))^[b.cnt]
          (downPattern ones (j + (b.cnt - 1))))
      refine ⟨gen', q₃, ?_⟩
      rw [movinv32Rounds, upPattern_start ones hj]
      refine (Plays.regen (fun _ => upPattern ones j) gen hup).andThen _ (Plays.andThen ?_ _ hrest)
      refine Plays.regen (backUpPattern (slide ones 0) (slideVal ones)) _ ?_
      rw [backUpPattern_last]
      exact hdown

theorem slideFill_keeps (f : Nat → UL) :
    Keeps b noComp f (slideFill ones j b) fun i => slide ones (j + i) := by
  refine keeps_fill (fun _ _ => rfl) (fun _ _ => rfl) (fun i _ => ?_) f
  rw [forward_iterate]
  rfl

theorem slideScript_keeps (n : Nat) :
    Keeps b noComp (fun i => slide ones (j + i)) (slideScript noComp ones j b n)
      fun i => slide ones (j + i) := by
  induction n with
  | zero => exact Keeps.nil _
  | succ n ih =>
      have hup : Keeps b noComp (fun i => slide ones (j + i)) (slideUp noComp ones j b)
          fun i => ~~~slide ones (j + i) := by
        refine keeps_up (fun _ _ => rfl) (fun hno _ _ => expect_none hno _) ?_ ?_
        · intro i _ g hgood
          rw [forward_iterate] at hgood
          exact expect_some hgood
        · intro i _
          rw [forward_iterate]
          rfl
      have hdown : Keeps b noComp (fun i => ~~~slide ones (j + i)) (slideDown noComp ones j b)
          fun i => slide ones (j + i) := by
        have hword : ∀ i < b.cnt, j + (b.cnt - 1) - (b.cnt - 1 - i) = j + i := by
          intro i hi
          omega
        refine keeps_down (fun _ _ => rfl) (fun hno _ _ => expect_none hno _) ?_ ?_
        · intro i hi g hgood
          rw [backward_iterate ones (by omega), hword i hi] at hgood
          exact expect_some hgood
        · intro i hi
          rw [backward_iterate ones (by omega), hword i hi]
          rfl
      exact hup.append (hdown.append ih)

/-- The filling pass and the rounds. -/
def slidePasses (b : Block) (iter : Nat) : List Touch :=
  slideFill ones j b ++ slideScript noComp ones j b iter

theorem movinv32_plays (hpages : 512 ∣ b.cnt) {σ : Type} (bus : Bus σ) {fuel : Nat}
    (hfuel : b.cnt < fuel) (hj : j < 64) (iter : Nat) (gen : Pattern) :
    ∃ gen' q, Plays bus (movinv32 bus fuel b.start b.cnt noComp iter (slide ones j) (slide ones 0)
      (slide ones 63) (slideVal ones) j) gen (slidePasses noComp ones j b iter) gen' q := by
  obtain ⟨q₁, hfill⟩ := passUp_block bus false (fun g p => ⟨p, none, some g.pat⟩)
    (forwardPattern (slide ones 0) (slideVal ones)) b stop_plays hfuel (upPattern ones j)
  obtain ⟨gen', q₂, hrounds⟩ := movinv32Rounds_plays b noComp ones j hpages bus hfuel hj iter q₁ _
  refine ⟨gen', q₂, ?_⟩
  rw [movinv32, upPattern_start ones hj]
  exact (Plays.regen (fun _ => upPattern ones j) gen hfill).andThen _ hrounds

theorem slidePasses_keeps (iter : Nat) (f : Nat → UL) :
    Keeps b noComp f (slidePasses noComp ones j b iter) fun i => slide ones (j + i) :=
  (slideFill_keeps b noComp ones j f).append (slideScript_keeps b noComp ones j iter)

theorem movinv32_honours (b : PageBlock) {iter : Nat} (hiter : 0 < iter) (hj : j < 64)
    (gen : Pattern) :
    Honours noComp b.cnt errFail fun _ fuel bus mem =>
      (movinv32 bus.toBus fuel b.start b.cnt noComp iter (slide ones j) (slide ones 0) (slide ones 63)
        (slideVal ones) j).test gen mem := by
  obtain ⟨n, rfl⟩ : ∃ n, iter = n + 1 := ⟨iter - 1, by omega⟩
  have hsound : Sound noComp (slidePasses noComp ones j b.toBlock (n + 1)) := by
    refine sound_of_keeps (fun f => ⟨_, slidePasses_keeps b.toBlock noComp ones j _ f⟩) ?_
    intro hyes
    have hfirst := @first_touch_mem _ (fun g p => ⟨p, expect noComp g.pat, some (~~~g.pat)⟩)
      (forwardPattern (slide ones 0) (slideVal ones)) (upPattern ones j) b.toBlock
    refine ⟨_, List.mem_append_right _ (List.mem_append_left _ hfirst), ?_⟩
    simp [expect, hyes]
  exact honours_of_plays hsound fun σ fuel bus hfuel =>
    movinv32_plays b.toBlock noComp ones j b.pages.2 bus.toBus hfuel hj (n + 1) gen

end Movinv32Flag

/-! ## The long test -/

section MovinvLong

variable (startP blockBytes iter : Nat) (noComp : Int)

/-- `for (j=0, p1=1; p1; p1=p1<<1, j++)`; the first argument is fuel. -/
def movinvLongRounds : Nat → Int → UL → MemTest
  | 0, _, _ => fun _ _ _ _ => none
  | turns + 1, j, p1 => fun σ fuel bus mem =>
      if p1 = 0 then some (errSuccess, mem)
      else
        let run := fun p1 lb hb sval => (movinv32 bus.toBus fuel startP (blockBytes / 8) noComp iter
          p1 lb hb sval j).test ⟨0, 0⟩
        thenTest errMovinv32bit (run p1 1 0x8000000000000000 0 mem) fun mem =>
        thenTest errMovinv32bit (run (~~~p1) 0xfffffffffffffffe 0x7fffffffffffffff 1 mem) fun mem =>
        movinvLongRounds turns (j + 1) (p1 <<< 1) σ fuel bus mem

def testMovinvLong : MemTest := fun σ fuel bus mem =>
  movinvLongRounds startP blockBytes iter noComp fuel 0 1 σ fuel bus mem

end MovinvLong

section MovinvLongFlag

variable (b : PageBlock) {iter : Nat} (noComp : Int)

/-- The arguments `p1`, `lb`, `hb` and `sval` of `movinv32`. -/
structure SlideArgs where
  p1 : UL
  lb : UL
  hb : UL
  sval : UL

/-- Those of the two calls for bit `j`. -/
def longArgs (ones : Bool) (j : Nat) : SlideArgs :=
  if ones then ⟨~~~((1 : UL) <<< j), 0xfffffffffffffffe, 0x7fffffffffffffff, 1⟩
  else ⟨(1 : UL) <<< j, 1, 0x8000000000000000, 0⟩

theorem longArgs_eq (ones : Bool) {j : Nat} (hj : j < 64) :
    longArgs ones j = ⟨slide ones j, slide ones 0, slide ones 63, slideVal ones⟩ := by
  have hword : slide ones j = if ones then ~~~((1 : UL) <<< j) else (1 : UL) <<< j := by
    rw [slide, Nat.mod_eq_of_lt hj]
  rw [hword]
  cases ones <;> rfl

theorem oneBit_ne_zero : ∀ j : Nat, j < 64 → (1 : UL) <<< j ≠ 0 := by decide +kernel

-- The two calls for bit `j`.
theorem slideCall_honours (hiter : 0 < iter) {j : Nat} (hj : j < 64) :
    Honours noComp b.cnt errFail (fun _ fuel bus mem =>
      (movinv32 bus.toBus fuel b.start b.cnt noComp iter ((1 : UL) <<< j) 1 0x8000000000000000 0 j).test
        ⟨0, 0⟩ mem) ∧
    Honours noComp b.cnt errFail (fun _ fuel bus mem =>
      (movinv32 bus.toBus fuel b.start b.cnt noComp iter (~~~((1 : UL) <<< j)) 0xfffffffffffffffe
        0x7fffffffffffffff 1 j).test ⟨0, 0⟩ mem) := by
  have hcall : ∀ ones, Honours noComp b.cnt errFail fun _ fuel bus mem =>
      (movinv32 bus.toBus fuel b.start b.cnt noComp iter (longArgs ones j).p1 (longArgs ones j).lb
        (longArgs ones j).hb (longArgs ones j).sval j).test ⟨0, 0⟩ mem := by
    intro ones
    rw [longArgs_eq ones hj]
    exact movinv32_honours noComp ones j b hiter hj ⟨0, 0⟩
  exact ⟨hcall false, hcall true⟩

theorem movinvLongRounds_harmless (hiter : 0 < iter) {turns j : Nat} (hturns : 64 < turns + j)
    (hj : j ≤ 64) :
    Harmless noComp b.cnt (movinvLongRounds b.start (8 * b.cnt) iter noComp turns j ((1 : UL) <<< j)) := by
  induction turns generalizing j with
  | zero => omega
  | succ turns ih =>
      unfold movinvLongRounds
      by_cases hlast : j = 64
      · have hzero : (1 : UL) <<< j = 0 := by rw [hlast]; decide
        simp only [hzero, if_true]
        exact harmless_done
      · obtain ⟨hsets, hclears⟩ := slideCall_honours b noComp hiter (show j < 64 by omega)
        have hnext : ((1 : UL) <<< j) <<< 1 = (1 : UL) <<< (j + 1) := (BitVec.shiftLeft_add 1 j 1).symm
        simp only [if_neg (oneBit_ne_zero j (by omega)), hnext]
        rw [cnt_of_bytes]
        exact hsets.toHarmless.thenTest _ (hclears.toHarmless.thenTest _
          (ih (j := j + 1) (by omega) (by omega)))

theorem testMovinvLong_honours (hiter : 0 < iter) :
    Honours noComp b.cnt errMovinv32bit (testMovinvLong b.start (8 * b.cnt) iter noComp) := by
  have hcnt := b.cnt_ge
  obtain ⟨hsets, hclears⟩ := slideCall_honours b noComp hiter (show 0 < 64 by decide)
  have hturns : Harmless noComp b.cnt fun σ fuel bus mem =>
      movinvLongRounds b.start (8 * b.cnt) iter noComp (fuel - 1) (0 + 1) ((1 : UL) <<< 1) σ fuel bus mem :=
    .fewerTurns fun n _ =>
      movinvLongRounds_harmless b noComp hiter (show 64 < n + 1 by omega) (by decide)
  have hcalls := hsets.thenTest errMovinv32bit (by decide)
    (hclears.toHarmless.thenTest errMovinv32bit hturns)
  refine hcalls.congr ?_
  intro σ fuel bus mem hfuel
  obtain ⟨turns, rfl⟩ : ∃ turns, fuel = turns + 1 := ⟨fuel - 1, by omega⟩
  rw [testMovinvLong, movinvLongRounds, cnt_of_bytes]
  exact if_neg (by decide)

end MovinvLongFlag

/-! ## Random sequences -/

def movinvrSeed (cnt : Nat) : UL := BitVec.ofNat 64 (8 * cnt) % 10000

def movinvrSeed1 (cnt : Nat) : UL := 521288629 + movinvrSeed cnt

def movinvrSeed2 (cnt : Nat) : UL := 362436069 - movinvrSeed cnt

def nextRandom (r : Prandr) : Prandr := (randFunction r).2

/-- The number of round `i`, inverted in the second one. -/
def movinvrNum (i : Nat) (r : Prandr) : UL :=
  if i ≠ 0 then ~~~(randFunction r).1 else (randFunction r).1

def movinvrTouch (noComp : Int) (i : Nat) (r : Prandr) (p : Nat) : Touch :=
  ⟨p, expect noComp (movinvrNum i r), some (~~~movinvrNum i r)⟩

section Movinvr

variable {σ : Type} (bus : Bus σ) (fuel startP cnt : Nat) (noComp : Int)

/-- The turn of the loop over `i`, which seeds the generator once more. -/
def movinvrRound (i : Nat) : Part σ Prandr := fun s =>
  passUp bus true (movinvrTouch noComp i) nextRandom Part.stop 1 fuel startP (ptrAdd startP cnt)
    startP
    { s with gen := randSeed s.gen (movinvrSeed1 cnt) (movinvrSeed2 cnt) }

def movinvr : Part σ Prandr :=
  Part.andThen (fun s => passUp bus true (fun r p => ⟨p, none, some (randFunction r).1⟩)
    nextRandom Part.stop 1 fuel startP (ptrAdd startP cnt) startP
    { s with gen := randSeed s.gen (movinvrSeed1 cnt) (movinvrSeed2 cnt) }) fun _ =>
  Part.andThen (movinvrRound bus fuel startP cnt noComp 0) fun _ =>
  movinvrRound bus fuel startP cnt noComp 1

end Movinvr

def testRandomNumSequence (startP blockBytes : Nat) (noComp : Int) : MemTest :=
  fun _ fuel bus mem =>
    thenTest errRandomNumSeq
      ((movinvr bus.toBus fuel startP (blockBytes / 8) noComp).test randFunctionInit mem) fun mem =>
    some (errSuccess, mem)

section MovinvrFlag

variable (b : Block) (noComp : Int)

-- Both seeds count, so every pass sees the same numbers.
theorem randSeed_eq (r : Prandr) (cnt : Nat) :
    randSeed r (movinvrSeed1 cnt) (movinvrSeed2 cnt) = ⟨movinvrSeed1 cnt, movinvrSeed2 cnt⟩ := by
  have hseed : (movinvrSeed cnt).toNat < 10000 := by
    rw [movinvrSeed, BitVec.toNat_umod]
    exact Nat.mod_lt _ (by decide)
  have hfirst : movinvrSeed1 cnt ≠ 0 := by
    unfold movinvrSeed1
    bv_omega
  have hsecond : movinvrSeed2 cnt ≠ 0 := by
    unfold movinvrSeed2
    bv_omega
  rw [randSeed, if_pos hfirst, if_pos hsecond]

def randomScript (b : Block) (t : Prandr → Nat → Touch) : List Touch :=
  touches t nextRandom b.addrs ⟨movinvrSeed1 b.cnt, movinvrSeed2 b.cnt⟩

theorem randomPass_plays {σ : Type} (bus : Bus σ) {fuel : Nat} (hfuel : b.cnt < fuel)
    (t : Prandr → Nat → Touch) (gen : Prandr) :
    ∃ gen' q, Plays bus (fun s => passUp bus true t nextRandom Part.stop 1 fuel b.start
      (ptrAdd b.start b.cnt) b.start
      { s with gen := randSeed s.gen (movinvrSeed1 b.cnt) (movinvrSeed2 b.cnt) }) gen
      (randomScript b t) gen' q := by
  obtain ⟨q, hplays⟩ := passUp_block bus true t nextRandom b stop_plays hfuel
    ⟨movinvrSeed1 b.cnt, movinvrSeed2 b.cnt⟩
  rw [← randSeed_eq gen] at hplays
  have hregen := Plays.regen (fun r => randSeed r (movinvrSeed1 b.cnt) (movinvrSeed2 b.cnt)) gen
    hplays
  rw [randSeed_eq gen] at hregen
  exact ⟨_, q, hregen⟩

def movinvrScript (noComp : Int) (b : Block) : List Touch :=
  randomScript b (fun r p => ⟨p, none, some (randFunction r).1⟩) ++
    (randomScript b (movinvrTouch noComp 0) ++ randomScript b (movinvrTouch noComp 1))

/-- The random number of word `i`. -/
def randomWord (b : Block) (i : Nat) : UL :=
  (randFunction (nextRandom^[i] ⟨movinvrSeed1 b.cnt, movinvrSeed2 b.cnt⟩)).1

theorem movinvr_plays {σ : Type} (bus : Bus σ) {fuel : Nat} (hfuel : b.cnt < fuel) (gen : Prandr) :
    ∃ gen' q, Plays bus (movinvr bus fuel b.start b.cnt noComp) gen (movinvrScript noComp b) gen' q := by
  obtain ⟨gen₁, q₁, hfirst⟩ := randomPass_plays b bus hfuel
    (fun r p => ⟨p, none, some (randFunction r).1⟩) gen
  obtain ⟨gen₂, q₂, hsecond⟩ := randomPass_plays b bus hfuel (movinvrTouch noComp 0) gen₁
  obtain ⟨gen₃, q₃, hthird⟩ := randomPass_plays b bus hfuel (movinvrTouch noComp 1) gen₂
  exact ⟨gen₃, q₃, hfirst.andThen _ (hsecond.andThen _ hthird)⟩

-- The two rounds invert the numbers and invert them back.
theorem movinvrScript_keeps (f : Nat → UL) :
    Keeps b noComp f (movinvrScript noComp b) (randomWord b) := by
  have hfill : Keeps b noComp f (randomScript b fun r p => ⟨p, none, some (randFunction r).1⟩)
      (randomWord b) :=
    keeps_fill (fun _ _ => rfl) (fun _ _ => rfl) (fun _ _ => rfl) f
  have hround : ∀ i : Nat, Keeps b noComp
      (fun k => if i ≠ 0 then ~~~randomWord b k else randomWord b k)
      (randomScript b (movinvrTouch noComp i))
      (fun k => ~~~(if i ≠ 0 then ~~~randomWord b k else randomWord b k)) :=
    fun i => keeps_up (fun _ _ => rfl) (fun hno _ _ => expect_none hno _)
      (fun _ _ _ hgood => expect_some hgood) (fun _ _ => rfl)
  have hback : (fun k => ~~~(if 1 ≠ 0 then ~~~randomWord b k else randomWord b k)) = randomWord b := by
    funext k
    exact BitVec.not_not
  have hlast := hround 1
  rw [hback] at hlast
  exact hfill.append ((hround 0).append hlast)

theorem movinvr_honours (b : PageBlock) (gen : Prandr) :
    Honours noComp b.cnt errFail fun _ fuel bus mem =>
      (movinvr bus.toBus fuel b.start b.cnt noComp).test gen mem := by
  have hsound : Sound noComp (movinvrScript noComp b.toBlock) := by
    refine sound_of_keeps (fun f => ⟨_, movinvrScript_keeps b.toBlock noComp f⟩) ?_
    intro hyes
    refine ⟨_, List.mem_append_right _ (List.mem_append_left _ (first_touch_mem b.toBlock)), ?_⟩
    simp [movinvrTouch, expect, hyes]
  exact honours_of_plays hsound fun σ fuel bus hfuel =>
    movinvr_plays b.toBlock noComp bus.toBus hfuel gen

theorem testRandomNumSequence_honours (b : PageBlock) (noComp : Int) :
    Honours noComp b.cnt errRandomNumSeq (testRandomNumSequence b.start (8 * b.cnt) noComp) := by
  unfold testRandomNumSequence
  rw [cnt_of_bytes]
  exact (movinvr_honours noComp b randFunctionInit).thenTest _ (by decide) harmless_done

end MovinvrFlag

end MoBoMemory.TestLib
