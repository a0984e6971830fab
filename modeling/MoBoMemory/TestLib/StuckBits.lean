import MoBoMemory.TestLib.Faults
import MoBoMemory.TestLib.Modulo
import MoBoMemory.TestLib.MovInvLong

/-!
# Stuck bits

Items 3, 7 and 8 compare each word with some pattern and with its complement, so a bit that is stuck at
0 or at 1 disagrees with one of the two.  Item 9 does so in two calls, at the offset of the word.  Memory
without faults passes, keeps the pattern of the test in the block and is not touched elsewhere.
-/

namespace MoBoMemory.TestLib

open Base

/-- A test of some memory by whole words, given fuel for its loops. -/
abbrev WordTest : Type 1 := (σ : Type) → Nat → Bus σ → σ → Option (Nat × σ)

/-- Memory without faults passes, ends with `final` in the words and is as before elsewhere. -/
def Passes (start cnt : Nat) (final : Nat → UL) (test : WordTest) : Prop :=
  ∀ mem fuel, cnt < fuel → ∃ mem', test _ fuel faithfulBus mem = some (errSuccess, mem') ∧
    (∀ i < cnt, mem' (start + 8 * i) = final i) ∧
    ∀ p, p ∉ List.range' start cnt 8 → mem' p = mem p

/-- Memory with a stuck bit in one of the words does not pass. -/
def Catches (start cnt : Nat) (test : WordTest) : Prop :=
  ∀ (cell : Cell) (value : Bool), cell.addr ∈ List.range' start cnt 8 → ∀ mem fuel, cnt < fuel →
    ∃ mem', test _ fuel (Fault.stuckAt cell value).bus mem = some (errFail, mem')

/-- The test passes without faults, and with HAS_COMPARISION it finds stuck bits. -/
structure FindsStuck (noComp : Int) (start cnt : Nat) (final : Nat → UL) (test : WordTest) : Prop where
  passes : Passes start cnt final test
  catches : noComp = hasComparision → Catches start cnt test

/-- The script touches words of the block only. -/
def Within (b : Block) (script : List Touch) : Prop := ∀ t ∈ script, t.addr ∈ b.addrs

/-- The script compares every word with some pattern and with its complement. -/
def ChecksBoth (b : Block) (script : List Touch) : Prop :=
  ∀ p ∈ b.addrs, ∃ good : UL, (∃ t ∈ script, t.addr = p ∧ t.good = some good) ∧
    ∃ t ∈ script, t.addr = p ∧ t.good = some (~~~good)

/-! ## Playing on faultless and on stuck memory -/

section Scripts

variable {script : List Touch} {mem mem' : Nat → UL} {cell : Cell} {value : Bool} {good : UL}

-- What no touch is for keeps its word.
theorem play_frame (hplay : play faithfulBus script mem = some mem') {p : Nat}
    (hp : ∀ t ∈ script, t.addr ≠ p) : mem' p = mem p := by
  induction script generalizing mem with
  | nil =>
      obtain rfl : mem = mem' := Option.some.inj hplay
      rfl
  | cons t script ih =>
      rw [play_cons, Option.bind_eq_some_iff] at hplay
      obtain ⟨mem₁, hfirst, hrest⟩ := hplay
      obtain ⟨-, rfl⟩ := (touch_play_iff fun _ _ => rfl).mp hfirst
      rw [ih hrest fun u hu => hp u (List.mem_cons_of_mem t hu)]
      unfold Touch.store
      cases t.word with
      | none => rfl
      | some word => exact Function.update_of_ne (hp t List.mem_cons_self).symm _ _

-- A comparison that wants the other value of the bit fails.
theorem play_stuck {t : Touch} (ht : t ∈ script) (haddr : t.addr = cell.addr) (hgood : t.good = some good)
    (hbit : bitOf good cell.bit ≠ value) (mem : Nat → UL) :
    play (Fault.stuckAt cell value).bus script mem = none := by
  refine play_of_mem ht (fun mem => ?_) mem
  have hread : ((Fault.stuckAt cell value).bus.read mem t.addr).1 ≠ good := by
    intro heq
    apply hbit
    rw [← heq, haddr]
    exact (congrArg (bitOf · cell.bit) (if_pos rfl)).trans (bitOf_putBit_self _ _ _)
  simp only [Touch.play, hgood]
  exact if_neg hread

theorem bitOf_not (w : UL) (i : Fin 64) : bitOf (~~~w) i = !bitOf w i := by simp [bitOf]

theorem play_stuck_of_both {b : Block} (hboth : ChecksBoth b script) (hcell : cell.addr ∈ b.addrs)
    (value : Bool) (mem : Nat → UL) : play (Fault.stuckAt cell value).bus script mem = none := by
  obtain ⟨good, ⟨t, ht, haddr, hgood⟩, u, hu, haddr', hgood'⟩ := hboth cell.addr hcell
  by_cases hbit : bitOf good cell.bit = value
  · refine play_stuck hu haddr' hgood' ?_ mem
    rw [bitOf_not, hbit]
    simp
  · exact play_stuck ht haddr hgood hbit mem

end Scripts

section Tests

variable {γ : Type} {noComp : Int} {b : Block} {final : Nat → UL} {script : List Touch} {gen : γ}
  {part : (σ : Type) → Nat → Bus σ → Part σ γ}

theorem passes_of_plays (hkeeps : ∀ f, Keeps b noComp f script final)
    (hwithin : Within b script)
    (hplays : ∀ σ fuel (bus : Bus σ), b.cnt < fuel →
      ∃ gen' q, Plays bus (part σ fuel bus) gen script gen' q) :
    Passes b.start b.cnt final fun σ fuel bus mem => (part σ fuel bus).test gen mem := by
  intro mem fuel hfuel
  obtain ⟨mem', hplay, hfinal⟩ := (hkeeps fun i => mem (b.start + 8 * i)).leads mem fun _ _ => rfl
  obtain ⟨gen', q, hpart⟩ := hplays _ fuel faithfulBus hfuel
  refine ⟨mem', hpart.test_clean hplay, hfinal, fun p hp => play_frame hplay fun t ht heq => ?_⟩
  exact hp (heq ▸ hwithin t ht)

theorem catches_of_plays (hboth : ChecksBoth b script)
    (hplays : ∀ σ fuel (bus : Bus σ), b.cnt < fuel →
      ∃ gen' q, Plays bus (part σ fuel bus) gen script gen' q) :
    Catches b.start b.cnt fun σ fuel bus mem => (part σ fuel bus).test gen mem := by
  intro cell value hcell mem fuel hfuel
  obtain ⟨gen', q, hpart⟩ := hplays _ fuel (Fault.stuckAt cell value).bus hfuel
  exact hpart.test_dirty (play_stuck_of_both hboth hcell value mem)

theorem findsStuck_of_plays (hkeeps : ∀ f, Keeps b noComp f script final) (hwithin : Within b script)
    (hboth : noComp = hasComparision → ChecksBoth b script)
    (hplays : ∀ σ fuel (bus : Bus σ), b.cnt < fuel →
      ∃ gen' q, Plays bus (part σ fuel bus) gen script gen' q) :
    FindsStuck noComp b.start b.cnt final fun σ fuel bus mem => (part σ fuel bus).test gen mem :=
  ⟨passes_of_plays hkeeps hwithin hplays, fun hyes => catches_of_plays (hboth hyes) hplays⟩

end Tests

/-! ## The touches of a pass -/

section Touches

variable {γ : Type} {t : γ → Nat → Touch} {next : γ → γ} {gen : γ} {b : Block} {i : Nat}

theorem addr_of_mem_touches (haddr : ∀ g p, (t g p).addr = p) {ps : List Nat} {u : Touch}
    (hu : u ∈ touches t next ps gen) : u.addr ∈ ps := by
  induction ps generalizing gen with
  | nil => cases hu
  | cons p ps ih =>
      rcases List.mem_cons.mp hu with rfl | hu
      · rw [haddr]
        exact List.mem_cons_self
      · exact List.mem_cons_of_mem p (ih hu)

theorem within_nil : Within b [] := fun _ ht => absurd ht List.not_mem_nil

theorem Within.append {script script' : List Touch} (h : Within b script) (h' : Within b script') :
    Within b (script ++ script') :=
  fun t ht => (List.mem_append.mp ht).elim (h t) (h' t)

theorem within_up (haddr : ∀ g p, (t g p).addr = p) : Within b (touches t next b.addrs gen) :=
  fun _ hu => addr_of_mem_touches haddr hu

theorem within_down (haddr : ∀ g p, (t g p).addr = p) :
    Within b (touches t next b.addrs.reverse gen) :=
  fun _ hu => List.mem_reverse.mp (addr_of_mem_touches haddr hu)

-- Touches that are given by the index of their word.
theorem within_map {t : Nat → Touch} (haddr : ∀ i, (t i).addr = b.start + 8 * i) {is : List Nat}
    (his : ∀ i ∈ is, i < b.cnt) : Within b (is.map t) := by
  intro u hu
  obtain ⟨i, hi, rfl⟩ := List.mem_map.mp hu
  rw [haddr]
  exact List.mem_range'.mpr ⟨i, his i hi, rfl⟩

theorem within_range {t : Nat → Touch} (haddr : ∀ i, (t i).addr = b.start + 8 * i) :
    Within b ((List.range b.cnt).map t) :=
  within_map haddr fun _ hi => List.mem_range.mp hi

theorem touch_mem_up (t : γ → Nat → Touch) (next : γ → γ) (gen : γ) (hi : i < b.cnt) :
    t (next^[i] gen) (b.start + 8 * i) ∈ touches t next b.addrs gen := by
  rw [Block.addrs, touches_range']
  exact List.mem_map_of_mem (f := fun i => t (next^[i] gen) (b.start + 8 * i)) (List.mem_range.mpr hi)

theorem touch_mem_down (t : γ → Nat → Touch) (next : γ → γ) (gen : γ) (hi : i < b.cnt) :
    t (next^[b.cnt - 1 - i] gen) (b.start + 8 * i) ∈ touches t next b.addrs.reverse gen := by
  rw [Block.addrs, touches_reverse_range']
  exact List.mem_map_of_mem (f := fun i => t (next^[b.cnt - 1 - i] gen) (b.start + 8 * i))
    (List.mem_reverse.mpr (List.mem_range.mpr hi))

-- It is enough to look at each word by its index.
theorem checksBoth_of_index {script : List Touch} (good : Nat → UL)
    (h : ∀ i < b.cnt, (∃ t ∈ script, t.addr = b.start + 8 * i ∧ t.good = some (good i)) ∧
      ∃ t ∈ script, t.addr = b.start + 8 * i ∧ t.good = some (~~~good i)) : ChecksBoth b script := by
  intro p hp
  obtain ⟨i, hi, rfl⟩ := List.mem_range'.mp hp
  exact ⟨good i, h i hi⟩

theorem expect_has (good : UL) : expect hasComparision good = some good := if_neg (by simp)

end Touches

/-! ## One pattern -/

section Movinv1

variable (b : Block) {noComp : Int} (p1 p2 : UL)

theorem movinv1Passes_within (iter : Nat) : Within b (movinv1Passes noComp b p1 p2 iter) := by
  refine (within_up fun _ _ => rfl).append ?_
  induction iter with
  | zero => exact within_nil
  | succ n ih => exact (within_up fun _ _ => rfl).append ((within_down fun _ _ => rfl).append ih)

-- Up it compares with the pattern, down with the complement.
theorem movinv1Passes_checks (n : Nat) :
    ChecksBoth b (movinv1Passes hasComparision b p1 (~~~p1) (n + 1)) := by
  refine checksBoth_of_index (fun _ => p1) fun i hi => ⟨?_, ?_⟩
  · refine ⟨_, List.mem_append_right _ (List.mem_append_left _ (touch_mem_up _ id () hi)), rfl, ?_⟩
    exact expect_has p1
  · refine ⟨_, List.mem_append_right _ (List.mem_append_right _
      (List.mem_append_left _ (touch_mem_down _ id () hi))), rfl, ?_⟩
    exact expect_has (~~~p1)

theorem movinv1_findsStuck (hpages : 512 ∣ b.cnt) {iter : Nat} (hiter : 0 < iter) (noComp : Int) :
    FindsStuck noComp b.start b.cnt (fun _ => p1) fun _ fuel bus mem =>
      (movinv1 bus fuel b.start b.cnt noComp iter p1 (~~~p1)).test () mem := by
  have hplays : ∀ σ fuel (bus : Bus σ), b.cnt < fuel → ∃ gen' q,
      Plays bus (movinv1 bus fuel b.start b.cnt noComp iter p1 (~~~p1)) ()
        (movinv1Passes noComp b p1 (~~~p1) iter) gen' q :=
    fun _ _ bus hfuel => ⟨(), movinv1_plays b p1 (~~~p1) hpages bus hfuel iter⟩
  refine findsStuck_of_plays (movinv1Passes_keeps b p1 (~~~p1) iter) (movinv1Passes_within b _ _ iter) ?_
    hplays
  rintro rfl
  obtain ⟨n, rfl⟩ : ∃ n, iter = n + 1 := ⟨iter - 1, by omega⟩
  exact movinv1Passes_checks b p1 n

/-- One page, one iteration and the pattern 0. -/
theorem movinv1_findsStuck_page :
    (512 ∣ 512 ∧ 0 < 1) ∧
      FindsStuck hasComparision 4096 512 (fun _ => 0) fun _ fuel bus mem =>
        (movinv1 bus fuel 4096 512 hasComparision 1 0 (~~~0)).test () mem :=
  ⟨by decide, movinv1_findsStuck ⟨4096, 512, by decide, by decide, by decide, by decide⟩ 0 (by decide)
    (show 0 < 1 by decide) hasComparision⟩

end Movinv1

/-! ## A sliding pattern -/

section Movinv32

/-- The pattern of the upward passes at word `i`. -/
def patternUp (a : SlideArgs) (off i : Nat) : UL := ((forwardPattern a.lb a.sval)^[i] ⟨off, a.p1⟩).pat

/-- That of the downward passes, which begin at the last of `cnt` words with the pattern of an upward
pass, backed up. -/
def patternDown (a : SlideArgs) (off cnt i : Nat) : UL :=
  ((backwardPattern a.hb a.sval)^[cnt - 1 - i]
    (backUpPattern a.lb a.sval ((forwardPattern a.lb a.sval)^[cnt] ⟨off, a.p1⟩))).pat

/-- What `movinv32` does, word by word. -/
def patternRounds (noComp : Int) (a : SlideArgs) (off : Nat) (b : Block) : Nat → List Touch
  | 0 => []
  | n + 1 =>
      (List.range b.cnt).map (fun i =>
        ⟨b.start + 8 * i, expect noComp (patternUp a off i), some (~~~patternUp a off i)⟩) ++
      ((List.range b.cnt).reverse.map (fun i =>
        ⟨b.start + 8 * i, expect noComp (~~~patternDown a off b.cnt i), some (patternDown a off b.cnt i)⟩) ++
      patternRounds noComp a off b n)

def patternPasses (noComp : Int) (a : SlideArgs) (off : Nat) (b : Block) (iter : Nat) : List Touch :=
  (List.range b.cnt).map (fun i => ⟨b.start + 8 * i, none, some (patternUp a off i)⟩) ++
    patternRounds noComp a off b iter

variable (b : Block) (noComp : Int) (ones : Bool) {off : Nat} (hoff : off < 64)

include hoff

theorem patternUp_eq (i : Nat) : patternUp (longArgs ones off) off i = slide ones (off + i) := by
  rw [patternUp, longArgs_eq ones hoff, upPattern_start ones hoff, forward_iterate]
  rfl

theorem patternDown_eq {cnt i : Nat} (hi : i < cnt) :
    patternDown (longArgs ones off) off cnt i = slide ones (off + i) := by
  have hlast : off + cnt = off + (cnt - 1) + 1 := by omega
  have hword : off + (cnt - 1) - (cnt - 1 - i) = off + i := by omega
  rw [patternDown, longArgs_eq ones hoff, upPattern_start ones hoff, forward_iterate, hlast,
    backUpPattern_up, backward_iterate ones (by omega), hword]
  rfl

theorem slideFill_eq :
    slideFill ones off b = (List.range b.cnt).map fun i =>
      ⟨b.start + 8 * i, none, some (patternUp (longArgs ones off) off i)⟩ := by
  rw [slideFill, Block.addrs, touches_range']
  refine List.map_congr_left fun i _ => ?_
  rw [patternUp_eq ones hoff, forward_iterate]
  rfl

theorem slideUp_eq :
    slideUp noComp ones off b = (List.range b.cnt).map fun i =>
      ⟨b.start + 8 * i, expect noComp (patternUp (longArgs ones off) off i),
        some (~~~patternUp (longArgs ones off) off i)⟩ := by
  rw [slideUp, Block.addrs, touches_range']
  refine List.map_congr_left fun i _ => ?_
  rw [patternUp_eq ones hoff, forward_iterate]
  rfl

theorem slideDown_eq :
    slideDown noComp ones off b = (List.range b.cnt).reverse.map fun i =>
      ⟨b.start + 8 * i, expect noComp (~~~patternDown (longArgs ones off) off b.cnt i),
        some (patternDown (longArgs ones off) off b.cnt i)⟩ := by
  rw [slideDown, Block.addrs, touches_reverse_range']
  refine List.map_congr_left fun i hi => ?_
  have hi : i < b.cnt := List.mem_range.mp (List.mem_reverse.mp hi)
  have hword : off + (b.cnt - 1) - (b.cnt - 1 - i) = off + i := by omega
  rw [patternDown_eq ones hoff hi, backward_iterate ones (by omega), hword]
  rfl

theorem slideScript_eq (n : Nat) :
    slideScript noComp ones off b n = patternRounds noComp (longArgs ones off) off b n := by
  induction n with
  | zero => rfl
  | succ n ih =>
      rw [slideScript, slideUp_eq b noComp ones hoff, slideDown_eq b noComp ones hoff, ih, patternRounds]

theorem slidePasses_eq (iter : Nat) :
    slidePasses noComp ones off b iter = patternPasses noComp (longArgs ones off) off b iter := by
  rw [slidePasses, slideFill_eq b ones hoff, slideScript_eq b noComp ones hoff, patternPasses]

omit hoff in
theorem patternPasses_within (a : SlideArgs) (iter : Nat) :
    Within b (patternPasses noComp a off b iter) := by
  refine (within_range fun _ => rfl).append ?_
  induction iter with
  | zero => exact within_nil
  | succ n ih =>
      exact (within_range fun _ => rfl).append ((within_map (fun _ => rfl) fun i hi =>
        List.mem_range.mp (List.mem_reverse.mp hi)).append ih)

-- Up it compares with the pattern, down with its complement.
theorem patternPasses_checks (n : Nat) :
    ChecksBoth b (patternPasses hasComparision (longArgs ones off) off b (n + 1)) := by
  refine checksBoth_of_index (patternUp (longArgs ones off) off) fun i hi => ⟨?_, ?_⟩
  · refine ⟨_, List.mem_append_right _ (List.mem_append_left _
      (List.mem_map_of_mem (List.mem_range.mpr hi))), rfl, ?_⟩
    exact expect_has _
  · refine ⟨_, List.mem_append_right _ (List.mem_append_right _ (List.mem_append_left _
      (List.mem_map_of_mem (List.mem_reverse.mpr (List.mem_range.mpr hi))))), rfl, ?_⟩
    rw [patternDown_eq ones hoff hi, ← patternUp_eq ones hoff]
    exact expect_has _

omit hoff in
/-- One of the two calls for bit `off`. -/
abbrev longCall {σ : Type} (bus : Bus σ) (fuel : Nat) (b : Block) (noComp : Int) (iter : Nat) (ones : Bool)
    (off : Nat) : Part σ Pattern :=
  movinv32 bus fuel b.start b.cnt noComp iter (longArgs ones off).p1 (longArgs ones off).lb
    (longArgs ones off).hb (longArgs ones off).sval off

theorem longCall_plays (hpages : 512 ∣ b.cnt) {σ : Type} (bus : Bus σ) {fuel : Nat}
    (hfuel : b.cnt < fuel) (iter : Nat) (gen : Pattern) :
    ∃ gen' q, Plays bus (longCall bus fuel b noComp iter ones off) gen
      (patternPasses noComp (longArgs ones off) off b iter) gen' q := by
  rw [← slidePasses_eq b noComp ones hoff, longCall, longArgs_eq ones hoff]
  exact movinv32_plays b noComp ones off hpages bus hfuel hoff iter gen

theorem movinv32_findsStuck (hpages : 512 ∣ b.cnt) {iter : Nat} (hiter : 0 < iter) (gen : Pattern) :
    (∀ i < b.cnt,
      patternDown (longArgs ones off) off b.cnt i = patternUp (longArgs ones off) off i ∧
        patternUp (longArgs ones off) off i = slide ones (off + i)) ∧
    (∀ σ fuel (bus : Bus σ), b.cnt < fuel →
      ∃ gen' q, Plays bus (longCall bus fuel b noComp iter ones off) gen
        (patternPasses noComp (longArgs ones off) off b iter) gen' q) ∧
    FindsStuck noComp b.start b.cnt (patternUp (longArgs ones off) off) fun _ fuel bus mem =>
      (longCall bus fuel b noComp iter ones off).test gen mem := by
  have hplays : ∀ σ fuel (bus : Bus σ), b.cnt < fuel →
      ∃ gen' q, Plays bus (longCall bus fuel b noComp iter ones off) gen
        (patternPasses noComp (longArgs ones off) off b iter) gen' q :=
    fun _ _ bus hfuel => longCall_plays b noComp ones hoff hpages bus hfuel iter gen
  refine ⟨fun i hi => ?_, hplays, ?_⟩
  · rw [patternUp_eq ones hoff, patternDown_eq ones hoff hi]
    exact ⟨rfl, rfl⟩
  · have hfinal : patternUp (longArgs ones off) off = fun i => slide ones (off + i) :=
      funext fun i => patternUp_eq ones hoff i
    have hkeeps : ∀ f, Keeps b noComp f (patternPasses noComp (longArgs ones off) off b iter)
        (patternUp (longArgs ones off) off) := by
      intro f
      rw [← slidePasses_eq b noComp ones hoff, hfinal]
      exact slidePasses_keeps b noComp ones off iter f
    refine findsStuck_of_plays hkeeps (patternPasses_within b noComp _ iter) ?_ hplays
    rintro rfl
    obtain ⟨n, rfl⟩ : ∃ n, iter = n + 1 := ⟨iter - 1, by omega⟩
    exact patternPasses_checks b ones hoff n

omit hoff in
/-- One page, two iterations and the cleared bit 63. -/
theorem movinv32_findsStuck_page :
    63 < 64 ∧ FindsStuck hasComparision 4096 512 (patternUp (longArgs true 63) 63) fun _ fuel bus mem =>
      (longCall bus fuel ⟨4096, 512, by decide, by decide, by decide, by decide⟩ hasComparision 2 true
        63).test ⟨0, 0⟩ mem :=
  ⟨by decide, (movinv32_findsStuck ⟨4096, 512, by decide, by decide, by decide, by decide⟩ hasComparision
    true (show 63 < 64 by decide) (by decide) (show 0 < 2 by decide) ⟨0, 0⟩).2.2⟩

end Movinv32

/-! ## Areas that may be empty -/

/-- A word array that may have no words. -/
structure Area where
  start : Nat
  cnt : Nat
  start_pos : 0 < start
  aligned : 8 ∣ start
  noWrap : start + 8 * cnt < 2 ^ 64

def Area.block (a : Area) (hcnt : 0 < a.cnt) : Block :=
  ⟨a.start, a.cnt, hcnt, a.start_pos, a.aligned, a.noWrap⟩

-- Without words there is nothing to find.
theorem findsStuck_nothing {γ : Type} {gen : γ} {part : (σ : Type) → Nat → Bus σ → Part σ γ}
    (hplays : ∀ σ fuel (bus : Bus σ), 0 < fuel → ∃ gen' q, Plays bus (part σ fuel bus) gen [] gen' q)
    (noComp : Int) (start : Nat) (final : Nat → UL) :
    FindsStuck noComp start 0 final fun σ fuel bus mem => (part σ fuel bus).test gen mem := by
  refine ⟨fun mem fuel hfuel => ?_, fun _ cell value hcell => absurd hcell List.not_mem_nil⟩
  obtain ⟨gen', q, hpart⟩ := hplays _ fuel faithfulBus hfuel
  exact ⟨mem, hpart.test_clean rfl, fun i hi => absurd hi (Nat.not_lt_zero i), fun _ _ => rfl⟩

/-! ## Random words -/

section Movinvr

def seeded (cnt : Nat) (r : Prandr) : Prandr := randSeed r (movinvrSeed1 cnt) (movinvrSeed2 cnt)

/-- Number `i` of a pass that finds the generator at `r`. -/
def passNum (cnt : Nat) (r : Prandr) (i : Nat) : UL := (randFunction (nextRandom^[i] (seeded cnt r))).1

/-- Where it leaves the generator. -/
def passEnd (cnt : Nat) (r : Prandr) : Prandr := nextRandom^[cnt] (seeded cnt r)

theorem passNum_eq (cnt : Nat) (r r' : Prandr) (i : Nat) : passNum cnt r i = passNum cnt r' i := by
  rw [passNum, passNum, seeded, seeded, randSeed_eq, randSeed_eq]

/-- What `movinvr` does, word by word. -/
def randomPasses (noComp : Int) (r : Prandr) (start cnt : Nat) : List Touch :=
  (List.range cnt).map (fun i => ⟨start + 8 * i, none, some (passNum cnt r i)⟩) ++
    ((List.range cnt).map (fun i => ⟨start + 8 * i, expect noComp (passNum cnt (passEnd cnt r) i),
      some (~~~passNum cnt (passEnd cnt r) i)⟩) ++
    (List.range cnt).map (fun i => ⟨start + 8 * i,
      expect noComp (~~~passNum cnt (passEnd cnt (passEnd cnt r)) i),
      some (passNum cnt (passEnd cnt (passEnd cnt r)) i)⟩))

variable (b : Block) (noComp : Int) (r : Prandr)

theorem randomWord_eq (i : Nat) : randomWord b i = passNum b.cnt r i := by
  rw [passNum, seeded, randSeed_eq, randomWord]

-- A pass, word by word.
theorem randomScript_eq (t : Prandr → Nat → Touch) (t' : UL → Nat → Touch)
    (ht : ∀ g p, t g p = t' (randFunction g).1 p) :
    randomScript b t = (List.range b.cnt).map fun i => t' (passNum b.cnt r i) (b.start + 8 * i) := by
  rw [randomScript, Block.addrs, touches_range']
  refine List.map_congr_left fun i _ => ?_
  rw [ht, ← randomWord_eq b r i, randomWord]

theorem movinvrScript_eq : movinvrScript noComp b = randomPasses noComp r b.start b.cnt := by
  have hfill := randomScript_eq b r (fun r p => ⟨p, none, some (randFunction r).1⟩)
    (fun num p => ⟨p, none, some num⟩) fun _ _ => rfl
  have hsecond := randomScript_eq b (passEnd b.cnt r) (movinvrTouch noComp 0)
    (fun num p => ⟨p, expect noComp num, some (~~~num)⟩) fun _ _ => rfl
  have hthird := randomScript_eq b (passEnd b.cnt (passEnd b.cnt r)) (movinvrTouch noComp 1)
    (fun num p => ⟨p, expect noComp (~~~num), some num⟩) fun g p => by
      rw [movinvrTouch, movinvrNum, if_pos (by decide), BitVec.not_not]
  rw [movinvrScript, hfill, hsecond, hthird, randomPasses]

theorem randomPasses_within : Within b (randomPasses noComp r b.start b.cnt) :=
  (within_range fun _ => rfl).append ((within_range fun _ => rfl).append (within_range fun _ => rfl))

-- The second pass compares with the numbers, the third with their complements.
theorem randomPasses_checks : ChecksBoth b (randomPasses hasComparision r b.start b.cnt) := by
  refine checksBoth_of_index (passNum b.cnt r) fun i hi => ⟨?_, ?_⟩
  · refine ⟨_, List.mem_append_right _ (List.mem_append_left _
      (List.mem_map_of_mem (List.mem_range.mpr hi))), rfl, ?_⟩
    rw [expect_has, passNum_eq]
  · refine ⟨_, List.mem_append_right _ (List.mem_append_right _
      (List.mem_map_of_mem (List.mem_range.mpr hi))), rfl, ?_⟩
    rw [expect_has, passNum_eq]

theorem movinvr_nothing {σ : Type} (bus : Bus σ) {start fuel : Nat} (hstart : start < 2 ^ 64)
    (hfuel : 0 < fuel) :
    ∃ gen' q, Plays bus (movinvr bus fuel start 0 noComp) r [] gen' q := by
  have hspin : 0 < spinsz := by decide
  have hpass : ∀ (quit : Bool) (t : Prandr → Nat → Touch) (gen : Prandr), ∃ gen' q,
      Plays bus (fun s => passUp bus quit t nextRandom Part.stop 1 fuel start (ptrAdd start 0) start
        { s with gen := randSeed s.gen (movinvrSeed1 0) (movinvrSeed2 0) }) gen [] gen' q := by
    intro quit t gen
    obtain ⟨q, hplays⟩ := passUp_nothing bus quit t nextRandom stop_plays
      (show 1 ≤ spinsz by decide) hstart le_rfl (by omega) hfuel
      (randSeed gen (movinvrSeed1 0) (movinvrSeed2 0))
    exact ⟨_, q, Plays.regen (fun r => randSeed r (movinvrSeed1 0) (movinvrSeed2 0)) gen hplays⟩
  obtain ⟨gen₁, q₁, hfirst⟩ := hpass true (fun r p => ⟨p, none, some (randFunction r).1⟩) r
  obtain ⟨gen₂, q₂, hsecond⟩ := hpass true (movinvrTouch noComp 0) gen₁
  obtain ⟨gen₃, q₃, hthird⟩ := hpass true (movinvrTouch noComp 1) gen₂
  exact ⟨gen₃, q₃, hfirst.andThen _ (hsecond.andThen _ hthird)⟩

theorem movinvr_block :
    (∀ σ fuel (bus : Bus σ), b.cnt < fuel →
      ∃ gen' q, Plays bus (movinvr bus fuel b.start b.cnt noComp) r (randomPasses noComp r b.start b.cnt)
        gen' q) ∧
    FindsStuck noComp b.start b.cnt (passNum b.cnt r) fun _ fuel bus mem =>
      (movinvr bus fuel b.start b.cnt noComp).test r mem := by
  have hplays : ∀ σ fuel (bus : Bus σ), b.cnt < fuel →
      ∃ gen' q, Plays bus (movinvr bus fuel b.start b.cnt noComp) r
        (randomPasses noComp r b.start b.cnt) gen' q := by
    intro σ fuel bus hfuel
    rw [← movinvrScript_eq b noComp r]
    exact movinvr_plays b noComp bus hfuel r
  have hkeeps : ∀ f, Keeps b noComp f (randomPasses noComp r b.start b.cnt) (passNum b.cnt r) := by
    intro f
    have hfinal : passNum b.cnt r = randomWord b := funext fun i => (randomWord_eq b r i).symm
    rw [hfinal, ← movinvrScript_eq b noComp r]
    exact movinvrScript_keeps b noComp f
  refine ⟨hplays, findsStuck_of_plays hkeeps (randomPasses_within b noComp r) ?_ hplays⟩
  rintro rfl
  exact randomPasses_checks b r

theorem movinvr_findsStuck (a : Area) :
    (∀ i, passNum a.cnt (passEnd a.cnt r) i = passNum a.cnt r i ∧
      passNum a.cnt (passEnd a.cnt (passEnd a.cnt r)) i = passNum a.cnt r i) ∧
    (∀ σ fuel (bus : Bus σ), a.cnt < fuel →
      ∃ gen' q, Plays bus (movinvr bus fuel a.start a.cnt noComp) r (randomPasses noComp r a.start a.cnt)
        gen' q) ∧
    FindsStuck noComp a.start a.cnt (passNum a.cnt r) fun _ fuel bus mem =>
      (movinvr bus fuel a.start a.cnt noComp).test r mem := by
  refine ⟨fun i => ⟨passNum_eq _ _ _ i, passNum_eq _ _ _ i⟩, ?_⟩
  have hwrap := a.noWrap
  rcases Nat.eq_zero_or_pos a.cnt with hcnt | hcnt
  · have hplays : ∀ σ fuel (bus : Bus σ), 0 < fuel →
        ∃ gen' q, Plays bus (movinvr bus fuel a.start 0 noComp) r [] gen' q :=
      fun _ _ bus hfuel => movinvr_nothing noComp r bus (by omega) hfuel
    rw [hcnt]
    exact ⟨hplays, findsStuck_nothing hplays noComp a.start _⟩
  · exact movinvr_block (a.block hcnt) noComp r

end Movinvr

/-! ## Every twentieth word -/

/-- The words that a stride may reach behind the end have addresses, as they do in a user's half of the
address space. -/
structure StrideArea extends Area where
  room : start + 8 * (cnt + modSz) < 2 ^ 64

section Modtst

variable (noComp : Int) {offset : Nat} (p1 p2 : UL)

theorem modtst_nothing {σ : Type} (bus : Bus σ) {start fuel : Nat} (hroom : start + 8 * modSz < 2 ^ 64)
    (hoffset : offset < modSz) (hfuel : 0 < fuel) (iter gen : Nat) :
    ∃ gen' q, Plays bus (modtst bus fuel start 0 noComp iter offset p1 p2) gen [] gen' q := by
  have hspin : modSz < spinsz := by decide
  have hstart : ptrAdd start offset = start + 8 * offset := Nat.mod_eq_of_lt (by omega)
  have hrest : ∀ n p gen, ∃ gen' q,
      Plays bus (modtstRest bus fuel start 0 offset p2 n p) gen [] gen' q := by
    intro n
    induction n with
    | zero => exact fun p gen => ⟨gen, p, stop_plays p gen⟩
    | succ n ih =>
        intro p gen
        obtain ⟨q₁, hpass⟩ := passUp_nothing bus false
          (fun k p => ⟨p, none, if k ≠ offset then some p2 else none⟩) nextResidue stop_plays
          (show 1 ≤ spinsz by decide) (show start < 2 ^ 64 by omega) le_rfl (by omega) hfuel 0
        obtain ⟨gen', q₂, hturns⟩ := ih q₁ 0
        exact ⟨gen', q₂, (Plays.regen (fun _ => 0) gen hpass).andThen _ hturns⟩
  have hends : ∀ (quit : Bool) (t : Nat → Nat → Touch) (gen : Nat), ∃ q,
      Plays bus (passUp bus quit t id Part.stop modSz fuel start (ptrAdd start 0) (ptrAdd start offset))
        gen [] gen q := by
    intro quit t gen
    rw [hstart]
    exact passUp_nothing bus quit t id stop_plays (by decide) (by omega) (by omega) (by omega) hfuel gen
  obtain ⟨q₁, hfill⟩ := hends false (fun _ p => ⟨p, none, some p1⟩) gen
  obtain ⟨gen₂, q₂, hturns⟩ := hrest iter q₁ gen
  obtain ⟨q₃, hcheck⟩ := hends true (fun _ p => ⟨p, expect noComp p1, none⟩) gen₂
  exact ⟨gen₂, q₃, hfill.andThen _ (hturns.andThen _ hcheck)⟩

variable (b : Block)

theorem residueScript_within (hoffset : offset < modSz) (good word : Option UL) :
    Within b (residueScript b offset good word) :=
  within_map (fun _ => rfl) fun i hi => ((mem_residues b hoffset i).mp hi).1

theorem modtstScript_within (hoffset : offset < modSz) (iter : Nat) :
    Within b (modtstScript noComp p1 p2 b offset iter) := by
  refine (residueScript_within b hoffset _ _).append (Within.append ?_ (residueScript_within b hoffset _ _))
  induction iter with
  | zero => exact within_nil
  | succ n ih => exact (within_up fun _ _ => rfl).append ih

theorem modtst_passes (hroom : b.Roomy) (hoffset : offset < modSz) {iter : Nat} (hiter : 0 < iter)
    (gen : Nat) :
    Passes b.start b.cnt (fun i => if i % modSz = offset then p1 else p2) fun _ fuel bus mem =>
      (modtst bus fuel b.start b.cnt noComp iter offset p1 p2).test gen mem := by
  have hkeeps : ∀ f, Keeps b noComp f (modtstScript noComp p1 p2 b offset iter)
      fun i => if i % modSz = offset then p1 else p2 := by
    intro f
    have hscript := modtstScript_keeps b noComp p1 p2 hoffset iter f
    simpa only [if_neg (Nat.pos_iff_ne_zero.mp hiter)] using hscript
  exact passes_of_plays hkeeps (modtstScript_within noComp p1 p2 b hoffset iter) fun _ _ bus hfuel =>
    modtst_plays b noComp p1 p2 hroom hoffset bus hfuel iter gen

end Modtst

section MemModulo

-- Whatever the memory, a call comes to an end.
theorem test_ends {σ γ : Type} {bus : Bus σ} {part : Part σ γ} {gen : γ} {script : List Touch}
    (h : ∃ gen' q, Plays bus part gen script gen' q) (mem : σ) :
    ∃ ret mem', part.test gen mem = some (ret, mem') := by
  obtain ⟨gen', q, hpart⟩ := h
  cases hplay : play bus script mem with
  | none =>
      obtain ⟨mem', hrun⟩ := hpart.test_dirty hplay
      exact ⟨errFail, mem', hrun⟩
  | some mem' => exact ⟨errSuccess, mem', hpart.test_clean hplay⟩

-- If it is the second of two calls that fails, the first one only has to end.
theorem thenTest_fails {σ : Type} {err : Nat} {first : Option (Nat × σ)} {rest : σ → Option (Nat × σ)}
    (hfirst : ∃ ret mem, first = some (ret, mem)) (hrest : ∀ mem, ∃ mem', rest mem = some (err, mem')) :
    ∃ mem', thenTest err first rest = some (err, mem') := by
  obtain ⟨ret, mem, hrun⟩ := hfirst
  rw [hrun]
  by_cases hret : ret = errSuccess
  · obtain ⟨mem', hlast⟩ := hrest mem
    exact ⟨mem', (if_neg (not_not.mpr hret)).trans hlast⟩
  · exact ⟨mem, if_pos hret⟩

theorem thenTest_failed {σ : Type} (err : Nat) {first : Option (Nat × σ)} (rest : σ → Option (Nat × σ))
    (hfirst : ∃ mem, first = some (errFail, mem)) : ∃ mem', thenTest err first rest = some (err, mem') := by
  obtain ⟨mem, hrun⟩ := hfirst
  rw [hrun]
  exact ⟨mem, rfl⟩

variable (b : Block) {cell : Cell} {value : Bool} {i fuel : Nat} (hroom : b.Roomy) (hi : i < b.cnt)
  (haddr : cell.addr = b.start + 8 * i) (hfuel : b.cnt < fuel)

include hroom hi haddr hfuel

-- The call whose last pass wants the other value of the bit.
theorem modtst_stuck {offset : Nat} (hoffset : i % modSz = offset) {p1 : UL} (p2 : UL)
    (hbit : bitOf p1 cell.bit ≠ value) (iter gen : Nat) (mem : Nat → UL) :
    ∃ mem', (modtst (Fault.stuckAt cell value).bus fuel b.start b.cnt hasComparision iter offset p1
      p2).test gen mem = some (errFail, mem') := by
  have hlt : offset < modSz := hoffset ▸ Nat.mod_lt i (by decide)
  have hword : i ∈ residues b offset := (mem_residues b hlt i).mpr ⟨hi, hoffset⟩
  have hmem : (⟨b.start + 8 * i, expect hasComparision p1, none⟩ : Touch) ∈
      modtstScript hasComparision p1 p2 b offset iter :=
    List.mem_append_right _ (List.mem_append_right _ (List.mem_map_of_mem hword))
  obtain ⟨gen', q, hplays⟩ := modtst_plays b hasComparision p1 p2 hroom hlt
    (Fault.stuckAt cell value).bus hfuel iter gen
  exact hplays.test_dirty (play_stuck hmem haddr.symm (expect_has p1) hbit mem)

-- At the offset of the word one of the two calls fails.
theorem memModuloOffsets_stuck {bus : LongBus (Nat → UL)} (hbus : bus.toBus = (Fault.stuckAt cell value).bus)
    {bytes : Nat} (hbytes : bytes / 8 = b.cnt) (rest : MemTest) {n k : Nat} (hlow : k ≤ i % modSz)
    (hhigh : i % modSz < k + n) (hn : k + n ≤ modSz) (p1 : UL) (mem : Nat → UL) :
    ∃ mem', memModuloOffsets b.start bytes hasComparision rest n k p1 _ fuel bus mem =
      some (errModulo, mem') := by
  induction n generalizing k p1 mem with
  | zero => omega
  | succ n ih =>
      have hends : ∀ p1 p2 mem, ∃ ret mem', (modtst (Fault.stuckAt cell value).bus fuel b.start b.cnt
          hasComparision 2 k p1 p2).test 0 mem = some (ret, mem') :=
        fun p1 p2 => test_ends (modtst_plays b hasComparision p1 p2 hroom (by omega)
          (Fault.stuckAt cell value).bus hfuel 2 0)
      unfold memModuloOffsets
      rw [hbytes, hbus]
      by_cases hoffset : i % modSz = k
      · by_cases hbit : bitOf p1 cell.bit = value
        · have hbit' : bitOf (~~~p1) cell.bit ≠ value := by
            rw [bitOf_not, hbit]
            simp
          exact thenTest_fails (hends _ _ mem) fun mem =>
            thenTest_failed _ _ (modtst_stuck b hroom hi haddr hfuel hoffset p1 hbit' 2 0 mem)
        · exact thenTest_failed _ _ (modtst_stuck b hroom hi haddr hfuel hoffset _ hbit 2 0 mem)
      · exact thenTest_fails (hends _ _ mem) fun mem => thenTest_fails (hends _ _ mem) fun mem =>
          ih (by omega) (by omega) (by omega) _ mem

theorem testMemModulo_stuck {bus : LongBus (Nat → UL)} (hbus : bus.toBus = (Fault.stuckAt cell value).bus)
    {bytes : Nat} (hbytes : bytes / 8 = b.cnt) {iter : Nat} (hiter : 0 < iter) (mem : Nat → UL) :
    ∃ mem', testMemModulo b.start bytes iter hasComparision _ fuel bus mem = some (errModulo, mem') := by
  obtain ⟨n, rfl⟩ : ∃ n, iter = n + 1 := ⟨iter - 1, by omega⟩
  exact memModuloOffsets_stuck b hroom hi haddr hfuel hbus hbytes _ (Nat.zero_le _)
    (by simpa using Nat.mod_lt i (show 0 < modSz by decide)) le_rfl _ mem

end MemModulo

theorem modtst_findsStuck (a : StrideArea) {offset : Nat} (hoffset : offset < modSz) {iter : Nat}
    (hiter : 0 < iter) (noComp : Int) (p1 p2 : UL) (gen : Nat) :
    (Passes a.start a.cnt (fun i => if i % modSz = offset then p1 else p2) fun _ fuel bus mem =>
      (modtst bus fuel a.start a.cnt noComp iter offset p1 p2).test gen mem) ∧
    ∀ (cell : Cell) (value : Bool), cell.addr ∈ List.range' a.start a.cnt 8 → ∀ bus : LongBus (Nat → UL),
      bus.toBus = (Fault.stuckAt cell value).bus → ∀ bytes, bytes / 8 = a.cnt → ∀ mem fuel, a.cnt < fuel →
        ∃ mem', testMemModulo a.start bytes iter hasComparision _ fuel bus mem = some (errModulo, mem') := by
  have hroom := a.room
  rcases Nat.eq_zero_or_pos a.cnt with hcnt | hcnt
  · rw [hcnt] at hroom ⊢
    refine ⟨?_, fun cell value hcell => absurd hcell List.not_mem_nil⟩
    exact (findsStuck_nothing (fun _ _ bus hfuel =>
      modtst_nothing noComp p1 p2 bus (by omega) hoffset hfuel iter gen) noComp a.start _).passes
  · refine ⟨modtst_passes noComp p1 p2 (a.toArea.block hcnt) hroom hoffset hiter gen, ?_⟩
    intro cell value hcell bus hbus bytes hbytes mem fuel hfuel
    obtain ⟨i, hi, haddr⟩ := List.mem_range'.mp hcell
    exact testMemModulo_stuck (a.toArea.block hcnt) hroom hi haddr hfuel hbus hbytes hiter mem

/-- 21 words, of which 2 and no more are at the offset 0. -/
theorem modtst_findsStuck_two :
    (0 < modSz ∧ 0 < 1) ∧
      Passes 8 21 (fun i => if i % modSz = 0 then 0 else 1) fun _ fuel bus mem =>
        (modtst bus fuel 8 21 hasComparision 1 0 0 1).test 0 mem :=
  ⟨by decide, (modtst_findsStuck ⟨⟨8, 21, by decide, by decide, by decide⟩, by decide⟩
    (show 0 < modSz by decide) (show 0 < 1 by decide) hasComparision 0 1 0).1⟩

end MoBoMemory.TestLib
