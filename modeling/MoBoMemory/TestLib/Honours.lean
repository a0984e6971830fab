import MoBoMemory.TestLib.Touches

/-!
# Tests that honour the flag

What `no_comp` should mean for a test: without HAS_COMPARISION it cannot fail, with it some memory
fails it, and memory without faults never does.  A test that plays a script honours the flag when the
script does, and calls one after the other honour it when the first one does.
-/

namespace MoBoMemory.TestLib

open Base

/-- A test of some memory, given fuel for its loops; it gives a code back. -/
abbrev MemTest : Type 1 := (σ : Type) → Nat → LongBus σ → σ → Option (Nat × σ)

/-- Without the flag the test cannot fail, and with fault-free memory it does not. -/
structure Harmless (noComp : Int) (bound : Nat) (test : MemTest) : Prop where
  skips : noComp ≠ hasComparision → ∀ σ bus mem fuel, bound < fuel →
    ∃ mem', test σ fuel bus mem = some (errSuccess, mem')
  passes : ∀ mem fuel, bound < fuel →
    ∃ mem', test _ fuel faithfulLongBus mem = some (errSuccess, mem')

/-- And with the flag some memory fails it. -/
structure Honours (noComp : Int) (bound err : Nat) (test : MemTest) : Prop
    extends Harmless noComp bound test where
  catches : noComp = hasComparision → ∃ c, ∀ fuel, bound < fuel →
    ∃ mem', test _ fuel (constBus c) () = some (err, mem')

/-- A script that compares with the flag only, and with what it wrote. -/
structure Fair (noComp : Int) (script : List Touch) : Prop where
  blind : noComp ≠ hasComparision → ∀ t ∈ script, t.good = none
  agrees : ∀ mem, ∃ mem', play faithfulBus script mem = some mem'

/-- And with the flag it does compare. -/
structure Sound (noComp : Int) (script : List Touch) : Prop extends Fair noComp script where
  checks : noComp = hasComparision → ∃ t ∈ script, t.good ≠ none

/-- From a block that holds `f` the script leads to one that holds `f'`. -/
structure Keeps (b : Block) (noComp : Int) (f : Nat → UL) (script : List Touch) (f' : Nat → UL) :
    Prop where
  blind : noComp ≠ hasComparision → ∀ t ∈ script, t.good = none
  leads : ∀ mem, b.Holds f mem → ∃ mem', play faithfulBus script mem = some mem' ∧ b.Holds f' mem'

/-- A block as the tests get them: whole pages, mapped into a user's half of the address space. -/
structure PageBlock extends Block where
  pages : 4096 ∣ start ∧ 512 ∣ cnt
  user : start + 8 * cnt ≤ 2 ^ 47

theorem PageBlock.cnt_ge (b : PageBlock) : 512 ≤ b.cnt := by
  have hpos := b.cnt_pos
  have hpages := b.pages.2
  omega

-- `block_bytes/sizeof(UL)`
theorem cnt_of_bytes (cnt : Nat) : 8 * cnt / 8 = cnt := Nat.mul_div_cancel_left cnt (by decide)

/-- What a test gives back that consists of one part. -/
def Part.test {σ γ : Type} (part : Part σ γ) (gen : γ) (mem : σ) : Option (Nat × σ) :=
  (part ⟨mem, errSuccess, gen⟩).map fun out => (out.1.ret, out.1.mem)

/-- `if (ret != ERR_SUCCESS) { ret = err; return ret; }` between two calls. -/
def thenTest {σ : Type} (err : Nat) (first : Option (Nat × σ)) (rest : σ → Option (Nat × σ)) :
    Option (Nat × σ) :=
  first.bind fun out => if out.1 ≠ errSuccess then some (err, out.2) else rest out.2

section Played

variable {σ γ : Type} {bus : Bus σ} {part : Part σ γ} {gen gen' : γ} {script : List Touch} {q : Nat}
  {mem mem' : σ}

theorem Plays.test_clean (h : Plays bus part gen script gen' q) (hplay : play bus script mem = some mem') :
    part.test gen mem = some (errSuccess, mem') := by
  rw [Part.test, h.clean mem mem' hplay]
  rfl

theorem Plays.test_dirty (h : Plays bus part gen script gen' q) (hplay : play bus script mem = none) :
    ∃ mem', part.test gen mem = some (errFail, mem') := by
  obtain ⟨s, o, hrun, -⟩ := h.total ⟨mem, errSuccess, gen⟩ (Or.inl rfl)
  have hfail := h.dirty mem hplay _ hrun
  exact ⟨s.mem, by rw [Part.test, hrun]; exact congrArg (fun r => some (r, s.mem)) hfail⟩

end Played

section Fair

variable {noComp : Int} {script script' : List Touch}

theorem fair_nil : Fair noComp [] :=
  ⟨fun _ _ ht => absurd ht List.not_mem_nil, fun mem => ⟨mem, rfl⟩⟩

theorem Fair.append (h : Fair noComp script) (h' : Fair noComp script') :
    Fair noComp (script ++ script') := by
  refine ⟨fun hno t ht => ?_, fun mem => ?_⟩
  · rcases List.mem_append.mp ht with ht | ht
    · exact h.blind hno t ht
    · exact h'.blind hno t ht
  · obtain ⟨mem₁, hplay₁⟩ := h.agrees mem
    obtain ⟨mem₂, hplay₂⟩ := h'.agrees mem₁
    exact ⟨mem₂, by rw [play_append, hplay₁]; exact hplay₂⟩

theorem Fair.flatMap {f : Nat → List Touch} (h : ∀ p, Fair noComp (f p)) (ps : List Nat) :
    Fair noComp (ps.flatMap f) := by
  induction ps with
  | nil => exact fair_nil
  | cons p ps ih => exact (h p).append ih

end Fair

section Keeps

variable {noComp : Int} {b : Block} {f f₁ f₂ : Nat → UL} {script script₁ script₂ : List Touch}

theorem Keeps.append (h : Keeps b noComp f script₁ f₁) (h' : Keeps b noComp f₁ script₂ f₂) :
    Keeps b noComp f (script₁ ++ script₂) f₂ := by
  refine ⟨fun hno t ht => ?_, fun mem hmem => ?_⟩
  · rcases List.mem_append.mp ht with ht | ht
    · exact h.blind hno t ht
    · exact h'.blind hno t ht
  · obtain ⟨mem₁, hplay₁, hmem₁⟩ := h.leads mem hmem
    obtain ⟨mem₂, hplay₂, hmem₂⟩ := h'.leads mem₁ hmem₁
    exact ⟨mem₂, by rw [play_append, hplay₁]; exact hplay₂, hmem₂⟩

theorem Keeps.nil (f : Nat → UL) : Keeps b noComp f [] f :=
  ⟨fun _ _ ht => absurd ht List.not_mem_nil, fun mem hmem => ⟨mem, rfl, hmem⟩⟩

-- Whatever is there before.
theorem sound_of_keeps (h : ∀ f, ∃ f', Keeps b noComp f script f')
    (hchecks : noComp = hasComparision → ∃ t ∈ script, t.good ≠ none) : Sound noComp script := by
  obtain ⟨f', hkeeps⟩ := h fun _ => 0
  refine ⟨⟨hkeeps.blind, fun mem => ?_⟩, hchecks⟩
  obtain ⟨f', hkeeps⟩ := h fun i => mem (b.start + 8 * i)
  obtain ⟨mem', hplay, -⟩ := hkeeps.leads mem fun _ _ => rfl
  exact ⟨mem', hplay⟩

theorem expect_none (hno : noComp ≠ hasComparision) (good : UL) : expect noComp good = none :=
  if_pos hno

theorem expect_some {good good' : UL} (h : expect noComp good = some good') : good' = good := by
  unfold expect at h
  split at h
  · cases h
  · exact (Option.some.inj h).symm

section Touches

variable {γ : Type} {t : γ → Nat → Touch} {next : γ → γ} {gen : γ} {good word : Nat → UL}

theorem mem_touches {ps : List Nat} {u : Touch} (hu : u ∈ touches t next ps gen) :
    ∃ g p, u = t g p := by
  induction ps generalizing gen with
  | nil => cases hu
  | cons p ps ih =>
      rcases List.mem_cons.mp hu with rfl | hu
      · exact ⟨gen, p, rfl⟩
      · exact ih hu

-- A pass that only writes.
theorem keeps_fill (haddr : ∀ g p, (t g p).addr = p) (hgood : ∀ g p, (t g p).good = none)
    (hword : ∀ i < b.cnt, (t (next^[i] gen) (b.start + 8 * i)).word = some (word i)) (f : Nat → UL) :
    Keeps b noComp f (touches t next b.addrs gen) word := by
  refine ⟨fun _ u hu => ?_, fun mem hmem => play_up hmem haddr ?_ ?_⟩
  · obtain ⟨g, p, rfl⟩ := mem_touches hu
    exact hgood g p
  · intro i _ good' hcase
    rw [hgood] at hcase
    cases hcase
  · intro i hi
    rw [hword i hi]
    rfl

-- A pass that compares each word and overwrites it, upwards and downwards.
theorem keeps_up (haddr : ∀ g p, (t g p).addr = p)
    (hblind : noComp ≠ hasComparision → ∀ g p, (t g p).good = none)
    (hgood : ∀ i < b.cnt, ∀ g, (t (next^[i] gen) (b.start + 8 * i)).good = some g → g = good i)
    (hword : ∀ i < b.cnt, (t (next^[i] gen) (b.start + 8 * i)).word.getD (good i) = word i) :
    Keeps b noComp good (touches t next b.addrs gen) word := by
  refine ⟨fun hno u hu => ?_, fun mem hmem => play_up hmem haddr hgood hword⟩
  obtain ⟨g, p, rfl⟩ := mem_touches hu
  exact hblind hno g p

theorem keeps_down (haddr : ∀ g p, (t g p).addr = p)
    (hblind : noComp ≠ hasComparision → ∀ g p, (t g p).good = none)
    (hgood : ∀ i < b.cnt, ∀ g,
      (t (next^[b.cnt - 1 - i] gen) (b.start + 8 * i)).good = some g → g = good i)
    (hword : ∀ i < b.cnt,
      (t (next^[b.cnt - 1 - i] gen) (b.start + 8 * i)).word.getD (good i) = word i) :
    Keeps b noComp good (touches t next b.addrs.reverse gen) word := by
  refine ⟨fun hno u hu => ?_, fun mem hmem => play_down hmem haddr hgood hword⟩
  obtain ⟨g, p, rfl⟩ := mem_touches hu
  exact hblind hno g p

-- Its first touch.
theorem first_touch_mem (b : Block) : t gen b.start ∈ touches t next b.addrs gen := by
  obtain ⟨n, hn⟩ : ∃ n, b.cnt = n + 1 := ⟨b.cnt - 1, by have := b.cnt_pos; omega⟩
  rw [Block.addrs, hn, List.range'_succ]
  exact List.mem_cons_self

end Touches

end Keeps

section Flag

variable {noComp : Int} {bound err code : Nat} {test rest : MemTest}

-- Where nothing is compared, every script plays.
theorem play_blind {σ : Type} (bus : Bus σ) {script : List Touch}
    (hblind : ∀ t ∈ script, t.good = none) (mem : σ) : ∃ mem', play bus script mem = some mem' := by
  induction script generalizing mem with
  | nil => exact ⟨mem, rfl⟩
  | cons t script ih =>
      have hplay : t.play bus mem = some (t.store bus mem) := by
        rw [Touch.play, hblind t (by simp)]
      obtain ⟨mem', hrest⟩ := ih (fun u hu => hblind u (by simp [hu])) (t.store bus mem)
      exact ⟨mem', by rw [play_cons, hplay]; exact hrest⟩

-- A comparison with another word than the memory answers fails.
theorem play_const {script : List Touch} {t : Touch} (ht : t ∈ script) {good c : UL}
    (hgood : t.good = some good) (hne : c ≠ good) : play (constBus c).toBus script () = none := by
  refine play_of_mem ht (fun mem => ?_) ()
  simp only [Touch.play, hgood]
  exact if_neg hne

theorem honours_of_plays {γ : Type} {part : (σ : Type) → Nat → LongBus σ → Part σ γ} {gen : γ}
    {script : List Touch} (hsound : Sound noComp script)
    (hplays : ∀ σ fuel (bus : LongBus σ), bound < fuel →
      ∃ gen' q, Plays bus.toBus (part σ fuel bus) gen script gen' q) :
    Honours noComp bound errFail fun σ fuel bus mem => (part σ fuel bus).test gen mem := by
  refine ⟨⟨?_, ?_⟩, ?_⟩
  · intro hno σ bus mem fuel hfuel
    obtain ⟨mem', hplay⟩ := play_blind bus.toBus (hsound.blind hno) mem
    obtain ⟨gen', q, hpart⟩ := hplays σ fuel bus hfuel
    exact ⟨mem', hpart.test_clean hplay⟩
  · intro mem fuel hfuel
    obtain ⟨mem', hplay⟩ := hsound.agrees mem
    obtain ⟨gen', q, hpart⟩ := hplays _ fuel faithfulLongBus hfuel
    exact ⟨mem', hpart.test_clean hplay⟩
  · intro hyes
    obtain ⟨t, ht, hsome⟩ := hsound.checks hyes
    obtain ⟨good, hgood⟩ := Option.ne_none_iff_exists'.mp hsome
    have hne : ~~~good ≠ good := by bv_omega
    refine ⟨~~~good, fun fuel hfuel => ?_⟩
    obtain ⟨gen', q, hpart⟩ := hplays Unit fuel (constBus (~~~good)) hfuel
    exact hpart.test_dirty (play_const ht hgood hne)

theorem harmless_done : Harmless noComp bound fun _ _ _ mem => some (errSuccess, mem) :=
  ⟨fun _ _ _ mem _ _ => ⟨mem, rfl⟩, fun mem _ _ => ⟨mem, rfl⟩⟩

theorem Harmless.thenTest (err : Nat) (h : Harmless noComp bound test)
    (h' : Harmless noComp bound rest) :
    Harmless noComp bound fun σ fuel bus mem =>
      TestLib.thenTest err (test σ fuel bus mem) (rest σ fuel bus) := by
  refine ⟨fun hno σ bus mem fuel hfuel => ?_, fun mem fuel hfuel => ?_⟩
  · obtain ⟨mem₁, hfirst⟩ := h.skips hno σ bus mem fuel hfuel
    obtain ⟨mem₂, hlast⟩ := h'.skips hno σ bus mem₁ fuel hfuel
    exact ⟨mem₂, by rw [TestLib.thenTest, hfirst]; exact hlast⟩
  · obtain ⟨mem₁, hfirst⟩ := h.passes mem fuel hfuel
    obtain ⟨mem₂, hlast⟩ := h'.passes mem₁ fuel hfuel
    exact ⟨mem₂, by rw [TestLib.thenTest, hfirst]; exact hlast⟩

theorem Honours.thenTest (err : Nat) (h : Honours noComp bound code test) (hcode : code ≠ errSuccess)
    (h' : Harmless noComp bound rest) :
    Honours noComp bound err fun σ fuel bus mem =>
      TestLib.thenTest err (test σ fuel bus mem) (rest σ fuel bus) := by
  refine ⟨h.toHarmless.thenTest err h', fun hyes => ?_⟩
  obtain ⟨c, hc⟩ := h.catches hyes
  refine ⟨c, fun fuel hfuel => ?_⟩
  obtain ⟨mem', hrun⟩ := hc fuel hfuel
  exact ⟨mem', by rw [TestLib.thenTest, hrun]; exact if_pos hcode⟩

-- The rest of a loop whose turns are the fuel.
theorem Harmless.fewerTurns {turns : Nat → MemTest}
    (h : ∀ n, bound ≤ n → Harmless noComp bound (turns n)) :
    Harmless noComp bound fun σ fuel bus mem => turns (fuel - 1) σ fuel bus mem :=
  ⟨fun hno σ bus mem fuel hfuel => (h (fuel - 1) (by omega)).skips hno σ bus mem fuel hfuel,
    fun mem fuel hfuel => (h (fuel - 1) (by omega)).passes mem fuel hfuel⟩

theorem Honours.congr {test' : MemTest} (h : Honours noComp bound err test)
    (heq : ∀ σ fuel bus mem, bound < fuel → test' σ fuel bus mem = test σ fuel bus mem) :
    Honours noComp bound err test' := by
  refine ⟨⟨?_, ?_⟩, fun hyes => ?_⟩
  · intro hno σ bus mem fuel hfuel
    rw [heq σ fuel bus mem hfuel]
    exact h.skips hno σ bus mem fuel hfuel
  · intro mem fuel hfuel
    rw [heq _ fuel _ mem hfuel]
    exact h.passes mem fuel hfuel
  · obtain ⟨c, hc⟩ := h.catches hyes
    refine ⟨c, fun fuel hfuel => ?_⟩
    rw [heq _ fuel _ () hfuel]
    exact hc fuel hfuel

end Flag

end MoBoMemory.TestLib
