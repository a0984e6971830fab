import MoBoMemory.TestLib.Honours

/-!
# Passes in sections

The header that the passes of `mem_test.c` share: `pe` runs ahead in sections of `SPINSZ` words, with a
check for pointer overflow, and an inner loop brings `p` up to it, or down.  Together the sections are
one walk over the block.
-/

namespace MoBoMemory.TestLib

open Base

def spinsz : Nat := 0x2000000

/-- `p - k` on a `ULV *`. -/
def ptrSub (p k : Nat) : Nat := (p + 2 ^ 64 - 8 * k) % 2 ^ 64

section Headers

variable {σ γ : Type}

/-- The part is over, with `p` here. -/
def Part.stop (p : Nat) : Part σ γ := fun s => some (s, some p)

/-- `if (pe + spin > pe) pe += spin; else pe = end;` -/
def ahead (spin stop pe : Nat) : Nat := if pe < ptrAdd pe spin then ptrAdd pe spin else stop

/-- The `do ... while (!done)` loop of a pass upwards; `chunk p pe` is the rest of its body. -/
def spinUp (spin stop : Nat) (chunk : Nat → Nat → Part σ γ) : Nat → Nat → Nat → Part σ γ
  | 0, _, _ => fun _ => none
  | fuel + 1, pe, p =>
      let done := decide (stop ≤ ahead spin stop pe)
      let pe := if done then stop else ahead spin stop pe
      if p = pe then Part.stop p
      else (chunk p pe).andThen fun p =>
        if done then Part.stop p else spinUp spin stop chunk fuel pe p

/-- `if (pe - spin < pe) pe -= spin; else pe = start;`.  The comparison is read with addresses that wrap, as
the test for underflow presupposes and a compiler without optimisations leaves it; for a `pe` of `8 * spin` or
more it is true however it is read. -/
def behind (spin start pe : Nat) : Nat := if ptrSub pe spin < pe then ptrSub pe spin else start

/-- The same downwards. -/
def spinDown (spin start : Nat) (chunk : Nat → Nat → Part σ γ) : Nat → Nat → Nat → Part σ γ
  | 0, _, _ => fun _ => none
  | fuel + 1, pe, p =>
      let done := decide (behind spin start pe ≤ start)
      let pe := if done then start else behind spin start pe
      if p = pe then Part.stop p
      else (chunk p pe).andThen fun p =>
        if done then Part.stop p else spinDown spin start chunk fuel pe p

end Headers

theorem ahead_eq {spin stop : Nat} (hspin : 0 < spin) (hsize : 8 * spin ≤ 2 ^ 64) {pe : Nat}
    (hpe : pe ≤ stop) (hstop : stop < 2 ^ 64) :
    (stop ≤ ahead spin stop pe ↔ stop ≤ pe + 8 * spin) ∧
      (¬ stop ≤ pe + 8 * spin → ahead spin stop pe = pe + 8 * spin) := by
  unfold ahead ptrAdd
  split <;> omega

/-! ## Sections one after the other -/

section Sections

variable {σ γ : Type} {chunk : Nat → Nat → Part σ γ} {spin stop : Nat}

theorem spinUp_succ (hspin : 0 < spin) (hsize : 8 * spin ≤ 2 ^ 64) (hstop : stop < 2 ^ 64) {pe : Nat}
    (hpe : pe ≤ stop) (fuel p : Nat) :
    spinUp spin stop chunk (fuel + 1) pe p =
      if p = min (pe + 8 * spin) stop then Part.stop p
      else (chunk p (min (pe + 8 * spin) stop)).andThen fun p =>
        if stop ≤ pe + 8 * spin then Part.stop p
        else spinUp spin stop chunk fuel (min (pe + 8 * spin) stop) p := by
  obtain ⟨hdone, hahead⟩ := ahead_eq hspin hsize hpe hstop
  rw [spinUp]
  by_cases hlast : stop ≤ pe + 8 * spin
  · simp only [decide_eq_true (hdone.mpr hlast), if_true, hlast, Nat.min_eq_right]
  · simp only [hahead hlast, hlast, decide_false, Bool.false_eq_true, if_false,
      Nat.min_eq_left (Nat.le_of_not_le hlast)]

-- What each section keeps, told at the ends of the sections.
theorem spinUp_run {I : Nat → Nat → Scan σ γ → Prop} (hspin : 0 < spin) (hsize : 8 * spin ≤ 2 ^ 64)
    (hstop : stop < 2 ^ 64)
    (hchunk : ∀ pe p s, pe < stop → I pe p s → p ≠ min (pe + 8 * spin) stop ∧
      ∃ s' p', chunk p (min (pe + 8 * spin) stop) s = some (s', some p') ∧
        I (min (pe + 8 * spin) stop) p' s')
    {fuel pe p : Nat} {s : Scan σ γ} (hpe : pe < stop) (hfuel : stop ≤ pe + 8 * fuel) (hI : I pe p s) :
    ∃ s' p', spinUp spin stop chunk fuel pe p s = some (s', some p') ∧ I stop p' s' := by
  induction fuel generalizing pe p s with
  | zero => omega
  | succ fuel ih =>
      obtain ⟨hne, s₁, p₁, hrun, hI₁⟩ := hchunk pe p s hpe hI
      rw [spinUp_succ hspin hsize hstop (Nat.le_of_lt hpe), if_neg hne, Part.andThen, hrun]
      by_cases hlast : stop ≤ pe + 8 * spin
      · rw [Nat.min_eq_right hlast] at hI₁
        exact ⟨s₁, p₁, by simp only [if_pos hlast]; rfl, hI₁⟩
      · simp only [if_neg hlast]
        exact ih (by omega) (by omega) hI₁

-- A section that is left at once.
theorem spinUp_leaves (hspin : 0 < spin) (hsize : 8 * spin ≤ 2 ^ 64) (hstop : stop < 2 ^ 64)
    {fuel pe p : Nat} {s s' : Scan σ γ} (hpe : pe < stop) (hne : p ≠ min (pe + 8 * spin) stop)
    (hchunk : chunk p (min (pe + 8 * spin) stop) s = some (s', none)) :
    spinUp spin stop chunk (fuel + 1) pe p s = some (s', none) := by
  rw [spinUp_succ hspin hsize hstop (Nat.le_of_lt hpe), if_neg hne, Part.andThen, hchunk]

end Sections

/-! ## Upwards -/

section Up

variable {σ γ : Type} {bus : Bus σ} {chunk : Nat → Nat → Part σ γ} {t : γ → Nat → Touch}
  {next : γ → γ} {step : Nat → Nat} {spin stop : Nat}

-- If each section plays the touches of its words, the pass plays those of the whole block.
theorem spinUp_plays (limit : Nat) (hspin : 0 < spin) (hsize : 8 * spin ≤ 2 ^ 64) (hstop : stop < 2 ^ 64)
    (hstep : ∀ r, r < stop → step r ≤ r + 8 * spin)
    (hchunk : ∀ p pe ps q gen, VisitsTo (fun r => decide (r < pe)) step p ps q → ps.length ≤ limit →
      Plays bus (chunk p pe) gen (touches t next ps gen) (next^[ps.length] gen) q)
    {fuel pe p : Nat} {ps : List Nat} {gen : γ} (hpe : pe ≤ stop) (hfuel : stop < pe + 8 * fuel)
    (hp : p < pe + 8 * spin)
    (hvisits : Visits (fun r => decide (r < stop)) step p ps) (hlimit : ps.length ≤ limit) :
    ∃ q, Plays bus (spinUp spin stop chunk fuel pe p) gen (touches t next ps gen)
      (next^[ps.length] gen) q := by
  induction fuel generalizing pe p ps gen with
  | zero => omega
  | succ fuel ih =>
      rw [spinUp_succ hspin hsize hstop hpe]
      by_cases hlast : stop ≤ pe + 8 * spin
      · simp only [if_pos hlast, Nat.min_eq_right hlast]
        by_cases hend : p = stop
        · have hnil := hvisits.nil_of_stop (by simp [hend])
          rw [if_pos hend, hnil]
          exact ⟨p, plays_nil gen p⟩
        · obtain ⟨q, hfirst⟩ := hvisits.visitsTo
          have hplays := (hchunk p stop ps q gen hfirst hlimit).andThen Part.stop (plays_nil _ q)
          rw [List.append_nil] at hplays
          rw [if_neg hend]
          exact ⟨q, hplays⟩
      · simp only [if_neg hlast, Nat.min_eq_left (Nat.le_of_not_le hlast)]
        rw [if_neg (by omega)]
        have himp : ∀ r, decide (r < pe + 8 * spin) = true → decide (r < stop) = true := by
          intro r hr
          rw [decide_eq_true_eq] at hr ⊢
          omega
        obtain ⟨ps₁, ps₂, q, rfl, hfirst, hrest⟩ := hvisits.split himp
        have hlength := @List.length_append _ ps₁ ps₂
        obtain ⟨hq, hwhere⟩ := hfirst.stops
        rw [decide_eq_false_iff_not] at hq
        have hq' : q < pe + 8 * spin + 8 * spin := by
          rcases hwhere with rfl | ⟨r, hr, rfl⟩
          · omega
          · rw [decide_eq_true_eq] at hr
            have hle := hstep r (by omega)
            omega
        obtain ⟨q', hplays⟩ := @ih _ _ _ (next^[ps₁.length] gen) (by omega) (by omega) hq' hrest
          (by omega)
        have hgen : next^[(ps₁ ++ ps₂).length] gen = next^[ps₂.length] (next^[ps₁.length] gen) := by
          rw [List.length_append, Nat.add_comm, Function.iterate_add_apply]
        refine ⟨q', ?_⟩
        rw [touches_append, hgen]
        exact (hchunk p _ ps₁ q gen hfirst (by omega)).andThen _ hplays

end Up

/-! ## Downwards -/

section Down

variable {σ γ : Type} {bus : Bus σ} {chunk : Nat → Nat → Part σ γ} {t : γ → Nat → Touch}
  {next : γ → γ} {spin start : Nat}

-- `do ... while (p-- > pe)` visits the words from `p` down to `pe`, and moves once more.
theorem doVisits_ptrPred {pe : Nat} (k : Nat) (hwrap : pe + 8 * k < 2 ^ 64) :
    DoVisits (fun r => decide (pe < r)) ptrPred (pe + 8 * k) (List.range' pe (k + 1) 8).reverse
      (ptrPred pe) := by
  induction k with
  | zero => exact .last (by simp)
  | succ k ih =>
      have hpred : ptrPred (pe + 8 * (k + 1)) = pe + 8 * k := by unfold ptrPred; omega
      rw [List.range'_concat, List.reverse_append, List.reverse_singleton, List.singleton_append]
      refine .step (by simp) ?_
      rw [hpred]
      exact ih (by omega)

theorem behind_eq (start : Nat) (hsize : 8 * spin ≤ 2 ^ 64) (hspin : 0 < spin) {m : Nat}
    (hpe : start + 8 * m < 2 ^ 64) :
    (behind spin start (start + 8 * m) ≤ start ↔ m ≤ spin) ∧
      (¬ m ≤ spin → behind spin start (start + 8 * m) = start + 8 * (m - spin)) := by
  unfold behind ptrSub
  split <;> omega

/-- Whether the lowest word is left out, with `pe` at word `m` and `n` words to go. -/
def leftOut (spin m n : Nat) : Nat := if n = 1 ∨ (spin < m ∧ m % spin = 1) then 1 else 0

-- A section leaves this to the next one.
theorem leftOut_next {m n : Nat} (hspin : 1 < spin) (hm : spin < m) (hn : m ≤ n) :
    leftOut spin m n = leftOut spin (m - spin) (m - spin) := by
  have hmod : m % spin = (m - spin) % spin := Nat.mod_eq_sub_mod hm.le
  have hiff : (n = 1 ∨ (spin < m ∧ m % spin = 1)) ↔
      (m - spin = 1 ∨ (spin < m - spin ∧ (m - spin) % spin = 1)) := by
    rw [hmod]
    constructor
    · rintro (hone | ⟨-, hrest⟩)
      · omega
      · rcases Nat.lt_trichotomy (m - spin) spin with hlt | heq | hgt
        · rw [Nat.mod_eq_of_lt hlt] at hrest
          exact Or.inl hrest
        · rw [heq, Nat.mod_self] at hrest
          cases hrest
        · exact Or.inr ⟨hgt, hrest⟩
    · rintro (hone | ⟨-, hrest⟩)
      · exact Or.inr ⟨hm, by rw [hone, Nat.mod_eq_of_lt hspin]⟩
      · exact Or.inr ⟨hm, hrest⟩
  simp only [leftOut, hiff]

/-- The judgement holds of the parts that the sections are put together from, word by word; `adv` is what some words
do to its parameter. -/
structure SpinRule {δ : Type} (J : Part σ γ → δ → List Nat → Nat → Prop) (adv : δ → Nat → δ)
    (chunk : Nat → Nat → Part σ γ) (limit : Nat) : Prop where
  stop : ∀ d q, J (Part.stop q) d [] q
  andThen : ∀ {first rest d ws ws' q q'}, J first d ws q → J (rest q) (adv d ws.length) ws' q' →
    J (first.andThen rest) d (ws ++ ws') q'
  chunk : ∀ {p pe ps q} d, DoVisits (fun r => decide (pe < r)) ptrPred p ps q → ps.length ≤ limit →
    J (chunk p pe) d ps q

-- The lowest word is left out where a section would hold nothing else.
theorem SpinRule.spinDown {δ : Type} {J : Part σ γ → δ → List Nat → Nat → Prop} {adv : δ → Nat → δ}
    {chunk : Nat → Nat → Part σ γ} {limit : Nat} (hrule : SpinRule J adv chunk limit) (hspin : 1 < spin)
    (hsize : 8 * spin ≤ 2 ^ 64) {fuel m n : Nat} (d : δ) (hfuel : m < fuel) (hpe : start + 8 * m < 2 ^ 64)
    (hn : n = m + 1 ∨ n = m) (hpos : 0 < n) (hlimit : n ≤ limit) :
    ∃ q, J (spinDown spin start chunk fuel (start + 8 * m) (start + 8 * (n - 1))) d
      (List.range' (start + 8 * leftOut spin m n) (n - leftOut spin m n) 8).reverse q := by
  induction fuel generalizing m n d with
  | zero => omega
  | succ fuel ih =>
      obtain ⟨hdone, hbehind⟩ := behind_eq start hsize (by omega) hpe
      rw [TestLib.spinDown]
      by_cases hlast : m ≤ spin
      · simp only [decide_eq_true (hdone.mpr hlast), if_true]
        by_cases hone : n = 1
        · -- `p == pe`
          rw [if_pos (by omega), leftOut, if_pos (Or.inl hone), hone]
          exact ⟨_, hrule.stop d _⟩
        · have hall : leftOut spin m n = 0 := if_neg (by omega)
          rw [if_neg (by omega), hall]
          obtain ⟨k, rfl⟩ : ∃ k, n = k + 1 := ⟨n - 1, by omega⟩
          have hvisits := @doVisits_ptrPred start k (by omega)
          have hwhole := hrule.andThen (hrule.chunk d hvisits (by simpa using hlimit)) (hrule.stop _ _)
          rw [List.append_nil] at hwhole
          exact ⟨_, hwhole⟩
      · have hlow : ¬ start + 8 * (m - spin) ≤ start := by omega
        simp only [hbehind hlast, decide_eq_false hlow, Bool.false_eq_true, if_false]
        rw [if_neg (by omega), leftOut_next hspin (by omega) (by omega)]
        obtain ⟨k, rfl⟩ : ∃ k, n = m - spin + (k + 1) := ⟨n - (m - spin) - 1, by omega⟩
        have hvisits := @doVisits_ptrPred (start + 8 * (m - spin)) k (by omega)
        have hnext : ptrPred (start + 8 * (m - spin)) = start + 8 * (m - spin - 1) := by unfold ptrPred; omega
        rw [hnext] at hvisits
        obtain ⟨q, hrest⟩ := ih (m := m - spin) (n := m - spin)
          (adv d (List.range' (start + 8 * (m - spin)) (k + 1) 8).reverse.length) (by omega) (by omega)
          (Or.inr rfl) (by omega) (by omega)
        have hfew : leftOut spin (m - spin) (m - spin) ≤ 1 := by
          unfold leftOut
          split_ifs <;> omega
        generalize leftOut spin (m - spin) (m - spin) = e at hfew hrest ⊢
        have hsplit : (List.range' (start + 8 * e) (m - spin + (k + 1) - e) 8).reverse =
            (List.range' (start + 8 * (m - spin)) (k + 1) 8).reverse ++
              (List.range' (start + 8 * e) (m - spin - e) 8).reverse := by
          have hcnt : m - spin + (k + 1) - e = m - spin - e + (k + 1) := by omega
          have hat : start + 8 * (m - spin) = start + 8 * e + 8 * (m - spin - e) := by omega
          rw [hcnt, ← List.range'_append, List.reverse_append, ← hat]
        have hp : start + 8 * (m - spin + (k + 1) - 1) = start + 8 * (m - spin) + 8 * k := by omega
        rw [hsplit, hp]
        exact ⟨q, hrule.andThen (hrule.chunk d hvisits (by simp; omega)) hrest⟩

theorem spinDown_plays (limit : Nat) (hspin : 1 < spin) (hsize : 8 * spin ≤ 2 ^ 64)
    (hchunk : ∀ p pe ps q gen, DoVisits (fun r => decide (pe < r)) ptrPred p ps q →
      ps.length ≤ limit →
      Plays bus (chunk p pe) gen (touches t next ps gen) (next^[ps.length] gen) q)
    {fuel m n : Nat} {gen : γ} (hfuel : m < fuel) (hpe : start + 8 * (m + 1) < 2 ^ 64)
    (hn : n = m + 1 ∨ n = m) (hpos : 1 < n) (hrest : m % spin ≠ 1) (hlimit : n ≤ limit) :
    ∃ q, Plays bus (spinDown spin start chunk fuel (start + 8 * m) (start + 8 * (n - 1))) gen
      (touches t next (List.range' start n 8).reverse gen) (next^[n] gen) q := by
  have hrule : SpinRule (fun part gen ws q => Plays bus part gen (touches t next ws gen) (next^[ws.length] gen) q)
      (fun gen n => next^[n] gen) chunk limit := by
    refine ⟨fun gen q => plays_nil gen q, ?_, fun gen hvisits hlength => hchunk _ _ _ _ gen hvisits hlength⟩
    intro first rest gen ws ws' q q' hfirst hplays
    rw [touches_append, List.length_append, Nat.add_comm, Function.iterate_add_apply]
    exact hfirst.andThen _ hplays
  have hall : leftOut spin m n = 0 := if_neg (by omega)
  have hlast : start + 8 * m < 2 ^ 64 := by omega
  obtain ⟨q, hplays⟩ := hrule.spinDown hspin hsize gen hfuel hlast hn (by omega) hlimit
  rw [hall, Nat.mul_zero, Nat.add_zero, Nat.sub_zero, List.length_reverse, List.length_range'] at hplays
  exact ⟨q, hplays⟩

end Down

/-! ## The passes over words -/

section Passes

variable {σ γ : Type}

section Definitions

variable (bus : Bus σ) (quit : Bool) (t : γ → Nat → Touch) (next : γ → γ) (after : Nat → Part σ γ)

/-- `for (; p < pe; p += step)` in each section, and then `after`. -/
def passUp (step fuel start stop p : Nat) : Part σ γ :=
  spinUp spinsz stop
    (fun p pe => Part.andThen (walk (fun r => decide (r < pe)) (fun r => ptrAdd r step)
      (touchBody bus quit t next) fuel p) after) fuel start p

/-- `do ... while (p-- > pe)` in each section. -/
def passDown (fuel start last : Nat) : Part σ γ :=
  spinDown spinsz start
    (fun p pe => Part.andThen (doWalk (fun r => decide (pe < r)) ptrPred
      (touchBody bus quit t next) fuel p) after) fuel last last

end Definitions

/-- `if (ret != ERR_SUCCESS) return ret;` behind a section. -/
def Part.bail (p : Nat) : Part σ γ := fun s =>
  if s.ret ≠ errSuccess then some (s, none) else some (s, some p)

variable (bus : Bus σ) (quit : Bool) (t : γ → Nat → Touch) (next : γ → γ) {after : Nat → Part σ γ}
  (b : Block) {fuel : Nat}

theorem stop_plays {bus : Bus σ} (q : Nat) (gen : γ) : Plays bus (Part.stop q) gen [] gen q :=
  plays_nil gen q

theorem bail_plays {bus : Bus σ} (q : Nat) (gen : γ) : Plays bus (Part.bail q) gen [] gen q := by
  refine ⟨fun s hs => ?_, ?_, ?_⟩
  · rcases hs with hs | hs
    · exact ⟨s, some q, if_neg (not_not.mpr hs), Or.inl ⟨hs, hs⟩, Or.inr rfl⟩
    · exact ⟨s, none, if_pos (by rw [hs]; decide), Or.inr hs, Or.inl ⟨rfl, hs⟩⟩
  · rintro mem _ ⟨⟩
    exact if_neg (not_not.mpr rfl)
  · intro mem hplay
    cases hplay

theorem passUp_plays {start cnt : Nat} (hwrap : start + 8 * cnt < 2 ^ 64)
    (hafter : ∀ q gen, Plays bus (after q) gen [] gen q) (step : Nat) {p : Nat}
    (hstep : step ≤ spinsz) (hp : p < start + 8 * spinsz) {ps : List Nat}
    (hvisits : Visits (fun r => decide (r < ptrAdd start cnt)) (fun r => ptrAdd r step) p ps)
    (hlength : ps.length < fuel) (hfuel : cnt < fuel) (gen : γ) :
    ∃ q, Plays bus (passUp bus quit t next after step fuel start (ptrAdd start cnt) p) gen
      (touches t next ps gen) (next^[ps.length] gen) q := by
  have hend : ptrAdd start cnt = start + 8 * cnt := Nat.mod_eq_of_lt hwrap
  refine spinUp_plays (fuel - 1) (by decide) (by decide) (by omega) ?_ ?_ (by omega)
    (by omega) hp hvisits (by omega)
  · intro r _
    unfold ptrAdd
    have hle := Nat.mod_le (r + 8 * step) (2 ^ 64)
    omega
  · intro p pe ps q gen hvisits hlimit
    have hwalk : Plays bus (walk (fun r => decide (r < pe)) (fun r => ptrAdd r step)
        (touchBody bus quit t next) fuel p) gen (touches t next ps gen) (next^[ps.length] gen) q :=
      (sweep_plays bus quit t next ps gen q).congr
        fun s => walk_eq_sweepTo hvisits (by omega) s
    have hboth := hwalk.andThen after (hafter q _)
    rwa [List.append_nil] at hboth

-- A pass over no words.
theorem passUp_nothing (hafter : ∀ q gen, Plays bus (after q) gen [] gen q) {step start p : Nat}
    (hstep : step ≤ spinsz) (hstart : start < 2 ^ 64) (hle : start ≤ p) (hp : p < start + 8 * spinsz)
    (hfuel : 0 < fuel) (gen : γ) :
    ∃ q, Plays bus (passUp bus quit t next after step fuel start (ptrAdd start 0) p) gen [] gen q := by
  have hend : ptrAdd start 0 = start := Nat.mod_eq_of_lt hstart
  have hvisits : Visits (fun r => decide (r < ptrAdd start 0)) (fun r => ptrAdd r step) p [] :=
    .stop (decide_eq_false (by omega))
  exact passUp_plays bus quit t next (by omega) hafter step hstep hp hvisits hfuel hfuel gen

-- The pass over the whole block.
theorem passUp_block (hafter : ∀ q gen, Plays bus (after q) gen [] gen q) (hfuel : b.cnt < fuel)
    (gen : γ) :
    ∃ q, Plays bus (passUp bus quit t next after 1 fuel b.start (ptrAdd b.start b.cnt) b.start) gen
      (touches t next b.addrs gen) (next^[b.cnt] gen) q := by
  have hspin : 0 < spinsz := by decide
  have hplays := passUp_plays bus quit t next b.noWrap hafter 1 (by decide) (by omega) b.visits_up
    (by simpa using hfuel) hfuel gen
  rwa [b.length_addrs] at hplays

theorem passDown_block (hafter : ∀ q gen, Plays bus (after q) gen [] gen q) (hfuel : b.cnt < fuel)
    (hcnt : 1 < b.cnt) (hrest : (b.cnt - 1) % spinsz ≠ 1) (gen : γ) :
    ∃ q, Plays bus (passDown bus quit t next after fuel b.start
      (ptrPred (ptrAdd b.start b.cnt))) gen
      (touches t next b.addrs.reverse gen) (next^[b.cnt] gen) q := by
  have hwrap := b.noWrap
  have hlast : ptrPred (ptrAdd b.start b.cnt) = b.start + 8 * (b.cnt - 1) := by
    rw [b.end_eq]
    unfold ptrPred
    omega
  rw [hlast]
  refine spinDown_plays fuel (by decide) (by decide) ?_ (by omega) (by omega)
    (Or.inl (by omega)) hcnt hrest (by omega)
  intro p pe ps q gen hvisits hlimit
  have hwalk : Plays bus (doWalk (fun r => decide (pe < r)) ptrPred (touchBody bus quit t next)
      fuel p) gen (touches t next ps gen) (next^[ps.length] gen) q :=
    (sweep_plays bus quit t next ps gen q).congr fun s => doWalk_eq_sweepTo hvisits hlimit s
  have hboth := hwalk.andThen after (hafter q _)
  rwa [List.append_nil] at hboth

end Passes

end MoBoMemory.TestLib
