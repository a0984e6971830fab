import MoBoMemory.Base.Walks
import MoBoMemory.TestLib.Block

/-!
# Tests as scripts

Most passes of the tests touch one word after the other: compare it with a pattern, write another
pattern, or both.  Which words and which patterns does not depend on what is read, so a pass plays a
script of touches.  With a mismatch in the script the test fails; a script without comparisons cannot
fail; and memory without faults agrees with a script whose comparisons are with what it wrote.
-/

namespace MoBoMemory.TestLib

open Base

/-- A bus that also takes the 32-bit accesses of `movsl`. -/
structure LongBus (σ : Type) extends Bus σ where
  readl : σ → Nat → BitVec 32 × σ
  writel : σ → Nat → BitVec 32 → σ

/-- Memory without faults; the lower half of a word comes first, and the accesses are aligned. -/
def faithfulLongBus : LongBus (Nat → UL) where
  toBus := faithfulBus
  readl mem p :=
    (if p % 8 = 0 then (mem p).extractLsb' 0 32 else (mem (p - 4)).extractLsb' 32 32, mem)
  writel mem p w :=
    if p % 8 = 0 then Function.update mem p ((mem p).extractLsb' 32 32 ++ w)
    else Function.update mem (p - 4) (w ++ (mem (p - 4)).extractLsb' 0 32)

/-- Memory that answers every read with the same word. -/
def constBus (c : UL) : LongBus Unit where
  read _ _ := (c, ())
  write _ _ _ := ()
  readl _ _ := (c.extractLsb' 0 32, ())
  writel _ _ _ := ()

/-! ## Touches -/

structure Touch where
  addr : Nat
  /-- What a read there is compared with. -/
  good : Option UL
  word : Option UL

/-- `if (no_comp != HAS_COMPARISION) {}`, else a comparison. -/
def expect (noComp : Int) (good : UL) : Option UL :=
  if noComp ≠ hasComparision then none else some good

/-- What the loops keep: the memory, `ret`, and the variables that choose the patterns. -/
structure Scan (σ γ : Type) where
  mem : σ
  ret : Nat
  gen : γ

section Running

variable {σ γ : Type} (bus : Bus σ)

def Touch.store (t : Touch) (mem : σ) : σ :=
  match t.word with
  | none => mem
  | some word => bus.write mem t.addr word

/-- After a mismatch `ret` is ERR_FAIL, and with `quit` the function is left before the write. -/
def touch (quit : Bool) (t : Touch) (s : Scan σ γ) : Scan σ γ × Bool :=
  match t.good with
  | none => ({ s with mem := t.store bus s.mem }, false)
  | some good =>
      let bad := bus.read s.mem t.addr
      if bad.1 ≠ good then
        if quit then ({ s with mem := bad.2, ret := errFail }, true)
        else ({ s with mem := t.store bus bad.2, ret := errFail }, false)
      else ({ s with mem := t.store bus bad.2 }, false)

/-- The body of a loop: a touch that `gen` may choose, and the next `gen`. -/
def touchBody (quit : Bool) (t : γ → Nat → Touch) (next : γ → γ) (p : Nat) (s : Scan σ γ) :
    Scan σ γ × Bool :=
  let out := touch bus quit (t s.gen p) s
  ({ out.1 with gen := next s.gen }, out.2)

/-- `none` after a mismatch. -/
def Touch.play (t : Touch) (mem : σ) : Option σ :=
  match t.good with
  | none => some (t.store bus mem)
  | some good =>
      if (bus.read mem t.addr).1 = good then some (t.store bus (bus.read mem t.addr).2) else none

def play (script : List Touch) (mem : σ) : Option σ := script.foldlM (fun mem t => t.play bus mem) mem

end Running

/-- The touches of a loop over the words `ps`. -/
def touches {γ : Type} (t : γ → Nat → Touch) (next : γ → γ) : List Nat → γ → List Touch
  | [], _ => []
  | p :: ps, gen => t gen p :: touches t next ps (next gen)

/-! ## Playing a script -/

/-- A part of a test: the state and the word at which it ends, or no word if the test returns there. -/
abbrev Part (σ γ : Type) : Type := Scan σ γ → Option (Scan σ γ × Option Nat)

/-- One part after the other; the second one is given the word at which the first one ends. -/
def Part.andThen {σ γ : Type} (first : Part σ γ) (rest : Nat → Part σ γ) : Part σ γ := fun s =>
  match first s with
  | some (s, some p) => rest p s
  | out => out

/-- A part that never returns and ends at `q`. -/
def Part.turn {σ γ : Type} (f : Scan σ γ → Scan σ γ) (q : Nat) : Part σ γ := fun s => some (f s, some q)

/-- The part returns or ends at `q`, and does not take a failure back.  Where the script plays, it
plays it and ends with `gen'`; where it does not, the test has failed. -/
structure Plays {σ γ : Type} (bus : Bus σ) (part : Part σ γ) (gen : γ) (script : List Touch)
    (gen' : γ) (q : Nat) : Prop where
  total : ∀ s, s.ret = errSuccess ∨ s.ret = errFail → ∃ s' o, part s = some (s', o) ∧
    (s.ret = errSuccess ∧ s'.ret = errSuccess ∨ s'.ret = errFail) ∧
    (o = none ∧ s'.ret = errFail ∨ o = some q)
  clean : ∀ mem mem', play bus script mem = some mem' →
    part ⟨mem, errSuccess, gen⟩ = some (⟨mem', errSuccess, gen'⟩, some q)
  dirty : ∀ mem, play bus script mem = none →
    ∀ out, part ⟨mem, errSuccess, gen⟩ = some out → out.1.ret = errFail

section Plays

variable {σ γ : Type} {bus : Bus σ} {part : Part σ γ}
  {gen gen₁ gen₂ : γ} {script script₁ script₂ : List Touch} {q q' : Nat}

theorem play_append (mem : σ) :
    play bus (script₁ ++ script₂) mem = (play bus script₁ mem).bind (play bus script₂) :=
  List.foldlM_append

theorem play_cons (t : Touch) (mem : σ) :
    play bus (t :: script) mem = (t.play bus mem).bind (play bus script) := List.foldlM_cons

theorem Plays.andThen (h : Plays bus part gen script₁ gen₁ q) (rest : Nat → Part σ γ)
    (h' : Plays bus (rest q) gen₁ script₂ gen₂ q') :
    Plays bus (part.andThen rest) gen (script₁ ++ script₂) gen₂ q' := by
  constructor
  · intro s hs
    obtain ⟨s₁, o, hrun, hret, ⟨rfl, hfail⟩ | rfl⟩ := h.total s hs
    · exact ⟨s₁, none, by rw [Part.andThen, hrun], hret, Or.inl ⟨rfl, hfail⟩⟩
    · obtain ⟨s₂, o', hrun', hret', hends⟩ := h'.total s₁ (by tauto)
      refine ⟨s₂, o', by rw [Part.andThen, hrun]; exact hrun', ?_, hends⟩
      rcases hret' with ⟨hold, hnew⟩ | hfail
      · rcases hret with ⟨hs, -⟩ | hfail
        · exact Or.inl ⟨hs, hnew⟩
        · rw [hold] at hfail
          cases hfail
      · exact Or.inr hfail
  · intro mem mem' hplay
    rw [play_append, Option.bind_eq_some_iff] at hplay
    obtain ⟨mem₁, hfirst, hlast⟩ := hplay
    rw [Part.andThen, h.clean mem mem₁ hfirst]
    exact h'.clean mem₁ mem' hlast
  · intro mem hplay out hout
    rw [play_append] at hplay
    cases hfirst : play bus script₁ mem with
    | none =>
        obtain ⟨s₁, o, hrun, -, hends⟩ := h.total ⟨mem, errSuccess, gen⟩ (Or.inl rfl)
        have hfail := h.dirty mem hfirst _ hrun
        rcases hends with ⟨rfl, -⟩ | rfl
        · rw [Part.andThen, hrun] at hout
          exact Option.some.inj hout ▸ hfail
        · obtain ⟨s₂, o', hrun', ⟨hold, -⟩ | hkeep, -⟩ := h'.total s₁ (Or.inr hfail)
          · rw [hold] at hfail
            cases hfail
          · rw [Part.andThen, hrun] at hout
            rw [← Option.some.inj (hrun'.symm.trans hout)]
            exact hkeep
    | some mem₁ =>
        rw [hfirst] at hplay
        rw [Part.andThen, h.clean mem mem₁ hfirst] at hout
        exact h'.dirty mem₁ hplay out hout

theorem plays_nil (gen : γ) (q : Nat) : Plays bus (fun s => some (s, some q)) gen [] gen q := by
  refine ⟨fun s hs => ⟨s, some q, rfl, by tauto, Or.inr rfl⟩, ?_, ?_⟩
  · rintro mem _ ⟨⟩
    rfl
  · intro mem hplay
    cases hplay

-- A part that first sets the variables of the pattern.
theorem Plays.regen (f : γ → γ) (gen : γ) (h : Plays bus part (f gen) script gen₂ q) :
    Plays bus (fun s => part { s with gen := f s.gen }) gen script gen₂ q :=
  ⟨fun s hs => h.total { s with gen := f s.gen } hs, h.clean, h.dirty⟩

/-! ### Turns -/

section Turns

variable {f f' : Scan σ γ → Scan σ γ}

theorem Plays.turns (h : Plays bus (Part.turn f q) gen script₁ gen₁ q)
    (h' : Plays bus (Part.turn f' q) gen₁ script₂ gen₂ q) :
    Plays bus (Part.turn (fun s => f' (f s)) q) gen (script₁ ++ script₂) gen₂ q :=
  h.andThen (fun _ => Part.turn f' q) h'

theorem next_plays (next : γ → γ) (gen : γ) (q : Nat) :
    Plays bus (Part.turn (fun s => { s with gen := next s.gen }) q) gen [] (next gen) q :=
  Plays.regen next gen (plays_nil (next gen) q)

-- A turn that is left out when its condition does not hold.
theorem Plays.guard (c : γ → Prop) [DecidablePred c] (h : Plays bus (Part.turn f q) gen script gen₁ q)
    (hc : c gen) : Plays bus (Part.turn (fun s => if c s.gen then f s else s) q) gen script gen₁ q := by
  refine ⟨fun s hs => ?_, fun mem mem' hplay => ?_, fun mem hplay out hout => ?_⟩
  · by_cases hcase : c s.gen
    · simpa [Part.turn, hcase] using h.total s hs
    · exact ⟨s, some q, by simp [Part.turn, hcase], by tauto, Or.inr rfl⟩
  · rw [← h.clean mem mem' hplay]
    simp [Part.turn, hc]
  · refine h.dirty mem hplay out ?_
    rw [← hout]
    simp [Part.turn, hc]

end Turns

theorem Plays.congr {part' : Part σ γ} (h : Plays bus part gen script gen₁ q)
    (heq : ∀ s, part' s = part s) : Plays bus part' gen script gen₁ q := by
  rwa [show part' = part from funext heq]

/-! ## Sweeps -/

theorem touch_clean {t : Touch} {mem mem' : σ} (hplay : t.play bus mem = some mem') (quit : Bool)
    (ret : Nat) (gen : γ) : touch bus quit t ⟨mem, ret, gen⟩ = (⟨mem', ret, gen⟩, false) := by
  unfold Touch.play at hplay
  unfold touch
  cases hgood : t.good with
  | none =>
      rw [hgood] at hplay
      rw [← Option.some.inj hplay]
  | some good =>
      simp only [hgood, ite_eq_iff, Option.some.injEq, reduceCtorEq, and_false, or_false] at hplay
      obtain ⟨hread, rfl⟩ := hplay
      simp [hread]

theorem touch_dirty {t : Touch} {mem : σ} (hplay : t.play bus mem = none) (quit : Bool) (ret : Nat)
    (gen : γ) : (touch bus quit t ⟨mem, ret, gen⟩).1.ret = errFail := by
  unfold Touch.play at hplay
  unfold touch
  cases hgood : t.good with
  | none => simp [hgood] at hplay
  | some good =>
      simp only [hgood, ite_eq_iff, reduceCtorEq, and_false, and_true, false_or] at hplay
      simp only [ne_eq, hplay, not_false_eq_true, if_true]
      split <;> rfl

theorem touch_total (bus : Bus σ) (quit : Bool) (t : Touch) (s : Scan σ γ) :
    ((touch bus quit t s).1.ret = s.ret ∧ (touch bus quit t s).2 = false) ∨
      (touch bus quit t s).1.ret = errFail := by
  unfold touch
  split
  · exact Or.inl ⟨rfl, rfl⟩
  · dsimp only
    split_ifs
    · exact Or.inr rfl
    · exact Or.inr rfl
    · exact Or.inl ⟨rfl, rfl⟩

theorem play_single (t : Touch) (mem : σ) : play bus [t] mem = t.play bus mem := by
  rw [play_cons]
  exact Option.bind_fun_some _

-- Where reads do not change the memory, a touch only compares and stores.
theorem touch_play_iff (hpure : ∀ mem p, (bus.read mem p).2 = mem) {t : Touch} {mem mem' : σ} :
    t.play bus mem = some mem' ↔
      (∀ good, t.good = some good → (bus.read mem t.addr).1 = good) ∧ t.store bus mem = mem' := by
  unfold Touch.play
  cases t.good with
  | none => simp
  | some good =>
      by_cases hread : (bus.read mem t.addr).1 = good
      · simp [hread, hpure]
      · simp [hread]

-- A script with a part that cannot play.
theorem play_of_part {part : List Touch} (hpart : part <:+: script) (hnone : ∀ mem, play bus part mem = none)
    (mem : σ) : play bus script mem = none := by
  obtain ⟨before, after, rfl⟩ := hpart
  rw [List.append_assoc, play_append]
  cases play bus before mem with
  | none => rfl
  | some mem =>
      rw [Option.bind_some, play_append, hnone]
      rfl

theorem play_of_mem {t : Touch} (ht : t ∈ script) (hnone : ∀ mem, t.play bus mem = none) (mem : σ) :
    play bus script mem = none := by
  obtain ⟨before, after, rfl⟩ := List.append_of_mem ht
  refine @play_of_part _ _ _ [t] ⟨before, after, by simp⟩ (fun mem => ?_) mem
  rw [play_single, hnone]

theorem touch_plays (quit : Bool) (t : Touch) (gen : γ) (q : Nat) :
    Plays bus (Part.turn (fun s => (touch bus quit t s).1) q) gen [t] gen q := by
  refine ⟨fun s hs => ⟨_, _, rfl, ?_, Or.inr rfl⟩, fun mem mem' hplay => ?_, ?_⟩
  · rcases touch_total bus quit t s with ⟨hret, -⟩ | hfail
    · rw [hret]
      tauto
    · exact Or.inr hfail
  · rw [play_single] at hplay
    simp [Part.turn, touch_clean hplay]
  · rintro mem hplay out ⟨⟩
    rw [play_single] at hplay
    exact touch_dirty hplay quit errSuccess gen

theorem turn_plays (bus : Bus σ) (quit : Bool) (t : γ → Nat → Touch) (next : γ → γ) (p : Nat)
    (gen : γ) (q : Nat) :
    Plays bus (fun s => some ((touchBody bus quit t next p s).1,
      if (touchBody bus quit t next p s).2 then none else some q)) gen [t gen p] (next gen) q := by
  constructor
  · intro s hs
    refine ⟨_, _, rfl, ?_, ?_⟩
    · rcases touch_total bus quit (t s.gen p) s with ⟨hret, -⟩ | hfail
      · simp only [touchBody, hret]
        tauto
      · exact Or.inr hfail
    · cases hleft : (touchBody bus quit t next p s).2 with
      | false => exact Or.inr (by simp)
      | true =>
          rcases touch_total bus quit (t s.gen p) s with ⟨-, hstay⟩ | hfail
          · rw [touchBody, hstay] at hleft
            cases hleft
          · exact Or.inl ⟨by simp, hfail⟩
  · intro mem mem' hplay
    rw [play_single] at hplay
    simp [touchBody, touch_clean hplay]
  · rintro mem hplay out ⟨⟩
    rw [play_single] at hplay
    exact touch_dirty hplay quit errSuccess gen

theorem sweep_plays (bus : Bus σ) (quit : Bool) (t : γ → Nat → Touch) (next : γ → γ)
    (ps : List Nat) (gen : γ) (q : Nat) :
    Plays bus (fun s => some (sweepTo (touchBody bus quit t next) q ps s)) gen
      (touches t next ps gen) (next^[ps.length] gen) q := by
  induction ps generalizing gen with
  | nil => exact plays_nil gen q
  | cons p ps ih =>
      have hboth := (turn_plays bus quit t next p gen q).andThen
        (fun _ s => some (sweepTo (touchBody bus quit t next) q ps s)) (ih (next gen))
      refine hboth.congr fun s => ?_
      rw [sweepTo_cons, Part.andThen]
      cases (touchBody bus quit t next p s).2 <;> rfl

-- The same touch for each word.
theorem touches_const (t : Nat → Touch) (ps : List Nat) (gen : γ) :
    touches (fun _ => t) id ps gen = ps.map t := by
  induction ps with
  | nil => rfl
  | cons p ps ih => rw [touches, List.map_cons, id, ih]

theorem touches_append (t : γ → Nat → Touch) (next : γ → γ) (ps ps' : List Nat) (gen : γ) :
    touches t next (ps ++ ps') gen =
      touches t next ps gen ++ touches t next ps' (next^[ps.length] gen) := by
  induction ps generalizing gen with
  | nil => rfl
  | cons p ps ih => simp [touches, ih]

end Plays

/-! ## Memory without faults -/

section Faithful

variable {γ : Type} {mem : Nat → UL}

-- A script that touches each word once, and compares it with what is there.
theorem play_faithful {script : List Touch} (hnodup : (script.map Touch.addr).Nodup)
    (hgood : ∀ t ∈ script, ∀ good, t.good = some good → mem t.addr = good) :
    ∃ mem', play faithfulBus script mem = some mem' ∧
      (∀ t ∈ script, mem' t.addr = t.word.getD (mem t.addr)) ∧
      ∀ a, a ∉ script.map Touch.addr → mem' a = mem a := by
  induction script generalizing mem with
  | nil => exact ⟨mem, rfl, by simp, by simp⟩
  | cons t script ih =>
      obtain ⟨hmem, hrest⟩ := List.nodup_cons.mp hnodup
      have hplay : t.play faithfulBus mem = some (t.store faithfulBus mem) :=
        (touch_play_iff fun _ _ => rfl).mpr ⟨hgood t (by simp), rfl⟩
      have hstore : ∀ a, t.store faithfulBus mem a =
          if a = t.addr then t.word.getD (mem a) else mem a := by
        intro a
        unfold Touch.store
        cases t.word with
        | none => simp
        | some word => simp [faithfulBus, Function.update_apply]
      have hother : ∀ a, a ≠ t.addr → t.store faithfulBus mem a = mem a := by
        intro a ha
        rw [hstore, if_neg ha]
      have hdiff : ∀ u ∈ script, u.addr ≠ t.addr :=
        fun u hu heq => hmem (heq ▸ List.mem_map_of_mem hu)
      have hgood' : ∀ u ∈ script, ∀ good, u.good = some good →
          t.store faithfulBus mem u.addr = good :=
        fun u hu good hcase => (hother _ (hdiff u hu)).trans (hgood u (by simp [hu]) good hcase)
      obtain ⟨mem', hplay', hwords, hframe⟩ := ih hrest hgood'
      refine ⟨mem', by rw [play_cons, hplay]; exact hplay', ?_, ?_⟩
      · intro u hu
        rcases List.mem_cons.mp hu with rfl | hu
        · rw [hframe _ hmem, hstore, if_pos rfl]
        · rw [hwords u hu, hother _ (hdiff u hu)]
      · intro a ha
        rw [List.map_cons, List.mem_cons, not_or] at ha
        rw [hframe a ha.2, hother a ha.1]

end Faithful

/-- What the words of the block hold. -/
def Block.Holds (b : Block) (f : Nat → UL) (mem : Nat → UL) : Prop :=
  ∀ i < b.cnt, mem (b.start + 8 * i) = f i

section Passes

variable {γ : Type} {b : Block} {f f' : Nat → UL} {mem : Nat → UL} {t : γ → Nat → Touch}
  {next : γ → γ} {gen : γ}

theorem touches_range' (t : γ → Nat → Touch) (next : γ → γ) (a n : Nat) (gen : γ) :
    touches t next (List.range' a n 8) gen =
      (List.range n).map fun i => t (next^[i] gen) (a + 8 * i) := by
  induction n generalizing a gen with
  | zero => rfl
  | succ n ih =>
      rw [List.range'_succ, touches, ih, List.range_succ_eq_map, List.map_cons, List.map_map]
      congr 1
      apply List.map_congr_left
      intro i _
      simp only [Function.comp_apply, Function.iterate_succ_apply, Nat.succ_eq_add_one]
      congr 1
      omega

theorem touches_reverse_range' (t : γ → Nat → Touch) (next : γ → γ) (a n : Nat) (gen : γ) :
    touches t next (List.range' a n 8).reverse gen =
      (List.range n).reverse.map fun i => t (next^[n - 1 - i] gen) (a + 8 * i) := by
  induction n generalizing gen with
  | zero => rfl
  | succ n ih =>
      rw [List.range'_concat, List.reverse_append, List.reverse_singleton, List.singleton_append,
        touches, ih, List.range_succ, List.reverse_append, List.reverse_singleton,
        List.singleton_append, List.map_cons]
      congr 1
      · simp
      · apply List.map_congr_left
        intro i hi
        rw [List.mem_reverse, List.mem_range] at hi
        rw [show n + 1 - 1 - i = n - 1 - i + 1 by omega, Function.iterate_succ_apply]

theorem play_indexed (hholds : b.Holds f mem) {is : List Nat} (hnodup : is.Nodup)
    (hlt : ∀ i ∈ is, i < b.cnt) {t : Nat → Touch} (haddr : ∀ i, (t i).addr = b.start + 8 * i)
    (hgood : ∀ i ∈ is, ∀ good, (t i).good = some good → good = f i) :
    ∃ mem', play faithfulBus (is.map t) mem = some mem' ∧
      b.Holds (fun i => if i ∈ is then (t i).word.getD (f i) else f i) mem' := by
  have hinj : ∀ i j, (t i).addr = (t j).addr → i = j := by
    intro i j heq
    rw [haddr, haddr] at heq
    omega
  have haddrs : ((is.map t).map Touch.addr).Nodup := by
    rw [List.map_map]
    exact hnodup.map fun i j heq => hinj i j heq
  have hcompare : ∀ u ∈ is.map t, ∀ good, u.good = some good → mem u.addr = good := by
    intro u hu good hcase
    obtain ⟨i, hi, rfl⟩ := List.mem_map.mp hu
    rw [haddr, hholds i (hlt i hi)]
    exact (hgood i hi good hcase).symm
  obtain ⟨mem', hplay, hwords, hframe⟩ := play_faithful haddrs hcompare
  refine ⟨mem', hplay, fun i hi => ?_⟩
  dsimp only
  by_cases hmem : i ∈ is
  · rw [if_pos hmem, ← haddr, hwords (t i) (List.mem_map_of_mem hmem), haddr, hholds i hi]
  · rw [if_neg hmem, hframe, hholds i hi]
    intro hin
    rw [List.map_map, List.mem_map] at hin
    obtain ⟨j, hj, heq⟩ := hin
    rw [Function.comp_apply, ← haddr] at heq
    exact hmem (hinj j i heq ▸ hj)

-- A pass that compares with what there is and leaves `f'`.
theorem play_up (hholds : b.Holds f mem) (haddr : ∀ g p, (t g p).addr = p)
    (hgood : ∀ i < b.cnt, ∀ good,
      (t (next^[i] gen) (b.start + 8 * i)).good = some good → good = f i)
    (hword : ∀ i < b.cnt, (t (next^[i] gen) (b.start + 8 * i)).word.getD (f i) = f' i) :
    ∃ mem', play faithfulBus (touches t next b.addrs gen) mem = some mem' ∧ b.Holds f' mem' := by
  rw [Block.addrs, touches_range']
  obtain ⟨mem', hplay, hholds'⟩ := play_indexed hholds List.nodup_range
    (fun i hi => List.mem_range.mp hi) (t := fun i => t (next^[i] gen) (b.start + 8 * i))
    (fun i => haddr _ _) (fun i hi => hgood i (List.mem_range.mp hi))
  refine ⟨mem', hplay, fun i hi => ?_⟩
  rw [hholds' i hi]
  dsimp only
  rw [if_pos (List.mem_range.mpr hi)]
  exact hword i hi

theorem play_down (hholds : b.Holds f mem) (haddr : ∀ g p, (t g p).addr = p)
    (hgood : ∀ i < b.cnt, ∀ good,
      (t (next^[b.cnt - 1 - i] gen) (b.start + 8 * i)).good = some good → good = f i)
    (hword : ∀ i < b.cnt,
      (t (next^[b.cnt - 1 - i] gen) (b.start + 8 * i)).word.getD (f i) = f' i) :
    ∃ mem', play faithfulBus (touches t next b.addrs.reverse gen) mem = some mem' ∧
      b.Holds f' mem' := by
  rw [Block.addrs, touches_reverse_range']
  obtain ⟨mem', hplay, hholds'⟩ := play_indexed hholds (List.nodup_reverse.mpr List.nodup_range)
    (fun i hi => List.mem_range.mp (List.mem_reverse.mp hi))
    (t := fun i => t (next^[b.cnt - 1 - i] gen) (b.start + 8 * i)) (fun i => haddr _ _)
    (fun i hi => hgood i (List.mem_range.mp (List.mem_reverse.mp hi)))
  refine ⟨mem', hplay, fun i hi => ?_⟩
  rw [hholds' i hi]
  dsimp only
  rw [if_pos (List.mem_reverse.mpr (List.mem_range.mpr hi))]
  exact hword i hi

end Passes

end MoBoMemory.TestLib
