import MoBoMemory.Base.Dialogues
import MoBoMemory.TestLib.Spin

/-!
# Tests as dialogues with the memory

The tests are functions of a bus, for every type of memory.  Each of them is a dialogue: which access
it makes next depends on the answers so far and on nothing else of the memory, every one of its
accesses is to a word of its block, and it comes to an end on every memory.  Here are the judgements
for pieces of tests and their rules; the passes in sections are dialogues by rules of their own.
-/

namespace MoBoMemory.TestLib

open Base

inductive Access where
  | read (p : Nat)
  | write (p : Nat) (w : UL)
  | readl (p : Nat)
  | writel (p : Nat) (w : BitVec 32)

def Access.Answer : Access → Type
  | .read _ => UL
  | .write _ _ => Unit
  | .readl _ => BitVec 32
  | .writel _ _ => Unit

/-- The access is to a word with `A`; a 32-bit access is to one of the halves of the word. -/
def Access.On (A : Nat → Prop) : Access → Prop
  | .read p => A p
  | .write p _ => A p
  | .readl p => A (p / 8 * 8) ∧ p % 4 = 0
  | .writel p _ => A (p / 8 * 8) ∧ p % 4 = 0

abbrev Session (α : Type) : Type := Dialogue Access Access.Answer α

def LongBus.handler {σ : Type} (bus : LongBus σ) : Handler Access Access.Answer σ
  | .read p, mem => bus.read mem p
  | .write p w, mem => ((), bus.write mem p w)
  | .readl p, mem => bus.readl mem p
  | .writel p w, mem => ((), bus.writel mem p w)

/-- The memory that answers as the handler does. -/
def LongBus.ofHandler {σ : Type} (h : Handler Access Access.Answer σ) : LongBus σ where
  read mem p := h (.read p) mem
  write mem p w := (h (.write p w) mem).2
  readl mem p := h (.readl p) mem
  writel mem p w := (h (.writel p w) mem).2

theorem handler_ofHandler {σ : Type} (h : Handler Access Access.Answer σ) :
    (LongBus.ofHandler h).handler = h := by
  funext op mem
  cases op <;> rfl

instance nonemptyAnswer (op : Access) : Nonempty op.Answer := by
  cases op
  · exact ⟨(0 : UL)⟩
  · exact ⟨()⟩
  · exact ⟨(0 : BitVec 32)⟩
  · exact ⟨()⟩

/-! ## Pieces that only use the memory -/

section Spoken

variable {A : Nat → Prop} {α β : Type}

/-- The piece is a dialogue about words with `A`. -/
def Spoken (A : Nat → Prop) (f : (σ : Type) → LongBus σ → σ → α × σ) : Prop :=
  ∃ d : Session α, d.Only (Access.On A) ∧ ∀ σ (bus : LongBus σ) mem, f σ bus mem = d.run bus.handler mem

theorem spoken_ret (a : α) : Spoken A fun _ _ mem => (a, mem) := ⟨.ret a, trivial, fun _ _ _ => rfl⟩

theorem spoken_read {p : Nat} (hp : A p) : Spoken A fun _ bus mem => bus.read mem p :=
  ⟨.ask (.read p) .ret, ⟨hp, fun _ => trivial⟩, fun _ _ _ => rfl⟩

theorem spoken_write {p : Nat} (hp : A p) (w : UL) : Spoken A fun _ bus mem => ((), bus.write mem p w) :=
  ⟨.ask (.write p w) .ret, ⟨hp, fun _ => trivial⟩, fun _ _ _ => rfl⟩

theorem spoken_readl {p : Nat} (hp : A (p / 8 * 8)) (hhalf : p % 4 = 0) :
    Spoken A fun _ bus mem => bus.readl mem p :=
  ⟨.ask (.readl p) .ret, ⟨⟨hp, hhalf⟩, fun _ => trivial⟩, fun _ _ _ => rfl⟩

theorem spoken_writel {p : Nat} (hp : A (p / 8 * 8)) (hhalf : p % 4 = 0) (w : BitVec 32) :
    Spoken A fun _ bus mem => ((), bus.writel mem p w) :=
  ⟨.ask (.writel p w) .ret, ⟨⟨hp, hhalf⟩, fun _ => trivial⟩, fun _ _ _ => rfl⟩

theorem Spoken.bind {f : (σ : Type) → LongBus σ → σ → α × σ}
    {g : α → (σ : Type) → LongBus σ → σ → β × σ} (hf : Spoken A f) (hg : ∀ a, Spoken A (g a)) :
    Spoken A fun σ bus mem => g (f σ bus mem).1 σ bus (f σ bus mem).2 := by
  obtain ⟨d, hd, hrun⟩ := hf
  obtain ⟨rest, hrest⟩ := Classical.axiomOfChoice hg
  refine ⟨d.bind rest, hd.bind fun a => (hrest a).1, fun σ bus mem => ?_⟩
  rw [Dialogue.run_bind, ← hrun]
  exact (hrest _).2 σ bus _

theorem Spoken.congr {f f' : (σ : Type) → LongBus σ → σ → α × σ} (hf : Spoken A f)
    (heq : ∀ σ bus mem, f' σ bus mem = f σ bus mem) : Spoken A f' := by
  obtain ⟨d, hd, hrun⟩ := hf
  exact ⟨d, hd, fun σ bus mem => (heq σ bus mem).trans (hrun σ bus mem)⟩

theorem Spoken.map {f : (σ : Type) → LongBus σ → σ → α × σ} (hf : Spoken A f) (g : α → β) :
    Spoken A fun σ bus mem => (g (f σ bus mem).1, (f σ bus mem).2) :=
  hf.bind fun a => spoken_ret (g a)

theorem Spoken.mono {A' : Nat → Prop} (himp : ∀ p, A p → A' p)
    {f : (σ : Type) → LongBus σ → σ → α × σ} (hf : Spoken A f) : Spoken A' f := by
  obtain ⟨d, hd, hrun⟩ := hf
  refine ⟨d, hd.mono fun op hop => ?_, hrun⟩
  cases op with
  | read p => exact himp _ hop
  | write p w => exact himp _ hop
  | readl p => exact ⟨himp _ hop.1, hop.2⟩
  | writel p w => exact ⟨himp _ hop.1, hop.2⟩

theorem spoken_foldl {ι : Type} {f : ι → (σ : Type) → LongBus σ → σ → σ} {xs : List ι}
    (hf : ∀ x ∈ xs, Spoken A fun σ bus mem => ((), f x σ bus mem)) :
    Spoken A fun σ bus mem => ((), xs.foldl (fun mem x => f x σ bus mem) mem) := by
  induction xs with
  | nil => exact spoken_ret ()
  | cons x xs ih =>
      exact (hf x List.mem_cons_self).bind fun _ => ih fun y hy => hf y (List.mem_cons_of_mem x hy)

theorem Spoken.iterate {f : (σ : Type) → LongBus σ → σ → σ}
    (hf : Spoken A fun σ bus mem => ((), f σ bus mem)) (n : Nat) :
    Spoken A fun σ bus mem => ((), (f σ bus)^[n] mem) := by
  induction n with
  | zero => exact spoken_ret ()
  | succ n ih => exact hf.bind fun _ => ih

end Spoken

/-! ## Pieces of a scan -/

section Scans

variable {A : Nat → Prop} {γ β β' : Type}

/-- The same of a piece with `ret` and the variables of the patterns. -/
def SpokenScan (A : Nat → Prop) (f : (σ : Type) → LongBus σ → Scan σ γ → Scan σ γ × β) : Prop :=
  ∀ ret gen, Spoken A fun σ bus mem =>
    (((f σ bus ⟨mem, ret, gen⟩).1.ret, (f σ bus ⟨mem, ret, gen⟩).1.gen, (f σ bus ⟨mem, ret, gen⟩).2),
      (f σ bus ⟨mem, ret, gen⟩).1.mem)

theorem spokenScan_pure (r : Nat → γ → Nat) (g : Nat → γ → γ) (b : Nat → γ → β) :
    SpokenScan A fun _ _ s => (⟨s.mem, r s.ret s.gen, g s.ret s.gen⟩, b s.ret s.gen) :=
  fun ret gen => spoken_ret (r ret gen, g ret gen, b ret gen)

theorem SpokenScan.congr {f f' : (σ : Type) → LongBus σ → Scan σ γ → Scan σ γ × β}
    (hf : SpokenScan A f) (heq : ∀ σ bus s, f' σ bus s = f σ bus s) : SpokenScan A f' := by
  intro ret gen
  refine (hf ret gen).congr fun σ bus mem => ?_
  simp only [heq]

theorem SpokenScan.bind {f : (σ : Type) → LongBus σ → Scan σ γ → Scan σ γ × β}
    {g : β → (σ : Type) → LongBus σ → Scan σ γ → Scan σ γ × β'} (hf : SpokenScan A f)
    (hg : ∀ b, SpokenScan A (g b)) :
    SpokenScan A fun σ bus s => g (f σ bus s).2 σ bus (f σ bus s).1 :=
  fun ret gen => (hf ret gen).bind fun out => hg out.2.2 out.1 out.2.1

theorem spokenScan_if (c : Nat → γ → Prop) [∀ ret gen, Decidable (c ret gen)]
    {f f' : (σ : Type) → LongBus σ → Scan σ γ → Scan σ γ × β} (hf : SpokenScan A f)
    (hf' : SpokenScan A f') :
    SpokenScan A fun σ bus s => if c s.ret s.gen then f σ bus s else f' σ bus s := by
  intro ret gen
  by_cases hc : c ret gen
  · simpa only [if_pos hc] using hf ret gen
  · simpa only [if_neg hc] using hf' ret gen

-- A function of the memory in the middle of a scan.
theorem Spoken.scan {α : Type} {f : (σ : Type) → LongBus σ → σ → α × σ} (hf : Spoken A f)
    (r : α → Nat → γ → Nat) (g : α → Nat → γ → γ) (b : α → Nat → γ → β) :
    SpokenScan A fun σ bus s =>
      (⟨(f σ bus s.mem).2, r (f σ bus s.mem).1 s.ret s.gen, g (f σ bus s.mem).1 s.ret s.gen⟩,
        b (f σ bus s.mem).1 s.ret s.gen) :=
  fun ret gen => hf.map fun a => (r a ret gen, g a ret gen, b a ret gen)

theorem spoken_store {t : Touch} (ht : A t.addr) :
    Spoken A fun _ bus mem => ((), t.store bus.toBus mem) := by
  unfold Touch.store
  cases t.word with
  | none => exact spoken_ret ()
  | some word => exact spoken_write ht word

theorem touch_spoken (quit : Bool) {t : Touch} (ht : A t.addr) :
    SpokenScan A (fun _ bus (s : Scan _ γ) => touch bus.toBus quit t s) := by
  intro ret gen
  cases hgood : t.good with
  | none =>
      refine ((spoken_store ht).map fun _ => (ret, gen, false)).congr fun σ bus mem => ?_
      simp only [touch, hgood]
  | some good =>
      have hrest : ∀ bad : UL, Spoken A fun σ bus mem =>
          if bad ≠ good then
            if quit then ((errFail, gen, true), mem)
            else ((errFail, gen, false), t.store bus.toBus mem)
          else ((ret, gen, false), t.store bus.toBus mem) := by
        intro bad
        by_cases hbad : bad ≠ good
        · simp only [if_pos hbad]
          cases quit with
          | true => exact spoken_ret (errFail, gen, true)
          | false => exact (spoken_store ht).map fun _ => (errFail, gen, false)
        · simp only [if_neg hbad]
          exact (spoken_store ht).map fun _ => (ret, gen, false)
      refine ((spoken_read ht).bind hrest).congr fun σ bus mem => ?_
      simp only [touch, hgood]
      split_ifs <;> rfl

theorem touchBody_spoken (quit : Bool) {t : γ → Nat → Touch} (next : γ → γ) {p : Nat}
    (ht : ∀ gen, A (t gen p).addr) :
    SpokenScan A fun _ bus => touchBody bus.toBus quit t next p := by
  intro ret gen
  exact (touch_spoken quit (ht gen) ret gen).map fun out => (out.1, next gen, out.2.2)

theorem sweep_spoken {f : Nat → (σ : Type) → LongBus σ → Scan σ γ → Scan σ γ × Bool}
    {ps : List Nat} (hbody : ∀ p ∈ ps, SpokenScan A (f p)) :
    SpokenScan A fun σ bus => sweep (fun p => f p σ bus) ps := by
  induction ps with
  | nil => exact spokenScan_pure (fun ret _ => ret) (fun _ gen => gen) fun _ _ => false
  | cons p ps ih =>
      have hrest : ∀ left : Bool, SpokenScan A fun σ bus s =>
          if left then (s, true) else sweep (fun p => f p σ bus) ps s := by
        intro left
        cases left with
        | true => exact spokenScan_pure (fun ret _ => ret) (fun _ gen => gen) fun _ _ => true
        | false => exact ih fun q hq => hbody q (List.mem_cons_of_mem p hq)
      exact ((hbody p List.mem_cons_self).bind hrest).congr fun σ bus s => rfl

end Scans

/-! ## Parts -/

section Parts

variable {A : Nat → Prop} {γ : Type}

/-- The part is a dialogue about words with `A` that returns or ends at `q`. -/
def SpokenPart (A : Nat → Prop) (part : (σ : Type) → LongBus σ → Part σ γ) (q : Nat) : Prop :=
  ∃ f : (σ : Type) → LongBus σ → Scan σ γ → Scan σ γ × Bool, SpokenScan A f ∧
    ∀ σ bus s, part σ bus s = some ((f σ bus s).1, if (f σ bus s).2 then none else some q)

variable {part part' : (σ : Type) → LongBus σ → Part σ γ} {q q' : Nat}

theorem SpokenPart.congr (h : SpokenPart A part q) (heq : ∀ σ bus s, part' σ bus s = part σ bus s) :
    SpokenPart A part' q := by
  obtain ⟨f, hf, hrun⟩ := h
  exact ⟨f, hf, fun σ bus s => (heq σ bus s).trans (hrun σ bus s)⟩

theorem stop_spoken (q : Nat) : SpokenPart A (fun σ _ => (Part.stop q : Part σ γ)) q :=
  ⟨_, spokenScan_pure (fun ret _ => ret) (fun _ gen => gen) fun _ _ => false, fun _ _ _ => rfl⟩

theorem bail_spoken (q : Nat) : SpokenPart A (fun σ _ => (Part.bail q : Part σ γ)) q := by
  refine ⟨_, spokenScan_pure (fun ret _ => ret) (fun _ gen => gen)
    fun ret _ => decide (ret ≠ errSuccess), fun σ bus s => ?_⟩
  show (if s.ret ≠ errSuccess then some (s, none) else some (s, some q)) = _
  by_cases hret : s.ret ≠ errSuccess <;> simp [hret]

theorem turn_spoken {f : (σ : Type) → LongBus σ → Scan σ γ → Scan σ γ}
    (hf : SpokenScan A fun σ bus s => (f σ bus s, ())) (q : Nat) :
    SpokenPart A (fun σ bus => Part.turn (f σ bus) q) q :=
  ⟨_, hf.bind fun _ => spokenScan_pure (fun ret _ => ret) (fun _ gen => gen) fun _ _ => false,
    fun _ _ _ => rfl⟩

theorem sweepTo_spoken {f : Nat → (σ : Type) → LongBus σ → Scan σ γ → Scan σ γ × Bool}
    {ps : List Nat} (hbody : ∀ p ∈ ps, SpokenScan A (f p)) (q : Nat) :
    SpokenPart A (fun σ bus s => some (sweepTo (fun p => f p σ bus) q ps s)) q :=
  ⟨_, sweep_spoken hbody, fun _ _ _ => rfl⟩

theorem SpokenPart.andThen {rest : Nat → (σ : Type) → LongBus σ → Part σ γ}
    (h : SpokenPart A part q) (h' : SpokenPart A (rest q) q') :
    SpokenPart A (fun σ bus => (part σ bus).andThen fun p => rest p σ bus) q' := by
  obtain ⟨f, hf, hrun⟩ := h
  obtain ⟨f', hf', hrun'⟩ := h'
  have hrest : ∀ left : Bool, SpokenScan A fun σ bus s => if left then (s, true) else f' σ bus s := by
    intro left
    cases left with
    | true => exact spokenScan_pure (fun ret _ => ret) (fun _ gen => gen) fun _ _ => true
    | false => exact hf'
  refine ⟨_, hf.bind hrest, fun σ bus s => ?_⟩
  show (part σ bus).andThen (fun p => rest p σ bus) s = _
  rw [Part.andThen, hrun]
  cases (f σ bus s).2 with
  | true => rfl
  | false => exact hrun' σ bus _

-- A part that first sets the variables of the pattern.
theorem SpokenPart.regen (g : γ → γ) (h : SpokenPart A part q) :
    SpokenPart A (fun σ bus s => part σ bus { s with gen := g s.gen }) q := by
  obtain ⟨f, hf, hrun⟩ := h
  exact ⟨_, (spokenScan_pure (fun ret _ => ret) (fun _ gen => g gen) fun _ _ => ()).bind fun _ => hf,
    fun σ bus s => hrun σ bus _⟩

end Parts

/-! ## Passes in sections -/

section Sections

variable {A : Nat → Prop} {γ : Type} (chunk : Nat → Nat → (σ : Type) → LongBus σ → Part σ γ)
  {step : Nat → Nat} {spin start stop : Nat}

-- If each section is a dialogue about its words, the pass is one about those of the whole block.
theorem spinUp_spoken (limit : Nat) (hspin : 0 < spin) (hsize : 8 * spin ≤ 2 ^ 64)
    (hstop : stop < 2 ^ 64) (hstep : ∀ r, r < stop → step r ≤ r + 8 * spin)
    (hchunk : ∀ p pe ps q, VisitsTo (fun r => decide (r < pe)) step p ps q → ps.length ≤ limit →
      (∀ x ∈ ps, A x) → SpokenPart A (chunk p pe) q)
    {fuel pe p : Nat} {ps : List Nat} (hpe : pe ≤ stop) (hfuel : stop < pe + 8 * fuel)
    (hp : p < pe + 8 * spin) (hvisits : Visits (fun r => decide (r < stop)) step p ps)
    (hlimit : ps.length ≤ limit) (hwords : ∀ x ∈ ps, A x) :
    ∃ q, SpokenPart A (fun σ bus => spinUp spin stop (fun p pe => chunk p pe σ bus) fuel pe p) q := by
  induction fuel generalizing pe p ps with
  | zero => omega
  | succ fuel ih =>
      simp only [spinUp_succ hspin hsize hstop hpe]
      by_cases hlast : stop ≤ pe + 8 * spin
      · simp only [if_pos hlast, Nat.min_eq_right hlast]
        by_cases hend : p = stop
        · simp only [if_pos hend]
          exact ⟨p, stop_spoken p⟩
        · obtain ⟨q, hfirst⟩ := hvisits.visitsTo
          simp only [if_neg hend]
          exact ⟨q, (hchunk p stop ps q hfirst hlimit hwords).andThen (stop_spoken q)⟩
      · have hne : p ≠ pe + 8 * spin := by omega
        simp only [if_neg hlast, Nat.min_eq_left (Nat.le_of_not_le hlast), if_neg hne]
        have himp : ∀ r, decide (r < pe + 8 * spin) = true → decide (r < stop) = true := by
          intro r hr
          rw [decide_eq_true_eq] at hr ⊢
          omega
        obtain ⟨ps₁, ps₂, q, rfl, hfirst, hrest⟩ := hvisits.split himp
        rw [List.length_append] at hlimit
        obtain ⟨hq, hwhere⟩ := hfirst.stops
        rw [decide_eq_false_iff_not] at hq
        have hq' : q < pe + 8 * spin + 8 * spin := by
          rcases hwhere with rfl | ⟨r, hr, rfl⟩
          · omega
          · rw [decide_eq_true_eq] at hr
            have hle := hstep r (by omega)
            omega
        obtain ⟨q', hspoken⟩ := ih (by omega) (by omega) hq' hrest (by omega)
          fun x hx => hwords x (List.mem_append_right ps₁ hx)
        refine ⟨q', (hchunk p _ ps₁ q hfirst (by omega) ?_).andThen hspoken⟩
        exact fun x hx => hwords x (List.mem_append_left ps₂ hx)

theorem spinDown_spoken (limit : Nat) (hspin : 1 < spin) (hsize : 8 * spin ≤ 2 ^ 64)
    (hchunk : ∀ p pe ps q, DoVisits (fun r => decide (pe < r)) ptrPred p ps q → ps.length ≤ limit →
      (∀ x ∈ ps, A x) → SpokenPart A (chunk p pe) q)
    {fuel m n : Nat} (hfuel : m < fuel) (hpe : start + 8 * m < 2 ^ 64) (hn : n = m + 1 ∨ n = m)
    (hpos : 0 < n) (hlimit : n ≤ limit) (hwords : ∀ x ∈ List.range' start n 8, A x) :
    ∃ q, SpokenPart A (fun σ bus => spinDown spin start (fun p pe => chunk p pe σ bus) fuel
      (start + 8 * m) (start + 8 * (n - 1))) q := by
  induction fuel generalizing m n with
  | zero => omega
  | succ fuel ih =>
      obtain ⟨hdone, hbehind⟩ := behind_eq start hsize (by omega) hpe
      simp only [spinDown]
      by_cases hlast : m ≤ spin
      · simp only [decide_eq_true (hdone.mpr hlast), if_true]
        by_cases hone : start + 8 * (n - 1) = start
        · simp only [if_pos hone]
          exact ⟨_, stop_spoken _⟩
        · simp only [if_neg hone]
          obtain ⟨k, rfl⟩ : ∃ k, n = k + 1 := ⟨n - 1, by omega⟩
          have hvisits := @doVisits_ptrPred start k (by omega)
          exact ⟨_, (hchunk _ _ _ _ hvisits (by simpa using hlimit)
            fun x hx => hwords x (List.mem_reverse.mp hx)).andThen (stop_spoken _)⟩
      · have hlow : ¬ start + 8 * (m - spin) ≤ start := by omega
        have hne : start + 8 * (n - 1) ≠ start + 8 * (m - spin) := by omega
        simp only [hbehind hlast, decide_eq_false hlow, Bool.false_eq_true, if_false, if_neg hne]
        obtain ⟨k, rfl⟩ : ∃ k, n = m - spin + (k + 1) := ⟨n - (m - spin) - 1, by omega⟩
        have hvisits := @doVisits_ptrPred (start + 8 * (m - spin)) k (by omega)
        have hp : start + 8 * (m - spin + (k + 1) - 1) = start + 8 * (m - spin) + 8 * k := by omega
        have hnext : ptrPred (start + 8 * (m - spin)) = start + 8 * (m - spin - 1) := by
          unfold ptrPred
          omega
        rw [hnext] at hvisits
        have hrange : ∀ x ∈ List.range' start (m - spin) 8, A x := by
          intro x hx
          obtain ⟨i, hi, rfl⟩ := List.mem_range'.mp hx
          exact hwords _ (List.mem_range'.mpr ⟨i, by omega, rfl⟩)
        obtain ⟨q, hrest⟩ := ih (m := m - spin) (n := m - spin) (by omega) (by omega) (Or.inr rfl)
          (by omega) (by omega) hrange
        rw [hp]
        refine ⟨q, (hchunk _ _ _ _ hvisits (by simp; omega) fun x hx => ?_).andThen hrest⟩
        obtain ⟨i, hi, rfl⟩ := List.mem_range'.mp (List.mem_reverse.mp hx)
        exact hwords _ (List.mem_range'.mpr ⟨m - spin + i, by omega, by omega⟩)

-- Sections that bring `p` on as the invariant says.
theorem spinUp_spoken_run {I : Nat → Nat → Prop} (hspin : 0 < spin) (hsize : 8 * spin ≤ 2 ^ 64)
    (hstop : stop < 2 ^ 64)
    (hchunk : ∀ pe p, pe < stop → I pe p → p ≠ min (pe + 8 * spin) stop ∧
      ∃ q, SpokenPart A (chunk p (min (pe + 8 * spin) stop)) q ∧ I (min (pe + 8 * spin) stop) q)
    {fuel pe p : Nat} (hpe : pe < stop) (hfuel : stop ≤ pe + 8 * fuel) (hI : I pe p) :
    ∃ q, SpokenPart A (fun σ bus => spinUp spin stop (fun p pe => chunk p pe σ bus) fuel pe p) q := by
  induction fuel generalizing pe p with
  | zero => omega
  | succ fuel ih =>
      obtain ⟨hne, q, hspoken, hI'⟩ := hchunk pe p hpe hI
      simp only [spinUp_succ hspin hsize hstop (Nat.le_of_lt hpe), if_neg hne]
      by_cases hlast : stop ≤ pe + 8 * spin
      · simp only [if_pos hlast]
        exact ⟨q, hspoken.andThen (stop_spoken q)⟩
      · simp only [if_neg hlast]
        obtain ⟨q', hrest⟩ := ih (by omega) (by omega) hI'
        exact ⟨q', hspoken.andThen hrest⟩

end Sections

section Passes

variable {A : Nat → Prop} {γ : Type} (quit : Bool) {t : γ → Nat → Touch} (next : γ → γ)
  {after : Nat → (σ : Type) → Part σ γ} {fuel : Nat}

theorem passUp_spoken {start cnt : Nat} (hwrap : start + 8 * cnt < 2 ^ 64)
    (haddr : ∀ gen p, (t gen p).addr = p) (hafter : ∀ q, SpokenPart A (fun σ _ => after q σ) q)
    (step : Nat) {p : Nat} (hstep : step ≤ spinsz) (hp : p < start + 8 * spinsz) {ps : List Nat}
    (hvisits : Visits (fun r => decide (r < ptrAdd start cnt)) (fun r => ptrAdd r step) p ps)
    (hlength : ps.length < fuel) (hfuel : cnt < fuel) (hwords : ∀ x ∈ ps, A x) :
    ∃ q, SpokenPart A (fun σ bus => passUp bus.toBus quit t next (fun q => after q σ) step fuel start
      (ptrAdd start cnt) p) q := by
  have hend : ptrAdd start cnt = start + 8 * cnt := Nat.mod_eq_of_lt hwrap
  refine spinUp_spoken (fun p pe σ bus => Part.andThen
      (walk (fun r => decide (r < pe)) (fun r => ptrAdd r step) (touchBody bus.toBus quit t next) fuel p)
      fun q => after q σ)
    (fuel - 1) (by decide) (by decide) (by omega) ?_ ?_ (by omega) (by omega) hp hvisits (by omega) hwords
  · intro r _
    unfold ptrAdd
    have hle := Nat.mod_le (r + 8 * step) (2 ^ 64)
    omega
  · intro p pe ps q hvisits hlimit hps
    have hsweep : SpokenPart A (fun σ bus s =>
        some (sweepTo (touchBody bus.toBus quit t next) q ps s)) q :=
      sweepTo_spoken (fun p hp => touchBody_spoken quit next fun gen => by
        rw [haddr]
        exact hps p hp) q
    exact (hsweep.congr fun σ bus s => walk_eq_sweepTo hvisits (by omega) s).andThen (hafter q)

theorem passUp_block_spoken (b : Block) (haddr : ∀ gen p, (t gen p).addr = p)
    (hafter : ∀ q, SpokenPart (· ∈ b.addrs) (fun σ _ => after q σ) q) (hfuel : b.cnt < fuel) :
    ∃ q, SpokenPart (· ∈ b.addrs) (fun σ bus => passUp bus.toBus quit t next (fun q => after q σ) 1 fuel
      b.start (ptrAdd b.start b.cnt) b.start) q := by
  have hspin : 0 < spinsz := by decide
  exact passUp_spoken quit next b.noWrap haddr hafter 1 (by decide) (by omega) b.visits_up
    (by simpa using hfuel) hfuel fun _ hx => hx

theorem passDown_block_spoken (b : Block) (haddr : ∀ gen p, (t gen p).addr = p)
    (hafter : ∀ q, SpokenPart (· ∈ b.addrs) (fun σ _ => after q σ) q) (hfuel : b.cnt < fuel) :
    ∃ q, SpokenPart (· ∈ b.addrs) (fun σ bus => passDown bus.toBus quit t next (fun q => after q σ) fuel
      b.start (ptrPred (ptrAdd b.start b.cnt))) q := by
  have hwrap := b.noWrap
  have hpos := b.cnt_pos
  have hlast : ptrPred (ptrAdd b.start b.cnt) = b.start + 8 * (b.cnt - 1) := by
    rw [b.end_eq]
    unfold ptrPred
    omega
  rw [hlast]
  refine spinDown_spoken (fun p pe σ bus => Part.andThen
      (doWalk (fun r => decide (pe < r)) ptrPred (touchBody bus.toBus quit t next) fuel p)
      fun q => after q σ)
    fuel (by decide) (by decide) ?_ (by omega) (by omega) (Or.inl (by omega)) hpos (by omega)
    fun _ hx => hx
  intro p pe ps q hvisits hlimit hps
  have hsweep : SpokenPart (· ∈ b.addrs) (fun σ bus s =>
      some (sweepTo (touchBody bus.toBus quit t next) q ps s)) q :=
    sweepTo_spoken (fun p hp => touchBody_spoken quit next fun gen => by
      rw [haddr]
      exact hps p hp) q
  exact (hsweep.congr fun σ bus s => doWalk_eq_sweepTo hvisits hlimit s).andThen (hafter q)

end Passes

/-! ## Tests -/

section Tests

variable {A : Nat → Prop} {bound : Nat}

/-- With enough fuel the test is a dialogue about words with `A`. -/
def SpokenTest (A : Nat → Prop) (bound : Nat) (test : MemTest) : Prop :=
  ∀ fuel, bound < fuel → ∃ f : (σ : Type) → LongBus σ → σ → Nat × σ, Spoken A f ∧
    ∀ σ bus mem, test σ fuel bus mem = some (f σ bus mem)

theorem SpokenTest.congr {test test' : MemTest} (h : SpokenTest A bound test)
    (heq : ∀ σ fuel bus mem, bound < fuel → test' σ fuel bus mem = test σ fuel bus mem) :
    SpokenTest A bound test' := by
  intro fuel hfuel
  obtain ⟨f, hf, hrun⟩ := h fuel hfuel
  exact ⟨f, hf, fun σ bus mem => (heq σ fuel bus mem hfuel).trans (hrun σ bus mem)⟩

theorem done_spoken : SpokenTest A bound fun _ _ _ mem => some (errSuccess, mem) :=
  fun _ _ => ⟨_, spoken_ret errSuccess, fun _ _ _ => rfl⟩

theorem spokenTest_of_part {γ : Type} {part : (σ : Type) → Nat → LongBus σ → Part σ γ}
    (hpart : ∀ fuel, bound < fuel → ∃ q, SpokenPart A (fun σ => part σ fuel) q) (gen : γ) :
    SpokenTest A bound fun σ fuel bus mem => (part σ fuel bus).test gen mem := by
  intro fuel hfuel
  obtain ⟨q, f, hf, hrun⟩ := hpart fuel hfuel
  refine ⟨_, (hf errSuccess gen).map fun out => out.1, fun σ bus mem => ?_⟩
  exact congrArg (Option.map fun out => (out.1.ret, out.1.mem)) (hrun σ bus ⟨mem, errSuccess, gen⟩)

theorem SpokenTest.thenTest {first rest : MemTest} (err : Nat) (h : SpokenTest A bound first)
    (h' : SpokenTest A bound rest) :
    SpokenTest A bound fun σ fuel bus mem =>
      TestLib.thenTest err (first σ fuel bus mem) (rest σ fuel bus) := by
  intro fuel hfuel
  obtain ⟨f, hf, hrun⟩ := h fuel hfuel
  obtain ⟨f', hf', hrun'⟩ := h' fuel hfuel
  have hrest : ∀ code, Spoken A fun σ bus mem =>
      if code ≠ errSuccess then (err, mem) else f' σ bus mem := by
    intro code
    by_cases hcode : code ≠ errSuccess
    · simp only [if_pos hcode]
      exact spoken_ret err
    · simp only [if_neg hcode]
      exact hf'
  refine ⟨_, hf.bind hrest, fun σ bus mem => ?_⟩
  show (first σ fuel bus mem).bind _ = _
  rw [hrun, Option.bind_some, hrun']
  split_ifs <;> rfl

/-- With this fuel the test is the dialogue. -/
def Speaks (fuel : Nat) (test : MemTest) (d : Session Nat) : Prop :=
  ∀ σ (bus : LongBus σ) mem, test σ fuel bus mem = some (d.run bus.handler mem)

theorem SpokenTest.exists_session {test : MemTest} (h : SpokenTest A bound test) {fuel : Nat}
    (hfuel : bound < fuel) : ∃ d, Dialogue.Only (Access.On A) d ∧ Speaks fuel test d := by
  obtain ⟨f, ⟨d, hd, hf⟩, hrun⟩ := h fuel hfuel
  exact ⟨d, hd, fun σ bus mem => (hrun σ bus mem).trans (congrArg some (hf σ bus mem))⟩

theorem Speaks.run_eq {test : MemTest} {fuel : Nat} {d : Session Nat} (h : Speaks fuel test d) {σ : Type}
    (handler : Handler Access Access.Answer σ) (mem : σ) :
    test σ fuel (LongBus.ofHandler handler) mem = some (d.run handler mem) := by
  rw [h, handler_ofHandler]

-- There is only one such dialogue.
theorem SpokenTest.only {test : MemTest} (h : SpokenTest A bound test) {fuel : Nat} (hfuel : bound < fuel)
    {d : Session Nat} (hd : Speaks fuel test d) : d.Only (Access.On A) := by
  obtain ⟨d', honly, hd'⟩ := h.exists_session hfuel
  have hsame : d = d' := Dialogue.eq_of_run nonemptyAnswer fun σ handler mem =>
    Option.some.inj ((hd.run_eq handler mem).symm.trans (hd'.run_eq handler mem))
  rwa [hsame]

end Tests

end MoBoMemory.TestLib
