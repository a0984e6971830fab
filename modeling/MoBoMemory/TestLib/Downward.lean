import MoBoMemory.TestLib.MovInvLong

/-!
# The words of a pass downwards

The inner loop of a pass downwards takes in the word at `pe`, so that a section ends one word below it.  Where
the next section would hold one word only, `p == pe` already holds when it begins, and the pass leaves this word
out.  A bus that keeps a log of the writes shows which words the loop body has been executed for.
-/

namespace MoBoMemory.TestLib

open Base

/-- The bus with a log of the words that are written, in their order. -/
def logging {σ : Type} (bus : Bus σ) : Bus (σ × List Nat) where
  read mem p := ((bus.read mem.1 p).1, (bus.read mem.1 p).2, mem.2)
  write mem p w := (bus.write mem.1 p w, mem.2 ++ [p])

/-! ## What a part logs -/

section Logs

variable {σ γ : Type} (bus : Bus σ)

/-- From every state the part comes to an end, and logs these words in their order; or, if it may leave, it returns
with an error after some of them. -/
def Logs (leaves : Prop) (part : Part (σ × List Nat) γ) (ws : List Nat) (q : Nat) : Prop :=
  ∀ s, ∃ s' o vs, part s = some (s', o) ∧ s'.mem.2 = s.mem.2 ++ vs ∧ vs <+: ws ∧
    (o = some q ∧ vs = ws ∨ leaves ∧ o = none ∧ s'.ret ≠ errSuccess)

variable {leaves : Prop} {first : Part (σ × List Nat) γ} {rest : Nat → Part (σ × List Nat) γ}
  {ws ws' : List Nat} {q q' : Nat}

theorem stop_logs (q : Nat) : Logs leaves (Part.stop q : Part (σ × List Nat) γ) [] q :=
  fun s => ⟨s, some q, [], rfl, by simp, List.prefix_rfl, Or.inl ⟨rfl, rfl⟩⟩

theorem bail_logs (q : Nat) : Logs True (Part.bail q : Part (σ × List Nat) γ) [] q := by
  intro s
  by_cases hret : s.ret = errSuccess
  · exact ⟨s, some q, [], if_neg (not_not.mpr hret), by simp, List.prefix_rfl, Or.inl ⟨rfl, rfl⟩⟩
  · exact ⟨s, none, [], if_pos hret, by simp, List.prefix_rfl, Or.inr ⟨trivial, rfl, hret⟩⟩

theorem Logs.andThen (h : Logs leaves first ws q) (h' : Logs leaves (rest q) ws' q') :
    Logs leaves (first.andThen rest) (ws ++ ws') q' := by
  intro s
  obtain ⟨s₁, o, vs, hrun, hlog, hprefix, ⟨rfl, rfl⟩ | ⟨hleaves, rfl, hret⟩⟩ := h s
  · obtain ⟨s₂, o, vs', hrun', hlog', hprefix', hend⟩ := h' s₁
    refine ⟨s₂, o, vs ++ vs', by rw [Part.andThen, hrun]; exact hrun', ?_, ?_, ?_⟩
    · rw [hlog', hlog, List.append_assoc]
    · exact (List.prefix_append_right_inj vs).mpr hprefix'
    · rcases hend with ⟨ho, rfl⟩ | hleft
      · exact Or.inl ⟨ho, rfl⟩
      · exact Or.inr hleft
  · exact ⟨s₁, none, vs, by rw [Part.andThen, hrun], hlog, hprefix.trans (List.prefix_append ws ws'),
      Or.inr ⟨hleaves, rfl, hret⟩⟩

-- A part that does not leave logs the same words in every account of it.
theorem Logs.words_eq (h : Logs False first ws q) (h' : Logs False first ws' q')
    (s : Scan (σ × List Nat) γ) : ws = ws' := by
  obtain ⟨s₁, o, vs, hrun, hlog, -, ⟨-, rfl⟩ | ⟨hnever, -⟩⟩ := h s
  · obtain ⟨s₂, o', vs', hrun', hlog', -, ⟨-, rfl⟩ | ⟨hnever, -⟩⟩ := h' s
    · obtain ⟨rfl, -⟩ := Prod.mk.inj (Option.some.inj (hrun.symm.trans hrun'))
      exact List.append_cancel_left (hlog.symm.trans hlog')
    · exact hnever.elim
  · exact hnever.elim

/-- A touch that writes its word. -/
def Writes (t : γ → Nat → Touch) : Prop := ∀ gen p, ∃ good word, t gen p = ⟨p, good, some word⟩

-- Its loop body logs the word, and does not leave the loop.
theorem touchBody_logs {t : γ → Nat → Touch} (next : γ → γ) (ht : Writes t) (p : Nat)
    (s : Scan (σ × List Nat) γ) :
    (touchBody (logging bus) false t next p s).2 = false ∧
      (touchBody (logging bus) false t next p s).1.mem.2 = s.mem.2 ++ [p] := by
  obtain ⟨good, word, htouch⟩ := ht s.gen p
  rw [touchBody, touch, htouch]
  cases good with
  | none => exact ⟨rfl, rfl⟩
  | some good =>
      simp only [Bool.false_eq_true, if_false]
      split_ifs
      · exact ⟨rfl, rfl⟩
      · exact ⟨rfl, rfl⟩

theorem sweep_logs {t : γ → Nat → Touch} (next : γ → γ) (ht : Writes t) (ps : List Nat)
    (s : Scan (σ × List Nat) γ) :
    (sweep (touchBody (logging bus) false t next) ps s).2 = false ∧
      (sweep (touchBody (logging bus) false t next) ps s).1.mem.2 = s.mem.2 ++ ps := by
  induction ps generalizing s with
  | nil => exact ⟨rfl, (List.append_nil _).symm⟩
  | cons p ps ih =>
      obtain ⟨hstays, hlog⟩ := touchBody_logs bus next ht p s
      obtain ⟨hrest, hlogs⟩ := ih (touchBody (logging bus) false t next p s).1
      rw [sweep, if_neg (by simp [hstays])]
      exact ⟨hrest, by rw [hlogs, hlog, List.append_assoc, List.singleton_append]⟩

theorem doWalk_logs {t : γ → Nat → Touch} (next : γ → γ) (ht : Writes t) {cont : Nat → Bool} {step : Nat → Nat}
    {p : Nat} {ps : List Nat} (hvisits : DoVisits cont step p ps q) {fuel : Nat} (hfuel : ps.length ≤ fuel) :
    Logs leaves (doWalk cont step (touchBody (logging bus) false t next) fuel p) ps q := by
  intro s
  obtain ⟨hstays, hlog⟩ := sweep_logs bus next ht ps s
  refine ⟨_, some q, ps, ?_, hlog, List.prefix_rfl, Or.inl ⟨rfl, rfl⟩⟩
  rw [doWalk_eq_sweepTo hvisits hfuel, sweepTo, if_neg (by simp [hstays])]

end Logs

/-! ## The two passes -/

section Passes

variable {σ γ : Type} (bus : Bus σ) {leaves : Prop} {start cnt fuel : Nat}

theorem passDown_logs {t : γ → Nat → Touch} (next : γ → γ) (ht : Writes t)
    {after : Nat → Part (σ × List Nat) γ} (hafter : ∀ q, Logs leaves (after q) [] q) (hcnt : 0 < cnt)
    (hwrap : start + 8 * cnt ≤ 2 ^ 64) (hfuel : cnt ≤ fuel) :
    ∃ q, Logs leaves (passDown (logging bus) false t next after fuel start (ptrPred (ptrAdd start cnt)))
      (List.range' (start + 8 * leftOut spinsz (cnt - 1) cnt) (cnt - leftOut spinsz (cnt - 1) cnt) 8).reverse q := by
  have hlast : ptrPred (ptrAdd start cnt) = start + 8 * (cnt - 1) := by
    unfold ptrPred ptrAdd
    omega
  have hrule : SpinRule (fun part (_ : Unit) ws q => Logs leaves part ws q) (fun d _ => d)
      (fun p pe => Part.andThen (doWalk (fun r => decide (pe < r)) ptrPred
        (touchBody (logging bus) false t next) fuel p) after) fuel := by
    refine ⟨fun _ q => stop_logs q, fun h h' => h.andThen h', ?_⟩
    intro p pe ps q _ hvisits hlimit
    have hlogs := (doWalk_logs bus next ht hvisits hlimit).andThen (hafter q)
    rwa [List.append_nil] at hlogs
  rw [hlast]
  exact hrule.spinDown (by decide) (by decide) () (by omega) (by omega) (Or.inl (by omega)) hcnt hfuel

/-- The pass downwards of `movinv1`. -/
def movinv1Down (fuel startP cnt : Nat) (noComp : Int) (p1 p2 : UL) : Part σ Unit :=
  passDown bus false (fun _ p => ⟨p, expect noComp p2, some p1⟩) id Part.stop fuel startP
    (ptrPred (ptrAdd startP cnt))

theorem movinv1Rounds_succ (noComp : Int) (p1 p2 : UL) (n p : Nat) :
    movinv1Rounds bus fuel start cnt noComp p1 p2 (n + 1) p =
      (passUp bus false (fun _ p => ⟨p, expect noComp p1, some p2⟩) id Part.stop 1 fuel start
        (ptrAdd start cnt) start).andThen fun _ =>
      (movinv1Down bus fuel start cnt noComp p1 p2).andThen fun p =>
      movinv1Rounds bus fuel start cnt noComp p1 p2 n p := rfl

/-- The pass downwards of `movinv32`, behind the step back of the pattern. -/
def movinv32Down (fuel startP cnt : Nat) (noComp : Int) (lb hb sval : UL) : Part σ Pattern := fun s =>
  passDown bus false (fun g p => ⟨p, expect noComp (~~~g.pat), some g.pat⟩) (backwardPattern hb sval) Part.bail
    fuel startP (ptrPred (ptrAdd startP cnt)) { s with gen := backUpPattern lb sval s.gen }

theorem movinv32Rounds_succ (noComp : Int) (p1 lb hb sval : UL) (off : Int) (n p : Nat) :
    movinv32Rounds bus fuel start cnt noComp p1 lb hb sval off (n + 1) p =
      Part.andThen (fun s => passUp bus false (fun g p => ⟨p, expect noComp g.pat, some (~~~g.pat)⟩)
        (forwardPattern lb sval) Part.bail 1 fuel start (ptrAdd start cnt) start { s with gen := ⟨off, p1⟩ }) fun _ =>
      (movinv32Down bus fuel start cnt noComp lb hb sval).andThen fun p =>
      movinv32Rounds bus fuel start cnt noComp p1 lb hb sval off n p := rfl

/-- On every memory and from every state both passes come to an end, and execute their body once for each word, from
the highest one down to the lowest; `movinv32` may return at the end of a section if a comparison has failed. -/
structure VisitsDown (start cnt : Nat) : Prop where
  movinv1 : ∀ {σ : Type} (bus : Bus σ) (noComp : Int) (p1 p2 : UL) (fuel : Nat), cnt ≤ fuel →
    ∃ q, Logs False (movinv1Down (logging bus) fuel start cnt noComp p1 p2) (List.range' start cnt 8).reverse q
  movinv32 : ∀ {σ : Type} (bus : Bus σ) (noComp : Int) (lb hb sval : UL) (fuel : Nat), cnt ≤ fuel →
    ∃ q, Logs True (movinv32Down (logging bus) fuel start cnt noComp lb hb sval) (List.range' start cnt 8).reverse q

theorem leftOut_eq_zero_iff (hcnt : 0 < cnt) :
    leftOut spinsz (cnt - 1) cnt = 0 ↔ cnt ≠ 1 ∧ ∀ k, cnt ≠ (k + 1) * spinsz + 2 := by
  have hsections : (spinsz < cnt - 1 ∧ (cnt - 1) % spinsz = 1) ↔ ∃ k, cnt = (k + 1) * spinsz + 2 := by
    constructor
    · rintro ⟨hlt, hrest⟩
      have hdiv := Nat.div_add_mod (cnt - 1) spinsz
      have hpos : 0 < (cnt - 1) / spinsz := Nat.div_pos hlt.le (by decide)
      refine ⟨(cnt - 1) / spinsz - 1, ?_⟩
      rw [Nat.sub_add_cancel hpos, Nat.mul_comm]
      omega
    · rintro ⟨k, rfl⟩
      have hsub : (k + 1) * spinsz + 2 - 1 = 1 + spinsz * (k + 1) := by
        rw [Nat.mul_comm]
        omega
      have hlt : spinsz ≤ (k + 1) * spinsz := Nat.le_mul_of_pos_left _ (Nat.succ_pos k)
      refine ⟨by omega, ?_⟩
      rw [hsub, Nat.add_mul_mod_self_left]
      decide
  unfold leftOut
  by_cases hout : cnt = 1 ∨ spinsz < cnt - 1 ∧ (cnt - 1) % spinsz = 1
  · rw [if_pos hout]
    refine iff_of_false (by decide) ?_
    rintro ⟨hone, hwhole⟩
    rcases hout with rfl | hout
    · exact hone rfl
    · obtain ⟨k, hk⟩ := hsections.mp hout
      exact hwhole k hk
  · rw [if_neg hout]
    obtain ⟨hone, hwhole⟩ := not_or.mp hout
    exact iff_of_true rfl ⟨hone, fun k hk => hwhole (hsections.mpr ⟨k, hk⟩)⟩

-- Both passes log all words but the one that is left out.
theorem movinv1Down_logs (hcnt : 0 < cnt) (hwrap : start + 8 * cnt ≤ 2 ^ 64) (noComp : Int) (p1 p2 : UL)
    (hfuel : cnt ≤ fuel) :
    ∃ q, Logs False (movinv1Down (logging bus) fuel start cnt noComp p1 p2)
      (List.range' (start + 8 * leftOut spinsz (cnt - 1) cnt) (cnt - leftOut spinsz (cnt - 1) cnt) 8).reverse q :=
  passDown_logs bus id (fun _ _ => ⟨_, _, rfl⟩) stop_logs hcnt hwrap hfuel

theorem movinv32Down_logs (hcnt : 0 < cnt) (hwrap : start + 8 * cnt ≤ 2 ^ 64) (noComp : Int) (lb hb sval : UL)
    (hfuel : cnt ≤ fuel) :
    ∃ q, Logs True (movinv32Down (logging bus) fuel start cnt noComp lb hb sval)
      (List.range' (start + 8 * leftOut spinsz (cnt - 1) cnt) (cnt - leftOut spinsz (cnt - 1) cnt) 8).reverse q := by
  obtain ⟨q, hlogs⟩ := passDown_logs bus (backwardPattern hb sval)
    (t := fun g p => ⟨p, expect noComp (~~~g.pat), some g.pat⟩) (fun _ _ => ⟨_, _, rfl⟩) bail_logs hcnt hwrap hfuel
  exact ⟨q, fun s => hlogs { s with gen := backUpPattern lb sval s.gen }⟩

theorem not_visitsDown (hcnt : 0 < cnt) (hwrap : start + 8 * cnt ≤ 2 ^ 64)
    (hout : leftOut spinsz (cnt - 1) cnt ≠ 0) : ¬ VisitsDown start cnt := by
  intro h
  obtain ⟨q, hall⟩ := h.movinv1 faithfulBus 0 0 0 cnt le_rfl
  obtain ⟨q', hlogs⟩ := movinv1Down_logs faithfulBus hcnt hwrap 0 0 0 le_rfl
  have hlength := congrArg List.length (hall.words_eq hlogs ⟨(fun _ => 0, []), errSuccess, ()⟩)
  simp only [List.length_reverse, List.length_range'] at hlength
  omega

/-- The passes downwards take in every word unless the block is a single word, or two words more than one or more
whole sections. -/
theorem visitsDown_iff (hcnt : 0 < cnt) (hwrap : start + 8 * cnt ≤ 2 ^ 64) :
    VisitsDown start cnt ↔ cnt ≠ 1 ∧ ∀ k, cnt ≠ (k + 1) * spinsz + 2 := by
  rw [← leftOut_eq_zero_iff hcnt]
  constructor
  · intro h
    by_contra hout
    exact not_visitsDown hcnt hwrap hout h
  · intro hnone
    constructor
    · intro σ bus noComp p1 p2 fuel hfuel
      have hlogs := movinv1Down_logs bus hcnt hwrap noComp p1 p2 hfuel
      rwa [hnone] at hlogs
    · intro σ bus noComp lb hb sval fuel hfuel
      have hlogs := movinv32Down_logs bus hcnt hwrap noComp lb hb sval hfuel
      rwa [hnone] at hlogs

/-- A block at address 0 that is two words long. -/
theorem visitsDown_iff_two : VisitsDown 0 2 ↔ 2 ≠ 1 ∧ ∀ k, 2 ≠ (k + 1) * spinsz + 2 :=
  visitsDown_iff (by decide) (by omega)

theorem not_visitsDown_one (hwrap : start + 8 ≤ 2 ^ 64) : ¬ VisitsDown start 1 :=
  not_visitsDown Nat.one_pos (by omega) fun hnone => ((leftOut_eq_zero_iff Nat.one_pos).mp hnone).1 rfl

theorem not_visitsDown_section (hwrap : start + 8 * (spinsz + 2) ≤ 2 ^ 64) :
    ¬ VisitsDown start (spinsz + 2) := by
  refine not_visitsDown (by omega) hwrap fun hnone => ?_
  exact ((leftOut_eq_zero_iff (by omega)).mp hnone).2 0 (by omega)

/-- A single word, and a block of one section and two words, lose their lowest word, at low addresses and above
`8 * spinsz`. -/
theorem lowest_left_out : ¬ VisitsDown 0x1000 1 ∧ ¬ VisitsDown 0x1000 (spinsz + 2) ∧
    ¬ VisitsDown 0x7f0000000000 1 ∧ ¬ VisitsDown 0x7f0000000000 (spinsz + 2) := by
  have hspinsz : spinsz = 0x2000000 := rfl
  exact ⟨not_visitsDown_one (by omega), not_visitsDown_section (by omega), not_visitsDown_one (by omega),
    not_visitsDown_section (by omega)⟩

end Passes

end MoBoMemory.TestLib
