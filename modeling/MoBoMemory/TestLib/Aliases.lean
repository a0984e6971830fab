import MoBoMemory.Base.Keyed
import MoBoMemory.TestLib.AddrWalk
import MoBoMemory.TestLib.StuckBits

/-!
# Addresses that select the same cell

The decoder of a memory takes each word address to a storage cell, and with a defect it takes two
addresses to the same one.  Item 1 tells whether it does so in the block.  Item 0 finds an address line
that the decoder ignores.
-/

namespace MoBoMemory.TestLib

open Base

/-- Memory whose cells store what is written, behind a decoder. -/
def aliasBus {κ : Type} [DecidableEq κ] (cell : Nat → κ) : Bus (κ → UL) where
  read mem p := (mem (cell p), mem)
  write mem p w := Function.update mem (cell p) w

section Decoder

variable {κ : Type} [DecidableEq κ] {cell : Nat → κ} {ps : List Nat} {w : Nat → UL}

-- Without a defect it is the memory of the other tests.
theorem aliasBus_id : aliasBus (fun p => p) = faithfulBus := rfl

-- A pass of writes leaves in each cell the last word that went there.
theorem play_writes (mem : κ → UL) :
    play (aliasBus cell) (ps.map fun p => ⟨p, none, some (w p)⟩) mem =
      some (ps.foldl (fun mem p => Function.update mem (cell p) (w p)) mem) := by
  induction ps generalizing mem with
  | nil => rfl
  | cons p ps ih =>
      rw [List.map_cons, play_cons, List.foldl_cons]
      exact ih _

-- A pass of comparisons only reads.
theorem play_compares (mem mem' : κ → UL) :
    play (aliasBus cell) (ps.map fun p => ⟨p, some (w p), none⟩) mem = some mem' ↔
      mem = mem' ∧ ∀ p ∈ ps, mem (cell p) = w p := by
  induction ps with
  | nil => simp [play]
  | cons p ps ih =>
      have hplay : Touch.play (aliasBus cell) ⟨p, some (w p), none⟩ mem =
          if mem (cell p) = w p then some mem else none := rfl
      rw [List.map_cons, play_cons, hplay, List.forall_mem_cons]
      by_cases hread : mem (cell p) = w p
      · rw [if_pos hread, Option.bind_some, ih]
        simp [hread]
      · simp [hread]

end Decoder

/-! ## Own addresses -/

section Own

variable {κ : Type} [DecidableEq κ] (cell : Nat → κ) {ps : List Nat}

-- The last word to a cell is the address of one that selects it.
theorem last_address (mem : κ → UL) {p : Nat} (hp : p ∈ ps) :
    ∃ q ∈ ps, cell q = cell p ∧
      (ps.foldl (fun mem p => Function.update mem (cell p) (BitVec.ofNat 64 p)) mem) (cell p) =
        BitVec.ofNat 64 q := by
  rw [foldl_update_last]
  cases hlast : lastWith cell ps (cell p) with
  | none =>
      have hnot : cell p ∉ keys cell ps := lastWith_eq_none.mp hlast
      exact absurd (mem_keys.mpr ⟨p, hp, rfl⟩) hnot
  | some q =>
      obtain ⟨hq, hcell⟩ := mem_of_lastWith hlast
      exact ⟨q, hq, hcell, rfl⟩

theorem ownScript_plays_iff (hps : ∀ p ∈ ps, p < 2 ^ 64) (mem : κ → UL) :
    (∃ mem', play (aliasBus cell) (ownScript hasComparision ps) mem = some mem') ↔
      Set.InjOn cell {p | p ∈ ps} := by
  have hofNat : ∀ p ∈ ps, ∀ q ∈ ps, BitVec.ofNat 64 p = BitVec.ofNat 64 q → p = q := by
    intro p hp q hq heq
    have hnat := congrArg BitVec.toNat heq
    rwa [BitVec.toNat_ofNat, BitVec.toNat_ofNat, Nat.mod_eq_of_lt (hps p hp),
      Nat.mod_eq_of_lt (hps q hq)] at hnat
  have hscript : ownScript hasComparision ps =
      (ps.map fun p => ⟨p, none, some (BitVec.ofNat 64 p)⟩) ++
        ps.map fun p => ⟨p, some (BitVec.ofNat 64 p), none⟩ := by
    rw [ownScript, touches_const, touches_const]
    rfl
  rw [hscript]
  simp only [play_append, play_writes, Option.bind_some, play_compares, exists_eq_left']
  constructor
  · -- two addresses of one cell would both be found there
    intro hreads p hp q hq hcell
    refine hofNat p hp q hq ?_
    rw [← hreads p hp, ← hreads q hq, hcell]
  · intro hinj p hp
    obtain ⟨q, hq, hcell, hword⟩ := last_address cell mem hp
    rw [hword, hinj hq hp hcell]

theorem addrWalkOwn_success_iff (a : Area) {fuel : Nat} (hfuel : a.cnt < fuel) (mem : κ → UL) :
    ((∃ mem', (addrWalkOwn (aliasBus cell) fuel a.start a.cnt hasComparision).test () mem =
        some (errSuccess, mem')) ↔
      Set.InjOn cell {p | p ∈ List.range' a.start a.cnt 8}) ∧
    (¬ Set.InjOn cell {p | p ∈ List.range' a.start a.cnt 8} →
      ∃ mem', (addrWalkOwn (aliasBus cell) fuel a.start a.cnt hasComparision).test () mem =
        some (errFail, mem')) := by
  have hwrap := a.noWrap
  have haddrs : ∀ p ∈ List.range' a.start a.cnt 8, p < 2 ^ 64 := by
    intro p hp
    obtain ⟨i, hi, rfl⟩ := List.mem_range'.mp hp
    omega
  obtain ⟨q, hplays⟩ := addrWalkOwn_plays hasComparision (aliasBus cell) hwrap hfuel
  rw [← ownScript_plays_iff cell haddrs mem]
  cases hplay : play (aliasBus cell) (ownScript hasComparision (List.range' a.start a.cnt 8)) mem with
  | none =>
      obtain ⟨mem', hrun⟩ := hplays.test_dirty hplay
      rw [hrun]
      exact ⟨by simp [errSuccess, errFail], fun _ => ⟨mem', rfl⟩⟩
  | some mem' =>
      rw [hplays.test_clean hplay]
      exact ⟨iff_of_true ⟨mem', rfl⟩ ⟨mem', rfl⟩, fun hnone => absurd ⟨mem', rfl⟩ hnone⟩

/-- The words at 8 and at 24 share a cell. -/
theorem addrWalkOwn_success_iff_alias :
    4 < 5 ∧ ∃ mem', (addrWalkOwn (aliasBus fun p => p ||| 16) 5 8 4 hasComparision).test () (fun _ => 0) =
      some (errFail, mem') := by
  refine ⟨by decide, (addrWalkOwn_success_iff (fun p => p ||| 16)
    ⟨8, 4, by decide, by decide, by decide⟩ (show 4 < 5 by decide) fun _ => 0).2 fun hinj => ?_⟩
  have hsame : 8 = 24 := hinj (show 8 ∈ List.range' 8 4 8 by decide)
    (show 24 ∈ List.range' 8 4 8 by decide) (by decide)
  exact absurd hsame (by decide)

end Own

/-! ## One more bit -/

section Bits

variable {p k : Nat}

theorem or_two_pow (hbit : p.testBit k = false) : p ||| 2 ^ k = p + 2 ^ k := by
  have heven : p / 2 ^ k % 2 = 0 := by
    rw [Nat.testBit_eq_decide_div_mod_eq, decide_eq_false_iff_not] at hbit
    omega
  have hlow : p % 2 ^ k < 2 ^ k := Nat.mod_lt p (Nat.two_pow_pos k)
  have hpow : 2 ^ (k + 1) = 2 ^ k + 2 ^ k := by rw [Nat.pow_succ, Nat.mul_two]
  have hhalf : p / 2 ^ k = 2 * (p / 2 ^ k / 2) := by omega
  -- what is above bit `k`, and what is below it
  have hsplit : p = 2 ^ (k + 1) * (p / 2 ^ k / 2) + p % 2 ^ k := by
    rw [Nat.pow_succ, Nat.mul_assoc, ← hhalf, Nat.div_add_mod]
  generalize p / 2 ^ k / 2 = high at hsplit
  generalize p % 2 ^ k = low at hsplit hlow
  rw [hsplit, Nat.two_pow_add_eq_or_of_lt (by omega) high, Nat.or_assoc,
    Nat.or_two_pow_eq_add_of_lt hlow, ← Nat.two_pow_add_eq_or_of_lt (by omega) high,
    ← Nat.two_pow_add_eq_or_of_lt (by omega) high, Nat.add_assoc]

theorem or_two_pow_le (p k : Nat) : p ||| 2 ^ k ≤ p + 2 ^ k := by
  cases hbit : p.testBit k with
  | false => exact (or_two_pow hbit).le
  | true =>
      have hsame : p ||| 2 ^ k = p := by
        apply Nat.eq_of_testBit_eq
        intro i
        rw [Nat.testBit_or, Nat.testBit_two_pow]
        by_cases hi : k = i
        · simp [← hi, hbit]
        · simp [hi]
      exact hsame.le.trans (Nat.le_add_right p _)

theorem xor_two_pow (hbit : p.testBit k = false) : p ^^^ 2 ^ k = p ||| 2 ^ k := by
  apply Nat.eq_of_testBit_eq
  intro i
  rw [Nat.testBit_xor, Nat.testBit_or, Nat.testBit_two_pow]
  by_cases hi : k = i
  · simp [← hi, hbit]
  · simp [hi]

-- Word addresses stay word addresses.
theorem or_two_pow_word (hp : 8 ∣ p) (hk : 3 ≤ k) : 8 ∣ p ||| 2 ^ k := by
  have hmask : 2 ^ k % 2 ^ 3 = 0 := Nat.mod_eq_zero_of_dvd (Nat.pow_dvd_pow 2 hk)
  have hword : p % 2 ^ 3 = 0 := Nat.mod_eq_zero_of_dvd hp
  apply Nat.dvd_of_mod_eq_zero
  rw [show 8 = 2 ^ 3 from rfl, Nat.or_mod_two_pow, hmask, hword]
  rfl

end Bits

/-! ## A dead address line -/

/-- Addresses of the block that differ in bit `k` only select the same cell. -/
def DeadLine {κ : Type} (cell : Nat → κ) (k : Nat) (b : Block) : Prop :=
  ∀ p ∈ b.addrs, p ^^^ 2 ^ k ∈ b.addrs → cell (p ^^^ 2 ^ k) = cell p

section Line

variable {noComp : Int} {stop p k : Nat} {p1 : UL}

theorem mem_masks : k ∈ masks ↔ ∃ j, 3 ≤ j ∧ j < 64 ∧ k = 2 ^ j := by
  simp only [masks, List.mem_map, List.mem_range]
  constructor
  · rintro ⟨j, hj, rfl⟩
    exact ⟨j + 3, by omega, by omega, rfl⟩
  · rintro ⟨j, hlow, hhigh, rfl⟩
    exact ⟨j - 3, by omega, by rw [Nat.sub_add_cancel hlow]⟩

theorem masks_sorted : masks.Pairwise (· < ·) := by
  refine List.pairwise_map.mpr (List.pairwise_lt_range.imp fun {i j} hij => ?_)
  exact Nat.pow_lt_pow_right (by decide) (by omega)

/-- The write to the address that differs in bit `k`, and the look at the base word. -/
def lineTouches (noComp : Int) (p1 : UL) (p k : Nat) : List Touch :=
  [⟨p ||| 2 ^ k, none, some p1⟩, ⟨p, expect noComp (~~~p1), none⟩]

-- No smaller mask leads behind the end, so the loop comes as far as this one.
theorem maskScript_line (hbit : p.testBit k = false) (hstop : p + 2 ^ k < stop) {ms : List Nat}
    (hms : ∀ m ∈ ms, ∃ j, m = 2 ^ j) (hsorted : ms.Pairwise (· < ·)) (hk : 2 ^ k ∈ ms) :
    lineTouches noComp p1 p k <:+: maskScript noComp stop p1 p ms := by
  have hword := or_two_pow hbit
  have hpos := Nat.two_pow_pos k
  induction ms with
  | nil => cases hk
  | cons m ms ih =>
      obtain ⟨hsmall, hrest⟩ := List.pairwise_cons.mp hsorted
      rcases List.mem_cons.mp hk with rfl | hlater
      · rw [maskScript, if_neg (by omega), if_neg (by omega)]
        exact ⟨[], maskScript noComp stop p1 p ms, rfl⟩
      · have hpart := ih (fun m hm => hms m (List.mem_cons_of_mem _ hm)) hrest hlater
        have hlt := hsmall (2 ^ k) hlater
        obtain ⟨j, rfl⟩ := hms m List.mem_cons_self
        have hle := or_two_pow_le p j
        rw [maskScript]
        split
        · exact hpart
        · rw [if_neg (by omega)]
          exact List.infix_cons (List.infix_cons hpart)

theorem masks_line (hbit : p.testBit k = false) (hlow : 3 ≤ k) (hstop : p + 2 ^ k < stop)
    (hsize : stop < 2 ^ 64) : lineTouches noComp p1 p k <:+: maskScript noComp stop p1 p masks := by
  have hk : k < 64 := by
    by_contra hlarge
    have hpow : 2 ^ 64 ≤ 2 ^ k := Nat.pow_le_pow_right (by decide) (by omega)
    omega
  refine maskScript_line hbit hstop (fun m hm => ?_) masks_sorted (mem_masks.mpr ⟨k, hlow, hk, rfl⟩)
  obtain ⟨j, -, -, hj⟩ := mem_masks.mp hm
  exact ⟨j, hj⟩

theorem walkScript_line (hbit : p.testBit k = false) (hlow : 3 ≤ k) (hstop : p + 2 ^ k < stop)
    (hsize : stop < 2 ^ 64) (rounds : Nat) :
    lineTouches noComp (~~~p1) p k <:+: walkScript noComp stop p1 (rounds + 1) p :=
  List.infix_cons (List.infix_append_of_infix_left (masks_line hbit hlow hstop hsize))

-- With the two words in one cell, the base word is found overwritten.
theorem play_line {κ : Type} [DecidableEq κ] {cell : Nat → κ} (hcell : cell (p ||| 2 ^ k) = cell p)
    (mem : κ → UL) : play (aliasBus cell) (lineTouches hasComparision p1 p k) mem = none := by
  have hne : p1 ≠ ~~~p1 := by bv_omega
  have hread : Function.update mem (cell (p ||| 2 ^ k)) p1 (cell p) = p1 := by
    rw [hcell, Function.update_self]
  have hlast : Touch.play (aliasBus cell) ⟨p, expect hasComparision (~~~p1), none⟩
      (Function.update mem (cell (p ||| 2 ^ k)) p1) = none := by
    rw [expect_has]
    exact if_neg (hread.trans_ne hne)
  rw [lineTouches, play_cons, Touch.play]
  show play (aliasBus cell) [_] (Function.update mem (cell (p ||| 2 ^ k)) p1) = none
  rw [play_single, hlast]

end Line

/-! ## Where item 0 writes -/

/-- Memory without faults that records the addresses of the writes. -/
def recordingBus : Bus ((Nat → UL) × List Nat) where
  read s p := (s.1 p, s)
  write s p w := (Function.update s.1 p w, p :: s.2)

-- The record holds addresses of the script.
theorem play_recording {script : List Touch} {mem mem' : Nat → UL}
    (hplay : play faithfulBus script mem = some mem') (log : List Nat) :
    ∃ log', play recordingBus script (mem, log) = some (mem', log') ∧
      ∀ p ∈ log', p ∈ log ∨ ∃ t ∈ script, t.addr = p := by
  induction script generalizing mem log with
  | nil =>
      obtain rfl : mem = mem' := Option.some.inj hplay
      exact ⟨log, rfl, fun p hp => Or.inl hp⟩
  | cons t script ih =>
      rw [play_cons, Option.bind_eq_some_iff] at hplay
      obtain ⟨mem₁, hfirst, hrest⟩ := hplay
      obtain ⟨hgood, rfl⟩ := (touch_play_iff fun _ _ => rfl).mp hfirst
      have hstore : ∃ log₁, t.store recordingBus (mem, log) = (t.store faithfulBus mem, log₁) ∧
          ∀ p ∈ log₁, p ∈ log ∨ t.addr = p := by
        unfold Touch.store
        cases t.word with
        | none => exact ⟨log, rfl, fun p hp => Or.inl hp⟩
        | some word => exact ⟨t.addr :: log, rfl, fun p hp => (List.mem_cons.mp hp).symm.imp_right Eq.symm⟩
      obtain ⟨log₁, hstored, hlog₁⟩ := hstore
      have hplay₁ : t.play recordingBus (mem, log) = some (t.store faithfulBus mem, log₁) :=
        (touch_play_iff fun _ _ => rfl).mpr ⟨hgood, hstored⟩
      obtain ⟨log', hplay', hlog'⟩ := ih hrest log₁
      refine ⟨log', by rw [play_cons, hplay₁]; exact hplay', fun p hp => ?_⟩
      rcases hlog' p hp with hold | ⟨u, hu, haddr⟩
      · exact (hlog₁ p hold).imp_right fun haddr => ⟨t, List.mem_cons_self, haddr⟩
      · exact Or.inr ⟨u, List.mem_cons_of_mem t hu, haddr⟩

section Ones

variable (b : PageBlock) (noComp : Int) {p : Nat}

theorem maskScript_within (hp : p ∈ b.addrs) (p1 : UL) {ms : List Nat} (hms : ∀ m ∈ ms, m ∈ masks) :
    Within b.toBlock (maskScript noComp (ptrAdd b.start b.cnt) p1 p ms) := by
  obtain ⟨hlow, hhigh, hword⟩ := b.mem_addrs.mp hp
  induction ms with
  | nil => exact within_nil
  | cons m ms ih =>
      have hrest := ih fun m hm => hms m (List.mem_cons_of_mem _ hm)
      obtain ⟨j, hj, -, rfl⟩ := mem_masks.mp (hms m List.mem_cons_self)
      rw [maskScript]
      split
      · exact hrest
      · split
        · exact within_nil
        · rename_i hin
          rw [b.end_eq] at hin
          intro t ht
          rcases List.mem_cons.mp ht with rfl | ht
          · refine b.mem_addrs.mpr ⟨hlow.trans Nat.left_le_or, Nat.not_le.mp hin, ?_⟩
            exact or_two_pow_word hword hj
          · rcases List.mem_cons.mp ht with rfl | ht
            · exact hp
            · exact hrest t ht

theorem walkScript_within (hp : p ∈ b.addrs) (p1 : UL) (rounds : Nat) :
    Within b.toBlock (walkScript noComp (ptrAdd b.start b.cnt) p1 rounds p) := by
  have hrounds : ∀ n, Within b.toBlock
      (roundsScript noComp (ptrAdd b.start b.cnt) (~~~p1) p n) := by
    intro n
    induction n with
    | zero => exact within_nil
    | succ n ih => exact (maskScript_within b noComp hp _ fun _ hm => hm).append ih
  intro t ht
  rcases List.mem_cons.mp ht with rfl | ht
  · exact hp
  · exact hrounds rounds t ht

theorem onesScript_within {ps : List Nat} (hps : ∀ p ∈ ps, p ∈ b.addrs) :
    Within b.toBlock (onesScript noComp b ps) := by
  have hglobal : ∀ n p1, Within b.toBlock
      (globalScript noComp (ptrAdd b.start b.cnt) b.start n p1) := by
    intro n
    induction n with
    | zero => exact fun _ => within_nil
    | succ n ih => exact fun p1 => (walkScript_within b noComp b.start_mem_addrs p1 100).append (ih _)
  have hbanks : ∀ n p1, Within b.toBlock (bankScript noComp (ptrAdd b.start b.cnt) ps n p1) := by
    intro n
    induction n with
    | zero => exact fun _ => within_nil
    | succ n ih =>
        intro p1
        refine Within.append (fun t ht => ?_) (ih _)
        obtain ⟨p, hp, ht⟩ := List.mem_flatMap.mp ht
        exact walkScript_within b noComp (hps p hp) p1 50 t ht
  exact (hglobal 2 0).append (hbanks 2 0)

-- Memory without faults agrees with the script, which stays in the block.
theorem addrWalkOnes_records {fuel : Nat} (hfuel : b.cnt < fuel) (mem : Nat → UL) :
    ∃ mem' log, (addrWalkOnes recordingBus fuel b.start b.cnt noComp).test 0 (mem, []) =
      some (errSuccess, (mem', log)) ∧ ∀ p ∈ log, p ∈ b.addrs := by
  obtain ⟨ps, hps, hplays⟩ := addrWalkOnes_plays b noComp
  obtain ⟨gen', q, hpart⟩ := hplays recordingBus hfuel
  obtain ⟨mem', hplay⟩ := (onesScript_fair b noComp ps).agrees mem
  obtain ⟨log, hlogged, hlog⟩ := play_recording hplay []
  refine ⟨mem', log, hpart.test_clean hlogged, fun p hp => ?_⟩
  rcases hlog p hp with hold | ⟨t, ht, rfl⟩
  · cases hold
  · exact onesScript_within b noComp hps t ht

-- Already the first round of the first pattern looks at the base word after a write to the other one.
theorem addrWalkOnes_dead_line {κ : Type} [DecidableEq κ] {cell : Nat → κ} {k : Nat} (hlow : 3 ≤ k)
    (hbit : b.start.testBit k = false) (hend : b.start + 2 ^ k < b.start + 8 * b.cnt)
    (hdead : DeadLine cell k b.toBlock) {fuel : Nat} (hfuel : b.cnt < fuel) (mem : κ → UL) :
    ∃ mem', (addrWalkOnes (aliasBus cell) fuel b.start b.cnt hasComparision).test 0 mem =
      some (errFail, mem') := by
  obtain ⟨ps, -, hplays⟩ := addrWalkOnes_plays b hasComparision
  obtain ⟨gen', q, hpart⟩ := hplays (aliasBus cell) hfuel
  have hword := or_two_pow hbit
  have hother : b.start ||| 2 ^ k ∈ b.addrs :=
    b.mem_addrs.mpr ⟨Nat.left_le_or, by omega, or_two_pow_word b.aligned hlow⟩
  have hcell : cell (b.start ||| 2 ^ k) = cell b.start := by
    have hsame := hdead b.start b.start_mem_addrs
    rw [xor_two_pow hbit] at hsame
    exact hsame hother
  have hline : lineTouches hasComparision (~~~0) b.start k <:+: onesScript hasComparision b ps := by
    rw [onesScript, b.end_eq]
    exact List.infix_append_of_infix_left (List.infix_append_of_infix_left
      (walkScript_line hbit hlow hend b.noWrap 99))
  exact hpart.test_dirty (play_of_part hline (play_line hcell) mem)

theorem addrWalkOnes_finds_dead_lines {fuel : Nat} (hfuel : b.cnt < fuel) :
    (∀ noComp mem, ∃ mem' log,
      (addrWalkOnes recordingBus fuel b.start b.cnt noComp).test 0 (mem, []) =
        some (errSuccess, (mem', log)) ∧ ∀ p ∈ log, p ∈ b.addrs) ∧
    ∀ {κ : Type} [DecidableEq κ] (cell : Nat → κ) (k : Nat), 3 ≤ k → b.start.testBit k = false →
      b.start + 2 ^ k < b.start + 8 * b.cnt → DeadLine cell k b.toBlock → ∀ mem, ∃ mem',
        (addrWalkOnes (aliasBus cell) fuel b.start b.cnt hasComparision).test 0 mem =
          some (errFail, mem') :=
  ⟨fun noComp mem => addrWalkOnes_records b noComp hfuel mem,
    fun _ _ hlow hbit hend hdead mem => addrWalkOnes_dead_line b hlow hbit hend hdead hfuel mem⟩

/-- One page behind a decoder that takes bit 3 of an address for 1. -/
theorem addrWalkOnes_finds_dead_lines_page :
    512 < 513 ∧ ∃ mem', (addrWalkOnes (aliasBus fun p => p ||| 2 ^ 3) 513 4096 512 hasComparision).test 0
      (fun _ => 0) = some (errFail, mem') := by
  let b : PageBlock := ⟨⟨4096, 512, by decide, by decide, by decide, by decide⟩, by decide, by decide⟩
  have hdead : DeadLine (fun p => p ||| 2 ^ 3) 3 b.toBlock := by
    intro p _ _
    apply Nat.eq_of_testBit_eq
    intro i
    simp only [Nat.testBit_or, Nat.testBit_xor, Nat.testBit_two_pow]
    by_cases hi : 3 = i <;> simp [hi]
  exact ⟨by decide, (addrWalkOnes_finds_dead_lines b (show 512 < 513 by decide)).2 _ 3 le_rfl (by decide)
    (by decide) hdead _⟩

end Ones

end MoBoMemory.TestLib
