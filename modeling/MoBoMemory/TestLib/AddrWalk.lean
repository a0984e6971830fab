import MoBoMemory.TestLib.Spin

/-!
# Address walks

Item 0 writes a word whose address has only zeros below some bit, then the words that differ from it in
one address bit, and looks whether the first word has changed.  Item 1 writes every word's address into
the word.
-/

namespace MoBoMemory.TestLib

open Base

def errAddrWalkOnes : Nat := 0x10200010
def errAddrWalkOwn : Nat := 0x10200011

/-! ## Own addresses -/

section Own

variable {σ : Type} (bus : Bus σ) (fuel startP cnt : Nat) (noComp : Int)

/-- `for (cur=p; cur<end; cur++)` -/
def curLoop (quit : Bool) (t : Nat → Touch) : Part σ Unit :=
  walk (fun cur => decide (cur < ptrAdd startP cnt)) (fun cur => ptrAdd cur 1)
    (touchBody bus quit (fun _ => t) id) fuel startP

def fillup : Part σ Unit :=
  curLoop bus fuel startP cnt false fun cur => ⟨cur, none, some (BitVec.ofNat 64 cur)⟩

def verify : Part σ Unit :=
  curLoop bus fuel startP cnt true fun cur => ⟨cur, expect noComp (BitVec.ofNat 64 cur), none⟩

def addrWalkOwn : Part σ Unit :=
  (fillup bus fuel startP cnt).andThen fun _ => verify bus fuel startP cnt noComp

end Own

def testAddrWalkOwn (startP blockBytes : Nat) (noComp : Int) : MemTest := fun _ fuel bus mem =>
  thenTest errAddrWalkOwn ((addrWalkOwn bus.toBus fuel startP (blockBytes / 8) noComp).test () mem)
    fun mem => some (errSuccess, mem)

section OwnFlag

theorem curLoop_plays {σ : Type} (bus : Bus σ) {start cnt fuel : Nat} (hwrap : start + 8 * cnt < 2 ^ 64)
    (hfuel : cnt < fuel) (quit : Bool) (t : Nat → Touch) :
    ∃ q, Plays bus (curLoop bus fuel start cnt quit t) ()
      (touches (fun _ => t) id (List.range' start cnt 8) ()) () q := by
  obtain ⟨q, hvisits⟩ := (visits_up_range (start + 8 * cnt) hwrap cnt start rfl).visitsTo
  have hend : ptrAdd start cnt = start + 8 * cnt := Nat.mod_eq_of_lt hwrap
  rw [curLoop, hend]
  exact ⟨q, (sweep_plays bus quit (fun _ => t) id (List.range' start cnt 8) () q).congr
    fun s => walk_eq_sweepTo hvisits (by simpa using hfuel) s⟩

/-- The writes and the comparisons. -/
def ownScript (noComp : Int) (ps : List Nat) : List Touch :=
  touches (fun _ cur => ⟨cur, none, some (BitVec.ofNat 64 cur)⟩) id ps () ++
    touches (fun _ cur => ⟨cur, expect noComp (BitVec.ofNat 64 cur), none⟩) id ps ()

theorem addrWalkOwn_plays (noComp : Int) {σ : Type} (bus : Bus σ) {start cnt fuel : Nat}
    (hwrap : start + 8 * cnt < 2 ^ 64) (hfuel : cnt < fuel) :
    ∃ q, Plays bus (addrWalkOwn bus fuel start cnt noComp) ()
      (ownScript noComp (List.range' start cnt 8)) () q := by
  obtain ⟨q₁, hfill⟩ := curLoop_plays bus hwrap hfuel false
    fun cur => ⟨cur, none, some (BitVec.ofNat 64 cur)⟩
  obtain ⟨q₂, hverify⟩ := curLoop_plays bus hwrap hfuel true
    fun cur => ⟨cur, expect noComp (BitVec.ofNat 64 cur), none⟩
  exact ⟨q₂, hfill.andThen _ hverify⟩

variable (b : PageBlock) (noComp : Int)

theorem addrWalkOwn_honours :
    Honours noComp b.cnt errFail fun _ fuel bus mem =>
      (addrWalkOwn bus.toBus fuel b.start b.cnt noComp).test () mem := by
  have hfill : ∀ f, Keeps b.toBlock noComp f
      (touches (fun _ cur => ⟨cur, none, some (BitVec.ofNat 64 cur)⟩) id b.addrs ())
      fun i => BitVec.ofNat 64 (b.start + 8 * i) :=
    keeps_fill (fun _ _ => rfl) (fun _ _ => rfl) (fun _ _ => rfl)
  have hverify : Keeps b.toBlock noComp (fun i => BitVec.ofNat 64 (b.start + 8 * i))
      (touches (fun _ cur => ⟨cur, expect noComp (BitVec.ofNat 64 cur), none⟩) id b.addrs ())
      fun i => BitVec.ofNat 64 (b.start + 8 * i) :=
    keeps_up (fun _ _ => rfl) (fun hno _ _ => expect_none hno _) (fun _ _ _ hgood => expect_some hgood)
      (fun _ _ => rfl)
  have hsound : Sound noComp (ownScript noComp b.addrs) := by
    refine sound_of_keeps (fun f => ⟨_, (hfill f).append hverify⟩) fun hyes => ?_
    refine ⟨⟨b.start, expect noComp (BitVec.ofNat 64 b.start), none⟩, ?_, by simp [expect, hyes]⟩
    exact List.mem_append_right _ (first_touch_mem b.toBlock)
  exact honours_of_plays hsound fun σ fuel bus hfuel =>
    ⟨(), addrWalkOwn_plays noComp bus.toBus b.noWrap hfuel⟩

theorem testAddrWalkOwn_honours :
    Honours noComp b.cnt errAddrWalkOwn (testAddrWalkOwn b.start (8 * b.cnt) noComp) := by
  unfold testAddrWalkOwn
  rw [cnt_of_bytes]
  exact (addrWalkOwn_honours b noComp).thenTest _ (by decide) harmless_done

end OwnFlag

/-! ## Walking ones -/

def roundup (value mask : Nat) : Nat := (value + mask) % 2 ^ 64 &&& (2 ^ 64 - (mask + 1))

def bank : Nat := 0x100000

/-- The values of `mask` in `do ... while (mask)`: from `sizeof(UL)` on, shifted until it is 0. -/
def masks : List Nat := (List.range 61).map fun j => 2 ^ (j + 3)

section Ones

variable {σ : Type} (bus : Bus σ) (fuel startP cnt : Nat) (noComp : Int)

/-- `if ((bad = *p) != ~p1) { ret = ERR_FAIL; i = leave; }`, where `gen` is `i`. -/
def probe (t : Touch) (leave : Nat) (s : Scan σ Nat) : Scan σ Nat :=
  let seen := touch bus true t s
  if seen.2 then { seen.1 with gen := leave } else seen.1

def maskBody (stop : Nat) (p1 : UL) (leave p mask : Nat) (s : Scan σ Nat) : Scan σ Nat × Bool :=
  let pt := p ||| mask
  if pt = p then (s, false)
  else if stop ≤ pt then (s, true)
  else
    let s := (touch bus false ⟨pt, none, some p1⟩ s).1
    (probe bus ⟨p, expect noComp (~~~p1), none⟩ leave s, false)

/-- The `for (i=0; i<rounds; i++)` loop; `rounds` turns are enough for it. -/
def maskRounds (stop : Nat) (p1 : UL) (rounds leave p : Nat) : Nat → Scan σ Nat → Scan σ Nat
  | 0, s => s
  | n + 1, s =>
      if s.gen < rounds then
        let s := (sweep (maskBody bus noComp stop p1 leave p) masks s).1
        maskRounds stop p1 rounds leave p n { s with gen := s.gen + 1 }
      else s

/-- `*p = p1; p1 = ~p1;` and the rounds. -/
def walkOnes (stop : Nat) (p1 : UL) (rounds leave p : Nat) (s : Scan σ Nat) : Scan σ Nat :=
  let s := (touch bus false ⟨p, none, some p1⟩ s).1
  maskRounds bus noComp stop (~~~p1) rounds leave p rounds { s with gen := 0 }

/-- Test the global address bits. -/
def globalBits : Nat → UL → Part σ Nat
  | 0, _ => Part.stop startP
  | n + 1, p1 =>
      let p := roundup startP 0xfff
      (Part.turn (walkOnes bus noComp (ptrAdd startP cnt) p1 100 1000 p) p).andThen fun p =>
      (Part.bail p).andThen fun _ =>
      globalBits n (~~~p1)

/-- `if (p + bank > p) p += bank; else p = end;` -/
def nextBank (stop p : Nat) : Nat := if p < ptrAdd p bank then ptrAdd p bank else stop

/-- Now check the address bits in each bank. -/
def bankBits : Nat → UL → Part σ Nat
  | 0, _ => Part.stop startP
  | n + 1, p1 =>
      let stop := ptrAdd startP cnt
      Part.andThen (walk (fun p => decide (p < stop)) (nextBank stop)
        (fun p s => (walkOnes bus noComp stop p1 50 200 p s, false)) fuel
        (roundup startP (bank - 1))) fun p =>
      (Part.bail p).andThen fun _ =>
      bankBits n (~~~p1)

def addrWalkOnes : Part σ Nat :=
  (globalBits bus startP cnt noComp 2 0).andThen fun _ => bankBits bus fuel startP cnt noComp 2 0

end Ones

def testAddrWalkOnes (startP blockBytes : Nat) (noComp : Int) : MemTest := fun _ fuel bus mem =>
  thenTest errAddrWalkOnes ((addrWalkOnes bus.toBus fuel startP (blockBytes / 8) noComp).test 0 mem)
    fun mem => some (errSuccess, mem)

/-! ## Its script -/

section Script

variable (noComp : Int) (stop : Nat)

def maskScript (p1 : UL) (p : Nat) : List Nat → List Touch
  | [] => []
  | mask :: ms =>
      if p ||| mask = p then maskScript p1 p ms
      else if stop ≤ p ||| mask then []
      else ⟨p ||| mask, none, some p1⟩ :: ⟨p, expect noComp (~~~p1), none⟩ :: maskScript p1 p ms

def roundsScript (p1 : UL) (p : Nat) : Nat → List Touch
  | 0 => []
  | n + 1 => maskScript noComp stop p1 p masks ++ roundsScript p1 p n

def walkScript (p1 : UL) (rounds p : Nat) : List Touch :=
  ⟨p, none, some p1⟩ :: roundsScript noComp stop (~~~p1) p rounds

def globalScript (p : Nat) : Nat → UL → List Touch
  | 0, _ => []
  | n + 1, p1 => walkScript noComp stop p1 100 p ++ globalScript p n (~~~p1)

def bankScript (ps : List Nat) : Nat → UL → List Touch
  | 0, _ => []
  | n + 1, p1 => ps.flatMap (walkScript noComp stop p1 50) ++ bankScript ps n (~~~p1)

end Script

section Plays

variable {σ : Type} (bus : Bus σ) (noComp : Int) (stop : Nat)

theorem probe_plays (t : Touch) (leave gen q : Nat) :
    Plays bus (Part.turn (probe bus t leave) q) gen [t] gen q := by
  constructor
  · intro s hs
    refine ⟨_, _, rfl, ?_, Or.inr rfl⟩
    unfold probe
    rcases touch_total bus true t s with ⟨hret, hstay⟩ | hfail
    · simp only [hstay, Bool.false_eq_true, if_false, hret]
      tauto
    · right
      dsimp only
      split <;> exact hfail
  · intro mem mem' hplay
    rw [play_single] at hplay
    simp [Part.turn, probe, touch_clean hplay]
  · rintro mem hplay out ⟨⟩
    rw [play_single] at hplay
    have hfail := touch_dirty hplay true errSuccess gen
    unfold probe
    dsimp only
    split <;> exact hfail

theorem masks_plays (p1 : UL) (leave p : Nat) (ms : List Nat) (gen q : Nat) :
    Plays bus (Part.turn (fun s => (sweep (maskBody bus noComp stop p1 leave p) ms s).1) q) gen
      (maskScript noComp stop p1 p ms) gen q := by
  induction ms with
  | nil => exact plays_nil gen q
  | cons mask ms ih =>
      by_cases hsame : p ||| mask = p
      · rw [maskScript, if_pos hsame]
        refine ih.congr fun s => ?_
        simp [Part.turn, sweep, maskBody, hsame]
      · by_cases hend : stop ≤ p ||| mask
        · rw [maskScript, if_neg hsame, if_pos hend]
          refine (plays_nil gen q).congr fun s => ?_
          simp [Part.turn, sweep, maskBody, hsame, hend]
        · rw [maskScript, if_neg hsame, if_neg hend]
          have hboth := (touch_plays false ⟨p ||| mask, none, some p1⟩ gen q).turns
            ((probe_plays bus ⟨p, expect noComp (~~~p1), none⟩ leave gen q).turns ih)
          refine hboth.congr fun s => ?_
          simp [Part.turn, sweep, maskBody, hsame, hend]

theorem maskRounds_plays (p1 : UL) (rounds leave p : Nat) {n gen : Nat} (hgen : gen + n = rounds)
    (q : Nat) :
    Plays bus (Part.turn (maskRounds bus noComp stop p1 rounds leave p n) q) gen
      (roundsScript noComp stop p1 p n) rounds q := by
  induction n generalizing gen with
  | zero =>
      obtain rfl : gen = rounds := hgen
      exact plays_nil gen q
  | succ n ih =>
      have hturn := (masks_plays bus noComp stop p1 leave p masks gen q).turns
        ((next_plays (· + 1) gen q).turns (ih (by omega)))
      exact hturn.guard (fun i => i < rounds) (by omega)

theorem walkOnes_plays (p1 : UL) (rounds leave p gen q : Nat) :
    Plays bus (Part.turn (walkOnes bus noComp stop p1 rounds leave p) q) gen
      (walkScript noComp stop p1 rounds p) rounds q :=
  (touch_plays false ⟨p, none, some p1⟩ gen q).turns
    ((next_plays (fun _ => 0) gen q).turns
      (maskRounds_plays bus noComp stop (~~~p1) rounds leave p (by omega) q))

theorem globalBits_plays (startP cnt n : Nat) (p1 : UL) (gen : Nat) :
    ∃ gen' q, Plays bus (globalBits bus startP cnt noComp n p1) gen
      (globalScript noComp (ptrAdd startP cnt) (roundup startP 0xfff) n p1) gen' q := by
  induction n generalizing p1 gen with
  | zero => exact ⟨gen, startP, stop_plays _ _⟩
  | succ n ih =>
      obtain ⟨gen', q, hrest⟩ := ih (~~~p1) 100
      have hturn := walkOnes_plays bus noComp (ptrAdd startP cnt) p1 100 1000 (roundup startP 0xfff) gen
        (roundup startP 0xfff)
      exact ⟨gen', q, hturn.andThen
        (fun p => (Part.bail p).andThen fun _ => globalBits bus startP cnt noComp n (~~~p1))
        ((bail_plays _ _).andThen _ hrest)⟩

theorem walkBanks_plays (p1 : UL) (ps : List Nat) (gen q : Nat) :
    ∃ gen', Plays bus (fun s => some (sweepTo
        (fun p s => (walkOnes bus noComp stop p1 50 200 p s, false)) q ps s)) gen
      (ps.flatMap (walkScript noComp stop p1 50)) gen' q := by
  induction ps generalizing gen with
  | nil => exact ⟨gen, plays_nil gen q⟩
  | cons p ps ih =>
      obtain ⟨gen', hrest⟩ := ih 50
      have hboth := (walkOnes_plays bus noComp stop p1 50 200 p gen q).andThen (fun _ => _) hrest
      rw [List.flatMap_cons]
      exact ⟨gen', hboth.congr fun s => by rw [sweepTo_cons]; rfl⟩

theorem bankBits_plays {fuel startP cnt : Nat} {ps : List Nat}
    (hvisits : Visits (fun p => decide (p < ptrAdd startP cnt)) (nextBank (ptrAdd startP cnt))
      (roundup startP (bank - 1)) ps) (hfuel : ps.length < fuel) (n : Nat) (p1 : UL) (gen : Nat) :
    ∃ gen' q, Plays bus (bankBits bus fuel startP cnt noComp n p1) gen
      (bankScript noComp (ptrAdd startP cnt) ps n p1) gen' q := by
  obtain ⟨q, hvisits⟩ := hvisits.visitsTo
  induction n generalizing p1 gen with
  | zero => exact ⟨gen, startP, stop_plays _ _⟩
  | succ n ih =>
      obtain ⟨gen₁, hbanks⟩ := walkBanks_plays bus noComp (ptrAdd startP cnt) p1 ps gen q
      obtain ⟨gen', q', hrest⟩ := ih (~~~p1) gen₁
      exact ⟨gen', q', (hbanks.congr fun s => walk_eq_sweepTo hvisits hfuel s).andThen _
        ((bail_plays _ _).andThen _ hrest)⟩

end Plays

/-! ## It honours the flag -/

section OnesFlag

variable (noComp : Int) (stop : Nat)

theorem maskScript_blind (hno : noComp ≠ hasComparision) (p1 : UL) (p : Nat) (ms : List Nat) :
    ∀ t ∈ maskScript noComp stop p1 p ms, t.good = none := by
  induction ms with
  | nil => exact fun t ht => absurd ht List.not_mem_nil
  | cons mask ms ih =>
      rw [maskScript]
      split
      · exact ih
      · split
        · exact fun t ht => absurd ht List.not_mem_nil
        · intro t ht
          rcases List.mem_cons.mp ht with rfl | ht
          · rfl
          · rcases List.mem_cons.mp ht with rfl | ht
            · exact expect_none hno _
            · exact ih t ht

-- No write goes to `p` itself.
theorem maskScript_leads {p1 : UL} {p : Nat} (ms : List Nat) {mem : Nat → UL} (hp : mem p = ~~~p1) :
    ∃ mem', play faithfulBus (maskScript noComp stop p1 p ms) mem = some mem' ∧ mem' p = ~~~p1 := by
  induction ms generalizing mem with
  | nil => exact ⟨mem, rfl, hp⟩
  | cons mask ms ih =>
      rw [maskScript]
      split
      · exact ih hp
      · rename_i hdiff
        split
        · exact ⟨mem, rfl, hp⟩
        · have hp' : Function.update mem (p ||| mask) p1 p = ~~~p1 := by
            rw [Function.update_of_ne (Ne.symm hdiff), hp]
          obtain ⟨mem', hplay, hkept⟩ := ih hp'
          have hprobe : Touch.play faithfulBus ⟨p, expect noComp (~~~p1), none⟩
              (Function.update mem (p ||| mask) p1) = some (Function.update mem (p ||| mask) p1) := by
            unfold expect Touch.play
            split
            · rfl
            · rename_i good hgood
              split at hgood
              · cases hgood
              · rw [← Option.some.inj hgood]
                exact if_pos hp'
          refine ⟨mem', ?_, hkept⟩
          rw [play_cons]
          show play faithfulBus (_ :: _) (Function.update mem (p ||| mask) p1) = _
          rw [play_cons, hprobe]
          exact hplay

theorem roundsScript_fair (p1 : UL) (p n : Nat) :
    (noComp ≠ hasComparision → ∀ t ∈ roundsScript noComp stop p1 p n, t.good = none) ∧
      ∀ mem : Nat → UL, mem p = ~~~p1 →
        ∃ mem', play faithfulBus (roundsScript noComp stop p1 p n) mem = some mem' := by
  induction n with
  | zero => exact ⟨fun _ t ht => absurd ht List.not_mem_nil, fun mem _ => ⟨mem, rfl⟩⟩
  | succ n ih =>
      refine ⟨fun hno t ht => ?_, fun mem hp => ?_⟩
      · rcases List.mem_append.mp ht with ht | ht
        · exact maskScript_blind noComp stop hno p1 p masks t ht
        · exact ih.1 hno t ht
      · obtain ⟨mem₁, hplay₁, hkept⟩ := maskScript_leads noComp stop masks hp
        obtain ⟨mem₂, hplay₂⟩ := ih.2 mem₁ hkept
        exact ⟨mem₂, by rw [roundsScript, play_append, hplay₁]; exact hplay₂⟩

theorem walkScript_fair (p1 : UL) (rounds p : Nat) :
    Fair noComp (walkScript noComp stop p1 rounds p) := by
  obtain ⟨hblind, hleads⟩ := roundsScript_fair noComp stop (~~~p1) p rounds
  refine ⟨fun hno t ht => ?_, fun mem => ?_⟩
  · rcases List.mem_cons.mp ht with rfl | ht
    · rfl
    · exact hblind hno t ht
  · obtain ⟨mem', hplay⟩ := hleads (Function.update mem p p1) (by simp)
    exact ⟨mem', by rw [walkScript, play_cons]; exact hplay⟩

theorem globalScript_fair (p n : Nat) (p1 : UL) : Fair noComp (globalScript noComp stop p n p1) := by
  induction n generalizing p1 with
  | zero => exact fair_nil
  | succ n ih => exact (walkScript_fair noComp stop p1 100 p).append (ih _)

theorem bankScript_fair (ps : List Nat) (n : Nat) (p1 : UL) :
    Fair noComp (bankScript noComp stop ps n p1) := by
  induction n generalizing p1 with
  | zero => exact fair_nil
  | succ n ih => exact (Fair.flatMap (walkScript_fair noComp stop p1 50) ps).append (ih _)

end OnesFlag

/-! ## The positions -/

theorem roundup_eq {value k : Nat} (hk : k ≤ 64) (hvalue : value + (2 ^ k - 1) < 2 ^ 64) :
    roundup value (2 ^ k - 1) = (value + (2 ^ k - 1)) / 2 ^ k * 2 ^ k := by
  have hpow : 0 < 2 ^ k := Nat.two_pow_pos k
  have hmask : 2 ^ 64 - (2 ^ k - 1 + 1) = (2 ^ (64 - k) - 1) * 2 ^ k := by
    rw [Nat.sub_add_cancel hpow, Nat.sub_mul, Nat.one_mul, ← Nat.pow_add, Nat.sub_add_cancel hk]
  rw [roundup, Nat.mod_eq_of_lt hvalue, hmask]
  generalize value + (2 ^ k - 1) = x at hvalue ⊢
  apply Nat.eq_of_testBit_eq
  intro i
  rw [← Nat.shiftLeft_eq, ← Nat.shiftLeft_eq, ← Nat.shiftRight_eq_div_pow]
  simp only [Nat.testBit_and, Nat.testBit_shiftLeft, Nat.testBit_shiftRight, Nat.testBit_two_pow_sub_one]
  by_cases hi : k ≤ i
  · by_cases hlow : i < 64
    · simp [hi, show i - k < 64 - k by omega]
    · have hhigh : x.testBit i = false :=
        Nat.testBit_lt_two_pow (lt_of_lt_of_le hvalue (Nat.pow_le_pow_right (by decide) (by omega)))
      simp [hi, hhigh]
  · simp [hi]

-- The banks begin with words between `p` and the end, and there are at most as many of them as words.
theorem visits_banks {stop : Nat} (hstop : stop ≤ 2 ^ 47) {n p : Nat} (hp : stop ≤ p + 8 * n)
    (haligned : 8 ∣ p) :
    ∃ ps, Visits (fun p => decide (p < stop)) (nextBank stop) p ps ∧ ps.length ≤ n ∧
      ∀ r ∈ ps, p ≤ r ∧ r < stop ∧ 8 ∣ r := by
  induction n generalizing p with
  | zero => exact ⟨[], .stop (by simpa using hp), le_refl 0, fun r hr => absurd hr List.not_mem_nil⟩
  | succ n ih =>
      by_cases hend : stop ≤ p
      · exact ⟨[], .stop (by simpa using hend), Nat.zero_le _, fun r hr => absurd hr List.not_mem_nil⟩
      · have hnext : nextBank stop p = p + 8 * bank := by
          unfold nextBank ptrAdd bank
          rw [if_pos (by omega)]
          omega
        obtain ⟨ps, hvisits, hlength, hwords⟩ :=
          @ih (nextBank stop p) (by rw [hnext]; unfold bank; omega) (by rw [hnext]; omega)
        refine ⟨p :: ps, .step (by simpa using hend) hvisits, Nat.succ_le_succ hlength, ?_⟩
        intro r hr
        rcases List.mem_cons.mp hr with rfl | hr
        · exact ⟨le_rfl, Nat.not_le.mp hend, haligned⟩
        · obtain ⟨hlow, hhigh⟩ := hwords r hr
          exact ⟨by omega, hhigh⟩

theorem PageBlock.roundup_page (b : PageBlock) : roundup b.start 0xfff = b.start := by
  have huser := b.user
  have hpages := b.pages.1
  have h := @roundup_eq b.start 12 (by decide) (by omega)
  rw [show 2 ^ 12 - 1 = 0xfff from rfl] at h
  rw [h]
  omega

section OnesTest

variable (b : PageBlock) (noComp : Int)

-- The second word of the block is the first one that is written.
theorem globalScript_checks (n : Nat) (p1 : UL) :
    (⟨b.start, expect noComp (~~~~~~p1), none⟩ : Touch) ∈
      globalScript noComp (ptrAdd b.start b.cnt) b.start (n + 1) p1 := by
  have hcnt := b.cnt_ge
  have hpages := b.pages.1
  have hor : b.start ||| 2 ^ 3 = b.start + 8 := by
    obtain ⟨k, hk⟩ := hpages
    rw [hk, show 4096 * k = 2 ^ 4 * (256 * k) by omega]
    exact (Nat.two_pow_add_eq_or_of_lt (by decide) _).symm
  have hmasks : masks = 2 ^ 3 :: (List.range 60).map fun j => 2 ^ (j + 4) := by
    unfold masks
    rw [List.range_succ_eq_map, List.map_cons, List.map_map]
    rfl
  refine List.mem_append_left _ (List.mem_cons_of_mem _ (List.mem_append_left _ ?_))
  rw [hmasks, maskScript, if_neg (by omega), if_neg (by rw [b.end_eq]; omega)]
  exact List.mem_cons_of_mem _ List.mem_cons_self

/-- The script of the global bits, and that of the banks which begin at `ps`. -/
def onesScript (noComp : Int) (b : PageBlock) (ps : List Nat) : List Touch :=
  globalScript noComp (ptrAdd b.start b.cnt) b.start 2 0 ++
    bankScript noComp (ptrAdd b.start b.cnt) ps 2 0

theorem onesScript_fair (ps : List Nat) : Fair noComp (onesScript noComp b ps) :=
  (globalScript_fair noComp _ b.start 2 0).append (bankScript_fair noComp _ ps 2 0)

-- The banks begin inside the block.
theorem addrWalkOnes_plays :
    ∃ ps, (∀ r ∈ ps, r ∈ b.addrs) ∧ ∀ {σ : Type} (bus : Bus σ) {fuel : Nat}, b.cnt < fuel →
      ∃ gen' q, Plays bus (addrWalkOnes bus fuel b.start b.cnt noComp) 0 (onesScript noComp b ps) gen' q := by
  have huser := b.user
  have haligned := b.aligned
  have hround : roundup b.start (bank - 1) = (b.start + (2 ^ 20 - 1)) / 2 ^ 20 * 2 ^ 20 := by
    have h := @roundup_eq b.start 20 (by decide) (by omega)
    rwa [show 2 ^ 20 - 1 = bank - 1 from rfl] at h
  obtain ⟨ps, hvisits, hlength, hwords⟩ := @visits_banks (b.start + 8 * b.cnt) huser b.cnt
    (roundup b.start (bank - 1)) (by omega) (by omega)
  rw [← b.end_eq] at hvisits
  refine ⟨ps, fun r hr => ?_, fun {σ} bus {fuel} hfuel => ?_⟩
  · obtain ⟨hlow, hhigh, hr8⟩ := hwords r hr
    exact b.mem_addrs.mpr ⟨by omega, hhigh, hr8⟩
  · obtain ⟨gen₁, q₁, hglobal⟩ := globalBits_plays bus noComp b.start b.cnt 2 0 0
    obtain ⟨gen₂, q₂, hbanks⟩ := bankBits_plays bus noComp hvisits
      (Nat.lt_of_le_of_lt hlength hfuel) 2 0 gen₁
    rw [b.roundup_page] at hglobal
    exact ⟨gen₂, q₂, hglobal.andThen _ hbanks⟩

theorem addrWalkOnes_honours :
    Honours noComp b.cnt errFail fun _ fuel bus mem =>
      (addrWalkOnes bus.toBus fuel b.start b.cnt noComp).test 0 mem := by
  obtain ⟨ps, -, hplays⟩ := addrWalkOnes_plays b noComp
  have hsound : Sound noComp (onesScript noComp b ps) := by
    refine ⟨onesScript_fair b noComp ps, fun hyes => ?_⟩
    exact ⟨_, List.mem_append_left _ (globalScript_checks b noComp 1 0), by simp [expect, hyes]⟩
  exact honours_of_plays hsound fun σ fuel bus hfuel => hplays bus.toBus hfuel

theorem testAddrWalkOnes_honours :
    Honours noComp b.cnt errAddrWalkOnes (testAddrWalkOnes b.start (8 * b.cnt) noComp) := by
  unfold testAddrWalkOnes
  rw [cnt_of_bytes]
  exact (addrWalkOnes_honours b noComp).thenTest _ (by decide) harmless_done

end OnesTest

end MoBoMemory.TestLib
