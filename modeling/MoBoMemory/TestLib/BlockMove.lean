import MoBoMemory.TestLib.Spin

/-!
# Block moves

Item 6 fills the block with groups of eight words, moves the halves of every section about with
`rep movsl`, and looks at one group for each section.  A turn of the moves rotates the lower half by half
a group, so that after an even number of turns it consists of whole groups again.
-/

namespace MoBoMemory.TestLib

open Base

def errBlockMove : Nat := 0x10200015

section BlockMove

variable {σ : Type} (bus : LongBus σ)

/-! ## Filling -/

/-- `rclq $1, %rax`: the register and the carry flag. -/
def rclq (rax : UL) (cf : Bool) : UL × Bool := (rax <<< 1 ||| if cf then 1 else 0, rax.msb)

/-- The word at `8*k(%rdi)`, of `rax` and its complement `rdx`. -/
def groupWord (rax : UL) (k : Nat) : UL := if k = 2 ∨ k = 5 ∨ k = 7 then ~~~rax else rax

def fillGroup (rdi : Nat) (rax : UL) (mem : σ) : σ :=
  (List.range 8).foldl (fun mem k => bus.write mem (ptrAdd rdi k) (groupWord rax k)) mem

/-- The loop at `L100`; it gives back the memory and `rdi`. -/
def fillGroups : Nat → Nat → UL → Bool → σ → σ × Nat
  | 0, rdi, _, _, mem => (mem, rdi)
  | n + 1, rdi, rax, cf, mem =>
      fillGroups n (ptrAdd rdi 8) (rclq rax cf).1 (rclq rax cf).2 (fillGroup bus rdi rax mem)

/-- `decq %rcx; jnz L100`, which turns once for a count of 0 and then goes around. -/
def turnsOf (rcx : Nat) : Nat := if rcx = 0 then 2 ^ 64 else rcx

/-- The carry flag at the label is what the section finds. -/
def fillChunk (carry : Nat → Bool) (p pe : Nat) : Part σ Unit := fun s =>
  let out := fillGroups bus (turnsOf ((pe - p) / 64)) p 1 (carry p) s.mem
  some ({ s with mem := out.1 }, some out.2)

/-! ## Moving -/

/-- `rep; movsl` with `rcx`, `rsi` and `rdi`. -/
def repMovsl : Nat → Nat → Nat → σ → σ
  | 0, _, _, mem => mem
  | n + 1, rsi, rdi, mem =>
      let r := bus.readl mem rsi
      repMovsl n ((rsi + 4) % 2 ^ 64) ((rdi + 4) % 2 ^ 64) (bus.writel r.2 rdi r.1)

/-- The upper half gets the lower one, which gets it back 32 bytes further on; the last 32 bytes, at
which `rsi` is then, go to the front. -/
def moveOnce (p pp len : Nat) (mem : σ) : σ :=
  let rest := (len + 2 ^ 64 - 8) % 2 ^ 64
  let mem := repMovsl bus len p pp mem
  let mem := repMovsl bus rest pp ((p + 32) % 2 ^ 64) mem
  repMovsl bus 8 ((pp + 4 * rest) % 2 ^ 64) p mem

def moveChunk (iter p pe : Nat) : Part σ Unit := fun s =>
  let pp := ptrAdd p ((pe - p) / 8 / 2)
  some ({ s with mem := (moveOnce bus p pp ((pe - p) / 8))^[iter] s.mem }, some pe)

/-! ## Looking -/

/-- `p[i] != f(p[j])` -/
def differs (i : Nat) (f : UL → UL) (j : Nat) (mem : σ) : Bool × σ :=
  let x := bus.read mem i
  let y := bus.read x.2 j
  (x.1 ≠ f y.1, y.2)

/-- `if (...) ret = ERR_FAIL;` -/
def failIf (s : Scan σ Unit) (cond : σ → Bool × σ) : Scan σ Unit :=
  { s with mem := (cond s.mem).2, ret := if (cond s.mem).1 then errFail else s.ret }

def groupChecks (p : Nat) : List (σ → Bool × σ) :=
  [differs bus p id (ptrAdd p 1),
   differs bus (ptrAdd p 2) (~~~·) p,
   fun mem =>
     let third := differs bus p id (ptrAdd p 3) mem
     if third.1 then differs bus p id (ptrAdd p 4) third.2 else third,
   differs bus (ptrAdd p 5) (~~~·) p,
   differs bus p id (ptrAdd p 6),
   differs bus (ptrAdd p 7) (~~~·) p]

/-- `p += 64 / sizeof(UL)` is all that brings `p` on, whatever `pe` is. -/
def checkChunk (noComp : Int) (p _pe : Nat) : Part σ Unit := fun s =>
  let s := if noComp ≠ hasComparision then s else (groupChecks bus p).foldl failIf s
  some (s, if s.ret = errSuccess then some (ptrAdd p 8) else none)

/-! ## The test -/

def blockMove (carry : Nat → Bool) (fuel startP cnt iter : Nat) (noComp : Int) : Part σ Unit :=
  let sections := fun chunk => spinUp (spinsz * 4) (ptrAdd startP cnt) chunk fuel startP startP
  (sections (fillChunk bus carry)).andThen fun _ =>
  (sections (moveChunk bus iter)).andThen fun _ =>
  sections (checkChunk bus noComp)

end BlockMove

def testBlockMove (carry : Nat → Bool) (startP blockBytes iter : Nat) (noComp : Int) : MemTest :=
  fun _ fuel bus mem =>
    thenTest errBlockMove ((blockMove bus carry fuel startP (blockBytes / 8) iter noComp).test () mem)
      fun mem => some (errSuccess, mem)

/-! ## Groups in memory without faults -/

/-- The eight words from `q` on are a group. -/
def Whole (mem : Nat → UL) (q : Nat) : Prop := ∃ rax, ∀ k < 8, mem (q + 8 * k) = groupWord rax k

theorem Whole.congr {mem mem' : Nat → UL} {q q' : Nat} (h : Whole mem q)
    (heq : ∀ k < 8, mem' (q' + 8 * k) = mem (q + 8 * k)) : Whole mem' q' := by
  obtain ⟨rax, hwords⟩ := h
  exact ⟨rax, fun k hk => (heq k hk).trans (hwords k hk)⟩

theorem writes_range (w : Nat → UL) {q n : Nat} (hwrap : q + 8 * n < 2 ^ 64) (mem : Nat → UL) :
    (∀ k < n, (List.range n).foldl (fun mem k => faithfulBus.write mem (ptrAdd q k) (w k)) mem
      (q + 8 * k) = w k) ∧
    ∀ a, (∀ k < n, a ≠ q + 8 * k) →
      (List.range n).foldl (fun mem k => faithfulBus.write mem (ptrAdd q k) (w k)) mem a = mem a := by
  induction n with
  | zero => exact ⟨fun k hk => absurd hk (Nat.not_lt_zero k), fun _ _ => rfl⟩
  | succ n ih =>
      obtain ⟨hwords, hframe⟩ := ih (by omega)
      have haddr : ptrAdd q n = q + 8 * n := Nat.mod_eq_of_lt (by omega)
      rw [List.range_succ, List.foldl_append, List.foldl_cons, List.foldl_nil, haddr]
      refine ⟨fun k hk => ?_, fun a ha => ?_⟩
      · by_cases hlast : k = n
        · rw [hlast]
          exact Function.update_self ..
        · exact (Function.update_of_ne (by omega) _ _).trans (hwords k (by omega))
      · exact (Function.update_of_ne (ha n (by omega)) _ _).trans
          (hframe a fun k hk => ha k (by omega))

theorem fillGroup_whole {rdi : Nat} (hwrap : rdi + 64 < 2 ^ 64) (rax : UL) (mem : Nat → UL) :
    Whole (fillGroup faithfulLongBus rdi rax mem) rdi ∧
      ∀ a, a < rdi ∨ rdi + 64 ≤ a → fillGroup faithfulLongBus rdi rax mem a = mem a := by
  obtain ⟨hwords, hframe⟩ := writes_range (groupWord rax) (show rdi + 8 * 8 < 2 ^ 64 from hwrap) mem
  exact ⟨⟨rax, hwords⟩, fun a ha => hframe a fun k hk => by omega⟩

theorem fillGroups_rdi {σ : Type} (bus : LongBus σ) {n rdi : Nat} (hwrap : rdi + 64 * n < 2 ^ 64)
    (rax : UL) (cf : Bool) (mem : σ) : (fillGroups bus n rdi rax cf mem).2 = rdi + 64 * n := by
  induction n generalizing rdi rax cf mem with
  | zero => rfl
  | succ n ih =>
      have hnext : ptrAdd rdi 8 = rdi + 64 := Nat.mod_eq_of_lt (by omega)
      rw [fillGroups, hnext, ih (by omega)]
      omega

theorem fillGroups_whole {n rdi : Nat} (hwrap : rdi + 64 * n < 2 ^ 64) (rax : UL) (cf : Bool)
    (mem : Nat → UL) :
    (∀ g < n, Whole (fillGroups faithfulLongBus n rdi rax cf mem).1 (rdi + 64 * g)) ∧
      ∀ a, a < rdi ∨ rdi + 64 * n ≤ a →
        (fillGroups faithfulLongBus n rdi rax cf mem).1 a = mem a := by
  induction n generalizing rdi rax cf mem with
  | zero => exact ⟨fun g hg => absurd hg (Nat.not_lt_zero g), fun _ _ => rfl⟩
  | succ n ih =>
      have hnext : ptrAdd rdi 8 = rdi + 64 := Nat.mod_eq_of_lt (by omega)
      obtain ⟨hfirst, hframe⟩ := fillGroup_whole (show rdi + 64 < 2 ^ 64 by omega) rax mem
      obtain ⟨hrest, hkept⟩ := ih (show rdi + 64 + 64 * n < 2 ^ 64 by omega) (rclq rax cf).1
        (rclq rax cf).2 (fillGroup faithfulLongBus rdi rax mem)
      rw [fillGroups, hnext]
      refine ⟨fun g hg => ?_, fun a ha => ?_⟩
      · cases g with
        | zero => exact hfirst.congr fun k hk => hkept _ (by omega)
        | succ g =>
            rw [show rdi + 64 * (g + 1) = rdi + 64 + 64 * g by omega]
            exact hrest g (by omega)
      · rw [hkept a (by omega), hframe a (by omega)]

/-! ## Moving them -/

section Moves

-- Two long words make a word, the lower half first.
theorem movsl_word {src dst : Nat} (hsrc : src % 8 = 0) (hdst : dst % 8 = 0) (hne : dst ≠ src)
    (hwrap : src + 8 < 2 ^ 64 ∧ dst + 8 < 2 ^ 64) (n : Nat) (mem : Nat → UL) :
    repMovsl faithfulLongBus (n + 2) src dst mem =
      repMovsl faithfulLongBus n (src + 8) (dst + 8) (Function.update mem dst (mem src)) := by
  have hsrc' : (src + 4) % 2 ^ 64 = src + 4 := Nat.mod_eq_of_lt (by omega)
  have hdst' : (dst + 4) % 2 ^ 64 = dst + 4 := Nat.mod_eq_of_lt (by omega)
  have hsrc'' : (src + 4 + 4) % 2 ^ 64 = src + 8 := Nat.mod_eq_of_lt (by omega)
  have hdst'' : (dst + 4 + 4) % 2 ^ 64 = dst + 8 := Nat.mod_eq_of_lt (by omega)
  have hsrcl : ¬ (src + 4) % 8 = 0 := by omega
  have hdstl : ¬ (dst + 4) % 8 = 0 := by omega
  rw [repMovsl, repMovsl, hsrc', hdst', hsrc'', hdst'']
  simp only [faithfulLongBus, if_pos hsrc, if_pos hdst, if_neg hsrcl, if_neg hdstl,
    Nat.add_sub_cancel, Function.update_self, Function.update_of_ne (Ne.symm hne), Function.update_idem,
    BitVec.extractLsb'_append_eq_right]
  rw [BitVec.extractLsb'_append_extractLsb']

-- Words that do not overlap.
theorem repMovsl_words {n src dst : Nat} (hsrc : src % 8 = 0) (hdst : dst % 8 = 0)
    (hwrap : src + 8 * n < 2 ^ 64 ∧ dst + 8 * n < 2 ^ 64)
    (hapart : src + 8 * n ≤ dst ∨ dst + 8 * n ≤ src) (mem : Nat → UL) :
    (∀ i < n, repMovsl faithfulLongBus (2 * n) src dst mem (dst + 8 * i) = mem (src + 8 * i)) ∧
      ∀ a, a < dst ∨ dst + 8 * n ≤ a → repMovsl faithfulLongBus (2 * n) src dst mem a = mem a := by
  induction n generalizing src dst mem with
  | zero => exact ⟨fun i hi => absurd hi (Nat.not_lt_zero i), fun _ _ => rfl⟩
  | succ n ih =>
      obtain ⟨hwords, hframe⟩ := @ih (src + 8) (dst + 8) (by omega) (by omega) (by omega) (by omega)
        (Function.update mem dst (mem src))
      rw [show 2 * (n + 1) = 2 * n + 2 by omega, movsl_word hsrc hdst (by omega) (by omega)]
      refine ⟨fun i hi => ?_, fun a ha => ?_⟩
      · cases i with
        | zero => rw [hframe _ (by omega)]; exact Function.update_self ..
        | succ i =>
            rw [show dst + 8 * (i + 1) = dst + 8 + 8 * i by omega, hwords i (by omega),
              Function.update_of_ne (by omega)]
            congr 1
            omega
      · rw [hframe a (by omega), Function.update_of_ne (by omega)]

variable {p half : Nat} (hp : p % 8 = 0) (hwrap : p + 16 * half < 2 ^ 64)

/-- Where the word `i` of the lower half has been before a turn. -/
def rotated (half i : Nat) : Nat := if i < 4 then half - 4 + i else i - 4

include hp hwrap

theorem moveOnce_rotates (hhalf : 4 ≤ half) (mem : Nat → UL) :
    (∀ i < half, moveOnce faithfulLongBus p (p + 8 * half) (2 * half) mem (p + 8 * i) =
      mem (p + 8 * rotated half i)) ∧
    (∀ i < half, moveOnce faithfulLongBus p (p + 8 * half) (2 * half) mem (p + 8 * half + 8 * i) =
      mem (p + 8 * i)) ∧
    ∀ a, a < p ∨ p + 16 * half ≤ a →
      moveOnce faithfulLongBus p (p + 8 * half) (2 * half) mem a = mem a := by
  have hrest : (2 * half + 2 ^ 64 - 8) % 2 ^ 64 = 2 * (half - 4) := by omega
  have hsrc : (p + 8 * half + 4 * (2 * (half - 4))) % 2 ^ 64 = p + 8 * half + 8 * (half - 4) := by omega
  have hdst : (p + 32) % 2 ^ 64 = p + 32 := Nat.mod_eq_of_lt (by omega)
  simp only [moveOnce, hrest, hsrc, hdst]
  generalize hmem₁ : repMovsl faithfulLongBus (2 * half) p (p + 8 * half) mem = mem₁
  generalize hmem₂ : repMovsl faithfulLongBus (2 * (half - 4)) (p + 8 * half) (p + 32) mem₁ = mem₂
  obtain ⟨hup, hframe₁⟩ := @repMovsl_words half p (p + 8 * half) hp (by omega) (by omega) (by omega) mem
  obtain ⟨hdown, hframe₂⟩ := @repMovsl_words (half - 4) (p + 8 * half) (p + 32) (by omega) (by omega)
    (by omega) (by omega) mem₁
  obtain ⟨hfront, hframe₃⟩ := @repMovsl_words 4 (p + 8 * half + 8 * (half - 4)) p (by omega) hp
    (by omega) (by omega) mem₂
  rw [hmem₁] at hup hframe₁
  rw [hmem₂] at hdown hframe₂
  refine ⟨fun i hi => ?_, fun i hi => ?_, fun a ha => ?_⟩
  · by_cases hlow : i < 4
    · have hfrom : p + 8 * half + 8 * (half - 4) + 8 * i = p + 8 * half + 8 * (half - 4 + i) := by omega
      rw [rotated, if_pos hlow, hfront i hlow, hframe₂ _ (by omega), hfrom, hup _ (by omega)]
    · have hto : p + 8 * i = p + 32 + 8 * (i - 4) := by omega
      rw [rotated, if_neg hlow, hframe₃ _ (by omega), hto, hdown _ (by omega), hup _ (by omega)]
  · rw [hframe₃ _ (by omega), hframe₂ _ (by omega), hup i hi]
  · rw [hframe₃ a (by omega), hframe₂ a (by omega), hframe₁ a (by omega)]

-- Two turns bring every group to where the next one has been.
theorem twoTurns_whole {h : Nat} (hpos : 0 < h) (hh : half = 8 * h) (mem : Nat → UL) :
    ((∀ g < h, Whole mem (p + 64 * g)) → ∀ g < h,
      Whole ((moveOnce faithfulLongBus p (p + 8 * half) (2 * half))^[2] mem) (p + 64 * g)) ∧
    ∀ a, a < p ∨ p + 16 * half ≤ a →
      (moveOnce faithfulLongBus p (p + 8 * half) (2 * half))^[2] mem a = mem a := by
  rw [Function.iterate_succ_apply, Function.iterate_one]
  generalize hmem₁ : moveOnce faithfulLongBus p (p + 8 * half) (2 * half) mem = mem₁
  generalize hmem₂ : moveOnce faithfulLongBus p (p + 8 * half) (2 * half) mem₁ = mem₂
  obtain ⟨hturn₁, -, hframe₁⟩ := moveOnce_rotates hp hwrap (by omega) mem
  obtain ⟨hturn₂, -, hframe₂⟩ := moveOnce_rotates hp hwrap (by omega) mem₁
  rw [hmem₁] at hturn₁ hframe₁
  rw [hmem₂] at hturn₂ hframe₂
  refine ⟨fun hall g hg => ?_, fun a ha => by rw [hframe₂ a ha, hframe₁ a ha]⟩
  obtain ⟨g', hg', hback⟩ : ∃ g' < h, ∀ k < 8, rotated half (rotated half (8 * g + k)) = 8 * g' + k := by
    cases g with
    | zero => exact ⟨h - 1, by omega, fun k hk => by unfold rotated; split_ifs <;> omega⟩
    | succ g => exact ⟨g, by omega, fun k hk => by unfold rotated; split_ifs <;> omega⟩
  refine (hall g' hg').congr fun k hk => ?_
  have hlt : rotated half (8 * g + k) < half := by
    unfold rotated
    split <;> omega
  have hto : p + 64 * g + 8 * k = p + 8 * (8 * g + k) := by omega
  have hfrom : p + 64 * g' + 8 * k = p + 8 * (8 * g' + k) := by omega
  rw [hto, hfrom, hturn₂ _ (by omega), hturn₁ _ hlt, hback k hk]

theorem moves_whole {h : Nat} (hpos : 0 < h) (hh : half = 8 * h) (n : Nat) (mem : Nat → UL) :
    ((∀ g < h, Whole mem (p + 64 * g)) → ∀ g < h,
      Whole ((moveOnce faithfulLongBus p (p + 8 * half) (2 * half))^[2 * n] mem) (p + 64 * g)) ∧
    ∀ a, a < p ∨ p + 16 * half ≤ a →
      (moveOnce faithfulLongBus p (p + 8 * half) (2 * half))^[2 * n] mem a = mem a := by
  rw [Function.iterate_mul]
  induction n generalizing mem with
  | zero => exact ⟨fun hall => hall, fun _ _ => rfl⟩
  | succ n ih =>
      obtain ⟨hwhole, hframe⟩ := twoTurns_whole hp hwrap hpos hh mem
      obtain ⟨hwhole', hframe'⟩ := ih ((moveOnce faithfulLongBus p (p + 8 * half) (2 * half))^[2] mem)
      rw [Function.iterate_succ_apply]
      exact ⟨fun hall => hwhole' (hwhole hall), fun a ha => (hframe' a ha).trans (hframe a ha)⟩

end Moves

/-! ## Chunk after chunk -/

section Chunks

variable (b : Block)

/-- What `p` and `pe` are like in the loops that bring `p` to `pe`. -/
structure Block.Chunk (b : Block) (p pe : Nat) : Prop where
  inside : b.start ≤ p ∧ pe ≤ b.start + 8 * b.cnt
  size : 4096 ∣ pe - p
  lt : p < pe

def Block.chunkStart (b : Block) (k : Nat) : Nat := b.start + 8 * (spinsz * 4) * k

def Block.chunkEnd (b : Block) (k : Nat) : Nat :=
  min (b.chunkStart k + 8 * (spinsz * 4)) (b.start + 8 * b.cnt)

theorem fillChunk_eq {σ : Type} (bus : LongBus σ) (carry : Nat → Bool) {p pe : Nat} (h : b.Chunk p pe)
    (s : Scan σ Unit) : fillChunk bus carry p pe s =
      some ({ s with mem := (fillGroups bus ((pe - p) / 64) p 1 (carry p) s.mem).1 }, some pe) := by
  obtain ⟨⟨-, hin⟩, hsize, hlt⟩ := h
  have hwrap := b.noWrap
  have hcount : turnsOf ((pe - p) / 64) = (pe - p) / 64 := if_neg (by omega)
  have hend := fillGroups_rdi bus (show p + 64 * ((pe - p) / 64) < 2 ^ 64 by omega) 1 (carry p) s.mem
  rw [show p + 64 * ((pe - p) / 64) = pe by omega] at hend
  simp only [fillChunk, hcount, hend]

theorem moveChunk_eq {σ : Type} (bus : LongBus σ) (iter : Nat) {p pe : Nat} (h : b.Chunk p pe)
    (s : Scan σ Unit) : moveChunk bus iter p pe s =
      some ({ s with mem :=
        (moveOnce bus p (p + 8 * ((pe - p) / 16)) (2 * ((pe - p) / 16)))^[iter] s.mem }, some pe) := by
  obtain ⟨⟨-, hin⟩, hsize, hlt⟩ := h
  have hwrap := b.noWrap
  have hpp : ptrAdd p ((pe - p) / 8 / 2) = p + 8 * ((pe - p) / 16) := by
    unfold ptrAdd
    omega
  have hlen : (pe - p) / 8 = 2 * ((pe - p) / 16) := by omega
  rw [moveChunk, hpp, hlen]

theorem Block.chunk (hsize : 4096 ∣ 8 * b.cnt) {k : Nat} (hk : b.chunkStart k < b.start + 8 * b.cnt) :
    b.Chunk (b.chunkStart k) (b.chunkEnd k) := by
  unfold Block.chunkEnd Block.chunkStart spinsz at *
  exact ⟨by omega, by omega, by omega⟩

-- What each chunk keeps, told at the ends of the chunks.
theorem chunks_run (hsize : 4096 ∣ 8 * b.cnt) {σ : Type} {chunk : Nat → Nat → Part σ Unit}
    {f : Nat → Nat → σ → σ}
    (hchunk : ∀ p pe s, b.Chunk p pe → chunk p pe s = some ({ s with mem := f p pe s.mem }, some pe))
    {Q : Nat → σ → Prop}
    (hQ : ∀ k mem, b.chunkStart k < b.start + 8 * b.cnt → Q (b.chunkStart k) mem →
      Q (b.chunkEnd k) (f (b.chunkStart k) (b.chunkEnd k) mem))
    {fuel : Nat} (hfuel : b.cnt < fuel) {mem : σ} (hstart : Q b.start mem) :
    ∃ mem', spinUp (spinsz * 4) (ptrAdd b.start b.cnt) chunk fuel b.start b.start ⟨mem, errSuccess, ()⟩ =
      some (⟨mem', errSuccess, ()⟩, some (b.start + 8 * b.cnt)) ∧ Q (b.start + 8 * b.cnt) mem' := by
  have hwrap := b.noWrap
  have hcnt := b.cnt_pos
  have hrun := @spinUp_run σ Unit chunk (spinsz * 4) (b.start + 8 * b.cnt)
    (fun pe p s => p = pe ∧ (pe < b.start + 8 * b.cnt → ∃ k, pe = b.chunkStart k) ∧
      s.ret = errSuccess ∧ Q pe s.mem)
    (by unfold spinsz; omega) (by unfold spinsz; omega) hwrap ?_ fuel b.start b.start
    ⟨mem, errSuccess, ()⟩ (by omega) (by omega) ⟨rfl, fun _ => ⟨0, rfl⟩, rfl, hstart⟩
  · obtain ⟨⟨mem', ret, gen⟩, p', hrun, rfl, -, rfl, hend⟩ := hrun
    rw [b.end_eq]
    exact ⟨mem', hrun, hend⟩
  · rintro pe p s hpe ⟨rfl, hwhere, hret, hmem⟩
    obtain ⟨k, rfl⟩ := hwhere hpe
    have hk := b.chunk hsize hpe
    refine ⟨Nat.ne_of_lt hk.lt, _, _, hchunk _ _ s hk, rfl, fun hmore => ⟨k + 1, ?_⟩, hret, hQ k s.mem hpe hmem⟩
    unfold Block.chunkStart spinsz at hmore ⊢
    omega

end Chunks

/-! ## Section after section -/

section Sections

variable (b : PageBlock)

/-- What `p` and `pe` are like in the loops that move on with whole sections. -/
structure PageBlock.Section (b : PageBlock) (p pe : Nat) : Prop where
  inside : b.start ≤ p ∧ pe ≤ b.start + 8 * b.cnt
  pages : 4096 ∣ p ∧ 4096 ∣ pe
  lt : p < pe

theorem PageBlock.Section.chunk {b : PageBlock} {p pe : Nat} (h : b.Section p pe) : b.Chunk p pe := by
  obtain ⟨hinside, hpages, hlt⟩ := h
  exact ⟨hinside, by omega, hlt⟩

/-- A section takes what holds of the memory up to `p` to what holds up to `pe`. -/
def PageBlock.Carries (b : PageBlock) {σ : Type} (f : Nat → Nat → σ → σ) (Q : Nat → σ → Prop) : Prop :=
  ∀ p pe mem, b.Section p pe → pe = b.start + 8 * b.cnt ∧ pe ≤ p + 8 * (spinsz * 4) ∨
    pe = p + 8 * (spinsz * 4) → Q p mem → Q pe (f p pe mem)

theorem sections_run {σ : Type} {chunk : Nat → Nat → Part σ Unit} {f : Nat → Nat → σ → σ}
    (hchunk : ∀ p pe s, b.Chunk p pe → chunk p pe s = some ({ s with mem := f p pe s.mem }, some pe))
    {Q : Nat → σ → Prop} (hQ : b.Carries f Q) {fuel : Nat} (hfuel : b.cnt < fuel) {mem : σ}
    (hstart : Q b.start mem) :
    ∃ mem', spinUp (spinsz * 4) (ptrAdd b.start b.cnt) chunk fuel b.start b.start ⟨mem, errSuccess, ()⟩ =
      some (⟨mem', errSuccess, ()⟩, some (b.start + 8 * b.cnt)) ∧ Q (b.start + 8 * b.cnt) mem' := by
  have hpages := b.pages
  refine chunks_run b.toBlock (by omega) hchunk ?_ hfuel hstart
  intro k mem hk hmem
  refine hQ _ _ mem ?_ ?_ hmem
  · unfold Block.chunkEnd Block.chunkStart spinsz at *
    exact ⟨by omega, by omega, by omega⟩
  · unfold Block.chunkEnd
    omega

theorem fill_run (carry : Nat → Bool) {σ : Type} (bus : LongBus σ) (Q : Nat → σ → Prop)
    (hQ : b.Carries (fun p pe mem => (fillGroups bus ((pe - p) / 64) p 1 (carry p) mem).1) Q)
    {fuel : Nat} (hfuel : b.cnt < fuel) (mem : σ) (hstart : Q b.start mem) :
    ∃ mem', spinUp (spinsz * 4) (ptrAdd b.start b.cnt) (fillChunk bus carry) fuel b.start b.start
        ⟨mem, errSuccess, ()⟩ =
      some (⟨mem', errSuccess, ()⟩, some (b.start + 8 * b.cnt)) ∧ Q (b.start + 8 * b.cnt) mem' :=
  sections_run b (fun _ _ s h => fillChunk_eq b.toBlock bus carry h s) hQ hfuel hstart

theorem move_run {σ : Type} (bus : LongBus σ) (iter : Nat) (Q : Nat → σ → Prop)
    (hQ : b.Carries (fun p pe mem =>
      (moveOnce bus p (p + 8 * ((pe - p) / 16)) (2 * ((pe - p) / 16)))^[iter] mem) Q) {fuel : Nat}
    (hfuel : b.cnt < fuel) (mem : σ) (hstart : Q b.start mem) :
    ∃ mem', spinUp (spinsz * 4) (ptrAdd b.start b.cnt) (moveChunk bus iter) fuel b.start b.start
        ⟨mem, errSuccess, ()⟩ =
      some (⟨mem', errSuccess, ()⟩, some (b.start + 8 * b.cnt)) ∧ Q (b.start + 8 * b.cnt) mem' :=
  sections_run b (fun _ _ s h => moveChunk_eq b.toBlock bus iter h s) hQ hfuel hstart

end Sections

/-! ## It honours the flag -/

section Flag

variable (b : PageBlock) (carry : Nat → Bool) (noComp : Int)

-- Nothing is compared before the last loop.
theorem blockMove_eq {σ : Type} (bus : LongBus σ) {fuel : Nat} (hfuel : b.cnt < fuel) (iter : Nat)
    (mem : σ) : ∃ mem', blockMove bus carry fuel b.start b.cnt iter noComp ⟨mem, errSuccess, ()⟩ =
      spinUp (spinsz * 4) (ptrAdd b.start b.cnt) (checkChunk bus noComp) fuel b.start b.start
        ⟨mem', errSuccess, ()⟩ := by
  obtain ⟨mem₁, hfill, -⟩ := fill_run b carry bus (fun _ _ => True) (fun _ _ _ _ _ _ => trivial)
    hfuel mem trivial
  obtain ⟨mem₂, hmove, -⟩ := move_run b bus iter (fun _ _ => True) (fun _ _ _ _ _ _ => trivial)
    hfuel mem₁ trivial
  exact ⟨mem₂, by simp only [blockMove, Part.andThen, hfill, hmove]⟩

/-- The groups in the lower half of the first section. -/
def lowGroups (b : Block) : Nat := min (8 * b.cnt) (8 * (spinsz * 4)) / 128

theorem fill_carries : b.Carries
    (fun p pe mem => (fillGroups faithfulLongBus ((pe - p) / 64) p 1 (carry p) mem).1)
    fun pe mem => ∀ g, b.start + 64 * g < pe → Whole mem (b.start + 64 * g) := by
  intro p pe mem h _ hwhole g hg
  obtain ⟨⟨hlow, hin⟩, hpage, hlt⟩ := h
  have huser := b.user
  have hpages := b.pages
  obtain ⟨hnew, hframe⟩ := @fillGroups_whole ((pe - p) / 64) p (by omega) 1 (carry p) mem
  by_cases hold : b.start + 64 * g < p
  · exact (hwhole g hold).congr fun k hk => hframe _ (Or.inl (by omega))
  · obtain ⟨g', hg'⟩ : ∃ g', b.start + 64 * g = p + 64 * g' := ⟨(b.start + 64 * g - p) / 64, by omega⟩
    rw [hg'] at hg ⊢
    exact hnew g' (by omega)

-- Later sections do not come near them.
theorem move_carries (n : Nat) : b.Carries
    (fun p pe mem =>
      (moveOnce faithfulLongBus p (p + 8 * ((pe - p) / 16)) (2 * ((pe - p) / 16)))^[2 * n] mem)
    fun pe mem => (pe = b.start ∨ b.start + 128 * lowGroups b.toBlock ≤ pe) ∧
      ∀ g < lowGroups b.toBlock, Whole mem (b.start + 64 * g) := by
  rintro p pe mem h hend ⟨hwhere, hwhole⟩
  obtain ⟨⟨hlow, hin⟩, hpage, hlt⟩ := h
  have huser := b.user
  have hpages := b.pages
  obtain ⟨hmoves, hframe⟩ := @moves_whole p ((pe - p) / 16) (by omega) (by omega) ((pe - p) / 128)
    (by omega) (by omega) n mem
  unfold spinsz at hend
  rcases hwhere with rfl | hhigh
  · have hsame : lowGroups b.toBlock = (pe - b.start) / 128 := by
      unfold lowGroups spinsz
      omega
    rw [hsame] at hwhole ⊢
    exact ⟨Or.inr (by omega), hmoves hwhole⟩
  · exact ⟨Or.inr (by omega), fun g hg => (hwhole g hg).congr fun k hk => hframe _ (by omega)⟩

theorem blockMove_whole {fuel : Nat} (hfuel : b.cnt < fuel) {iter : Nat} (heven : iter % 2 = 0)
    (mem : Nat → UL) : ∃ mem',
      blockMove faithfulLongBus carry fuel b.start b.cnt iter noComp ⟨mem, errSuccess, ()⟩ =
        spinUp (spinsz * 4) (ptrAdd b.start b.cnt) (checkChunk faithfulLongBus noComp) fuel
          b.start b.start ⟨mem', errSuccess, ()⟩ ∧
      ∀ g < lowGroups b.toBlock, Whole mem' (b.start + 64 * g) := by
  obtain ⟨n, rfl⟩ : ∃ n, iter = 2 * n := ⟨iter / 2, by omega⟩
  obtain ⟨mem₁, hfill, hfilled⟩ := fill_run b carry faithfulLongBus _ (fill_carries b carry) hfuel mem
    fun g hg => by omega
  have hlow : ∀ g < lowGroups b.toBlock, Whole mem₁ (b.start + 64 * g) := by
    intro g hg
    unfold lowGroups at hg
    exact hfilled g (by omega)
  obtain ⟨mem₂, hmove, -, hmoved⟩ := move_run b faithfulLongBus (2 * n) _ (move_carries b n) hfuel mem₁
    ⟨Or.inl rfl, hlow⟩
  exact ⟨mem₂, by simp only [blockMove, Part.andThen, hfill, hmove], hmoved⟩

/-- What the loop that looks at the groups needs: a test of each group that does not fail. -/
theorem check_run {σ : Type} {bus : LongBus σ} {R : σ → Prop} {fuel : Nat} (hfuel : b.cnt < fuel)
    (hgroup : ∀ k pe mem, 8 * (spinsz * 4) * k < 8 * b.cnt → R mem →
      ∃ mem', checkChunk bus noComp (b.start + 64 * k) pe ⟨mem, errSuccess, ()⟩ =
        some (⟨mem', errSuccess, ()⟩, some (b.start + 64 * (k + 1))) ∧ R mem')
    {mem : σ} (hmem : R mem) :
    ∃ mem' q, spinUp (spinsz * 4) (ptrAdd b.start b.cnt) (checkChunk bus noComp) fuel b.start b.start
      ⟨mem, errSuccess, ()⟩ = some (⟨mem', errSuccess, ()⟩, some q) := by
  have huser := b.user
  have hcnt := b.cnt_ge
  rw [b.end_eq]
  have hrun := @spinUp_run σ Unit (checkChunk bus noComp) (spinsz * 4) (b.start + 8 * b.cnt)
    (fun pe p s => s.ret = errSuccess ∧ R s.mem ∧
      (pe < b.start + 8 * b.cnt → ∃ k, p = b.start + 64 * k ∧ pe = b.start + 8 * (spinsz * 4) * k))
    (by unfold spinsz; omega) (by unfold spinsz; omega) (by omega) ?_ fuel b.start b.start
    ⟨mem, errSuccess, ()⟩ (by omega) (by omega) ⟨rfl, hmem, fun _ => ⟨0, rfl, rfl⟩⟩
  · obtain ⟨⟨mem', ret, gen⟩, q, hrun, rfl, -, -⟩ := hrun
    exact ⟨mem', q, hrun⟩
  · rintro pe p ⟨mem, ret, gen⟩ hpe ⟨rfl, hR, hwhere⟩
    obtain ⟨k, rfl, rfl⟩ := hwhere hpe
    obtain ⟨mem', hcheck, hR'⟩ := hgroup k (min (b.start + 8 * (spinsz * 4) * k + 8 * (spinsz * 4))
      (b.start + 8 * b.cnt)) mem (by omega) hR
    unfold spinsz at *
    exact ⟨by omega, _, _, hcheck, rfl, hR', fun hmore => ⟨k + 1, rfl, by omega⟩⟩

theorem checkChunk_whole {mem : Nat → UL} {p : Nat} (hp : p + 64 < 2 ^ 64) (hwhole : Whole mem p)
    (pe : Nat) : checkChunk faithfulLongBus noComp p pe ⟨mem, errSuccess, ()⟩ =
      some (⟨mem, errSuccess, ()⟩, some (p + 64)) := by
  obtain ⟨rax, hwords⟩ := hwhole
  have hword : ∀ k < 8, mem (ptrAdd p k) = groupWord rax k := by
    intro k hk
    rw [← hwords k hk, ptrAdd, Nat.mod_eq_of_lt (by omega)]
  have hfirst : mem p = rax := hwords 0 (by decide)
  have hnext : ptrAdd p 8 = p + 64 := Nat.mod_eq_of_lt (by omega)
  have hchecks : (groupChecks faithfulLongBus p).foldl failIf ⟨mem, errSuccess, ()⟩ =
      ⟨mem, errSuccess, ()⟩ := by
    simp [groupChecks, differs, failIf, faithfulLongBus, faithfulBus, hfirst, hword, groupWord]
  rw [checkChunk, hchecks, ite_self, hnext]
  rfl

-- A word is not its own complement.
theorem groupChecks_const (c : UL) (p : Nat) :
    ((groupChecks (constBus c) p).foldl failIf ⟨(), errSuccess, ()⟩).ret = errFail := by
  have hne : c ≠ ~~~c := by bv_omega
  simp [groupChecks, differs, failIf, constBus, hne]

theorem blockMove_skips (hno : noComp ≠ hasComparision) {σ : Type} (bus : LongBus σ) {fuel : Nat}
    (hfuel : b.cnt < fuel) (iter : Nat) (mem : σ) :
    ∃ mem', (blockMove bus carry fuel b.start b.cnt iter noComp).test () mem =
      some (errSuccess, mem') := by
  have huser := b.user
  obtain ⟨mem₁, hmoved⟩ := blockMove_eq b carry noComp bus hfuel iter mem
  have hskip : ∀ k pe mem, 8 * (spinsz * 4) * k < 8 * b.cnt → True →
      ∃ mem', checkChunk bus noComp (b.start + 64 * k) pe ⟨mem, errSuccess, ()⟩ =
        some (⟨mem', errSuccess, ()⟩, some (b.start + 64 * (k + 1))) ∧ True := by
    intro k pe mem hk _
    have hnext : ptrAdd (b.start + 64 * k) 8 = b.start + 64 * (k + 1) := by
      unfold ptrAdd spinsz at *
      omega
    exact ⟨mem, by rw [checkChunk, if_pos hno, hnext]; rfl, trivial⟩
  obtain ⟨mem', q, hrun⟩ := check_run b noComp hfuel hskip trivial
  exact ⟨mem', by rw [Part.test, hmoved, hrun]; rfl⟩

theorem blockMove_passes {fuel : Nat} (hfuel : b.cnt < fuel) {iter : Nat} (heven : iter % 2 = 0)
    (mem : Nat → UL) :
    ∃ mem', (blockMove faithfulLongBus carry fuel b.start b.cnt iter noComp).test () mem =
      some (errSuccess, mem') := by
  have huser := b.user
  have hcnt := b.cnt_ge
  obtain ⟨mem₁, hmoved, hwhole⟩ := blockMove_whole b carry noComp hfuel heven mem
  have hgroup : ∀ k pe mem, 8 * (spinsz * 4) * k < 8 * b.cnt → mem = mem₁ →
      ∃ mem', checkChunk faithfulLongBus noComp (b.start + 64 * k) pe ⟨mem, errSuccess, ()⟩ =
        some (⟨mem', errSuccess, ()⟩, some (b.start + 64 * (k + 1))) ∧ mem' = mem₁ := by
    rintro k pe mem hk rfl
    -- there are not more sections than groups in the lower half of the first one
    have hlow : k < lowGroups b.toBlock := by
      unfold lowGroups spinsz at *
      omega
    unfold spinsz at hk
    exact ⟨mem, checkChunk_whole noComp (by omega) (hwhole k hlow) pe, rfl⟩
  obtain ⟨mem', q, hrun⟩ := check_run b noComp hfuel hgroup rfl
  exact ⟨mem', by rw [Part.test, hmoved, hrun]; rfl⟩

-- The first section finds it and leaves.
theorem blockMove_catches (hyes : noComp = hasComparision) (c : UL) {fuel : Nat} (hfuel : b.cnt < fuel)
    (iter : Nat) :
    ∃ mem', (blockMove (constBus c) carry fuel b.start b.cnt iter noComp).test () () =
      some (errFail, mem') := by
  have huser := b.user
  have hcnt := b.cnt_ge
  obtain ⟨mem₁, hmoved⟩ := blockMove_eq b carry noComp (constBus c) hfuel iter ()
  have hret := groupChecks_const c b.start
  generalize hs : (groupChecks (constBus c) b.start).foldl failIf ⟨(), errSuccess, ()⟩ = s at hret
  have hcheck : ∀ pe, checkChunk (constBus c) noComp b.start pe ⟨(), errSuccess, ()⟩ =
      some (s, none) := by
    intro pe
    rw [checkChunk, if_neg (not_not.mpr hyes), hs, hret]
    rfl
  obtain ⟨n, rfl⟩ : ∃ n, fuel = n + 1 := ⟨fuel - 1, by omega⟩
  have hleaves := @spinUp_leaves Unit Unit (checkChunk (constBus c) noComp) (spinsz * 4)
    (ptrAdd b.start b.cnt) (by unfold spinsz; omega) (by unfold spinsz; omega)
    (by rw [b.end_eq]; omega) n b.start b.start ⟨(), errSuccess, ()⟩ s (by rw [b.end_eq]; omega)
    (by rw [b.end_eq]; unfold spinsz; omega) (hcheck _)
  exact ⟨s.mem, by rw [Part.test, hmoved, hleaves, Option.map_some, hret]⟩

theorem blockMove_honours {iter : Nat} (heven : iter % 2 = 0) :
    Honours noComp b.cnt errFail fun _ fuel bus mem =>
      (blockMove bus carry fuel b.start b.cnt iter noComp).test () mem :=
  { skips := fun hno _ bus mem _ hfuel => blockMove_skips b carry noComp hno bus hfuel iter mem
    passes := fun mem _ hfuel => blockMove_passes b carry noComp hfuel heven mem
    catches := fun hyes => ⟨0, fun _ hfuel => blockMove_catches b carry noComp hyes 0 hfuel iter⟩ }

theorem testBlockMove_honours {iter : Nat} (heven : iter % 2 = 0) :
    Honours noComp b.cnt errBlockMove (testBlockMove carry b.start (8 * b.cnt) iter noComp) := by
  unfold testBlockMove
  rw [cnt_of_bytes]
  exact (blockMove_honours b carry noComp heven).thenTest _ (by decide) harmless_done

end Flag

end MoBoMemory.TestLib
