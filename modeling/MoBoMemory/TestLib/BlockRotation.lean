import MoBoMemory.TestLib.BlockMove

/-!
# What the block moves leave behind

Each turn of the moves rotates the lower half of a chunk up by 32 bytes, and the upper half is the lower one
of the turn before.  The groups that are looked at afterwards lie in the lower half of the first chunk, and
an even number of turns rotates it by whole groups.
-/

namespace MoBoMemory.TestLib

open Base

/-- The `n` words from `q` on are those that were at `p`, rotated up by `d` words. -/
def RotatedUp (old new : Nat → UL) (p q n d : Nat) : Prop :=
  ∀ i < n, new (q + 8 * ((i + d) % n)) = old (p + 8 * i)

/-! ## Turns -/

section Turns

variable {p half : Nat} (hp : p % 8 = 0) (hwrap : p + 16 * half < 2 ^ 64) (hhalf : 4 ≤ half)

-- The word that goes to four words behind `i` was at `i`, around the end of the half.
theorem rotated_add {i : Nat} (hi : i < half) (hhalf : 4 ≤ half) : rotated half ((i + 4) % half) = i := by
  unfold rotated
  by_cases hend : i + 4 < half
  · rw [Nat.mod_eq_of_lt hend]
    split <;> omega
  · rw [Nat.mod_eq_sub_mod (Nat.not_lt.mp hend), Nat.mod_eq_of_lt (by omega)]
    split <;> omega

include hp hwrap hhalf

theorem moveOnce_rotatedUp {old mem : Nat → UL} {d : Nat} (h : RotatedUp old mem p p half d) :
    RotatedUp old (moveOnce faithfulLongBus p (p + 8 * half) (2 * half) mem) p p half (d + 4) ∧
      RotatedUp old (moveOnce faithfulLongBus p (p + 8 * half) (2 * half) mem) p (p + 8 * half) half d := by
  obtain ⟨hlower, hupper, -⟩ := moveOnce_rotates hp hwrap hhalf mem
  have hlt : ∀ i, i % half < half := fun i => Nat.mod_lt _ (by omega)
  refine ⟨fun i hi => ?_, fun i hi => ?_⟩
  · have hfour : (i + (d + 4)) % half = ((i + d) % half + 4) % half := by
      rw [Nat.mod_add_mod, Nat.add_assoc]
    rw [hlower _ (hlt _), hfour, rotated_add (hlt _) hhalf, h i hi]
  · rw [hupper _ (hlt _), h i hi]

theorem moves_rotatedUp (mem : Nat → UL) (n : Nat) :
    RotatedUp mem ((moveOnce faithfulLongBus p (p + 8 * half) (2 * half))^[n] mem) p p half (4 * n) ∧
      (0 < n → RotatedUp mem ((moveOnce faithfulLongBus p (p + 8 * half) (2 * half))^[n] mem) p
        (p + 8 * half) half (4 * (n - 1))) ∧
      ∀ a, a < p ∨ p + 16 * half ≤ a →
        (moveOnce faithfulLongBus p (p + 8 * half) (2 * half))^[n] mem a = mem a := by
  induction n with
  | zero =>
      refine ⟨fun i hi => ?_, fun hpos => absurd hpos (lt_irrefl 0), fun _ _ => rfl⟩
      rw [Nat.mod_eq_of_lt (by omega)]
      rfl
  | succ n ih =>
      obtain ⟨hlower, -, hframe⟩ := ih
      obtain ⟨hlower', hupper'⟩ := moveOnce_rotatedUp hp hwrap hhalf hlower
      obtain ⟨-, -, hframe'⟩ := moveOnce_rotates hp hwrap hhalf
        ((moveOnce faithfulLongBus p (p + 8 * half) (2 * half))^[n] mem)
      rw [Function.iterate_succ_apply']
      exact ⟨hlower', fun _ => hupper', fun a ha => (hframe' a ha).trans (hframe a ha)⟩

end Turns

theorem RotatedUp.congr {old new old' new' : Nat → UL} {p q n d : Nat} (h : RotatedUp old new p q n d)
    (hold : ∀ i < n, old' (p + 8 * i) = old (p + 8 * i))
    (hnew : ∀ i < n, new' (q + 8 * i) = new (q + 8 * i)) : RotatedUp old' new' p q n d := by
  intro i hi
  rw [hnew _ (Nat.mod_lt _ (by omega)), hold i hi, h i hi]

-- A rotation by whole groups takes groups to groups.
theorem RotatedUp.whole {old new : Nat → UL} {p h n : Nat} (h' : RotatedUp old new p p (8 * h) (8 * n))
    (hwhole : ∀ g < h, Whole old (p + 64 * g)) {g : Nat} (hg : g < h) : Whole new (p + 64 * g) := by
  obtain ⟨g', hg', hback⟩ : ∃ g' < h, (g' + n) % h = g := by
    refine ⟨(g + (h - n % h)) % h, Nat.mod_lt _ (by omega), ?_⟩
    have hle := Nat.mod_lt n (show 0 < h by omega)
    rw [Nat.mod_add_mod, ← Nat.add_mod_mod, Nat.add_assoc, Nat.sub_add_cancel (by omega),
      Nat.add_mod_right, Nat.mod_eq_of_lt hg]
  refine (hwhole g' hg').congr fun k hk => ?_
  have hword : (8 * g' + k + 8 * n) % (8 * h) = 8 * g + k := by
    rw [Nat.mod_mul, show (8 * g' + k + 8 * n) / 8 = g' + n by omega, hback]
    omega
  have hturned := h' (8 * g' + k) (by omega)
  rw [hword] at hturned
  rw [show p + 64 * g + 8 * k = p + 8 * (8 * g + k) by omega, hturned]
  congr 1
  omega

/-! ## The two loops -/

section Loops

variable (b : Block) (carry : Nat → Bool)

/-- Words in half of chunk `k`. -/
def Block.halfChunk (b : Block) (k : Nat) : Nat := (b.chunkEnd k - b.chunkStart k) / 16

theorem Block.chunkEnd_le {j k : Nat} (hjk : j < k) : b.chunkEnd j ≤ b.chunkStart k := by
  have hnext : 8 * (spinsz * 4) * (j + 1) ≤ 8 * (spinsz * 4) * k := Nat.mul_le_mul_left _ hjk
  rw [Nat.mul_succ] at hnext
  unfold Block.chunkEnd Block.chunkStart
  omega

theorem Block.chunkStart_succ (k : Nat) : b.chunkStart (k + 1) = b.chunkStart k + 8 * (spinsz * 4) := by
  rw [Block.chunkStart, Block.chunkStart, Nat.mul_succ, Nat.add_assoc]

theorem Block.chunkStart_lt {j k : Nat} (hjk : j < k) : b.chunkStart j < b.chunkStart k :=
  Nat.add_lt_add_left (Nat.mul_lt_mul_of_pos_left hjk (by decide)) _

/-- The loop that fills the block, from `mem` on. -/
def fillLoop {σ : Type} (bus : LongBus σ) (carry : Nat → Bool) (fuel : Nat) (b : Block) : Part σ Unit :=
  spinUp (spinsz * 4) (ptrAdd b.start b.cnt) (fillChunk bus carry) fuel b.start b.start

/-- The loop that moves the data around. -/
def moveLoop {σ : Type} (bus : LongBus σ) (fuel : Nat) (b : Block) (iter : Nat) : Part σ Unit :=
  spinUp (spinsz * 4) (ptrAdd b.start b.cnt) (moveChunk bus iter) fuel b.start b.start

/-- The loop that checks the data. -/
def checkLoop {σ : Type} (bus : LongBus σ) (fuel : Nat) (b : Block) (noComp : Int) : Part σ Unit :=
  spinUp (spinsz * 4) (ptrAdd b.start b.cnt) (checkChunk bus noComp) fuel b.start b.start

theorem blockMove_eq_loops {σ : Type} (bus : LongBus σ) (fuel iter : Nat) (noComp : Int) :
    blockMove bus carry fuel b.start b.cnt iter noComp =
      (fillLoop bus carry fuel b).andThen fun _ =>
        (moveLoop bus fuel b iter).andThen fun _ => checkLoop bus fuel b noComp := rfl

variable (hsize : 4096 ∣ 8 * b.cnt) {fuel : Nat} (hfuel : b.cnt < fuel)
include hsize hfuel

theorem fillLoop_whole (mem : Nat → UL) :
    ∃ mem', fillLoop faithfulLongBus carry fuel b ⟨mem, errSuccess, ()⟩ =
        some (⟨mem', errSuccess, ()⟩, some (b.start + 8 * b.cnt)) ∧
      (∀ g, b.start + 64 * g < b.start + 8 * b.cnt → Whole mem' (b.start + 64 * g)) ∧
      ∀ a, a < b.start ∨ b.start + 8 * b.cnt ≤ a → mem' a = mem a := by
  refine chunks_run b hsize
    (f := fun p pe mem => (fillGroups faithfulLongBus ((pe - p) / 64) p 1 (carry p) mem).1)
    (fun _ _ s h => fillChunk_eq b faithfulLongBus carry h s)
    (Q := fun pe mem' => (∀ g, b.start + 64 * g < pe → Whole mem' (b.start + 64 * g)) ∧
      ∀ a, a < b.start ∨ pe ≤ a → mem' a = mem a)
    ?_ hfuel ⟨fun g hg => absurd hg (by omega), fun _ _ => rfl⟩
  rintro k mem₁ hk ⟨hwhole, hkept⟩
  obtain ⟨⟨hlow, hin⟩, hpage, hlt⟩ := b.chunk hsize hk
  have hwrap := b.noWrap
  have haway : 64 ∣ b.chunkStart k - b.start := by
    unfold Block.chunkStart spinsz
    omega
  generalize hp : b.chunkStart k = p at *
  generalize hpe : b.chunkEnd k = pe at *
  obtain ⟨hnew, hframe⟩ := @fillGroups_whole ((pe - p) / 64) p (by omega) 1 (carry p) mem₁
  refine ⟨fun g hg => ?_, fun a ha => ?_⟩
  · by_cases hold : b.start + 64 * g < p
    · exact (hwhole g hold).congr fun k hk => hframe _ (by omega)
    · obtain ⟨g', hg'⟩ : ∃ g', b.start + 64 * g = p + 64 * g' := ⟨(b.start + 64 * g - p) / 64, by omega⟩
      rw [hg'] at hg ⊢
      exact hnew g' (by omega)
  · rw [hframe a (by omega), hkept a (by omega)]

/-- Chunk `k` after the moves: its lower half rotated up by 32 bytes for each turn, and the upper half as the
lower one before the last turn. -/
def Turned (b : Block) (iter : Nat) (old new : Nat → UL) (k : Nat) : Prop :=
  RotatedUp old new (b.chunkStart k) (b.chunkStart k) (b.halfChunk k) (4 * iter) ∧
    (0 < iter → RotatedUp old new (b.chunkStart k) (b.chunkStart k + 8 * b.halfChunk k) (b.halfChunk k)
      (4 * (iter - 1)))

theorem moveLoop_turned (iter : Nat) (mem : Nat → UL) :
    ∃ mem', moveLoop faithfulLongBus fuel b iter ⟨mem, errSuccess, ()⟩ =
        some (⟨mem', errSuccess, ()⟩, some (b.start + 8 * b.cnt)) ∧
      (∀ k, b.chunkStart k < b.start + 8 * b.cnt → Turned b iter mem mem' k) ∧
      ∀ a, a < b.start ∨ b.start + 8 * b.cnt ≤ a → mem' a = mem a := by
  refine chunks_run b hsize
    (f := fun p pe mem =>
      (moveOnce faithfulLongBus p (p + 8 * ((pe - p) / 16)) (2 * ((pe - p) / 16)))^[iter] mem)
    (fun _ _ s h => moveChunk_eq b faithfulLongBus iter h s)
    (Q := fun pe mem' => (∀ k, b.chunkStart k < pe → Turned b iter mem mem' k) ∧
      ∀ a, a < b.start ∨ pe ≤ a → mem' a = mem a)
    ?_ hfuel ⟨fun k hk => ?_, fun _ _ => rfl⟩
  · rintro k mem₁ hk ⟨hturned, hkept⟩
    obtain ⟨⟨hlow, hin⟩, hpage, hlt⟩ := b.chunk hsize hk
    have hwrap := b.noWrap
    have haligned := b.aligned
    have hword : 8 ∣ b.chunkStart k := by
      unfold Block.chunkStart spinsz
      omega
    have hhalf : b.chunkEnd k = b.chunkStart k + 16 * b.halfChunk k := by
      unfold Block.halfChunk
      omega
    obtain ⟨hlower, hupper, hframe⟩ := @moves_rotatedUp (b.chunkStart k) (b.halfChunk k) (by omega)
      (by omega) (by omega) mem₁ iter
    rw [← hhalf] at hframe
    refine ⟨fun j hj => ?_, fun a ha => by rw [← hkept a (by omega)]; exact hframe a (by omega)⟩
    have hold : ∀ i < b.halfChunk k, mem (b.chunkStart k + 8 * i) = mem₁ (b.chunkStart k + 8 * i) :=
      fun i _ => (hkept _ (by omega)).symm
    rcases Nat.lt_trichotomy j k with hjk | rfl | hjk
    · -- the chunk lies below the one that is moved about
      have hbelow := b.chunkEnd_le hjk
      have hstart := b.chunkStart_lt hjk
      have hsize' : b.chunkStart j + 16 * b.halfChunk j ≤ b.chunkEnd j := by
        have hlt' := (b.chunk hsize (show b.chunkStart j < b.start + 8 * b.cnt by omega)).lt
        unfold Block.halfChunk
        omega
      obtain ⟨hlower', hupper'⟩ := hturned j (by omega)
      exact ⟨hlower'.congr (fun _ _ => rfl) fun i hi => hframe _ (by omega),
        fun hpos => (hupper' hpos).congr (fun _ _ => rfl) fun i hi => hframe _ (by omega)⟩
    · exact ⟨hlower.congr hold fun _ _ => rfl, fun hpos => (hupper hpos).congr hold fun _ _ => rfl⟩
    · have hbelow := b.chunkEnd_le hjk
      omega
  · unfold Block.chunkStart at hk
    omega

end Loops

/-! ## The loop that looks -/

/-- One of the comparisons with the eight words from `p` on does not hold. -/
def Spotted (mem : Nat → UL) (p : Nat) : Prop :=
  mem p ≠ mem (p + 8) ∨ mem (p + 16) ≠ ~~~mem p ∨ (mem p ≠ mem (p + 24) ∧ mem p ≠ mem (p + 32)) ∨
    mem (p + 40) ≠ ~~~mem p ∨ mem p ≠ mem (p + 48) ∨ mem (p + 56) ≠ ~~~mem p
deriving Decidable

theorem not_spotted_of_whole {mem : Nat → UL} {p : Nat} (hwhole : Whole mem p) : ¬ Spotted mem p := by
  obtain ⟨rax, hwords⟩ := hwhole
  have hfirst : mem p = rax := hwords 0 (by decide)
  have hrest : mem (p + 8) = rax ∧ mem (p + 16) = ~~~rax ∧ mem (p + 24) = rax ∧ mem (p + 40) = ~~~rax ∧
      mem (p + 48) = rax ∧ mem (p + 56) = ~~~rax :=
    ⟨hwords 1 (by decide), hwords 2 (by decide), hwords 3 (by decide), hwords 5 (by decide),
      hwords 6 (by decide), hwords 7 (by decide)⟩
  simp [Spotted, hfirst, hrest]

theorem groupChecks_ret {mem : Nat → UL} {p : Nat} (hp : p + 64 < 2 ^ 64) :
    ∃ ret, (groupChecks faithfulLongBus p).foldl failIf ⟨mem, errSuccess, ()⟩ = ⟨mem, ret, ()⟩ ∧
      (ret = errFail ∧ Spotted mem p ∨ ret = errSuccess ∧ ¬ Spotted mem p) := by
  have hadd : ∀ k < 8, ptrAdd p k = p + 8 * k := fun k hk => Nat.mod_eq_of_lt (by omega)
  have hread : ∀ q, faithfulLongBus.read mem q = (mem q, mem) := fun _ => rfl
  simp only [groupChecks, List.foldl_cons, List.foldl_nil, failIf, differs, hread, hadd, Nat.reduceLT,
    Nat.reduceMul, id]
  refine ⟨if Spotted mem p then errFail else errSuccess, ?_, ?_⟩
  · unfold Spotted
    grind
  · by_cases h : Spotted mem p
    · exact Or.inl ⟨if_pos h, h⟩
    · exact Or.inr ⟨if_neg h, h⟩

theorem checkChunk_faithful {mem : Nat → UL} {p : Nat} (hp : p + 64 < 2 ^ 64) (pe : Nat) :
    (Spotted mem p → checkChunk faithfulLongBus hasComparision p pe ⟨mem, errSuccess, ()⟩ =
      some (⟨mem, errFail, ()⟩, none)) ∧
    (¬ Spotted mem p → checkChunk faithfulLongBus hasComparision p pe ⟨mem, errSuccess, ()⟩ =
      some (⟨mem, errSuccess, ()⟩, some (p + 64))) := by
  have hnext : ptrAdd p 8 = p + 64 := Nat.mod_eq_of_lt hp
  obtain ⟨ret, hchecks, hret⟩ := @groupChecks_ret mem p hp
  rw [checkChunk, if_neg (not_not.mpr rfl), hchecks, hnext]
  rcases hret with ⟨rfl, hspotted⟩ | ⟨rfl, hclean⟩
  · exact ⟨fun _ => rfl, fun hclean => absurd hspotted hclean⟩
  · exact ⟨fun hspotted => absurd hspotted hclean, fun _ => rfl⟩

/-- The group that is looked at for chunk `k`: the `k`-th one of the block. -/
def Block.lookedAt (b : Block) (k : Nat) : Nat := b.start + 64 * k

/-- One of the groups that are looked at is found to be wrong. -/
def Noticed (b : Block) (mem : Nat → UL) : Prop :=
  ∃ k, b.chunkStart k < b.start + 8 * b.cnt ∧ Spotted mem (b.lookedAt k)

theorem Block.lookedAt_lt (b : Block) (hsize : 4096 ∣ 8 * b.cnt) {k : Nat}
    (hk : b.chunkStart k < b.start + 8 * b.cnt) : b.lookedAt k + 64 ≤ b.chunkEnd k := by
  unfold Block.lookedAt Block.chunkEnd Block.chunkStart spinsz at *
  omega

theorem checkLoop_from (b : Block) (hsize : 4096 ∣ 8 * b.cnt) (mem : Nat → UL) {fuel k : Nat}
    (hk : b.chunkStart k < b.start + 8 * b.cnt) (hfuel : b.start + 8 * b.cnt ≤ b.chunkStart k + 8 * fuel) :
    ∃ ret o, spinUp (spinsz * 4) (b.start + 8 * b.cnt) (checkChunk faithfulLongBus hasComparision) fuel
        (b.chunkStart k) (b.lookedAt k) ⟨mem, errSuccess, ()⟩ = some (⟨mem, ret, ()⟩, o) ∧
      (ret = errFail ∧ (∃ j, k ≤ j ∧ b.chunkStart j < b.start + 8 * b.cnt ∧ Spotted mem (b.lookedAt j)) ∨
        ret = errSuccess ∧
          ∀ j, k ≤ j → b.chunkStart j < b.start + 8 * b.cnt → ¬ Spotted mem (b.lookedAt j)) := by
  have hwrap := b.noWrap
  induction fuel generalizing k with
  | zero => omega
  | succ fuel ih =>
      have hinside := b.lookedAt_lt hsize hk
      have hend : min (b.chunkStart k + 8 * (spinsz * 4)) (b.start + 8 * b.cnt) = b.chunkEnd k := rfl
      obtain ⟨hbad, hgood⟩ := @checkChunk_faithful mem (b.lookedAt k)
        (by unfold Block.chunkEnd at hinside; omega) (b.chunkEnd k)
      rw [spinUp_succ (by decide) (by decide) hwrap (Nat.le_of_lt hk), hend, if_neg (by omega),
        Part.andThen]
      by_cases hspotted : Spotted mem (b.lookedAt k)
      · rw [hbad hspotted]
        exact ⟨_, _, rfl, Or.inl ⟨rfl, k, le_rfl, hk, hspotted⟩⟩
      · rw [hgood hspotted]
        by_cases hlast : b.start + 8 * b.cnt ≤ b.chunkStart k + 8 * (spinsz * 4)
        · simp only [if_pos hlast]
          refine ⟨_, _, rfl, Or.inr ⟨rfl, fun j hkj hj => ?_⟩⟩
          rcases Nat.eq_or_lt_of_le hkj with rfl | hlt
          · exact hspotted
          · have hbelow := b.chunkEnd_le hlt
            rw [Block.chunkEnd, Nat.min_eq_right hlast] at hbelow
            omega
        · have hnext : b.chunkEnd k = b.chunkStart (k + 1) := by
            rw [Block.chunkEnd, Nat.min_eq_left (Nat.le_of_not_le hlast), b.chunkStart_succ]
          have hgroup : b.lookedAt k + 64 = b.lookedAt (k + 1) := by
            unfold Block.lookedAt
            omega
          simp only [if_neg hlast, hnext, hgroup]
          obtain ⟨ret, o, hrun, hret⟩ := @ih (k + 1)
            (by rw [b.chunkStart_succ]; omega) (by rw [b.chunkStart_succ]; unfold spinsz; omega)
          refine ⟨ret, o, hrun, ?_⟩
          rcases hret with ⟨rfl, j, hkj, hj, hspot⟩ | ⟨rfl, hclean⟩
          · exact Or.inl ⟨rfl, j, by omega, hj, hspot⟩
          · refine Or.inr ⟨rfl, fun j hkj hj => ?_⟩
            rcases Nat.eq_or_lt_of_le hkj with rfl | hlt
            · exact hspotted
            · exact hclean j hlt hj

-- The loop fails just where it notices something, and leaves memory as it is.
theorem checkLoop_ret (b : Block) (hsize : 4096 ∣ 8 * b.cnt) (mem : Nat → UL) {fuel : Nat}
    (hfuel : b.cnt < fuel) :
    ∃ ret o, checkLoop faithfulLongBus fuel b hasComparision ⟨mem, errSuccess, ()⟩ =
        some (⟨mem, ret, ()⟩, o) ∧
      (ret = errFail ∧ Noticed b mem ∨ ret = errSuccess ∧ ¬ Noticed b mem) := by
  have hpos := b.cnt_pos
  have hzero : b.chunkStart 0 = b.start := rfl
  obtain ⟨ret, o, hrun, hret⟩ := @checkLoop_from b hsize mem fuel 0 (by omega) (by omega)
  refine ⟨ret, o, ?_, ?_⟩
  · rw [checkLoop, b.end_eq]
    exact hrun
  · rcases hret with ⟨rfl, j, -, hj, hspot⟩ | ⟨rfl, hclean⟩
    · exact Or.inl ⟨rfl, j, hj, hspot⟩
    · exact Or.inr ⟨rfl, fun ⟨j, hj, hspot⟩ => hclean j (Nat.zero_le j) hj hspot⟩

/-! ## Good memory -/

/-- A block of whole pages in size, in a user's half of the address space. -/
structure SizedBlock extends Block where
  size : 4096 ∣ 8 * cnt
  user : start + 8 * cnt ≤ 2 ^ 47

section Good

variable (b : SizedBlock) (carry : Nat → Bool) {fuel iter : Nat} (hfuel : b.cnt < fuel)

-- There are fewer chunks than groups in the lower half of the first one.
theorem SizedBlock.lookedAt_low (b : SizedBlock) {k : Nat} (hk : b.chunkStart k < b.start + 8 * b.cnt) :
    k < b.halfChunk 0 / 8 := by
  have huser := b.user
  have hsize := b.size
  unfold Block.halfChunk Block.chunkEnd Block.chunkStart spinsz at *
  omega

-- The groups that are looked at are whole again after an even number of turns.
theorem lookedAt_whole {old new : Nat → UL} (heven : iter % 2 = 0)
    (hwhole : ∀ g, b.start + 64 * g < b.start + 8 * b.cnt → Whole old (b.start + 64 * g))
    (hturned : Turned b.toBlock iter old new 0) {k : Nat} (hk : b.chunkStart k < b.start + 8 * b.cnt) :
    Whole new (b.lookedAt k) := by
  have hpos := b.cnt_pos
  have hlow := b.lookedAt_low hk
  have hstart : b.chunkStart 0 = b.start := rfl
  obtain ⟨⟨-, hin⟩, hpage, hlt⟩ := b.chunk b.size (show b.chunkStart 0 < b.start + 8 * b.cnt by omega)
  have hgroups : b.halfChunk 0 = 8 * (b.halfChunk 0 / 8) ∧ 16 * b.halfChunk 0 ≤ 8 * b.cnt := by
    unfold Block.halfChunk
    omega
  obtain ⟨hlower, -⟩ := hturned
  rw [hgroups.1, show 4 * iter = 8 * (iter / 2) by omega] at hlower
  exact hlower.whole (fun g hg => hwhole g (by omega)) hlow

include hfuel

theorem loops_run (heven : iter % 2 = 0) (mem : Nat → UL) :
    ∃ mem₁ mem₂ q₁ q₂, fillLoop faithfulLongBus carry fuel b.toBlock ⟨mem, errSuccess, ()⟩ =
        some (⟨mem₁, errSuccess, ()⟩, some q₁) ∧
      moveLoop faithfulLongBus fuel b.toBlock iter ⟨mem₁, errSuccess, ()⟩ =
        some (⟨mem₂, errSuccess, ()⟩, some q₂) ∧
      (∀ k, b.chunkStart k < b.start + 8 * b.cnt → Turned b.toBlock iter mem₁ mem₂ k) ∧
      (∀ a, a < b.start ∨ b.start + 8 * b.cnt ≤ a → mem₂ a = mem a) ∧
      ∀ k, b.chunkStart k < b.start + 8 * b.cnt → Whole mem₂ (b.lookedAt k) := by
  obtain ⟨mem₁, hfill, hwhole, hkept₁⟩ := fillLoop_whole b.toBlock carry b.size hfuel mem
  obtain ⟨mem₂, hmove, hturned, hkept₂⟩ := moveLoop_turned b.toBlock b.size hfuel iter mem₁
  have hpos := b.cnt_pos
  have hfirst : b.chunkStart 0 < b.start + 8 * b.cnt := by
    unfold Block.chunkStart
    omega
  exact ⟨mem₁, mem₂, _, _, hfill, hmove, hturned, fun a ha => (hkept₂ a ha).trans (hkept₁ a ha),
    fun k hk => lookedAt_whole b heven hwhole (hturned 0 hfirst) hk⟩

end Good

/-- After an even number of turns the lower half of each chunk is what it was filled with, rotated up by 32
bytes for each turn, the upper half is that one turn earlier, and the check passes. -/
theorem blockMove_rotates (b : SizedBlock) (carry : Nat → Bool) {fuel : Nat} (hfuel : b.cnt < fuel)
    {iter : Nat} (heven : iter % 2 = 0) (htwo : 2 ≤ iter) (mem : Nat → UL) :
    ∃ mem₁ mem₂ q₁ q₂, fillLoop faithfulLongBus carry fuel b.toBlock ⟨mem, errSuccess, ()⟩ =
        some (⟨mem₁, errSuccess, ()⟩, some q₁) ∧
      moveLoop faithfulLongBus fuel b.toBlock iter ⟨mem₁, errSuccess, ()⟩ =
        some (⟨mem₂, errSuccess, ()⟩, some q₂) ∧
      (∀ k, b.chunkStart k < b.start + 8 * b.cnt →
        RotatedUp mem₁ mem₂ (b.chunkStart k) (b.chunkStart k) (b.halfChunk k) (4 * iter) ∧
        RotatedUp mem₁ mem₂ (b.chunkStart k) (b.chunkStart k + 8 * b.halfChunk k) (b.halfChunk k)
          (4 * (iter - 1))) ∧
      (∀ a, a < b.start ∨ b.start + 8 * b.cnt ≤ a → mem₂ a = mem a) ∧
      (blockMove faithfulLongBus carry fuel b.start b.cnt iter hasComparision).test () mem =
        some (errSuccess, mem₂) := by
  obtain ⟨mem₁, mem₂, q₁, q₂, hfill, hmove, hturned, hkept, hwhole⟩ := loops_run b carry hfuel heven mem
  obtain ⟨ret, o, hlook, hret⟩ := checkLoop_ret b.toBlock b.size mem₂ hfuel
  obtain ⟨rfl, -⟩ : ret = errSuccess ∧ ¬ Noticed b.toBlock mem₂ :=
    hret.resolve_left fun ⟨_, k, hk, hspotted⟩ => not_spotted_of_whole (hwhole k hk) hspotted
  refine ⟨mem₁, mem₂, q₁, q₂, hfill, hmove, fun k hk => ?_, hkept, ?_⟩
  · obtain ⟨hlower, hupper⟩ := hturned k hk
    exact ⟨hlower, hupper (by omega)⟩
  · have hall : blockMove faithfulLongBus carry fuel b.start b.cnt iter hasComparision
        ⟨mem, errSuccess, ()⟩ = some (⟨mem₂, errSuccess, ()⟩, o) := by
      rw [blockMove_eq_loops]
      simp only [Part.andThen, hfill, hmove, hlook]
    rw [Part.test, hall]
    rfl

/-- A page that does not begin at a page. -/
def oddPage : SizedBlock := ⟨⟨4104, 4096 / 8, by decide, by decide, by decide, by decide⟩, by decide, by decide⟩

theorem blockMove_rotates_page :
    ∃ mem₁ mem₂ q₁ q₂, fillLoop faithfulLongBus (fun _ => true) 513 oddPage.toBlock ⟨fun _ => 0, errSuccess, ()⟩ =
        some (⟨mem₁, errSuccess, ()⟩, some q₁) ∧
      moveLoop faithfulLongBus 513 oddPage.toBlock 2 ⟨mem₁, errSuccess, ()⟩ =
        some (⟨mem₂, errSuccess, ()⟩, some q₂) ∧
      (∀ k, oddPage.chunkStart k < oddPage.start + 8 * oddPage.cnt →
        RotatedUp mem₁ mem₂ (oddPage.chunkStart k) (oddPage.chunkStart k) (oddPage.halfChunk k) 8 ∧
        RotatedUp mem₁ mem₂ (oddPage.chunkStart k) (oddPage.chunkStart k + 8 * oddPage.halfChunk k)
          (oddPage.halfChunk k) 4) ∧
      (∀ a, a < oddPage.start ∨ oddPage.start + 8 * oddPage.cnt ≤ a → mem₂ a = 0) ∧
      (blockMove faithfulLongBus (fun _ => true) 513 oddPage.start oddPage.cnt 2 hasComparision).test ()
        (fun _ => 0) = some (errSuccess, mem₂) :=
  blockMove_rotates oddPage (fun _ => true) (by decide) (by decide) (by decide) fun _ => 0

end MoBoMemory.TestLib
