import MoBoMemory.TestLib.BlockRotation

/-!
# What the block move test notices

The loop that checks the data looks at eight words for each chunk of 1 GiB, and they are the first ones of
the block.  A wrong word anywhere else goes unnoticed, and so does one of the two that are compared with `&&`.
-/

namespace MoBoMemory.TestLib

open Base

/-- `block_move` with comparison on, if `upset` befalls the memory when the checking loop starts. -/
def blockMoveUpset (upset : (Nat → UL) → Nat → UL) (carry : Nat → Bool) (fuel : Nat) (b : Block)
    (iter : Nat) : Part (Nat → UL) Unit :=
  (fillLoop faithfulLongBus carry fuel b).andThen fun _ =>
  (moveLoop faithfulLongBus fuel b iter).andThen fun q =>
  (Part.turn (fun s => { s with mem := upset s.mem }) q).andThen fun _ =>
  checkLoop faithfulLongBus fuel b hasComparision

theorem blockMoveUpset_id (carry : Nat → Bool) (fuel : Nat) (b : Block) (iter : Nat) :
    blockMoveUpset id carry fuel b iter =
      blockMove faithfulLongBus carry fuel b.start b.cnt iter hasComparision := rfl

/-! ## Any corruption -/

section Corruption

variable (b : Block) (carry : Nat → Bool) {fuel : Nat} (hsize : 4096 ∣ 8 * b.cnt) (hfuel : b.cnt < fuel)

/-- What is in memory when the checking loop starts, if nothing befalls it. -/
def Intact (fuel : Nat) (iter : Nat) (old good : Nat → UL) : Prop :=
  ∃ mem q₁ q₂, fillLoop faithfulLongBus carry fuel b ⟨old, errSuccess, ()⟩ =
      some (⟨mem, errSuccess, ()⟩, some q₁) ∧
    moveLoop faithfulLongBus fuel b iter ⟨mem, errSuccess, ()⟩ = some (⟨good, errSuccess, ()⟩, some q₂)

include hsize hfuel

theorem exists_intact (iter : Nat) (old : Nat → UL) : ∃ good, Intact b carry fuel iter old good := by
  obtain ⟨mem, hfill, -⟩ := fillLoop_whole b carry hsize hfuel old
  obtain ⟨good, hmove, -⟩ := moveLoop_turned b hsize hfuel iter mem
  exact ⟨good, mem, _, _, hfill, hmove⟩

theorem blockMoveUpset_ret (upset : (Nat → UL) → Nat → UL) {iter : Nat} {old good : Nat → UL}
    (hgood : Intact b carry fuel iter old good) :
    ∃ ret, (blockMoveUpset upset carry fuel b iter).test () old = some (ret, upset good) ∧
      (ret = errFail ∧ Noticed b (upset good) ∨ ret = errSuccess ∧ ¬ Noticed b (upset good)) := by
  obtain ⟨mem, q₁, q₂, hfill, hmove⟩ := hgood
  obtain ⟨ret, o, hcheck, hret⟩ := checkLoop_ret b hsize (upset good) hfuel
  refine ⟨ret, ?_, hret⟩
  have hall : blockMoveUpset upset carry fuel b iter ⟨old, errSuccess, ()⟩ =
      some (⟨upset good, ret, ()⟩, o) := by
    simp only [blockMoveUpset, Part.andThen, hfill, hmove, Part.turn, hcheck]
  rw [Part.test, hall]
  rfl

end Corruption

/-- A wrong word makes the test fail just where no word is wrong, or where a comparison in one of the groups
that are looked at does not hold. -/
theorem corruption_noticed_iff (b : Block) (hsize : 4096 ∣ 8 * b.cnt) (carry : Nat → Bool) {fuel : Nat}
    (hfuel : b.cnt < fuel) (iter : Nat) (old : Nat → UL) :
    ∃ good, Intact b carry fuel iter old good ∧ ∀ upset : (Nat → UL) → Nat → UL,
      ((∃ a ∈ b.addrs, upset good a ≠ good a) →
        ∃ mem, (blockMoveUpset upset carry fuel b iter).test () old = some (errFail, mem)) ↔
      (∀ a ∈ b.addrs, upset good a = good a) ∨ Noticed b (upset good) := by
  obtain ⟨good, hgood⟩ := exists_intact b carry hsize hfuel iter old
  refine ⟨good, hgood, fun upset => ?_⟩
  obtain ⟨ret, hrun, hret⟩ := blockMoveUpset_ret b carry hsize hfuel upset hgood
  constructor
  · intro hfails
    by_cases hsame : ∀ a ∈ b.addrs, upset good a = good a
    · exact Or.inl hsame
    · push Not at hsame
      obtain ⟨mem, hfail⟩ := hfails hsame
      rcases hret with ⟨-, hnoticed⟩ | ⟨rfl, -⟩
      · exact Or.inr hnoticed
      · rw [hrun] at hfail
        cases hfail
  · rintro (hsame | hnoticed) ⟨a, ha, hdiff⟩
    · exact absurd (hsame a ha) hdiff
    · rcases hret with ⟨rfl, -⟩ | ⟨-, hnot⟩
      · exact ⟨_, hrun⟩
      · exact absurd hnoticed hnot

theorem corruption_noticed_iff_page :
    ∃ good, Intact oddPage.toBlock (fun _ => false) 513 2 (fun _ => 0) good ∧ ∀ upset : (Nat → UL) → Nat → UL,
      ((∃ a ∈ oddPage.addrs, upset good a ≠ good a) →
        ∃ mem, (blockMoveUpset upset (fun _ => false) 513 oddPage.toBlock 2).test () (fun _ => 0) =
          some (errFail, mem)) ↔
      (∀ a ∈ oddPage.addrs, upset good a = good a) ∨ Noticed oddPage.toBlock (upset good) :=
  corruption_noticed_iff oddPage.toBlock oddPage.size (fun _ => false) (by decide) 2 fun _ => 0

/-! ## One wrong word -/

theorem spotted_update {mem : Nat → UL} {p a : Nat} {w : UL} (hwhole : Whole mem p) (hw : w ≠ mem a) :
    Spotted (Function.update mem a w) p ↔ ∃ j ∈ [0, 1, 2, 5, 6, 7], a = p + 8 * j := by
  obtain ⟨rax, hwords⟩ := hwhole
  by_cases hin : ∃ j < 8, a = p + 8 * j
  · obtain ⟨j, hj, rfl⟩ := hin
    have hword : ∀ i < 8, Function.update mem (p + 8 * j) w (p + 8 * i) =
        if i = j then w else groupWord rax i := by
      intro i hi
      by_cases hij : i = j
      · rw [if_pos hij, hij, Function.update_self]
      · rw [if_neg hij, Function.update_of_ne (by omega), hwords i hi]
    have h₀ : Function.update mem (p + 8 * j) w p = if 0 = j then w else groupWord rax 0 := hword 0 (by decide)
    have hmem : (∃ i ∈ [0, 1, 2, 5, 6, 7], p + 8 * j = p + 8 * i) ↔ j ∈ [0, 1, 2, 5, 6, 7] := by
      constructor
      · rintro ⟨i, hi, heq⟩
        rwa [show j = i by omega]
      · exact fun hi => ⟨j, hi, rfl⟩
    rw [hwords j hj] at hw
    rw [hmem, Spotted, h₀, hword 1 (by decide), hword 2 (by decide), hword 3 (by decide),
      hword 4 (by decide), hword 5 (by decide), hword 6 (by decide), hword 7 (by decide)]
    obtain rfl | rfl | rfl | rfl | rfl | rfl | rfl | rfl :
        j = 0 ∨ j = 1 ∨ j = 2 ∨ j = 3 ∨ j = 4 ∨ j = 5 ∨ j = 6 ∨ j = 7 := by omega
    all_goals simp [groupWord] at hw ⊢
    all_goals grind
  · have hword : ∀ i < 8, Function.update mem a w (p + 8 * i) = mem (p + 8 * i) :=
      fun i hi => Function.update_of_ne (fun heq => hin ⟨i, hi, heq.symm⟩) _ _
    have hclean := not_spotted_of_whole (p := p)
      (show Whole (Function.update mem a w) p from ⟨rax, fun i hi => (hword i hi).trans (hwords i hi)⟩)
    refine iff_of_false hclean ?_
    rintro ⟨j, hj, heq⟩
    simp only [List.mem_cons, List.not_mem_nil, or_false] at hj
    exact hin ⟨j, by omega, heq⟩

-- Of each group that is looked at six words, and of the others none.
theorem upsetWord_noticed_iff (b : SizedBlock) (carry : Nat → Bool) {fuel : Nat} (hfuel : b.cnt < fuel)
    {iter : Nat} (heven : iter % 2 = 0) (old : Nat → UL) :
    ∃ good, Intact b.toBlock carry fuel iter old good ∧ ∀ a w, w ≠ good a →
      (Noticed b.toBlock (Function.update good a w) ↔
        ∃ k, b.chunkStart k < b.start + 8 * b.cnt ∧ ∃ j ∈ [0, 1, 2, 5, 6, 7], a = b.lookedAt k + 8 * j) := by
  obtain ⟨mem, good, q₁, q₂, hfill, hmove, -, -, hwhole⟩ := loops_run b carry hfuel heven old
  refine ⟨good, ⟨mem, q₁, q₂, hfill, hmove⟩, fun a w hw => ?_⟩
  constructor
  · rintro ⟨k, hk, hspotted⟩
    exact ⟨k, hk, (spotted_update (hwhole k hk) hw).mp hspotted⟩
  · rintro ⟨k, hk, hword⟩
    exact ⟨k, hk, (spotted_update (hwhole k hk) hw).mpr hword⟩

/-- The bits of the word 800 bytes behind the beginning are all inverted. -/
def invertWord (mem : Nat → UL) : Nat → UL := Function.update mem 4904 (~~~mem 4904)

theorem corruption_unnoticed :
    ∃ good, Intact oddPage.toBlock (fun _ => false) 513 2 (fun _ => 0) good ∧
      (∃ a ∈ oddPage.addrs, invertWord good a ≠ good a) ∧
      ∃ mem, (blockMoveUpset invertWord (fun _ => false) 513 oddPage.toBlock 2).test () (fun _ => 0) =
        some (errSuccess, mem) := by
  obtain ⟨good, hgood, hone⟩ := @upsetWord_noticed_iff oddPage (fun _ => false) 513 (by decide) 2 rfl
    fun _ => 0
  have hdiff : ~~~good 4904 ≠ good 4904 := by bv_omega
  refine ⟨good, hgood, ⟨4904, oddPage.mem_addrs.mpr (by decide), ?_⟩, ?_⟩
  · rw [invertWord, Function.update_self]
    exact hdiff
  · obtain ⟨ret, hrun, hret⟩ := blockMoveUpset_ret oddPage.toBlock (fun _ => false) oddPage.size (by decide)
      invertWord hgood
    rcases hret with ⟨-, hnoticed⟩ | ⟨rfl, -⟩
    · obtain ⟨k, hk, j, hj, ha⟩ := (hone _ _ hdiff).mp hnoticed
      have hstart : oddPage.start = 4104 := rfl
      have hcnt : oddPage.cnt = 512 := rfl
      simp only [List.mem_cons, List.not_mem_nil, or_false] at hj
      unfold Block.lookedAt Block.chunkStart spinsz at *
      omega
    · exact ⟨_, hrun⟩

end MoBoMemory.TestLib
