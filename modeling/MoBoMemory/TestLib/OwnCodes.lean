import MoBoMemory.TestLib.AddrWalk
import MoBoMemory.TestLib.BlockMove
import MoBoMemory.TestLib.Modulo
import MoBoMemory.TestLib.MovInvLong
import MoBoMemory.TestLib.Unflagged

/-!
# The codes of the tests

Whatever the memory does, a test that comes to its end gives back success or the code that is its own.
-/

namespace MoBoMemory.TestLib

open Base

/-- A code that is given back is success or `err`. -/
def OwnCode {σ : Type} (err : Nat) (out : Option (Nat × σ)) : Prop :=
  ∀ code mem', out = some (code, mem') → code = errSuccess ∨ code = err

/-- The test gives back success or `err`. -/
def Owns (err : Nat) (test : MemTest) : Prop := ∀ σ fuel bus mem, OwnCode err (test σ fuel bus mem)

section Rules

variable {σ : Type} {err : Nat}

theorem ownCode_success (mem : σ) : OwnCode err (some (errSuccess, mem)) := by
  intro code mem' h
  cases h
  exact Or.inl rfl

theorem ownCode_thenTest {first : Option (Nat × σ)} {rest : σ → Option (Nat × σ)}
    (hrest : ∀ mem, OwnCode err (rest mem)) : OwnCode err (thenTest err first rest) := by
  intro code mem' h
  obtain ⟨out, -, hout⟩ := Option.bind_eq_some_iff.mp h
  split at hout
  · cases hout
    exact Or.inr rfl
  · exact hrest _ code mem' hout

end Rules

variable (startP blockBytes : Nat) (noComp : Int)

theorem testAddrWalkOnes_owns : Owns errAddrWalkOnes (testAddrWalkOnes startP blockBytes noComp) :=
  fun _ _ _ _ => ownCode_thenTest ownCode_success

theorem testAddrWalkOwn_owns : Owns errAddrWalkOwn (testAddrWalkOwn startP blockBytes noComp) :=
  fun _ _ _ _ => ownCode_thenTest ownCode_success

theorem testCacheRandaddr_owns (scaled : Nat → Nat → Nat → Nat) (moduleId : Int) :
    Owns errCacheRandData (testCacheRandaddr scaled startP blockBytes moduleId noComp) := by
  intro σ fuel bus mem code mem' h
  obtain ⟨hcode, -⟩ := Prod.mk.inj (Option.some.inj h)
  rw [← hcode]
  split_ifs with hfailed
  · exact Or.inr rfl
  · exact Or.inl (not_not.mp hfailed)

theorem testMovinv10_owns (iter : Nat) : Owns errMovinv10 (testMovinv10 startP blockBytes iter noComp) :=
  fun _ _ _ _ => ownCode_thenTest fun _ => ownCode_thenTest ownCode_success

theorem movinv8bitRounds_owns (iter n : Nat) (p0 : UL) :
    Owns errMovinv8bit (movinv8bitRounds startP blockBytes iter noComp n p0) := by
  induction n generalizing p0 with
  | zero => exact fun _ _ _ => ownCode_success
  | succ n ih =>
      intro σ fuel bus mem
      refine ownCode_thenTest fun _ => ownCode_thenTest fun _ => ?_
      exact ih _ σ fuel bus _

theorem movinvRandomRounds_owns (n : Nat) (r : Prandr) :
    Owns errMovinvRandom (movinvRandomRounds startP blockBytes noComp n r) := by
  induction n generalizing r with
  | zero => exact fun _ _ _ => ownCode_success
  | succ n ih =>
      intro σ fuel bus mem
      exact ownCode_thenTest fun _ => ih _ σ fuel bus _

theorem testBlockMove_owns (carry : Nat → Bool) (iter : Nat) :
    Owns errBlockMove (testBlockMove carry startP blockBytes iter noComp) :=
  fun _ _ _ _ => ownCode_thenTest ownCode_success

theorem movinvLongRounds_owns (iter turns : Nat) (j : Int) (p1 : UL) :
    Owns errMovinv32bit (movinvLongRounds startP blockBytes iter noComp turns j p1) := by
  induction turns generalizing j p1 with
  | zero => exact fun _ _ _ _ _ _ h => by cases h
  | succ turns ih =>
      intro σ fuel bus mem
      rw [movinvLongRounds]
      split_ifs
      · exact ownCode_success mem
      · exact ownCode_thenTest fun _ => ownCode_thenTest fun _ => ih _ _ σ fuel bus _

theorem testRandomNumSequence_owns :
    Owns errRandomNumSeq (testRandomNumSequence startP blockBytes noComp) :=
  fun _ _ _ _ => ownCode_thenTest ownCode_success

theorem memModuloOffsets_owns {rest : MemTest} (hrest : Owns errModulo rest) (n k : Nat) (p1 : UL) :
    Owns errModulo (memModuloOffsets startP blockBytes noComp rest n k p1) := by
  induction n generalizing k p1 with
  | zero => exact hrest
  | succ n ih =>
      intro σ fuel bus mem
      refine ownCode_thenTest fun _ => ownCode_thenTest fun _ => ?_
      exact ih _ _ σ fuel bus _

theorem memModuloRounds_owns (n : Nat) (r : Prandr) :
    Owns errModulo (memModuloRounds startP blockBytes noComp n r) := by
  induction n generalizing r with
  | zero => exact fun _ _ _ => ownCode_success
  | succ n ih => exact memModuloOffsets_owns startP blockBytes noComp (ih _) _ _ _

theorem testMarchC_owns (iter : Nat) : Owns errMarchC (testMarchC startP blockBytes iter noComp) :=
  fun _ _ _ _ => ownCode_thenTest ownCode_success

end MoBoMemory.TestLib
