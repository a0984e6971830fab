import MoBoMemory.App.ReadWriteTest
import MoBoMemory.TestLib.AddrWalk
import MoBoMemory.TestLib.BlockMove
import MoBoMemory.TestLib.Modulo
import MoBoMemory.TestLib.MovInvLong
import MoBoMemory.TestLib.Unflagged

/-!
# What `-s` means

`run_test_slice` with the items as they are.  The option should decide whether the words that are read
are compared with those that were written: without comparisons the code does not depend on the memory,
with them some memory gets a code other than 0 and memory without faults gets 0.
-/

namespace MoBoMemory.App

open Base TestLib

/-- The column `iter` of `tseq`. -/
def tseqIter : List Nat := [4, 4, 4, 4, 2, 50, 80, 2, 30, 6, 2, 1, 0]

/-- What the source leaves open. -/
structure ItemEnv where
  /-- The carry flag before a section is filled. -/
  carry : Nat → Bool
  /-- The scaled random numbers, which are computed in floating point. -/
  scaled : Nat → Nat → Nat → Nat
  /-- `test_bit_fade`, item 11, which no command line admits. -/
  bitFade : ThreadInfo → MemTest

section Slice

variable (env : ItemEnv) (thread : ThreadInfo)

/-- The call that `run_test_slice` makes for an item. -/
def ItemEnv.call : TestFunction → MemTest :=
  let cIter := tseqIter.getD thread.itemId.toNat 0
  fun
  | .addrWalkOnes => testAddrWalkOnes thread.block thread.blockBytes thread.noComp
  | .addrWalkOwn => testAddrWalkOwn thread.block thread.blockBytes thread.noComp
  | .cacheRandaddr =>
      testCacheRandaddr env.scaled thread.block thread.blockBytes thread.moduleId thread.noComp
  | .movinv10 => testMovinv10 thread.block thread.blockBytes cIter thread.noComp
  | .movinv8bit => testMovinv8bit thread.block thread.blockBytes cIter thread.noComp
  | .movinvRandom => testMovinvRandom thread.block thread.blockBytes cIter thread.noComp
  | .blockMove => testBlockMove env.carry thread.block thread.blockBytes cIter thread.noComp
  | .movinvLong => testMovinvLong thread.block thread.blockBytes cIter thread.noComp
  | .randomNumSequence => testRandomNumSequence thread.block thread.blockBytes thread.noComp
  | .memModulo => testMemModulo thread.block thread.blockBytes cIter thread.noComp
  | .marchC => testMarchC thread.block thread.blockBytes cIter thread.noComp
  | .bitFade => env.bitFade thread

/-- What a thread that could be bound to its core returns; `none` means that the fuel was not enough. -/
def sliceCode (σ : Type) (fuel : Nat) (bus : LongBus σ) (mem : σ) : Option UInt32 :=
  match testFunction thread.itemId with
  | none => some (runTestSlice true (fun _ => 0) thread).code
  | some f => (env.call thread f σ fuel bus mem).map fun out =>
      (runTestSlice true (fun _ => UInt32.ofNat out.1) thread).code

/-- With enough fuel the thread returns `r`. -/
def Returns {σ : Type} (bus : LongBus σ) (mem : σ) (r : UInt32) : Prop :=
  ∃ bound, ∀ fuel > bound, sliceCode env thread σ fuel bus mem = some r

end Slice

/-- A thread for a slice that is the block. -/
def blockThread (b : Block) (cpuid : Nat) (item noComp : Int) : ThreadInfo :=
  { cpuid := cpuid
    itemId := item
    moduleId := memoryModule
    block := b.start
    blockBytes := 8 * b.cnt
    noComp := noComp }

/-- What the flag should mean for an item and a block, whichever core the thread is for. -/
structure FlagContract (env : ItemEnv) (b : Block) (item : Int) : Prop where
  skips : ∀ cpuid noComp, noComp ≠ hasComparision →
    ∃ r, ∀ (σ : Type) (bus : LongBus σ) mem, Returns env (blockThread b cpuid item noComp) bus mem r
  catches : ∀ cpuid, ∃ (σ : Type) (bus : LongBus σ) (mem : σ) (r : UInt32),
    Returns env (blockThread b cpuid item hasComparision) bus mem r ∧ r ≠ 0
  passes : ∀ cpuid mem, Returns env (blockThread b cpuid item hasComparision) faithfulLongBus mem 0

section Items

variable (env : ItemEnv) (b : PageBlock) {item : Int}

theorem sliceCode_of_call {thread : ThreadInfo} (f : TestFunction)
    (hitem : testFunction thread.itemId = some f) (hmodule : thread.moduleId = memoryModule)
    {σ : Type} {fuel : Nat} {bus : LongBus σ} {mem mem' : σ} {code : Nat}
    (hcall : env.call thread f σ fuel bus mem = some (code, mem')) :
    sliceCode env thread σ fuel bus mem = some (UInt32.ofNat code) := by
  simp [sliceCode, hitem, hcall, runTestSlice, hmodule, SliceOutcome.code]

theorem returns_unique {thread : ThreadInfo} {σ : Type} {bus : LongBus σ} {mem : σ} {r r' : UInt32}
    (h : Returns env thread bus mem r) (h' : Returns env thread bus mem r') : r = r' := by
  obtain ⟨bound, hcode⟩ := h
  obtain ⟨bound', hcode'⟩ := h'
  have hsame := (hcode (max bound bound' + 1) (by omega)).symm.trans
    (hcode' (max bound bound' + 1) (by omega))
  exact Option.some.inj hsame

theorem flag_of_honours {f : TestFunction} (hitem : testFunction item = some f) {err : Nat}
    (herr : UInt32.ofNat err ≠ 0)
    (h : ∀ cpuid noComp,
      Honours noComp b.cnt err (env.call (blockThread b.toBlock cpuid item noComp) f)) :
    FlagContract env b.toBlock item := by
  refine ⟨fun cpuid noComp hno => ⟨0, fun σ bus mem => ⟨b.cnt, fun fuel hfuel => ?_⟩⟩, fun cpuid => ?_,
    fun cpuid mem => ⟨b.cnt, fun fuel hfuel => ?_⟩⟩
  · obtain ⟨mem', hcall⟩ := (h cpuid noComp).skips hno σ bus mem fuel hfuel
    exact sliceCode_of_call env f hitem rfl hcall
  · obtain ⟨c, hc⟩ := (h cpuid hasComparision).catches rfl
    refine ⟨Unit, constBus c, (), UInt32.ofNat err, ⟨b.cnt, fun fuel hfuel => ?_⟩, herr⟩
    obtain ⟨mem', hcall⟩ := hc fuel hfuel
    exact sliceCode_of_call env f hitem rfl hcall
  · obtain ⟨mem', hcall⟩ := (h cpuid hasComparision).passes mem fuel hfuel
    exact sliceCode_of_call env f hitem rfl hcall

-- Item 2 returns 0 for every memory where it should compare.
theorem randaddr_breaks_flag : ¬ FlagContract env b.toBlock 2 := by
  intro h
  obtain ⟨σ, bus, mem, r, hreturns, hr⟩ := h.catches 0
  have hblind : Returns env (blockThread b.toBlock 0 2 hasComparision) bus mem 0 := by
    refine ⟨0, fun fuel _ => ?_⟩
    obtain ⟨mem', hcall⟩ := testCacheRandaddr_blind env.scaled b.start (8 * b.cnt) memoryModule fuel
      bus mem
    exact sliceCode_of_call env .cacheRandaddr rfl rfl hcall
  exact hr (returns_unique env hreturns hblind)

-- Item 10 fails a memory where it should not compare.
theorem marchC_breaks_flag : ¬ FlagContract env b.toBlock 10 := by
  intro h
  obtain ⟨r, hr⟩ := h.skips 0 0 (by decide)
  have hclean : Returns env (blockThread b.toBlock 0 10 0) faithfulLongBus (fun _ => 0) 0 := by
    refine ⟨b.cnt, fun fuel hfuel => ?_⟩
    obtain ⟨mem', hcall⟩ := @testMarchC_faithful b 0 2 fuel hfuel fun _ => 0
    exact sliceCode_of_call env .marchC rfl rfl hcall
  have hfails : Returns env (blockThread b.toBlock 0 10 0) (constBus 1) () (UInt32.ofNat errMarchC) :=
    ⟨b.cnt, fun fuel hfuel => sliceCode_of_call env .marchC rfl rfl
      (testMarchC_const b 0 hfuel (show 0 < 2 by decide) (show (1 : UL) ≠ 0 by decide))⟩
  have hzero := returns_unique env (hr _ _ _) hclean
  have herr := returns_unique env (hr _ _ _) hfails
  rw [hzero] at herr
  exact absurd herr (by decide)

end Items

/-- For the items that a command line admits, the flag means what it should for all but the random
addresses and March C. -/
theorem flag_contract_iff (env : ItemEnv) (b : PageBlock) (item : Int) (hitem : 0 ≤ item ∧ item ≤ 10) :
    FlagContract env b.toBlock item ↔ item ≠ 2 ∧ item ≠ 10 := by
  constructor
  · intro h
    refine ⟨?_, ?_⟩
    · rintro rfl
      exact randaddr_breaks_flag env b h
    · rintro rfl
      exact marchC_breaks_flag env b h
  · rintro ⟨hrandaddr, hmarch⟩
    obtain rfl | rfl | rfl | rfl | rfl | rfl | rfl | rfl | rfl : item = 0 ∨ item = 1 ∨ item = 3 ∨
        item = 4 ∨ item = 5 ∨ item = 6 ∨ item = 7 ∨ item = 8 ∨ item = 9 := by omega
    · exact flag_of_honours env b rfl (by decide) fun _ noComp => testAddrWalkOnes_honours b noComp
    · exact flag_of_honours env b rfl (by decide) fun _ noComp => testAddrWalkOwn_honours b noComp
    · exact flag_of_honours env b rfl (by decide) fun _ noComp =>
        testMovinv10_honours b noComp (show 0 < 4 by decide)
    · exact flag_of_honours env b rfl (by decide) fun _ noComp =>
        testMovinv8bit_honours b noComp (show 0 < 2 by decide)
    · exact flag_of_honours env b rfl (by decide) fun _ noComp =>
        testMovinvRandom_honours b noComp (show 0 < 50 by decide)
    · exact flag_of_honours env b rfl (by decide) fun _ noComp =>
        testBlockMove_honours b env.carry noComp (show 80 % 2 = 0 by decide)
    · exact flag_of_honours env b rfl (by decide) fun _ noComp =>
        testMovinvLong_honours b noComp (show 0 < 2 by decide)
    · exact flag_of_honours env b rfl (by decide) fun _ noComp => testRandomNumSequence_honours b noComp
    · exact flag_of_honours env b rfl (by decide) fun _ noComp =>
        testMemModulo_honours b noComp (show 0 < 6 by decide)

/-- One page. -/
def onePage : PageBlock where
  start := 4096
  cnt := 512
  cnt_pos := by decide
  start_pos := by decide
  aligned := by decide
  noWrap := by decide
  pages := by decide
  user := by decide

def plainEnv : ItemEnv := ⟨fun _ => false, fun _ _ _ => 0, fun _ _ _ _ mem => some (errSuccess, mem)⟩

theorem flag_contract_movinv10 :
    (0 ≤ (3 : Int) ∧ (3 : Int) ≤ 10) ∧
      (FlagContract plainEnv onePage.toBlock 3 ↔ (3 : Int) ≠ 2 ∧ (3 : Int) ≠ 10) :=
  ⟨by decide, flag_contract_iff plainEnv onePage 3 (by decide)⟩

/-- On one page: with `-s` the random addresses pass whatever is read, and without it March C fails a
memory that answers 1. -/
theorem flag_not_uniform :
    ¬ FlagContract plainEnv onePage.toBlock 2 ∧ ¬ FlagContract plainEnv onePage.toBlock 10 :=
  ⟨randaddr_breaks_flag plainEnv onePage, marchC_breaks_flag plainEnv onePage⟩

end MoBoMemory.App
