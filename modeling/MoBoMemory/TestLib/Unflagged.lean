import MoBoMemory.TestLib.Faults
import MoBoMemory.TestLib.Honours

/-!
# Tests that do not honour the flag

Item 2 lives in a file of its own, where the flag is compared with `NO_COMPARISION`, which has the value
that `HAS_COMPARISION` has everywhere else.  Item 10 does not look at the flag.
-/

namespace MoBoMemory.TestLib

open Base

/-! ## Random addresses -/

def errCacheRandData : Nat := 0x10100026
def noComparision : Int := 1
def cpuCache : Int := 1
def memoryModule : Int := 2
def memBankSize : Nat := 1 * 1024 * 1024
def randArrayNum : Nat := 1 * 128
def randNumSize : Nat := 1 * 1024

def mixRandom (p : Nat) : UL :=
  let first := BitVec.ofNat 64 p * 1221721 + 68314103
  let second := first * 1221721 + 68314103
  (first &&& 0xffff0000) ||| ((second >>> 16) &&& 0xffff)

section Randaddr

variable {σ : Type} (bus : Bus σ)

def randaddrFillup (testBuf cnt : Nat) (mem : σ) : σ :=
  (List.range cnt).foldl (fun mem i =>
    bus.write mem (ptrAdd testBuf i) (mixRandom (ptrAdd testBuf i))) mem

/-- `*pa = ~(*pa);` -/
def invert (pa : Nat) (mem : σ) : σ :=
  let word := bus.read mem pa
  bus.write word.2 pa (~~~word.1)

/-- `scaled n i j` is the product of `n` and the random number at `i` and `j`, divided by RAND_MAX + 1;
it is computed in floating point. -/
def randaddrTest (scaled : Nat → Nat → Nat → Nat) (testBuf testCnt cntPerBank : Nat) (mem : σ) : σ :=
  let banks := testCnt / cntPerBank
  let mem := (List.range banks).foldl (fun mem ibank =>
    let testP := ptrAdd testBuf (ibank * cntPerBank)
    (List.range randArrayNum).foldl (fun mem i =>
      (List.range randNumSize).foldl (fun mem j =>
        invert bus (ptrAdd testP (scaled cntPerBank i j)) mem) mem) mem) mem
  let testP := ptrAdd testBuf (banks * cntPerBank)
  let remain := testCnt - banks * cntPerBank
  -- the inner loop sets `flag` when it breaks, and then the outer one breaks too
  (sweep (fun i => sweep (fun j mem =>
    if remain ≤ randArrayNum * i + j then (mem, true)
    else (invert bus (ptrAdd testP (scaled remain i j)) mem, false)) (List.range randNumSize))
    (List.range randArrayNum) mem).1

/-- `if (!(*pa == pat || *pa == ~pat)) { ret = ERR_FAIL; break; }`, unless nothing is compared. -/
def randaddrBody (testBuf : Nat) (noComp : Int) (i : Nat) (mem : σ) : σ × Bool :=
  let pa := ptrAdd testBuf i
  let pat := mixRandom pa
  if noComp = noComparision then (mem, false)
  else
    let word := bus.read mem pa
    if word.1 = pat then (word.2, false)
    else
      let again := bus.read word.2 pa
      (again.2, decide (again.1 ≠ ~~~pat))

def randaddrVerify (testBuf testCnt : Nat) (noComp : Int) (mem : σ) : Nat × σ :=
  let out := sweep (randaddrBody bus testBuf noComp) (List.range testCnt) mem
  (if out.2 then errFail else errSuccess, out.1)

def bankSize (moduleId : Int) : Nat :=
  if moduleId = memoryModule ∨ moduleId = cpuCache then memBankSize else 0

end Randaddr

def testCacheRandaddr (scaled : Nat → Nat → Nat → Nat) (startP blockBytes : Nat)
    (moduleId noComp : Int) : MemTest := fun _ _ bus mem =>
  let testCnt := blockBytes / 8
  let mem := randaddrFillup bus.toBus startP testCnt mem
  let mem := randaddrTest bus.toBus scaled startP testCnt (bankSize moduleId / 8) mem
  let out := randaddrVerify bus.toBus startP testCnt noComp mem
  some (if out.1 ≠ errSuccess then errCacheRandData else out.1, out.2)

-- Where all other items compare, this one does not.
theorem testCacheRandaddr_blind (scaled : Nat → Nat → Nat → Nat) (startP blockBytes : Nat)
    (moduleId : Int) {σ : Type} (fuel : Nat) (bus : LongBus σ) (mem : σ) :
    ∃ mem', testCacheRandaddr scaled startP blockBytes moduleId hasComparision σ fuel bus mem =
      some (errSuccess, mem') := by
  have hverify : ∀ mem, (sweep (randaddrBody bus.toBus startP hasComparision)
      (List.range (blockBytes / 8)) mem).2 = false :=
    fun mem => (sweep_complete (fun _ _ => True) (fun i _ mem _ => ⟨rfl, trivial⟩) _ mem trivial).1
  exact ⟨_, by simp [testCacheRandaddr, randaddrVerify, hverify]; rfl⟩

-- And where they do not, it does.
theorem testCacheRandaddr_compares (b : PageBlock) (scaled : Nat → Nat → Nat → Nat) (moduleId : Int)
    {noComp : Int} (hno : noComp ≠ hasComparision) : ∃ c, ∀ fuel,
      testCacheRandaddr scaled b.start (8 * b.cnt) moduleId noComp Unit fuel (constBus c) () =
        some (errCacheRandData, ()) := by
  obtain ⟨c, hpat, hinv⟩ : ∃ c : UL, c ≠ mixRandom (ptrAdd b.start 0) ∧
      c ≠ ~~~mixRandom (ptrAdd b.start 0) := by
    generalize mixRandom (ptrAdd b.start 0) = pat
    by_cases hpat : pat = 0 ∨ pat = ~~~0
    · exact ⟨1, by rcases hpat with rfl | rfl <;> decide, by rcases hpat with rfl | rfl <;> decide⟩
    · rw [not_or] at hpat
      refine ⟨0, Ne.symm hpat.1, fun hzero => hpat.2 ?_⟩
      rw [hzero, BitVec.not_not]
  refine ⟨c, fun fuel => ?_⟩
  have hbody : (randaddrBody (constBus c).toBus b.start noComp 0 ()).2 = true := by
    have hno' : noComp ≠ noComparision := hno
    simp [randaddrBody, hno', constBus, hpat, hinv]
  have hverify : (sweep (randaddrBody (constBus c).toBus b.start noComp)
      (List.range (8 * b.cnt / 8)) ()).2 = true := by
    obtain ⟨n, hn⟩ : ∃ n, b.cnt = n + 1 := ⟨b.cnt - 1, by have := b.cnt_pos; omega⟩
    rw [cnt_of_bytes, hn, List.range_succ_eq_map, sweep, if_pos hbody]
  simp only [testCacheRandaddr, randaddrVerify, hverify]
  rfl

/-! ## March C -/

def errMarchC : Nat := 0x1020001A

def testMarchC (startP blockBytes iter : Nat) (noComp : Int) : MemTest := fun _ fuel bus mem =>
  let run := marchC bus.toBus fuel startP (blockBytes / 8) noComp 0 iter ⟨mem, []⟩
  thenTest errMarchC (run.map fun out => (out.1, out.2.mem)) fun mem => some (errSuccess, mem)

section March

variable (b : PageBlock) (noComp : Int) {iter fuel : Nat} (hfuel : b.cnt < fuel)

include hfuel

theorem testMarchC_faithful (mem : Nat → UL) :
    ∃ mem', testMarchC b.start (8 * b.cnt) iter noComp _ fuel faithfulLongBus mem =
      some (errSuccess, mem') := by
  have hrun : marchC faithfulBus fuel b.start b.cnt noComp 0 iter ⟨mem, []⟩ =
      some (errSuccess, ⟨overwrite b.addrs 0 mem, []⟩) := by
    rw [marchC_eq b.toBlock hfuel, filled, fill_faithful]
    exact marchCRounds_faithful b.toBlock 0 mem [] hfuel iter
  refine ⟨overwrite b.addrs 0 mem, ?_⟩
  unfold testMarchC
  rw [cnt_of_bytes]
  show thenTest errMarchC ((marchC faithfulBus fuel b.start b.cnt noComp 0 iter ⟨mem, []⟩).map _) _ = _
  rw [hrun]
  rfl

-- Whatever the flag is.
theorem testMarchC_const (hiter : 0 < iter) {c : UL} (hc : c ≠ 0) :
    testMarchC b.start (8 * b.cnt) iter noComp Unit fuel (constBus c) () = some (errMarchC, ()) := by
  obtain ⟨n, rfl⟩ : ∃ n, iter = n + 1 := ⟨iter - 1, by omega⟩
  obtain ⟨k, hk⟩ : ∃ k, b.cnt = k + 1 := ⟨b.cnt - 1, by have := b.cnt_pos; omega⟩
  have hfirst : ∀ m : Machine Unit,
      (sweep (verifyAWriteBBody (constBus c).toBus 0 (~~~0)) b.addrs m).2 = true := by
    intro m
    have hread : ((constBus c).toBus.read m.mem b.start).1 ≠ 0 := hc
    have hbody : (verifyAWriteBBody (constBus c).toBus 0 (~~~0) b.start m).2 = true := by
      rw [verifyAWriteBBody, if_pos hread]
    rw [Block.addrs, hk, List.range'_succ, sweep, if_pos hbody]
  have hdecisive : decisiveMismatch (constBus c).toBus b.toBlock 0 (n + 1)
      (filled (constBus c).toBus b.toBlock 0 ⟨(), []⟩) = true := by
    rw [decisiveMismatch, checkedPart, checkedPasses, sweep, if_pos (hfirst _)]
    rfl
  obtain ⟨m', hrun, -⟩ := marchCRounds_verdict (constBus c).toBus b.toBlock hfuel 0 n errSuccess
    (filled (constBus c).toBus b.toBlock 0 ⟨(), []⟩)
  unfold testMarchC
  rw [cnt_of_bytes, marchC_eq b.toBlock hfuel, hrun, hdecisive]
  rfl

end March

end MoBoMemory.TestLib
