import MoBoMemory.App.ComparisonFlag
import MoBoMemory.App.Coverage
import MoBoMemory.App.ItemVerdicts
import MoBoMemory.TestLib.Detection

/-!
# Threads that share the memory

The threads of a round run at the same time on the cores of the machine, and take turns at the memory in
any order.  They stay in their own blocks, so on memory without faults each of them ends as it does
alone: with success.  And where a bit is stuck, the thread whose block has it finds it in every order, if
the item is one of those that compare every word with a pattern and with its complement.
-/

namespace MoBoMemory.App

open Base Driver TestLib

/-! ## The items -/

section Items

variable (env : ItemEnv) (b : PageBlock) (cpuid : Nat) {item : Int}

theorem call_spoken (noComp : Int) (hitem : 0 ≤ item ∧ item ≤ 10) (hne : item ≠ 2) :
    ∃ f, testFunction item = some f ∧ SpokenTest (· ∈ b.addrs) b.cnt
      (env.call (blockThread b.toBlock cpuid item noComp) f) := by
  have hcnt := b.cnt_ge
  obtain rfl | rfl | rfl | rfl | rfl | rfl | rfl | rfl | rfl | rfl : item = 0 ∨ item = 1 ∨ item = 3 ∨
      item = 4 ∨ item = 5 ∨ item = 6 ∨ item = 7 ∨ item = 8 ∨ item = 9 ∨ item = 10 := by omega
  · exact ⟨.addrWalkOnes, rfl, testAddrWalkOnes_spoken b noComp⟩
  · exact ⟨.addrWalkOwn, rfl, testAddrWalkOwn_spoken b.toBlock noComp⟩
  · exact ⟨.movinv10, rfl, testMovinv10_spoken b.toBlock _ noComp⟩
  · exact ⟨.movinv8bit, rfl, movinv8bitRounds_spoken b.toBlock _ noComp 8 0x80⟩
  · exact ⟨.movinvRandom, rfl, movinvRandomRounds_spoken b.toBlock noComp _ randFunctionInit⟩
  · exact ⟨.blockMove, rfl, testBlockMove_spoken b env.carry noComp _⟩
  · exact ⟨.movinvLong, rfl, testMovinvLong_spoken b.toBlock _ noComp (by omega)⟩
  · exact ⟨.randomNumSequence, rfl, testRandomNumSequence_spoken b.toBlock noComp⟩
  · exact ⟨.memModulo, rfl, memModuloRounds_spoken b.toBlock noComp b.roomy _ randFunctionInit⟩
  · exact ⟨.marchC, rfl, testMarchC_spoken b.toBlock _ noComp⟩

theorem exists_testFunction (hitem : 0 ≤ item ∧ item ≤ 10) : ∃ f, testFunction item = some f := by
  obtain rfl | rfl | rfl | rfl | rfl | rfl | rfl | rfl | rfl | rfl | rfl : item = 0 ∨ item = 1 ∨
      item = 2 ∨ item = 3 ∨ item = 4 ∨ item = 5 ∨ item = 6 ∨ item = 7 ∨ item = 8 ∨ item = 9 ∨
      item = 10 := by omega
  all_goals exact ⟨_, rfl⟩

theorem call_passes (noComp : Int) (hitem : 0 ≤ item ∧ item ≤ 10) (hne : item ≠ 2) {f : TestFunction}
    (hf : testFunction item = some f) (mem : Nat → UL) {fuel : Nat} (hfuel : b.cnt < fuel) :
    ∃ mem', env.call (blockThread b.toBlock cpuid item noComp) f _ fuel faithfulLongBus mem =
      some (errSuccess, mem') := by
  obtain rfl | rfl | rfl | rfl | rfl | rfl | rfl | rfl | rfl | rfl : item = 0 ∨ item = 1 ∨ item = 3 ∨
      item = 4 ∨ item = 5 ∨ item = 6 ∨ item = 7 ∨ item = 8 ∨ item = 9 ∨ item = 10 := by omega
  all_goals obtain rfl := Option.some.inj hf
  · exact (testAddrWalkOnes_honours b noComp).passes mem fuel hfuel
  · exact (testAddrWalkOwn_honours b noComp).passes mem fuel hfuel
  · exact (testMovinv10_honours b noComp (show 0 < 4 by decide)).passes mem fuel hfuel
  · exact (testMovinv8bit_honours b noComp (show 0 < 2 by decide)).passes mem fuel hfuel
  · exact (testMovinvRandom_honours b noComp (show 0 < 50 by decide)).passes mem fuel hfuel
  · exact (testBlockMove_honours b env.carry noComp (show 80 % 2 = 0 by decide)).passes mem fuel hfuel
  · exact (testMovinvLong_honours b noComp (show 0 < 2 by decide)).passes mem fuel hfuel
  · exact (testRandomNumSequence_honours b noComp).passes mem fuel hfuel
  · exact (testMemModulo_honours b noComp (show 0 < 6 by decide)).passes mem fuel hfuel
  · exact testMarchC_faithful b noComp hfuel mem

/-- The items that compare every word with a pattern and with its complement. -/
def finders : List Int := [3, 4, 5, 7, 8, 9, 10]

theorem call_finds (hitem : item ∈ finders) :
    ∃ f err, testFunction item = some f ∧ UInt32.ofNat err ≠ 0 ∧
      Finds b.toBlock err (env.call (blockThread b.toBlock cpuid item hasComparision) f) := by
  simp only [finders, List.mem_cons, List.not_mem_nil, or_false] at hitem
  obtain rfl | rfl | rfl | rfl | rfl | rfl | rfl := hitem
  · exact ⟨.movinv10, errMovinv10, rfl, by decide, testMovinv10_finds b (show 0 < 4 by decide)⟩
  · exact ⟨.movinv8bit, errMovinv8bit, rfl, by decide, testMovinv8bit_finds b (show 0 < 2 by decide)⟩
  · exact ⟨.movinvRandom, errMovinvRandom, rfl, by decide,
      testMovinvRandom_finds b (show 0 < 50 by decide)⟩
  · exact ⟨.movinvLong, errMovinv32bit, rfl, by decide, testMovinvLong_finds b (show 0 < 2 by decide)⟩
  · exact ⟨.randomNumSequence, errRandomNumSeq, rfl, by decide, testRandomNumSequence_finds b⟩
  · exact ⟨.memModulo, errModulo, rfl, by decide, testMemModulo_finds b (show 0 < 6 by decide)⟩
  · exact ⟨.marchC, errMarchC, rfl, by decide,
      testMarchC_finds b (show 0 < 2 by decide) hasComparision⟩

end Items

/-- Every item but the random addresses comes to an end on every memory, and uses the words of its block
only: two memories that cannot be told apart by accesses to these words stay so, and get the same code. -/
theorem item_confined (env : ItemEnv) (b : PageBlock) (cpuid : Nat) (noComp : Int) {item : Int}
    (hitem : 0 ≤ item ∧ item ≤ 10) (hne : item ≠ 2) {fuel : Nat} (hfuel : b.cnt < fuel) :
    ∃ f, testFunction item = some f ∧ ∀ {σ τ : Type} (bus : LongBus σ) (bus' : LongBus τ)
      (R : σ → τ → Prop),
      (∀ op, Access.On (· ∈ b.addrs) op → ∀ mem mem', R mem mem' →
        (bus.handler op mem).1 = (bus'.handler op mem').1 ∧
          R (bus.handler op mem).2 (bus'.handler op mem').2) →
      ∀ mem mem', R mem mem' → ∃ code m m',
        env.call (blockThread b.toBlock cpuid item noComp) f σ fuel bus mem = some (code, m) ∧
        env.call (blockThread b.toBlock cpuid item noComp) f τ fuel bus' mem' = some (code, m') ∧
        R m m' := by
  obtain ⟨f, hf, hspoken⟩ := call_spoken env b cpuid noComp hitem hne
  obtain ⟨d, honly, hspeaks⟩ := hspoken.exists_session hfuel
  refine ⟨f, hf, fun {σ τ} bus bus' R hstep mem mem' hR => ?_⟩
  obtain ⟨hcode, hR'⟩ := Dialogue.run_related hstep honly hR
  exact ⟨_, _, _, hspeaks σ bus mem, by rw [hcode]; exact hspeaks τ bus' mem', hR'⟩

-- Item 3 on one page does not see what is outside.
theorem item_confined_page :
    ((0 ≤ (3 : Int) ∧ (3 : Int) ≤ 10) ∧ (3 : Int) ≠ 2 ∧ onePage.cnt < 513) ∧
    ∃ f, testFunction 3 = some f ∧ ∀ {σ τ : Type} (bus : LongBus σ) (bus' : LongBus τ)
      (R : σ → τ → Prop),
      (∀ op, Access.On (· ∈ onePage.addrs) op → ∀ mem mem', R mem mem' →
        (bus.handler op mem).1 = (bus'.handler op mem').1 ∧
          R (bus.handler op mem).2 (bus'.handler op mem').2) →
      ∀ mem mem', R mem mem' → ∃ code m m',
        plainEnv.call (blockThread onePage.toBlock 0 3 hasComparision) f σ 513 bus mem = some (code, m) ∧
        plainEnv.call (blockThread onePage.toBlock 0 3 hasComparision) f τ 513 bus' mem' =
          some (code, m') ∧ R m m' :=
  ⟨by decide, item_confined plainEnv onePage 0 hasComparision (by decide) (by decide) (by decide)⟩

/-! ## Rounds -/

/-- The memory as the process sees it through its page table. -/
def throughTable {σ : Type} (calls : List RemapCall) (bus : LongBus σ) : LongBus σ where
  read mem p := bus.read mem ((physAddr calls p).getD 0)
  write mem p w := bus.write mem ((physAddr calls p).getD 0) w
  readl mem p := bus.readl mem ((physAddr calls p).getD 0)
  writel mem p w := bus.writel mem ((physAddr calls p).getD 0) w

/-- A round as it goes: every thread runs the test of its slice, with fuel enough for all of them, and
they take turns at the memory until all have ended. -/
structure RoundRun {σ : Type} (env : ItemEnv) (bus : LongBus σ) (noComp item : Int)
    (slices : List SliceInfo) where
  fuel : Nat
  enough : ∀ i : Fin slices.length, (threadInfo noComp item slices[i]).blockBytes / 8 < fuel
  sessions : Fin slices.length → Session Nat
  speaks : ∀ i f, testFunction item = some f →
    Speaks fuel (env.call (threadInfo noComp item slices[i]) f) (sessions i)
  before : σ
  turns : List (Fin slices.length)
  code : Fin slices.length → Nat
  ended : ∀ i, (turns.foldl (Pool.turn bus.handler) ⟨sessions, before⟩).Ended i (code i)

/-- The slices are blocks of whole pages that are apart, and they are mapped in one piece. -/
structure Placed (calls : List RemapCall) (slices : List SliceInfo) where
  block : Fin slices.length → PageBlock
  thread : ∀ i noComp item, threadInfo noComp item slices[i] =
    blockThread (block i).toBlock (slices[i].cpuid % 2 ^ 16).toNat item noComp
  apart : ∀ i j, i ≠ j → ∀ p ∈ (block i).addrs, p ∉ (block j).addrs
  start : Nat
  phyStart : Nat
  aligned : 8 ∣ start ∧ 8 ∣ phyStart
  mapped : ∀ i a, (block i).start ≤ a → a < (block i).start + 8 * (block i).cnt →
    start ≤ a ∧ physAddr calls a = some (phyStart + (a - start))

section Rounds

variable {calls : List RemapCall} {slices : List SliceInfo} (placed : Placed calls slices)

theorem Placed.bytes (i : Fin slices.length) (noComp item : Int) :
    (threadInfo noComp item slices[i]).blockBytes / 8 = (placed.block i).cnt := by
  rw [placed.thread]
  exact cnt_of_bytes _

namespace Placed

variable {env : ItemEnv} {noComp item : Int}

theorem word {i : Fin slices.length} {p : Nat} (hp : p ∈ (placed.block i).addrs) {k : Nat} (hk : k < 8) :
    placed.start ≤ p ∧ physAddr calls (p + k) = some (placed.phyStart + (p - placed.start) + k) := by
  obtain ⟨hlow, hhigh, hp8⟩ := (placed.block i).mem_addrs.mp hp
  have haligned := (placed.block i).aligned
  obtain ⟨hstart, -⟩ := placed.mapped i p hlow (by omega)
  obtain ⟨-, haddr⟩ := placed.mapped i (p + k) (by omega) (by omega)
  exact ⟨hstart, by rw [haddr]; congr 1; omega⟩

/-- Where the words of the blocks are. -/
theorem physAddr_word {i : Fin slices.length} {p : Nat} (hp : p ∈ (placed.block i).addrs) :
    (physAddr calls p).getD 0 = placed.phyStart + (p - placed.start) := by
  rw [show p = p + 0 from rfl, (placed.word hp (show 0 < 8 by decide)).2]
  rfl

theorem physAddr_half {i : Fin slices.length} {p : Nat} (hp : p / 8 * 8 ∈ (placed.block i).addrs) :
    (physAddr calls p).getD 0 = placed.phyStart + (p / 8 * 8 - placed.start) + p % 8 := by
  have haddr := (placed.word hp (Nat.mod_lt p (by decide))).2
  rw [Nat.div_add_mod'] at haddr
  rw [haddr]
  rfl

theorem physAddr_inj {i j : Fin slices.length} {p q : Nat} (hp : p ∈ (placed.block i).addrs)
    (hq : q ∈ (placed.block j).addrs) (heq : (physAddr calls p).getD 0 = (physAddr calls q).getD 0) :
    p = q := by
  obtain ⟨hlow, -⟩ := placed.word hp (show 0 < 8 by decide)
  obtain ⟨hlow', -⟩ := placed.word hq (show 0 < 8 by decide)
  rw [placed.physAddr_word hp, placed.physAddr_word hq] at heq
  omega

/-- What a thread sees of the memory. -/
def view (i : Fin slices.length) (mem : Nat → UL) : Nat → UL := fun p =>
  if p ∈ (placed.block i).addrs then mem ((physAddr calls p).getD 0) else 0

theorem view_update {i : Fin slices.length} {p : Nat} (hp : p ∈ (placed.block i).addrs)
    (mem : Nat → UL) (w : UL) :
    placed.view i (Function.update mem ((physAddr calls p).getD 0) w) =
      Function.update (placed.view i mem) p w := by
  funext q
  by_cases hq : q ∈ (placed.block i).addrs
  · by_cases hqp : q = p
    · subst hqp
      simp [view, hq]
    · have hne : (physAddr calls q).getD 0 ≠ (physAddr calls p).getD 0 :=
        fun heq => hqp (placed.physAddr_inj hq hp heq)
      simp [view, hq, Function.update_of_ne hqp, Function.update_of_ne hne]
  · have hqp : q ≠ p := fun heq => hq (heq ▸ hp)
    simp [view, hq, Function.update_of_ne hqp]

theorem view_other {i j : Fin slices.length} (hij : i ≠ j) {p : Nat} (hp : p ∈ (placed.block j).addrs)
    (mem : Nat → UL) (w : UL) :
    placed.view i (Function.update mem ((physAddr calls p).getD 0) w) = placed.view i mem := by
  funext q
  by_cases hq : q ∈ (placed.block i).addrs
  · have hne : (physAddr calls q).getD 0 ≠ (physAddr calls p).getD 0 :=
      fun heq => placed.apart i j hij q hq (placed.physAddr_inj hq hp heq ▸ hp)
    simp [view, hq, Function.update_of_ne hne]
  · simp [view, hq]

-- A half of a word on either side of the page table.
theorem half {i : Fin slices.length} {p : Nat} (hp : p / 8 * 8 ∈ (placed.block i).addrs)
    (hhalf : p % 4 = 0) :
    (p % 8 = 0 ∧ (physAddr calls p).getD 0 % 8 = 0 ∧ p ∈ (placed.block i).addrs) ∨
      (p % 8 ≠ 0 ∧ (physAddr calls p).getD 0 % 8 ≠ 0 ∧ p - 4 ∈ (placed.block i).addrs ∧
        (physAddr calls p).getD 0 - 4 = (physAddr calls (p - 4)).getD 0) := by
  obtain ⟨hstart, hphys⟩ := placed.aligned
  obtain ⟨hlow, -⟩ := placed.word hp (show 0 < 8 by decide)
  have haddr := placed.physAddr_half hp
  by_cases hp8 : p % 8 = 0
  · have hsame : p / 8 * 8 = p := by omega
    rw [hsame] at hp
    exact Or.inl ⟨hp8, by omega, hp⟩
  · have hword : p - 4 = p / 8 * 8 := by omega
    refine Or.inr ⟨hp8, by omega, hword ▸ hp, ?_⟩
    rw [hword, placed.physAddr_word hp, haddr]
    omega

/-- The accesses of a thread to its block are like those of a process that is alone with its own memory,
and the other threads do not see them. -/
theorem separate : Pool.Separate (throughTable calls faithfulLongBus).handler
    (fun i => Access.On (· ∈ (placed.block i).addrs)) placed.view
    fun _ => faithfulLongBus.handler := by
  constructor
  · intro i op hop mem
    cases op with
    | read p => exact ⟨(if_pos hop).symm, rfl⟩
    | write p w => exact ⟨rfl, placed.view_update hop mem w⟩
    | readl p =>
        rcases placed.half hop.1 hop.2 with ⟨hp, hphys, hmem⟩ | ⟨hp, hphys, hmem, hbase⟩
        · refine ⟨?_, rfl⟩
          simp only [LongBus.handler, throughTable, faithfulLongBus, view, if_pos hp, if_pos hphys,
            if_pos hmem]
          rfl
        · refine ⟨?_, rfl⟩
          simp only [LongBus.handler, throughTable, faithfulLongBus, view, if_neg hp, if_neg hphys,
            if_pos hmem, hbase]
          rfl
    | writel p w =>
        rcases placed.half hop.1 hop.2 with ⟨hp, hphys, hmem⟩ | ⟨hp, hphys, hmem, hbase⟩
        · refine ⟨rfl, ?_⟩
          simp only [LongBus.handler, throughTable, faithfulLongBus, if_pos hp, if_pos hphys]
          rw [placed.view_update hmem]
          simp [view, hmem]
        · refine ⟨rfl, ?_⟩
          simp only [LongBus.handler, throughTable, faithfulLongBus, if_neg hp, if_neg hphys, hbase]
          rw [placed.view_update hmem]
          simp [view, hmem]
  · intro i j hij op hop mem
    cases op with
    | read p => rfl
    | write p w => exact placed.view_other hij hop mem w
    | readl p => rfl
    | writel p w =>
        rcases placed.half hop.1 hop.2 with ⟨hp, hphys, hmem⟩ | ⟨hp, hphys, hmem, hbase⟩
        · simp only [LongBus.handler, throughTable, faithfulLongBus, if_pos hphys]
          exact placed.view_other hij hmem _ _
        · simp only [LongBus.handler, throughTable, faithfulLongBus, if_neg hphys, hbase]
          exact placed.view_other hij hmem _ _

theorem only (hitem : 0 ≤ item ∧ item ≤ 10) (hne : item ≠ 2) {σ : Type} {bus : LongBus σ}
    (run : RoundRun env bus noComp item slices) (i : Fin slices.length) :
    (run.sessions i).Only (Access.On (· ∈ (placed.block i).addrs)) := by
  obtain ⟨f, hf, hspoken⟩ := call_spoken env (placed.block i) (slices[i].cpuid % 2 ^ 16).toNat noComp
    hitem hne
  have hspeaks := run.speaks i f hf
  rw [placed.thread] at hspeaks
  exact hspoken.only (by rw [← placed.bytes i noComp item]; exact run.enough i) hspeaks

include placed in
/-- On memory without faults every thread of a round passes, in every interleaving. -/
theorem code_eq_success (hitem : 0 ≤ item ∧ item ≤ 10) (hne : item ≠ 2) {bus : LongBus (Nat → UL)}
    (hbus : bus = faithfulLongBus) (run : RoundRun env (throughTable calls bus) noComp item slices)
    (i : Fin slices.length) : run.code i = errSuccess := by
  subst hbus
  have halone := placed.separate.ended (fun i => placed.only hitem hne run i) (run.ended i)
  obtain ⟨f, hf, -⟩ := call_spoken env (placed.block i) 0 noComp hitem hne
  have hspeaks := run.speaks i f hf
  rw [placed.thread] at hspeaks
  obtain ⟨mem', hpass⟩ := call_passes env (placed.block i) (slices[i].cpuid % 2 ^ 16).toNat noComp hitem
    hne hf (placed.view i run.before) (by rw [← placed.bytes i noComp item]; exact run.enough i)
  rw [halone]
  exact congrArg Prod.fst (Option.some.inj ((hspeaks _ _ _).symm.trans hpass))

/-- A bit of the physical memory that is stuck in a word of a block fails the thread of the block, in
every interleaving. -/
theorem code_ne_success (hcomp : noComp = hasComparision) (hitem : item ∈ finders) {σ : Type}
    {bus : LongBus σ} {cell : Cell} {value : Bool} (hstuck : Stuck bus.toBus cell value)
    (run : RoundRun env (throughTable calls bus) noComp item slices)
    {i : Fin slices.length} {p : Nat} (hp : p ∈ (placed.block i).addrs)
    (hcell : (physAddr calls p).getD 0 = cell.addr) :
    ∃ f, testFunction item = some f ∧ UInt32.ofNat (run.code i) ≠ 0 := by
  subst hcomp
  obtain ⟨f, err, hf, herr, hfinds⟩ := call_finds env (placed.block i)
    (slices[i].cpuid % 2 ^ 16).toNat hitem
  have hspeaks := run.speaks i f hf
  rw [placed.thread] at hspeaks
  have halways := @Finds.always ⟨p, cell.bit⟩ value _ err _ hfinds hp _
    (by rw [← placed.bytes i hasComparision item]; exact run.enough i) _ hspeaks
  have hcode := Pool.ended_of_always (fun op mem => ?_) halways (run.ended i)
  · exact ⟨f, hf, by rw [hcode]; exact herr⟩
  · cases op with
    | read q =>
        rintro rfl
        show bitOf (bus.read mem _).1 cell.bit = value
        rw [hcell]
        exact hstuck mem
    | write q w => trivial
    | readl q => trivial
    | writel q w => trivial

include placed in
/-- From every state of the memory, a round has a run with every fair schedule. -/
theorem exists_run (hitem : 0 ≤ item ∧ item ≤ 10) (hne : item ≠ 2) (env : ItemEnv) (noComp : Int)
    {σ : Type} (bus : LongBus σ) (mem : σ) {schedule : Nat → Fin slices.length}
    (hfair : ∀ i n, ∃ m ≥ n, schedule m = i) :
    ∃ run : RoundRun env bus noComp item slices, run.before = mem ∧
      ∃ n, run.turns = (List.range n).map schedule := by
  obtain ⟨bound, hbound⟩ := Finite.exists_le fun i => (placed.block i).cnt
  have hsession : ∀ i : Fin slices.length, ∃ d : Session Nat, ∀ f, testFunction item = some f →
      Speaks (bound + 1) (env.call (threadInfo noComp item slices[i]) f) d := by
    intro i
    obtain ⟨f, hf, hspoken⟩ := call_spoken env (placed.block i) (slices[i].cpuid % 2 ^ 16).toNat noComp
      hitem hne
    obtain ⟨d, -, hspeaks⟩ := hspoken.exists_session (Nat.lt_succ_of_le (hbound i))
    refine ⟨d, fun g hg => ?_⟩
    obtain rfl := Option.some.inj (hf.symm.trans hg)
    rw [placed.thread]
    exact hspeaks
  choose sessions hspeaks using hsession
  obtain ⟨n, hends⟩ := Pool.all_end (h := bus.handler) (c := ⟨sessions, mem⟩) hfair
  choose code hcode using hends
  refine ⟨⟨bound + 1, fun i => ?_, sessions, hspeaks, mem, (List.range n).map schedule, code, ?_⟩, rfl, n,
    rfl⟩
  · rw [placed.bytes]
    exact Nat.lt_succ_of_le (hbound i)
  · intro i
    rw [← Pool.after_eq_foldl]
    exact hcode i

end Placed

end Rounds

end MoBoMemory.App
