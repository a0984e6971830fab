import MoBoMemory.App.Cleanup
import MoBoMemory.App.WindowClip

/-!
# Runs of the tool up to its cleanup

The statements of `init_module` that touch the lists, the device or a mapping, and the three ways in
which a process of the tool goes on from there and cleans up.  Between any two statements SIGINT may
come, and `sig_ctrlC_exit` calls both release functions.
-/

namespace MoBoMemory.App

open Base Driver

/-! ## The statements of `init_module` -/

/-- A new entry of `RW_list`. -/
def newRange (i addr size : Nat) : List Stmt :=
  [.malloc (.range i), .initListHead (.range i), .setRange i addr ((addr + size) % 2 ^ 64),
    .initListHead (.rwSlice i), .listAdd (.range i) .rwList]

def newRDRange (i : Nat) : List Stmt :=
  [.malloc (.rdRange i), .initListHead (.rdRange i), .listAdd (.rdRange i) .rdList]

def addRWStmts (env : InitEnv) (p : TestParm) (i a b : Nat) (s : InitState) : List Stmt :=
  let first := pfnStartRoundup a
  let last := pfnEndRoundup b
  if p.listInfo then newRange i 0 (last - first)
  else if last < (first + minBlockSize) % 2 ^ 64 then []
  else
    match (if s.fdOpen then env.mmap i else .error ebadf) with
    | .error _ => [.close]
    | .ok addr => .mmap addr (last - first) :: newRange i addr (last - first)

def recordStmts (env : InitEnv) (p : TestParm) (i : Nat) (region : BootmemRegion)
    (offset len last : Nat) (s : InitState) : List Stmt :=
  (if len = 0 then [.close] else []) ++
    match (if p.listInfo then some (offset, last) else clipToWindow p offset last) with
    | none => []
    | some (a, b) =>
        if maxRegion ≤ s.rawReg.length then []
        else if a = b then []
        else if nodeCount ≤ region.nid then []
        else if region.type = mmtestRW then
          addRWStmts env p i a b { s with fdOpen := if len = 0 then false else s.fdOpen }
        else if region.type = mmtestRO then newRDRange i
        else [.close]

def regionLen (region : BootmemRegion) : Nat :=
  ulSub region.endPfn region.startPfn * pageSize % 2 ^ 64

def regionStmts (env : InitEnv) (p : TestParm) (i : Nat) (region : BootmemRegion) (s : InitState) :
    List Stmt :=
  let offset := region.startPfn * pageSize % 2 ^ 64
  let len := regionLen region
  recordStmts env p i region offset len ((offset + len) % 2 ^ 64) s

def loopStmts (ks : KernelSort) (d : Globals) (env : InitEnv) (p : TestParm) :
    Nat → InitState → List Stmt
  | 0, _ => []
  | i + 1, s =>
      match (if s.fdOpen then env.getBregion i else some ebadf) with
      | some _ => [.close]
      | none =>
          regionStmts env p i (readRegion ks d i) s ++
            match initRegion env p i (readRegion ks d i) s with
            | (.finished, s) => loopStmts ks d env p i s
            | _ => []

/-- From `signal_a` on; `fd` is what `open` returns when it succeeds. -/
def initStmts (ks : KernelSort) (d : Globals) (env : InitEnv) (p : TestParm) (fd : Nat) : List Stmt :=
  .zeroConfig ::
    if p.stop < p.start then []
    else
      let p := if p.listInfo then { p with start := 0, stop := 0x1ffffffffff } else p
      -- init_RD_RW_list, which zeroes the heads once more
      [.zeroConfig, .initListHead .rdList, .initListHead .rwList] ++
        match env.openDevice with
        | some _ => [.openDevice (-1)]
        | none => .openDevice fd ::
            match env.getBregionNum with
            | some _ => [.close]
            | none => loopStmts ks d env p d.table.bregionNum ⟨true, 0, 0, [], [], []⟩

/-! ## How a process goes on -/

def sliceStmts (i n : Nat) : List Stmt :=
  [.malloc (.slice i n), .initListHead (.slice i n), .listAdd (.slice i n) (.rwSlice i)]

/-- One turn of `test_policy`, which makes `sliceNum i` slices of the entry for region `i`. -/
def policyRange (sliceNum : Nat → Nat) : Ref → ListProg
  | .range i =>
      Prog.emits ListMem.exec
        (.initListHead (.rwSlice i) :: (List.range (sliceNum i)).flatMap (sliceStmts i))
  | _ => Prog.fail

/-- What `read_write_test` does to the lists; `early` if it returns over the random pattern file. -/
def readWriteTestLists (early : Bool) (fuel : Nat) : ListProg :=
  (releaseListResource fuel).andThen
    (if early then Prog.nop
    else (releaseMunmapClose fuel).andThen ((releaseListResource fuel).andThen closeIfOpen))

/-- What a process does after the region loop: `test_policy` fails before it makes any slice, or the
parent ends in `close_module`, or the child runs `read_write_test`. -/
inductive Ending where
  | policyFails
  | closeModule (sliceNum : Nat → Nat)
  | readWriteTest (sliceNum : Nat → Nat) (early : Bool)

def Ending.prog (fuel : Nat) : Ending → ListProg
  | .policyFails => cleanup fuel
  | .closeModule sliceNum =>
      (listForEach fuel .rwList (policyRange sliceNum)).andThen (cleanup fuel)
  | .readWriteTest sliceNum early =>
      (listForEach fuel .rwList (policyRange sliceNum)).andThen (readWriteTestLists early fuel)

/-- A whole process; with `listInfo` it ends after the listing, and after an error it just returns. -/
def processRun (ks : KernelSort) (d : Globals) (env : InitEnv) (p : TestParm) (fd : Nat)
    (ending : Ending) (fuel : Nat) : ListProg :=
  (Prog.emits ListMem.exec (initStmts ks d env p fd)).andThen
    (if (initModule ks d env p).1 ≠ .finished then Prog.nop
    else if p.listInfo then releaseListResource fuel
    else ending.prog fuel)

/-! ## What has been allocated, mapped and given back -/

def mmaps (stmts : List Stmt) : List (Nat × Nat) := stmts.filterMap fun
  | .mmap addr len => some (addr, len)
  | _ => none

def munmaps (stmts : List Stmt) : List (Nat × Nat) := stmts.filterMap fun
  | .munmap addr len => some (addr, len)
  | _ => none

def mallocs (stmts : List Stmt) : List Ref := stmts.filterMap fun
  | .malloc x => some x
  | _ => none

def frees (stmts : List Stmt) : List Ref := stmts.filterMap fun
  | .free x => some x
  | _ => none

/-- Every mapping is unmapped once, every entry is freed once, and the device is closed once. -/
structure ReleasedOnce (stmts : List Stmt) : Prop where
  mappings : (munmaps stmts).Perm (mmaps stmts)
  entries : (frees stmts).Perm (mallocs stmts)
  device : stmts.count .close = 1

section Append

variable (stmts stmts' : List Stmt)

@[simp] theorem mmaps_append : mmaps (stmts ++ stmts') = mmaps stmts ++ mmaps stmts' :=
  List.filterMap_append

@[simp] theorem munmaps_append : munmaps (stmts ++ stmts') = munmaps stmts ++ munmaps stmts' :=
  List.filterMap_append

@[simp] theorem mallocs_append : mallocs (stmts ++ stmts') = mallocs stmts ++ mallocs stmts' :=
  List.filterMap_append

@[simp] theorem frees_append : frees (stmts ++ stmts') = frees stmts ++ frees stmts' :=
  List.filterMap_append

end Append

/-! ## The lists while they are built -/

section Building

variable {P : ListMem → Prop} (hP : ∀ m items, Wired m items → P m) {m : ListMem}
  {items : Ref → List Ref}

theorem off_rwSlice {i : Nat} (h : .range i ∉ items .rwList) (hslices : items (.rwSlice i) = []) :
    Off items (.rwSlice i) := by
  refine ⟨?_, by simp [Ref.owner, hslices]⟩
  rintro (hhead | hhead | ⟨j, hj, hmem⟩)
  · contradiction
  · contradiction
  · cases hj
    exact h hmem

include hP

theorem newRange_steps (h : Wired m items) {i : Nat} (hfresh : .range i ∉ items .rwList)
    (hslices : items (.rwSlice i) = []) (addr size : Nat) :
    ∃ m', Steps ListMem.exec P m (newRange i addr size) m' ∧
      Wired m' (Function.update items .rwList (.range i :: items .rwList)) ∧
      m'.start = Function.update m.start i addr ∧
      m'.stop = Function.update m.stop i ((addr + size) % 2 ^ 64) ∧
      m'.mmtestFd = m.mmtestFd := by
  have hoff : Off items (.range i) := off_entry (by simp [Ref.owner]) hfresh
  have hoff' := off_rwSlice hfresh hslices
  obtain ⟨m₁, he₁, h₁, hs₁, hl₁⟩ := h.exec_malloc (x := .range i) (by simp [Ref.inside, hoff, hoff'])
  have hlive₁ : m₁.live (.range i) = true := by rw [hl₁, Function.update_self]
  obtain ⟨m₂, he₂, h₂, hs₂, hl₂, -⟩ := h₁.exec_initListHead hoff hlive₁
  have hlive₂ : m₂.live (.range i) = true := by rw [hl₂, hlive₁]
  obtain ⟨m₃, he₃, h₃, hl₃, hstart, hstop, hfd⟩ :=
    h₂.exec_setRange addr ((addr + size) % 2 ^ 64) hlive₂
  have hlive₃ : m₃.live (.range i) = true := by rw [hl₃, hlive₂]
  obtain ⟨m₄, he₄, h₄, hs₄, hl₄, hring⟩ := h₃.exec_initListHead hoff' hlive₃
  have hlive₄ : m₄.live (.range i) = true := by rw [hl₄, hlive₃]
  obtain ⟨m₅, he₅, h₅, hs₅, -⟩ := h₄.exec_listAdd (.range i) (Or.inl rfl) rfl (by simp) hfresh
    hlive₄ (by
      rintro j ⟨⟩
      rw [hslices]
      exact ⟨⟨hring, by simpa [ListMem.valid] using hlive₄⟩, by simp [Ref.owner]⟩)
  refine ⟨m₅, ?_, h₅, ?_, ?_, ?_⟩
  · exact .cons (hP _ _ h) he₁ (.cons (hP _ _ h₁) he₂ (.cons (hP _ _ h₂) he₃
      (.cons (hP _ _ h₃) he₄ (.cons (hP _ _ h₄) he₅ .nil))))
  · rw [hs₅.start, hs₄.start, hstart, hs₂.start, hs₁.start]
  · rw [hs₅.stop, hs₄.stop, hstop, hs₂.stop, hs₁.stop]
  · rw [hs₅.mmtestFd, hs₄.mmtestFd, hfd, hs₂.mmtestFd, hs₁.mmtestFd]

-- An entry without a list of its own.
theorem newEntry_steps (h : Wired m items) (x : Ref) (hhead : InUse items x.owner)
    (hentry : x.owner ≠ x) (hinside : x.inside = [x]) (hfresh : x ∉ items x.owner) :
    ∃ m', Steps ListMem.exec P m [.malloc x, .initListHead x, .listAdd x x.owner] m' ∧
      Wired m' (Function.update items x.owner (x :: items x.owner)) ∧ SameData m m' := by
  have hoff := off_entry hentry hfresh
  obtain ⟨m₁, he₁, h₁, hs₁, hl₁⟩ := h.exec_malloc (x := x) (by simp [hinside, hoff])
  have hvalid₁ : m₁.valid x = true := by rw [valid_entry hentry, hl₁, Function.update_self]
  obtain ⟨m₂, he₂, h₂, hs₂, hl₂, -⟩ := h₁.exec_initListHead hoff hvalid₁
  have hvalid₂ : m₂.valid x = true := by
    rw [valid_entry hentry, hl₂, ← valid_entry hentry]
    exact hvalid₁
  have hrange : ∀ i, x ≠ .range i := by
    rintro i rfl
    cases hinside
  obtain ⟨m₃, he₃, h₃, hs₃, -⟩ := h₂.exec_listAdd x hhead rfl (Ne.symm hentry) hfresh hvalid₂
    fun i hi => absurd hi (hrange i)
  refine ⟨m₃, ?_, h₃, (hs₁.trans hs₂).trans hs₃⟩
  exact .cons (hP _ _ h) he₁ (.cons (hP _ _ h₁) he₂ (.cons (hP _ _ h₂) he₃ .nil))

end Building

/-- The lists while the regions below `n` are still to come, after the statements `done`. -/
structure Accounted (listInfo : Bool) (n : Nat) (m : ListMem) (items : Ref → List Ref) (done : List Stmt)
    (rwList : List RWRange) : Prop where
  wired : Wired m items
  slices : ∀ i, items (.rwSlice i) = []
  fresh : ∀ i < n, .range i ∉ items .rwList ∧ .rdRange i ∉ items .rdList
  entries : (items .rwList).length = rwList.length
  entered : (mallocs done).Perm (items .rwList ++ items .rdList)
  known : (mmaps done).Perm (munmaps ((items .rwList).flatMap (unmapStmts m)))
  kept : frees done = [] ∧ munmaps done = []
  mapped : listInfo = false → ∀ i, .range i ∈ items .rwList → m.start i ≠ 0

/-- The next statements keep the lists in order and leave those of `m'`. -/
def Extends (P : ListMem → Prop) (listInfo : Bool) (n : Nat) (m : ListMem) (done stmts : List Stmt)
    (rwList : List RWRange) : Prop :=
  ∃ m' items', Steps ListMem.exec P m stmts m' ∧ Accounted listInfo n m' items' (done ++ stmts) rwList ∧
    m'.mmtestFd = m.mmtestFd

section Regions

variable {P : ListMem → Prop} (hP : ∀ m items, Wired m items → P m) {listInfo : Bool}
  {n : Nat} {m : ListMem} {items : Ref → List Ref} {done stmts stmts' : List Stmt}
  {rwList rwList' : List RWRange} {n' : Nat}

theorem Accounted.mono (h : Accounted listInfo n m items done rwList) {n' : Nat} (hn : n' ≤ n) :
    Accounted listInfo n' m items done rwList :=
  { h with fresh := fun i hi => h.fresh i (by omega) }

theorem Extends.mono (h : Extends P listInfo n m done stmts rwList) (hn : n' ≤ n) :
    Extends P listInfo n' m done stmts rwList := by
  obtain ⟨m', items', hsteps, hlisted, hfd⟩ := h
  exact ⟨m', items', hsteps, hlisted.mono hn, hfd⟩

theorem Accounted.nothing (h : Accounted listInfo n m items done rwList) :
    Extends P listInfo n m done [] rwList :=
  ⟨m, items, .nil, by rwa [List.append_nil], rfl⟩

theorem Extends.append (h : Extends P listInfo n m done stmts rwList)
    (h' : ∀ m' items', Accounted listInfo n m' items' (done ++ stmts) rwList →
      Extends P listInfo n' m' (done ++ stmts) stmts' rwList') :
    Extends P listInfo n' m done (stmts ++ stmts') rwList' := by
  obtain ⟨m₁, items₁, hsteps₁, hlisted₁, hfd₁⟩ := h
  obtain ⟨m₂, items₂, hsteps₂, hlisted₂, hfd₂⟩ := h' m₁ items₁ hlisted₁
  rw [List.append_assoc] at hlisted₂
  exact ⟨m₂, items₂, hsteps₁.append hsteps₂, hlisted₂, hfd₂.trans hfd₁⟩

theorem unmapStmts_congr {m' : ListMem} {i : Nat} (hstart : m'.start i = m.start i)
    (hstop : m'.stop i = m.stop i) : unmapStmts m' (.range i) = unmapStmts m (.range i) := by
  rw [unmapStmts, unmapStmts, hstart, hstop]

-- Entries whose fields have not changed say the same mappings.
theorem Accounted.unmap_eq (h : Accounted listInfo n m items done rwList) {m' : ListMem}
    (hsame : ∀ i, .range i ∈ items .rwList → m'.start i = m.start i ∧ m'.stop i = m.stop i) :
    (items .rwList).flatMap (unmapStmts m') = (items .rwList).flatMap (unmapStmts m) := by
  apply List.flatMap_congr
  intro x hx
  obtain ⟨i, rfl⟩ := item_range h.wired hx
  exact unmapStmts_congr (hsame i hx).1 (hsame i hx).2

theorem perm_cons_append {α : Type*} {l rw rd : List α} (h : l.Perm (rw ++ rd)) (x : α) :
    (l ++ [x]).Perm (x :: rw ++ rd) :=
  (List.perm_append_singleton x l).trans (h.cons x)

include hP

theorem Accounted.close (h : Accounted listInfo n m items done rwList) :
    Extends P listInfo n m done [.close] rwList := by
  refine ⟨m, items, .cons (hP m items h.wired) rfl .nil, ?_, rfl⟩
  exact { h with
    entered := by simpa [mallocs] using h.entered
    known := by simpa [mmaps] using h.known
    kept := by simpa [frees, munmaps] using h.kept }

theorem Accounted.addRDRange (h : Accounted listInfo (n + 1) m items done rwList) :
    Extends P listInfo n m done (newRDRange n) rwList := by
  have hfresh := (h.fresh n (by omega)).2
  obtain ⟨m', hsteps, hwired, hsame⟩ := newEntry_steps hP h.wired (.rdRange n)
    (Or.inr (Or.inl rfl)) (by simp [Ref.owner]) rfl hfresh
  have hrw : Function.update items .rdList (.rdRange n :: items .rdList) .rwList = items .rwList :=
    Function.update_of_ne (by simp) _ _
  refine ⟨m', _, hsteps, ⟨hwired, ?_, ?_, ?_, ?_, ?_, ?_, ?_⟩, hsame.mmtestFd⟩
  · intro i
    rw [show Ref.owner (.rdRange n) = .rdList from rfl, Function.update_of_ne (by simp)]
    exact h.slices i
  · intro i hi
    have hold := h.fresh i (by omega)
    have hne : i ≠ n := by omega
    rw [show Ref.owner (.rdRange n) = .rdList from rfl, hrw, Function.update_self]
    exact ⟨hold.1, by simp [hold.2, hne]⟩
  · rw [show Ref.owner (.rdRange n) = .rdList from rfl, hrw]
    exact h.entries
  · rw [show Ref.owner (.rdRange n) = .rdList from rfl, hrw, Function.update_self]
    have hperm := perm_cons_append h.entered (.rdRange n)
    rw [mallocs_append]
    exact hperm.trans List.perm_middle.symm
  · rw [show Ref.owner (.rdRange n) = .rdList from rfl, hrw, mmaps_append,
      h.unmap_eq fun i _ => ⟨by rw [hsame.start], by rw [hsame.stop]⟩]
    simpa [newRDRange, mmaps] using h.known
  · simpa [newRDRange, frees, munmaps] using h.kept
  · rw [show Ref.owner (.rdRange n) = .rdList from rfl, hrw, hsame.start]
    exact h.mapped

/-- The mapping call before a new entry of `RW_list`: there is none in list mode. -/
def mapStmts (addr size : Nat) : List Stmt := if addr = 0 then [] else [.mmap addr size]

omit hP in
-- A new range is allocated and mapped, and nothing is released for it.
theorem effects_addRange (n addr size : Nat) :
    mallocs (mapStmts addr size) = [] ∧
      mmaps (mapStmts addr size) ++ mmaps (newRange n addr size) =
        munmaps (if addr = 0 then [] else [.munmap addr size]) ∧
      frees (mapStmts addr size ++ newRange n addr size) = [] ∧
      munmaps (mapStmts addr size ++ newRange n addr size) = [] := by
  unfold mapStmts
  split
  · exact ⟨rfl, rfl, rfl, rfl⟩
  · exact ⟨rfl, rfl, rfl, rfl⟩

theorem Accounted.addRange (h : Accounted listInfo (n + 1) m items done rwList) {addr size : Nat}
    (haddr : addr < 2 ^ 64) (hsize : size < 2 ^ 64) (hmode : addr = 0 → listInfo = true)
    (rw : RWRange) :
    Extends P listInfo n m done (mapStmts addr size ++ newRange n addr size) (rw :: rwList) := by
  have hfresh := (h.fresh n (by omega)).1
  have hmap : Steps ListMem.exec P m (mapStmts addr size) m := by
    unfold mapStmts
    split
    · exact .nil
    · exact .cons (hP m items h.wired) rfl .nil
  obtain ⟨m', hsteps, hwired, hstart, hstop, hfd⟩ :=
    newRange_steps hP h.wired hfresh (h.slices n) addr size
  have hold : ∀ i, .range i ∈ items .rwList → m'.start i = m.start i ∧ m'.stop i = m.stop i := by
    intro i hi
    have hne : i ≠ n := by
      rintro rfl
      exact hfresh hi
    rw [hstart, hstop, Function.update_of_ne hne, Function.update_of_ne hne]
    exact ⟨rfl, rfl⟩
  have hnew : unmapStmts m' (.range n) = if addr = 0 then [] else [.munmap addr size] := by
    rw [unmapStmts, hstart, hstop, Function.update_self, Function.update_self,
      ulSub_mapping haddr hsize, ite_not]
  obtain ⟨hnone, hsame, hfree, hunmap⟩ := effects_addRange n addr size
  refine ⟨m', _, hmap.append hsteps, ⟨hwired, ?_, ?_, ?_, ?_, ?_, ?_, ?_⟩, hfd⟩
  · intro i
    rw [Function.update_of_ne (by simp)]
    exact h.slices i
  · intro i hi
    have hold := h.fresh i (by omega)
    have hne : i ≠ n := by omega
    rw [Function.update_self, Function.update_of_ne (by simp)]
    exact ⟨by simp [hold.1, hne], hold.2⟩
  · rw [Function.update_self, List.length_cons, List.length_cons, h.entries]
  · rw [Function.update_self, Function.update_of_ne (by simp), mallocs_append, mallocs_append]
    rw [hnone]
    exact perm_cons_append h.entered (.range n)
  · rw [Function.update_self, List.flatMap_cons, h.unmap_eq hold, hnew, munmaps_append, mmaps_append,
      mmaps_append]
    rw [hsame]
    exact (h.known.append_right _).trans List.perm_append_comm
  · rw [frees_append, munmaps_append, hfree, hunmap, h.kept.1, h.kept.2]
    exact ⟨rfl, rfl⟩
  · intro hlist i hi
    rw [Function.update_self, List.mem_cons] at hi
    rcases hi with hi | hi
    · cases hi
      rw [hstart, Function.update_self]
      intro hzero
      simp [hmode hzero] at hlist
    · rw [(hold i hi).1]
      exact h.mapped hlist i hi

end Regions

/-! ## The region loop -/

section Loop

variable {P : ListMem → Prop} (hP : ∀ m items, Wired m items → P m) {env : InitEnv}
  (hmmap : ∀ i addr, env.mmap i = .ok addr → addr ≠ 0 ∧ addr < 2 ^ 64) {p : TestParm} {n : Nat}
  {m : ListMem} {items : Ref → List Ref} {done : List Stmt} {s : InitState}

theorem size_lt (a b : Nat) : pfnEndRoundup b - pfnStartRoundup a < 2 ^ 64 := by
  simp only [pfnEndRoundup, pageSize, pageShift]
  omega

-- Of the state only this field is read.
theorem addRWStmts_congr {i a b : Nat} {s₁ s₂ : InitState} (hopen : s₁.fdOpen = s₂.fdOpen) :
    addRWStmts env p i a b s₁ = addRWStmts env p i a b s₂ := by
  simp only [addRWStmts, hopen]

include hP hmmap

theorem addRWStmts_extends (h : Accounted p.listInfo (n + 1) m items done s.rwList) (a b : Nat) :
    Extends P p.listInfo n m done (addRWStmts env p n a b s) (addRWRange env p n a b s).2.rwList := by
  have hsize := size_lt a b
  simp only [addRWStmts, addRWRange]
  by_cases hlist : p.listInfo = true
  · simp only [hlist, if_true] at h ⊢
    exact h.addRange hP (by decide : 0 < 2 ^ 64) hsize (fun _ => rfl) _
  · rw [if_neg hlist, if_neg hlist]
    split_ifs with hsmall
    · exact h.nothing.mono (by omega)
    · cases hmap : env.mmap n with
      | error errno => exact (h.close hP).mono (by omega)
      | ok addr =>
          obtain ⟨hne, hlt⟩ := hmmap n addr hmap
          have hadd := h.addRange hP hlt hsize (fun hzero => absurd hzero hne)
            ⟨addr, (addr + (pfnEndRoundup b - pfnStartRoundup a)) % 2 ^ 64, pfnStartRoundup a,
              pfnEndRoundup b⟩
          rwa [mapStmts, if_neg hne] at hadd
    · exact (h.close hP).mono (by omega)

theorem recordStmts_extends (h : Accounted p.listInfo (n + 1) m items done s.rwList)
    (region : BootmemRegion) (offset len last : Nat) :
    Extends P p.listInfo n m done (recordStmts env p n region offset len last s)
      (recordRegion env p n region offset len last s).2.rwList := by
  have hpre : Extends P p.listInfo (n + 1) m done (if len = 0 then [.close] else []) s.rwList := by
    split_ifs
    · exact h.close hP
    · exact h.nothing
  have hlist : ∀ a b, (noteRange a b (enterRegion len last s)).rwList = s.rwList := by simp
  refine hpre.append fun m' items' h' => ?_
  generalize done ++ (if len = 0 then [Stmt.close] else []) = done' at h' ⊢
  have hnothing := (h'.nothing (P := P)).mono (show n ≤ n + 1 by omega)
  cases hcut : (if p.listInfo then some (offset, last) else clipToWindow p offset last) with
  | none =>
      rw [recordRegion_of_none hcut, enterRegion_rwList]
      exact hnothing
  | some cut =>
      obtain ⟨a, b⟩ := cut
      dsimp only
      by_cases hroom : s.rawReg.length < maxRegion
      swap
      · rw [recordRegion_of_full hcut (not_lt.mp hroom), if_pos (not_lt.mp hroom), enterRegion_rwList]
        exact hnothing
      have hopen : ({ s with fdOpen := if len = 0 then false else s.fdOpen } : InitState).fdOpen =
          (noteRange a b (enterRegion len last s)).fdOpen := by
        simp
      rw [recordRegion_of_room hcut hroom, if_neg (not_le.mpr hroom), addRWStmts_congr hopen]
      rw [← hlist a b] at h' hnothing
      unfold storeRange
      split_ifs
      · exact hnothing
      · exact hnothing
      · exact addRWStmts_extends hP hmmap h' a b
      · exact h'.addRDRange hP
      · exact (h'.close hP).mono (by omega)

theorem loopStmts_extends (ks : KernelSort) (d : Globals) :
    ∀ {n m items done s}, Accounted p.listInfo n m items done s.rwList →
      Extends P p.listInfo 0 m done (loopStmts ks d env p n s) (initLoop ks d env p n s).2.rwList := by
  intro n
  induction n with
  | zero => exact fun h => h.nothing
  | succ i ih =>
      intro m items done s h
      rw [loopStmts, initLoop]
      cases (if s.fdOpen then env.getBregion i else some ebadf) with
      | some errno => exact (h.close hP).mono (by omega)
      | none =>
          have hregion : Extends P p.listInfo i m done (regionStmts env p i (readRegion ks d i) s)
              (initRegion env p i (readRegion ks d i) s).2.rwList :=
            recordStmts_extends hP hmmap h _ _ _ _
          dsimp only
          generalize initRegion env p i (readRegion ks d i) s = out at hregion ⊢
          refine hregion.append fun m' items' h' => ?_
          obtain ⟨_ | _ | _, s'⟩ := out
          · exact ih h'
          · exact h'.nothing.mono (by omega)
          · exact h'.nothing.mono (by omega)

end Loop

/-! ## How often the loop closes the device -/

section Closes

variable {env : InitEnv} {p : TestParm}

theorem addRWStmts_close {i a b : Nat} {s : InitState} (h : (addRWRange env p i a b s).1 = .finished) :
    (addRWStmts env p i a b s).count .close = 0 ∧ (addRWRange env p i a b s).2.fdOpen = s.fdOpen := by
  simp only [addRWStmts, addRWRange] at h ⊢
  split_ifs at h ⊢
  · exact ⟨rfl, rfl⟩
  · exact ⟨rfl, rfl⟩
  · cases hmap : env.mmap i with
    | error errno => simp [hmap] at h
    | ok addr => exact ⟨rfl, rfl⟩

-- A region without pages closes the device, but the loop goes on.
theorem recordStmts_close {i : Nat} {region : BootmemRegion} {offset len last : Nat} {s : InitState}
    (h : (recordRegion env p i region offset len last s).1 = .finished) :
    (recordStmts env p i region offset len last s).count .close = (if len = 0 then 1 else 0) ∧
      (recordRegion env p i region offset len last s).2.fdOpen =
        (if len = 0 then false else s.fdOpen) := by
  have hfirst : (if len = 0 then [Stmt.close] else []).count .close = if len = 0 then 1 else 0 := by
    split_ifs <;> rfl
  rw [recordStmts, List.count_append, hfirst]
  cases hcut : (if p.listInfo then some (offset, last) else clipToWindow p offset last) with
  | none =>
      rw [recordRegion_of_none hcut]
      exact ⟨rfl, enterRegion_fdOpen⟩
  | some cut =>
      obtain ⟨a, b⟩ := cut
      dsimp only
      by_cases hroom : s.rawReg.length < maxRegion
      swap
      · rw [recordRegion_of_full hcut (not_lt.mp hroom)] at h
        exact absurd h (by simp)
      have hopen : ({ s with fdOpen := if len = 0 then false else s.fdOpen } : InitState).fdOpen =
          (noteRange a b (enterRegion len last s)).fdOpen := by
        simp
      rw [recordRegion_of_room hcut hroom] at h ⊢
      rw [if_neg (not_le.mpr hroom), addRWStmts_congr hopen, show (if len = 0 then false else s.fdOpen) =
        (noteRange a b (enterRegion len last s)).fdOpen from hopen]
      generalize (if len = 0 then 1 else 0) = closes
      unfold storeRange at h ⊢
      split_ifs at h ⊢
      · exact ⟨rfl, rfl⟩
      · obtain ⟨hcount, hopen'⟩ := addRWStmts_close h
        rw [hcount]
        exact ⟨rfl, hopen'⟩
      · exact ⟨rfl, rfl⟩

-- With an empty region above the lowest one the loop would not finish.
theorem loopStmts_close (ks : KernelSort) (d : Globals) {n : Nat} {s : InitState}
    (hopen : s.fdOpen = true) (h : (initLoop ks d env p n s).1 = .finished) :
    (loopStmts ks d env p n s).count .close =
      if ∀ i < n, regionLen (readRegion ks d i) ≠ 0 then 0 else 1 := by
  induction n generalizing s with
  | zero => simp [loopStmts]
  | succ i ih =>
      rw [initLoop, hopen] at h
      rw [loopStmts, hopen]
      simp only [if_true] at h ⊢
      cases hread : env.getBregion i with
      | some errno => simp [hread] at h
      | none =>
          simp only [hread] at h ⊢
          have hclose : (initRegion env p i (readRegion ks d i) s).1 = .finished →
              (regionStmts env p i (readRegion ks d i) s).count .close =
                (if regionLen (readRegion ks d i) = 0 then 1 else 0) ∧
              (initRegion env p i (readRegion ks d i) s).2.fdOpen =
                (if regionLen (readRegion ks d i) = 0 then false else s.fdOpen) :=
            fun h => recordStmts_close h
          generalize initRegion env p i (readRegion ks d i) s = out at h hclose ⊢
          obtain ⟨_ | _ | _, s'⟩ := out
          · obtain ⟨hcount, hopen'⟩ := hclose rfl
            rw [List.count_append, hcount]
            by_cases hlen : regionLen (readRegion ks d i) = 0
            · rw [if_pos hlen] at hopen' ⊢
              cases i with
              | zero => simp [loopStmts, hlen]
              | succ j =>
                  -- the device is closed, so the next region cannot be read
                  have hclosed : s'.fdOpen = false := hopen'
                  dsimp only at h
                  rw [initLoop, hclosed] at h
                  simp at h
            · rw [if_neg hlen, hopen] at hopen'
              rw [if_neg hlen, ih hopen' h, Nat.zero_add]
              simp only [Nat.forall_lt_succ_right, hlen, ne_eq, not_false_eq_true, and_true]
          · cases h
          · cases h

end Closes

end MoBoMemory.App
