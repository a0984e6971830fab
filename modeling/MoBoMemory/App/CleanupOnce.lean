import MoBoMemory.App.CleanupRuns

/-!
# What is released once

The processes of the tool from their start to the end of their cleanup.  Wherever a signal comes, the
cleanup is safe exactly if the read-only list is set up by then.  The failing path of `init_module`
releases everything once exactly if no region of the driver is empty, and `read_write_test`, which
forgets the mappings before it unmaps them, never does.
-/

namespace MoBoMemory.App

open Base Driver

/-! ## The start -/

section Start

variable {P : ListMem → Prop} (hP : ∀ m, ListState m → P m)

theorem zeroed_state (m : ListMem) :
    ListState { m with links := (m.links.set .rwList .null).set .rdList .null } := by
  refine .zero ?_ ?_ <;> simp [Links.set, Links.setNext, Links.setPrev]

theorem boot_state : ListState .boot := .zero rfl rfl

-- The number of the device is not part of the lists.
theorem Wired.openDevice {m : ListMem} {items : Ref → List Ref} (h : Wired m items) (fd : Int) :
    Wired { m with mmtestFd := fd } items :=
  h.congr (fun _ _ hring => hring) (fun _ _ _ _ => valid_of_block id)

/-- The statements on the heads. -/
def headStmts : List Stmt :=
  [.zeroConfig, .zeroConfig, .initListHead .rdList, .initListHead .rwList]

-- The ways through init_module, up to the loop.
theorem initStmts_cases (ks : KernelSort) (d : Globals) (env : InitEnv) (p : TestParm) (fd : Nat) :
    ((initModule ks d env p).1 ≠ .finished ∧
      (initStmts ks d env p fd = [.zeroConfig] ∨
        initStmts ks d env p fd = headStmts ++ [.openDevice (-1)] ∨
        initStmts ks d env p fd = headStmts ++ [.openDevice fd] ++ [.close])) ∨
    ∃ q : TestParm, q.listInfo = p.listInfo ∧
      initModule ks d env p = initLoop ks d env q d.table.bregionNum ⟨true, 0, 0, [], [], []⟩ ∧
      initStmts ks d env p fd = headStmts ++ [.openDevice fd] ++
        loopStmts ks d env q d.table.bregionNum ⟨true, 0, 0, [], [], []⟩ := by
  by_cases hwindow : p.stop < p.start
  · refine Or.inl ⟨?_, Or.inl ?_⟩
    · rw [initModule, if_pos hwindow]
      simp
    · rw [initStmts, if_pos hwindow]
  simp only [initModule, initStmts, if_neg hwindow]
  cases env.openDevice with
  | some errno => exact Or.inl ⟨by simp, Or.inr (Or.inl rfl)⟩
  | none =>
      cases env.getBregionNum with
      | some errno => exact Or.inl ⟨by simp, Or.inr (Or.inr rfl)⟩
      | none => exact Or.inr ⟨_, by split <;> rfl, rfl, rfl⟩

include hP

-- INIT_LIST_HEAD of the read-only list comes first.
theorem heads_steps {m : ListMem} (h : ListState m) :
    ∃ m', Steps ListMem.exec P m [.zeroConfig, .initListHead .rdList, .initListHead .rwList] m' ∧
      Wired m' (fun _ => []) ∧ SameData m m' := by
  have hzero := zeroed_state m
  obtain ⟨m₁, hm₁⟩ : ∃ m₁, m₁ =
    { m with links := (m.links.set .rwList .null).set .rdList .null } := ⟨_, rfl⟩
  rw [← hm₁] at hzero
  have hhalf : ListState { m₁ with links := m₁.links.init .rdList } := by
    refine .half ?_ ⟨Links.ring_init _ _, ?_⟩
    · simp [hm₁, Links.init, Links.set, Links.setNext, Links.setPrev]
    · simp [ListMem.valid]
  have hrd : (m₁.links.init .rdList).Ring .rdList [] := Links.ring_init _ _
  refine ⟨{ m₁ with links := (m₁.links.init .rdList).init .rwList }, ?_, ⟨?_, ?_⟩, ?_⟩
  · exact .cons (hP _ h) (by rw [hm₁]; rfl) (.cons (hP _ hzero) rfl (.cons (hP _ hhalf) rfl .nil))
  · rintro head (rfl | rfl | ⟨i, -, hi⟩)
    · exact ⟨Links.ring_init _ _, by simp [ListMem.valid]⟩
    · exact ⟨hrd.set_frame (by simp) _, by simp [ListMem.valid]⟩
    · cases hi
  · rintro head (rfl | rfl | ⟨i, -, hi⟩) y hy
    · simp_all [Ref.owner]
    · simp_all [Ref.owner]
    · cases hi
  · rw [hm₁]
    exact ⟨rfl, rfl, rfl⟩

variable (ks : KernelSort) (d : Globals) (env : InitEnv)
  (hmmap : ∀ i addr, env.mmap i = .ok addr → addr ≠ 0 ∧ addr < 2 ^ 64) (p : TestParm) (fd : Nat)

/-- What has been done when the region loop is over: the lists are in order, every mapping is in an
entry, and the device has been closed if there was an empty region. -/
structure Ready (m : ListMem) (items : Ref → List Ref) : Prop where
  listed : Accounted p.listInfo 0 m items (initStmts ks d env p fd) (initModule ks d env p).2.rwList
  mmtestFd : m.mmtestFd = fd
  closes : (initStmts ks d env p fd).count .close =
    if ∀ i < d.table.bregionNum, regionLen (readRegion ks d i) ≠ 0 then 0 else 1

include hmmap

theorem initStmts_steps :
    ∃ m', Steps ListMem.exec P .boot (initStmts ks d env p fd) m' ∧ ListState m' ∧
      ((initModule ks d env p).1 = .finished → ∃ items, Ready ks d env p fd m' items) := by
  obtain ⟨m₁, hheads, hwired₁, -⟩ := heads_steps hP (zeroed_state .boot)
  have hstart : Steps ListMem.exec P .boot headStmts m₁ := .cons (hP _ boot_state) rfl hheads
  have hopened : ∀ n, Steps ListMem.exec P .boot (headStmts ++ [.openDevice n])
      { m₁ with mmtestFd := n } :=
    fun n => hstart.append (.cons (hP _ (.wired _ hwired₁)) rfl .nil)
  have hwired₂ := hwired₁.openDevice fd
  rcases initStmts_cases ks d env p fd with ⟨hhalt, hstmts⟩ | ⟨q, hlistInfo, hmodule, hstmts⟩
  · rcases hstmts with hstmts | hstmts | hstmts
    · refine ⟨_, ?_, zeroed_state .boot, fun h => absurd h hhalt⟩
      rw [hstmts]
      exact .cons (hP _ boot_state) rfl .nil
    · refine ⟨_, ?_, .wired _ (hwired₁.openDevice (-1)), fun h => absurd h hhalt⟩
      rw [hstmts]
      exact hopened (-1)
    · refine ⟨_, ?_, .wired _ hwired₂, fun h => absurd h hhalt⟩
      rw [hstmts]
      exact (hopened fd).append (.cons (hP _ (.wired _ hwired₂)) rfl .nil)
  · have hlisted : Accounted q.listInfo d.table.bregionNum { m₁ with mmtestFd := fd } (fun _ => [])
        (headStmts ++ [.openDevice fd]) (InitState.mk true 0 0 [] [] []).rwList :=
      ⟨hwired₂, fun _ => rfl, by simp, rfl, by simp [mallocs, headStmts],
        by simp [mmaps, munmaps, headStmts], ⟨rfl, rfl⟩, by simp⟩
    obtain ⟨m', items', hsteps, hlisted', hfd⟩ :=
      loopStmts_extends (fun m items h => hP m (.wired items h)) hmmap ks d hlisted
    refine ⟨m', ?_, .wired _ hlisted'.wired, fun hfinished => ⟨items', ?_, hfd, ?_⟩⟩
    · rw [hstmts]
      exact (hopened fd).append hsteps
    · rw [hstmts, hmodule, ← hlistInfo]
      exact hlisted'
    · rw [hmodule] at hfinished
      rw [hstmts, List.count_append, loopStmts_close ks d rfl hfinished]
      simp [headStmts]

end Start

/-! ## Slices -/

section Policy

variable {P : ListMem → Prop} (hP : ∀ m items, Wired m items → P m) {m : ListMem}
  {items : Ref → List Ref} {i : Nat}

def policyStmts (sliceNum : Nat → Nat) : Ref → List Stmt
  | .range i => .initListHead (.rwSlice i) :: (List.range (sliceNum i)).flatMap (sliceStmts i)
  | _ => []

include hP

-- The new slices are numbered; the other lists are those of before.
theorem sliceStmts_steps (h : Wired m items) (hi : .range i ∈ items .rwList)
    (hempty : items (.rwSlice i) = []) (count : Nat) :
    ∃ m' items', Steps ListMem.exec P m ((List.range count).flatMap (sliceStmts i)) m' ∧
      Wired m' items' ∧ (∀ head, head ≠ .rwSlice i → items' head = items head) ∧
      ∀ n, count ≤ n → .slice i n ∉ items' (.rwSlice i) := by
  induction count with
  | zero => exact ⟨m, items, .nil, h, fun _ _ => rfl, by simp [hempty]⟩
  | succ count ih =>
      obtain ⟨m₁, items₁, hsteps, hwired, hother, hfresh⟩ := ih
      have huse : InUse items₁ (.rwSlice i) :=
        Or.inr (Or.inr ⟨i, rfl, by rwa [hother .rwList (by simp)]⟩)
      obtain ⟨m₂, hsteps₂, hwired₂, -⟩ := newEntry_steps hP hwired (.slice i count) huse
        (by simp [Ref.owner]) rfl (hfresh count (by omega))
      rw [show Ref.owner (.slice i count) = .rwSlice i from rfl] at hwired₂ hsteps₂
      refine ⟨m₂, _, ?_, hwired₂, ?_, ?_⟩
      · rw [List.range_succ, List.flatMap_append, List.flatMap_singleton]
        exact hsteps.append hsteps₂
      · intro head hne
        rw [Function.update_of_ne hne]
        exact hother head hne
      · intro n hn
        have hold := hfresh n (by omega)
        have hne : n ≠ count := by omega
        rw [Function.update_self]
        simp [hold, hne]

theorem policyRange_does (sliceNum : Nat → Nat) (h : Wired m items) (hi : .range i ∈ items .rwList)
    (hempty : items (.rwSlice i) = []) :
    ∃ m' items', Wired m' items' ∧ (∀ head, head ≠ .rwSlice i → items' head = items head) ∧
      Does ListMem.exec P (fun _ => policyRange sliceNum (.range i)) m
        (policyStmts sliceNum (.range i)) m' := by
  have huse : InUse items (.rwSlice i) := Or.inr (Or.inr ⟨i, rfl, hi⟩)
  have hlive : m.valid (.rwSlice i) = true := (item_live h (Or.inl rfl) hi).2
  obtain ⟨m', items', hsteps, hwired, hother, -⟩ :=
    sliceStmts_steps hP (h.initEmpty huse hempty) hi hempty (sliceNum i)
  exact ⟨m', items', hwired, hother, does_emits (.cons (hP m items h) (if_pos hlive) hsteps)⟩

theorem testPolicy_does (sliceNum : Nat → Nat) (h : Wired m items)
    (hempty : ∀ i, items (.rwSlice i) = []) :
    ∃ m' items', Wired m' items' ∧
      Does ListMem.exec P (fun fuel => listForEach fuel .rwList (policyRange sliceNum)) m
        ((items .rwList).flatMap (policyStmts sliceNum)) m' := by
  let I : List Ref → List Ref → ListMem → Prop := fun pre xs m' => ∃ items', Wired m' items' ∧
    items' .rwList = pre ++ xs ∧ ∀ i, .range i ∈ xs → items' (.rwSlice i) = []
  have hlist : ∀ pre xs m', I pre xs m' → m'.Holds .rwList (pre ++ xs) := by
    rintro pre xs m' ⟨items', hwired, hrw, -⟩
    rw [← hrw]
    exact hwired.holds .rwList (Or.inl rfl)
  have hbody : ∀ pre x xs m₁, I pre (x :: xs) m₁ → ∃ m₂, I (pre ++ [x]) xs m₂ ∧
      Does ListMem.exec P (fun _ => policyRange sliceNum x) m₁ (policyStmts sliceNum x) m₂ := by
    rintro pre x xs m₁ hI
    obtain ⟨items₁, hwired₁, hrw, hslices⟩ := id hI
    have hx : x ∈ items₁ .rwList := by simp [hrw]
    obtain ⟨i, rfl⟩ := item_range hwired₁ hx
    obtain ⟨m₂, items₂, hwired₂, hother, hdoes⟩ :=
      policyRange_does hP sliceNum hwired₁ hx (hslices i (by simp))
    have hnodup := (hlist _ _ m₁ hI).ring.nodup
    refine ⟨m₂, ⟨items₂, hwired₂, ?_, ?_⟩, hdoes⟩
    · rw [hother .rwList (by simp), hrw, List.append_assoc, List.singleton_append]
    · intro j hj
      -- the entries are different, so the later ones have no slices yet
      have hne : j ≠ i := by
        rintro rfl
        simp_all [List.nodup_append]
      rw [hother (.rwSlice j) (by simpa using hne)]
      exact hslices j (by simp [hj])
  obtain ⟨m', ⟨items', hwired, -⟩, hdoes⟩ := listForEach_does I hlist hbody (items .rwList)
    ⟨items, h, rfl, fun i _ => hempty i⟩
  exact ⟨m', items', hwired, hdoes⟩

end Policy

/-! ## What the cleanup gives back -/

section Counts

variable {m : ListMem} {items : Ref → List Ref} {c : Stmt}

theorem mem_freeStmts {x : Ref} (hc : c ∈ freeStmts x) : ∃ y, c = .listDel y ∨ c = .free y := by
  simp only [freeStmts, List.mem_cons, List.not_mem_nil, or_false] at hc
  exact ⟨x, hc⟩

theorem mem_releaseStmts (hc : c ∈ releaseStmts items) : ∃ y, c = .listDel y ∨ c = .free y := by
  simp only [releaseStmts, List.mem_append, List.mem_flatMap] at hc
  rcases hc with ⟨x, -, hc⟩ | ⟨x, -, hc⟩
  · unfold rangeStmts at hc
    split at hc
    · rcases List.mem_append.mp hc with hc | hc
      · obtain ⟨y, -, hc⟩ := List.mem_flatMap.mp hc
        exact mem_freeStmts hc
      · exact mem_freeStmts hc
    · cases hc
  · exact mem_freeStmts hc

theorem mem_unmapStmts {xs : List Ref} (hc : c ∈ xs.flatMap (unmapStmts m)) :
    ∃ addr len, c = .munmap addr len := by
  obtain ⟨x, -, hc⟩ := List.mem_flatMap.mp hc
  unfold unmapStmts at hc
  split at hc
  · split_ifs at hc
    · exact ⟨_, _, List.mem_singleton.mp hc⟩
    · cases hc
  · cases hc

theorem mem_policyStmts {sliceNum : Nat → Nat} {xs : List Ref}
    (hc : c ∈ xs.flatMap (policyStmts sliceNum)) : ∀ addr len, c ≠ .munmap addr len := by
  obtain ⟨x, -, hc⟩ := List.mem_flatMap.mp hc
  unfold policyStmts at hc
  split at hc
  · rcases List.mem_cons.mp hc with rfl | hc
    · simp
    · obtain ⟨n, -, hc⟩ := List.mem_flatMap.mp hc
      simp only [sliceStmts, List.mem_cons, List.not_mem_nil, or_false] at hc
      rcases hc with rfl | rfl | rfl <;> simp
  · cases hc

-- Entries without slices are freed in the order of the two lists.
theorem frees_releaseStmts (h : Wired m items) (hempty : ∀ i, items (.rwSlice i) = []) :
    frees (releaseStmts items) = items .rwList ++ items .rdList := by
  have hranges : ∀ x ∈ items .rwList, frees (rangeStmts items x) = [x] := by
    intro x hx
    obtain ⟨i, rfl⟩ := item_range h hx
    rw [rangeStmts, hempty i]
    rfl
  rw [releaseStmts, frees_append]
  simp only [frees, List.filterMap_flatMap]
  have hrw : ((items .rwList).flatMap fun x => frees (rangeStmts items x)) = items .rwList := by
    rw [List.flatMap_congr hranges, List.flatMap_singleton']
  have hrd : ((items .rdList).flatMap fun x => frees (freeStmts x)) = items .rdList :=
    List.flatMap_singleton' _
  exact congrArg₂ (· ++ ·) hrw hrd

-- What the parts of a cleanup do not do.
theorem only_munmaps {stmts : List Stmt} (h : ∀ c ∈ stmts, ∃ addr len, c = .munmap addr len) :
    mmaps stmts = [] ∧ mallocs stmts = [] ∧ frees stmts = [] ∧ stmts.count .close = 0 := by
  induction stmts with
  | nil => exact ⟨rfl, rfl, rfl, rfl⟩
  | cons c stmts ih =>
      obtain ⟨addr, len, rfl⟩ := h c (by simp)
      obtain ⟨hmmaps, hmallocs, hfrees, hcount⟩ := ih fun c hc => h c (by simp [hc])
      exact ⟨hmmaps, hmallocs, hfrees, by simpa using hcount⟩

theorem only_releases {stmts : List Stmt} (h : ∀ c ∈ stmts, ∃ y, c = .listDel y ∨ c = .free y) :
    mmaps stmts = [] ∧ munmaps stmts = [] ∧ mallocs stmts = [] ∧ stmts.count .close = 0 := by
  induction stmts with
  | nil => exact ⟨rfl, rfl, rfl, rfl⟩
  | cons c stmts ih =>
      obtain ⟨hmmaps, hmunmaps, hmallocs, hcount⟩ := ih fun c hc => h c (by simp [hc])
      obtain ⟨y, rfl | rfl⟩ := h c (by simp)
      · exact ⟨hmmaps, hmunmaps, hmallocs, by simpa using hcount⟩
      · exact ⟨hmmaps, hmunmaps, hmallocs, by simpa using hcount⟩

theorem closeStmts_cases (m : ListMem) : closeStmts m = [] ∨ closeStmts m = [.close] := by
  unfold closeStmts
  split
  · exact Or.inr rfl
  · exact Or.inl rfl

-- In a state where everything is on its list, unmapping first gives all back.
theorem released_cleanup {listInfo : Bool} {done : List Stmt} {rwList : List RWRange}
    (h : Accounted listInfo 0 m items done rwList) :
    ReleasedOnce (done ++ ((items .rwList).flatMap (unmapStmts m) ++ closeStmts m ++
      releaseStmts items)) ↔ done.count .close + (closeStmts m).count .close = 1 := by
  have hknown := h.known
  have hfrees := frees_releaseStmts h.wired h.slices
  have hunmap := @only_munmaps ((items .rwList).flatMap (unmapStmts m)) fun c hc => mem_unmapStmts hc
  have hrelease := @only_releases (releaseStmts items) fun c hc => mem_releaseStmts hc
  have hclose : mmaps (closeStmts m) = [] ∧ munmaps (closeStmts m) = [] ∧ mallocs (closeStmts m) = [] ∧
      frees (closeStmts m) = [] := by
    rcases closeStmts_cases m with hnone | hone
    · rw [hnone]
      exact ⟨rfl, rfl, rfl, rfl⟩
    · rw [hone]
      exact ⟨rfl, rfl, rfl, rfl⟩
  generalize hU : (items .rwList).flatMap (unmapStmts m) = U at hunmap hknown ⊢
  generalize releaseStmts items = R at hrelease hfrees ⊢
  generalize closeStmts m = C at hclose ⊢
  have hmmaps : mmaps (done ++ (U ++ C ++ R)) = mmaps done := by
    simp only [mmaps_append, hunmap, hclose, hrelease, List.append_nil]
  have hmunmaps : munmaps (done ++ (U ++ C ++ R)) = munmaps U := by
    simp only [munmaps_append, h.kept.2, hclose, hrelease, List.nil_append, List.append_nil]
  have hmallocs : mallocs (done ++ (U ++ C ++ R)) = mallocs done := by
    simp only [mallocs_append, hunmap, hclose, hrelease, List.append_nil]
  have hfreed : frees (done ++ (U ++ C ++ R)) = items .rwList ++ items .rdList := by
    simp only [frees_append, h.kept.1, hunmap, hclose, hfrees, List.nil_append]
  have hcount : (done ++ (U ++ C ++ R)).count .close = done.count .close + C.count .close := by
    simp only [List.count_append, hunmap, hrelease]
    omega
  constructor
  · intro hreleased
    rw [← hcount]
    exact hreleased.device
  · intro hdevice
    refine ⟨?_, ?_, ?_⟩
    · rw [hmmaps, hmunmaps]
      exact hknown.symm
    · rw [hmallocs, hfreed]
      exact h.entered.symm
    · rw [hcount]
      exact hdevice

end Counts

/-! ## The ways to go on -/

section Endings

variable {P : ListMem → Prop} (hP : ∀ m items, Wired m items → P m) {m : ListMem}
  {items : Ref → List Ref}

include hP

-- After the first release the lists are empty, so nothing is left to unmap.
theorem readWriteTest_does (h : Wired m items) (early : Bool) :
    ∃ m' items' stmts, Wired m' items' ∧ (∀ addr len, .munmap addr len ∉ stmts) ∧
      Does ListMem.exec P (readWriteTestLists early) m stmts m' := by
  have hquiet : ∀ items addr len, .munmap addr len ∉ releaseStmts items := by
    intro items addr len hmem
    obtain ⟨y, hy | hy⟩ := mem_releaseStmts hmem <;> cases hy
  have hclose : ∀ m addr len, .munmap addr len ∉ closeStmts m := by
    intro m addr len
    unfold closeStmts
    split <;> simp
  obtain ⟨m₁, items₁, hwired₁, hrw₁, -, -, hfirst⟩ := releaseListResource_does hP h
  cases early with
  | true => exact ⟨m₁, items₁, _, hwired₁, by simpa using hquiet items, hfirst.andThen does_nop⟩
  | false =>
      have hunmap := releaseMunmapClose_does hP hwired₁
      obtain ⟨m₂, items₂, hwired₂, -, -, -, hsecond⟩ := releaseListResource_does hP hwired₁
      have hlast := closeIfOpen_does (hP m₂ items₂ hwired₂)
      refine ⟨m₂, items₂, _, hwired₂, ?_, hfirst.andThen (hunmap.andThen (hsecond.andThen hlast))⟩
      simp [hrw₁, hquiet, hclose]

theorem ending_does {listInfo : Bool} {done : List Stmt} {rwList : List RWRange}
    (h : Accounted listInfo 0 m items done rwList) (ending : Ending) :
    ∃ m' items' stmts, Wired m' items' ∧ Does ListMem.exec P (fun fuel => ending.prog fuel) m stmts m' ∧
      (ending = .policyFails → (ReleasedOnce (done ++ stmts) ↔
        done.count .close + (closeStmts m).count .close = 1)) ∧
      (∀ sliceNum early, ending = .readWriteTest sliceNum early →
        ∀ addr len, .munmap addr len ∉ stmts) := by
  cases ending with
  | policyFails =>
      obtain ⟨m', items', hwired, -, -, -, hdoes⟩ := cleanup_does hP h.wired
      exact ⟨m', items', _, hwired, hdoes, fun _ => released_cleanup h, nofun⟩
  | closeModule sliceNum =>
      obtain ⟨m₁, items₁, hwired₁, hpolicy⟩ := testPolicy_does hP sliceNum h.wired h.slices
      obtain ⟨m', items', hwired, -, -, -, hdoes⟩ := cleanup_does hP hwired₁
      exact ⟨m', items', _, hwired, hpolicy.andThen hdoes, nofun, nofun⟩
  | readWriteTest sliceNum early =>
      obtain ⟨m₁, items₁, hwired₁, hpolicy⟩ := testPolicy_does hP sliceNum h.wired h.slices
      obtain ⟨m', items', stmts, hwired, hquiet, hdoes⟩ := readWriteTest_does hP hwired₁ early
      refine ⟨m', items', _, hwired, hpolicy.andThen hdoes, nofun, ?_⟩
      intro _ _ _ addr len hmem
      rcases List.mem_append.mp hmem with hmem | hmem
      · exact mem_policyStmts hmem addr len rfl
      · exact hquiet addr len hmem

end Endings

-- In test mode every entry has a mapping.
theorem mmaps_ne_nil {n : Nat} {m : ListMem} {items : Ref → List Ref} {done : List Stmt}
    {rwList : List RWRange} (h : Accounted false n m items done rwList) (hne : rwList ≠ []) :
    mmaps done ≠ [] := by
  intro hnil
  have hknown := h.known
  rw [hnil, List.nil_perm, munmaps, List.filterMap_flatMap, List.flatMap_eq_nil_iff] at hknown
  obtain ⟨x, hx⟩ : ∃ x, x ∈ items .rwList := by
    apply List.exists_mem_of_length_pos
    rw [h.entries]
    exact List.length_pos_of_ne_nil hne
  obtain ⟨i, rfl⟩ := item_range h.wired hx
  have hnone := hknown _ hx
  rw [unmapStmts, if_pos (h.mapped rfl i hx)] at hnone
  cases hnone

/-! ## Whole runs -/

/-- What the process does, given enough turns for its loops. -/
def RunIs (ks : KernelSort) (d : Globals) (env : InitEnv) (p : TestParm) (fd : Nat) (ending : Ending)
    (stmts : List Stmt) (m : ListMem) : Prop :=
  ∃ bound, ∀ fuel, bound ≤ fuel → processRun ks d env p fd ending fuel .boot = some (stmts, m)

/-- Every process comes to an end.  Before each of its statements, and at its end, the cleanup is safe
exactly if the read-only list has been set up.  After the failure of `test_policy` everything has been
released once exactly if the device is open as a file other than 0 and no region is empty, or the other
way around; after `read_write_test` never. -/
theorem released_once_iff (ks : KernelSort) (d : Globals) (env : InitEnv)
    (hmmap : ∀ i addr, env.mmap i = .ok addr → addr ≠ 0 ∧ addr < 2 ^ 64) (p : TestParm) (fd : Nat)
    (ending : Ending) :
    ∃ stmts m, RunIs ks d env p fd ending stmts m ∧
      EachStep ListMem.exec (fun m _ => Safe m ↔ m.links.next .rdList ≠ .null) .boot stmts ∧
      (Safe m ↔ m.links.next .rdList ≠ .null) ∧
      ((initModule ks d env p).1 = .finished → p.listInfo = false →
        (ending = .policyFails → (ReleasedOnce stmts ↔
          (0 < fd ↔ ∀ i < d.table.bregionNum, regionLen (readRegion ks d i) ≠ 0))) ∧
        (∀ sliceNum early, ending = .readWriteTest sliceNum early →
          (initModule ks d env p).2.rwList ≠ [] → ¬ ReleasedOnce stmts)) := by
  have hP : ∀ m, ListState m → (Safe m ↔ m.links.next .rdList ≠ .null) := fun m h => safe_iff h
  have hP' := fun m items h => hP m (.wired items h)
  obtain ⟨m₁, hsteps, hstate, hready⟩ := initStmts_steps hP ks d env hmmap p fd
  have hinit := does_emits hsteps
  by_cases hfinished : (initModule ks d env p).1 = .finished
  · obtain ⟨items, hready⟩ := hready hfinished
    by_cases hlist : p.listInfo = true
    · obtain ⟨m, items', hwired, -, -, -, hrelease⟩ := releaseListResource_does hP' hready.listed.wired
      have hrun := hinit.andThen hrelease
      refine ⟨_, m, ?_, hrun.each, hP m (.wired _ hwired), ?_⟩
      · simpa only [RunIs, processRun, hfinished, hlist, ne_eq, not_true_eq_false, if_false, if_true]
          using hrun.completes
      · simp [hlist]
    · have hmode : p.listInfo = false := by simpa using hlist
      have hlisted := hready.listed
      rw [hmode] at hlisted
      obtain ⟨m, items', stmts, hwired, hending, hfails, htest⟩ := ending_does hP' hlisted ending
      have hrun := hinit.andThen hending
      refine ⟨_, m, ?_, hrun.each, hP m (.wired _ hwired), fun _ _ => ⟨?_, ?_⟩⟩
      · simpa only [RunIs, processRun, hfinished, hmode, ne_eq, not_true_eq_false, if_false,
          Bool.false_eq_true] using hrun.completes
      · intro heq
        rw [hfails heq, hready.closes, closeStmts, hready.mmtestFd]
        split_ifs <;> simp_all
      · intro sliceNum early heq hne hreleased
        have hunmapped : munmaps (initStmts ks d env p fd ++ stmts) = [] := by
          rw [munmaps_append, hlisted.kept.2, List.nil_append, munmaps, List.filterMap_eq_nil_iff]
          intro c hc
          have hquiet := htest sliceNum early heq
          cases c with
          | munmap addr len => exact absurd hc (hquiet addr len)
          | _ => rfl
        have hmapped := hreleased.mappings
        rw [hunmapped, List.nil_perm, mmaps_append] at hmapped
        exact mmaps_ne_nil hlisted hne (List.append_eq_nil_iff.mp hmapped).1
  · have hrun := hinit.andThen does_nop
    refine ⟨_, m₁, ?_, hrun.each, hP m₁ hstate, fun h => absurd h hfinished⟩
    simpa only [RunIs, processRun, hfinished, ne_eq, not_false_eq_true, if_true] using hrun.completes

/-- One region, and `test_policy` fails. -/
theorem released_once_one_region :
    let regions : List BootmemRegion := [⟨0x100, 0x110, 0, mmtestRW⟩]
    let d : Globals := ⟨[], 0, [], [], ⟨regions, regions.length⟩⟩
    let env : InitEnv := ⟨none, none, fun _ => none, fun _ => .ok 0x7000, 0⟩
    let p : TestParm := ⟨0, 0x1000000, false⟩
    ∃ stmts m, RunIs insertionKernelSort d env p 3 .policyFails stmts m ∧
      EachStep ListMem.exec (fun m _ => Safe m ↔ m.links.next .rdList ≠ .null) .boot stmts ∧
      (Safe m ↔ m.links.next .rdList ≠ .null) ∧
      ((initModule insertionKernelSort d env p).1 = .finished → p.listInfo = false →
        (Ending.policyFails = .policyFails → (ReleasedOnce stmts ↔
          (0 < 3 ↔ ∀ i < d.table.bregionNum,
            regionLen (readRegion insertionKernelSort d i) ≠ 0))) ∧
        (∀ sliceNum early, Ending.policyFails = .readWriteTest sliceNum early →
          (initModule insertionKernelSort d env p).2.rwList ≠ [] → ¬ ReleasedOnce stmts)) := by
  apply released_once_iff insertionKernelSort _ _ _ _ 3 .policyFails
  rintro i addr ⟨⟩
  decide

/-- Nothing is safe before the lists are set up; and `read_write_test` over one region unmaps nothing
and closes the device twice. -/
theorem not_released_once :
    let regions : List BootmemRegion := [⟨0x100, 0x110, 0, mmtestRW⟩]
    let d : Globals := ⟨[], 0, [], [], ⟨regions, regions.length⟩⟩
    let env : InitEnv := ⟨none, none, fun _ => none, fun _ => .ok 0x7000, 0⟩
    let p : TestParm := ⟨0, 0x1000000, false⟩
    ¬ Safe .boot ∧
      ∃ out, processRun insertionKernelSort d env p 3 (.readWriteTest (fun _ => 1) false) 10 .boot =
          some out ∧
        mmaps out.1 = [(0x7000, 0x10000)] ∧ munmaps out.1 = [] ∧ out.1.count .close = 2 ∧
        ¬ ReleasedOnce out.1 := by
  intro regions d env p
  have hrun : (processRun insertionKernelSort d env p 3 (.readWriteTest (fun _ => 1) false) 10
      .boot).map (fun out => (mmaps out.1, munmaps out.1, out.1.count .close)) =
      some ([(0x7000, 0x10000)], [], 2) := by decide +kernel
  obtain ⟨out, hrun, hout⟩ := Option.map_eq_some_iff.mp hrun
  simp only [Prod.mk.injEq] at hout
  obtain ⟨hmmaps, hmunmaps, hcloses⟩ := hout
  refine ⟨?_, out, hrun, hmmaps, hmunmaps, hcloses, fun hreleased => ?_⟩
  · rw [safe_iff boot_state]
    simp [ListMem.boot]
  · exact absurd (hcloses.symm.trans hreleased.device) (by decide)

end MoBoMemory.App
