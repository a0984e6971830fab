import MoBoMemory.Base.Programs
import MoBoMemory.Base.Rings

/-!
# The memory of the lists

The links of `test_config` and of the entries that are allocated for it.  Following a link that is
NULL, poisoned, never written or inside freed memory is a failure.  `Wired` says which items are on
which list; it is what the statements of the program keep.
-/

namespace MoBoMemory.App

open Base

/-- The address of a `struct list_head`: the two of `test_config`, those of the entry made for
region `i`, and slice `n` of that entry. -/
inductive Ref where
  | null | poison1 | poison2 | garbage
  | rwList | rdList
  | range (i : Nat) | rwSlice (i : Nat) | slice (i n : Nat) | rdRange (i : Nat)
deriving DecidableEq

/-- `live` holds of the allocated entries, each known by the link it is on a list with. -/
structure ListMem where
  links : Links Ref
  live : Ref → Bool
  start : Nat → Nat
  stop : Nat → Nat
  mmtestFd : Int

def ListMem.valid (m : ListMem) : Ref → Bool
  | .rwList => true
  | .rdList => true
  | .range i => m.live (.range i)
  | .rwSlice i => m.live (.range i)
  | .slice i n => m.live (.slice i n)
  | .rdRange i => m.live (.rdRange i)
  | _ => false

/-- The links inside an entry. -/
def Ref.inside : Ref → List Ref
  | .range i => [.range i, .rwSlice i]
  | x => [x]

/-- The statements that touch the lists, the mappings or the device; `zeroConfig` zeroes the two heads
of `test_config`. -/
inductive Stmt where
  | zeroConfig
  | initListHead (x : Ref)
  | malloc (x : Ref)
  | setRange (i start stop : Nat)
  | listAdd (new head : Ref)
  | listDel (x : Ref)
  | free (x : Ref)
  | openDevice (fd : Int)
  | close
  | mmap (addr len : Nat)
  | munmap (addr len : Nat)
deriving DecidableEq

def ListMem.exec (m : ListMem) : Stmt → Option ListMem
  | .zeroConfig => some { m with links := (m.links.set .rwList .null).set .rdList .null }
  | .initListHead x => if m.valid x then some { m with links := m.links.init x } else none
  | .malloc x => some { m with
      live := Function.update m.live x true
      links := x.inside.foldl (fun l y => l.set y .garbage) m.links }
  | .setRange i start stop =>
      if m.live (.range i) then some { m with
        start := Function.update m.start i start
        stop := Function.update m.stop i stop }
      else none
  | .listAdd new head =>
      if m.valid new && m.valid head && m.valid (m.links.next head) then
        some { m with links := m.links.add new head }
      else none
  | .listDel x =>
      if m.valid x && m.valid (m.links.prev x) && m.valid (m.links.next x) then
        some { m with links := m.links.del .poison1 .poison2 x }
      else none
  | .free x => if m.live x then some { m with live := Function.update m.live x false } else none
  | .openDevice fd => some { m with mmtestFd := fd }
  | .close => some m
  | .mmap _ _ => some m
  | .munmap _ _ => some m

/-- A program started; nothing is allocated and `test_config` is zero. -/
def ListMem.boot : ListMem :=
  ⟨⟨fun _ => .null, fun _ => .null⟩, fun _ => false, fun _ => 0, fun _ => 0, 0⟩

abbrev ListProg := Prog ListMem Stmt

abbrev emit (c : Stmt) : ListProg := Prog.emit ListMem.exec c

/-! ## The two loops of list.h -/

/-- `list_for_each` from `pos` on. -/
def eachLoop (head : Ref) (body : Ref → ListProg) : Nat → Ref → ListProg
  | 0, _ => Prog.fail
  | turns + 1, pos =>
      if pos = head then Prog.nop
      else (body pos).andThen fun m =>
        if m.valid pos then eachLoop head body turns (m.links.next pos) m else none

def listForEach (fuel : Nat) (head : Ref) (body : Ref → ListProg) : ListProg := fun m =>
  if m.valid head then eachLoop head body fuel (m.links.next head) m else none

/-- `list_for_each_safe` from `pos` on; `n` has been read before the body runs. -/
def safeLoop (head : Ref) (body : Ref → ListProg) : Nat → Ref → Ref → ListProg
  | 0, _, _ => Prog.fail
  | turns + 1, pos, n =>
      if pos = head then Prog.nop
      else (body pos).andThen fun m =>
        if m.valid n then safeLoop head body turns n (m.links.next n) m else none

def listForEachSafe (fuel : Nat) (head : Ref) (body : Ref → ListProg) : ListProg := fun m =>
  if m.valid head && m.valid (m.links.next head) then
    safeLoop head body fuel (m.links.next head) (m.links.next (m.links.next head)) m
  else none

section Loops

variable {P : ListMem → Prop} {head : Ref} {body : Nat → Ref → ListProg} {stmts : Ref → List Stmt}

/-- The list holds these items, and all of them may be followed. -/
structure ListMem.Holds (m : ListMem) (head : Ref) (xs : List Ref) : Prop where
  ring : m.links.Ring head xs
  valid : ∀ y ∈ head :: xs, m.valid y = true

theorem ListMem.Holds.valid_next {m : ListMem} {xs : List Ref} (h : m.Holds head xs) :
    m.valid (m.links.next head) = true := by
  rw [h.ring.next_head]
  exact h.valid _ (Links.headD_mem head xs)

-- A body that takes the first item off the list, whatever it does besides, empties the list.
theorem listForEachSafe_does (I : List Ref → ListMem → Prop)
    (hlist : ∀ xs m, I xs m → m.Holds head xs)
    (hbody : ∀ x xs m, I (x :: xs) m → ∃ m', I xs m' ∧
      Does ListMem.exec P (fun fuel => body fuel x) m (stmts x) m')
    (xs : List Ref) {m : ListMem} (h : I xs m) :
    ∃ m', I [] m' ∧ Does ListMem.exec P (fun fuel => listForEachSafe fuel head (body fuel)) m
      (xs.flatMap stmts) m' := by
  have hloop : ∀ xs m, I xs m → ∃ m', I [] m' ∧ Steps ListMem.exec P m (xs.flatMap stmts) m' ∧
      ∃ bound, ∀ fuel turns, bound ≤ fuel → bound ≤ turns →
        safeLoop head (body fuel) turns (xs.headD head) (m.links.next (xs.headD head)) m =
          some (xs.flatMap stmts, m') := by
    intro xs
    induction xs with
    | nil =>
        intro m h
        refine ⟨m, h, .nil, 1, fun fuel turns _ hturns => ?_⟩
        obtain ⟨n, rfl⟩ := Nat.exists_eq_add_of_le' hturns
        rw [safeLoop, List.headD_nil, if_pos rfl]
        rfl
    | cons x xs ih =>
        intro m h
        have hholds := hlist _ m h
        have hne : x ≠ head := fun heq => by simpa [heq] using hholds.ring.nodup
        have hnext := hholds.ring.next_first
        obtain ⟨m₁, h₁, hdoes⟩ := hbody x xs m h
        have hvalid : m₁.valid (xs.headD head) = true :=
          (hlist _ m₁ h₁).valid _ (Links.headD_mem head xs)
        obtain ⟨m', h', hsteps, b, hb⟩ := ih m₁ h₁
        obtain ⟨c, hc⟩ := hdoes.completes
        rw [List.flatMap_cons]
        refine ⟨m', h', hdoes.toSteps.append hsteps, max (b + 1) c, fun fuel turns hfuel hturns => ?_⟩
        obtain ⟨n, rfl⟩ : ∃ n, turns = n + 1 := Nat.exists_eq_add_of_le' (by omega)
        rw [safeLoop, List.headD_cons, if_neg hne, hnext]
        simp only [Prog.andThen, hc fuel (by omega), if_pos hvalid,
          hb fuel n (by omega) (by omega), Option.map_some]
  obtain ⟨m', h', hsteps, b, hb⟩ := hloop xs m h
  have hholds := hlist _ m h
  refine ⟨m', h', hsteps, b, fun fuel hfuel => ?_⟩
  rw [listForEachSafe, hholds.valid head (by simp), hholds.valid_next, hholds.ring.next_head]
  exact hb fuel fuel hfuel hfuel

-- A body that leaves the list as it is visits all its items.
theorem listForEach_does (I : List Ref → List Ref → ListMem → Prop)
    (hlist : ∀ pre xs m, I pre xs m → m.Holds head (pre ++ xs))
    (hbody : ∀ pre x xs m, I pre (x :: xs) m → ∃ m', I (pre ++ [x]) xs m' ∧
      Does ListMem.exec P (fun fuel => body fuel x) m (stmts x) m')
    (xs : List Ref) {m : ListMem} (h : I [] xs m) :
    ∃ m', I xs [] m' ∧ Does ListMem.exec P (fun fuel => listForEach fuel head (body fuel)) m
      (xs.flatMap stmts) m' := by
  have hloop : ∀ xs pre m, I pre xs m → ∃ m', I (pre ++ xs) [] m' ∧
      Steps ListMem.exec P m (xs.flatMap stmts) m' ∧
      ∃ bound, ∀ fuel turns, bound ≤ fuel → bound ≤ turns →
        eachLoop head (body fuel) turns (xs.headD head) m = some (xs.flatMap stmts, m') := by
    intro xs
    induction xs with
    | nil =>
        intro pre m h
        refine ⟨m, by rwa [List.append_nil], .nil, 1, fun fuel turns _ hturns => ?_⟩
        obtain ⟨n, rfl⟩ := Nat.exists_eq_add_of_le' hturns
        rw [eachLoop, List.headD_nil, if_pos rfl]
        rfl
    | cons x xs ih =>
        intro pre m h
        have hholds := hlist _ _ m h
        have hne : x ≠ head := fun heq => by simpa [heq] using hholds.ring.nodup
        obtain ⟨m₁, h₁, hdoes⟩ := hbody pre x xs m h
        have hholds₁ := hlist _ _ m₁ h₁
        have hvalid : m₁.valid x = true := hholds₁.valid x (by simp)
        have hnext : m₁.links.next x = xs.headD head := by
          have hring := hholds₁.ring
          rw [List.append_assoc] at hring
          exact hring.next_item
        obtain ⟨m', h', hsteps, b, hb⟩ := ih _ m₁ h₁
        obtain ⟨c, hc⟩ := hdoes.completes
        rw [List.flatMap_cons]
        refine ⟨m', by simpa using h', hdoes.toSteps.append hsteps, max (b + 1) c,
          fun fuel turns hfuel hturns => ?_⟩
        obtain ⟨n, rfl⟩ : ∃ n, turns = n + 1 := Nat.exists_eq_add_of_le' (by omega)
        rw [eachLoop, List.headD_cons, if_neg hne]
        simp only [Prog.andThen, hc fuel (by omega), if_pos hvalid, hnext,
          hb fuel n (by omega) (by omega), Option.map_some]
  obtain ⟨m', h', hsteps, b, hb⟩ := hloop xs [] m h
  have hholds := hlist _ _ m h
  refine ⟨m', h', hsteps, b, fun fuel hfuel => ?_⟩
  rw [List.nil_append] at hholds
  rw [listForEach, if_pos (hholds.valid head (by simp)), hholds.ring.next_head]
  exact hb fuel fuel hfuel hfuel

end Loops

/-! ## What the statements keep -/

/-- The head of the list that a link can be on. -/
def Ref.owner : Ref → Ref
  | .range _ => .rwList
  | .rdRange _ => .rdList
  | .slice i _ => .rwSlice i
  | x => x

/-- The entry that a link is in. -/
def Ref.block : Ref → Ref
  | .rwSlice i => .range i
  | x => x

/-- The lists in use: those of `test_config`, and the slices of every entry of `RW_list`. -/
def InUse (items : Ref → List Ref) (head : Ref) : Prop :=
  head = .rwList ∨ head = .rdList ∨ ∃ i, head = .rwSlice i ∧ .range i ∈ items .rwList

/-- Every list in use holds its items, and a link is on no list but its own. -/
structure Wired (m : ListMem) (items : Ref → List Ref) : Prop where
  holds : ∀ head, InUse items head → m.Holds head (items head)
  owner : ∀ head, InUse items head → ∀ y ∈ head :: items head, y.owner = head

/-- The link is on no list in use, and is the head of none. -/
def Off (items : Ref → List Ref) (x : Ref) : Prop :=
  ¬ InUse items x ∧ x ∉ items x.owner

/-- What the statements on lists leave alone. -/
structure SameData (m m' : ListMem) : Prop where
  start : m'.start = m.start
  stop : m'.stop = m.stop
  mmtestFd : m'.mmtestFd = m.mmtestFd

theorem SameData.trans {m₁ m₂ m₃ : ListMem} (h : SameData m₁ m₂) (h' : SameData m₂ m₃) :
    SameData m₁ m₃ :=
  ⟨h'.start.trans h.start, h'.stop.trans h.stop, h'.mmtestFd.trans h.mmtestFd⟩

section Statements

variable {m m' : ListMem} {items : Ref → List Ref} {head new x : Ref} {xs : List Ref}

theorem inUse_owner (h : InUse items head) : head.owner = head := by
  rcases h with rfl | rfl | ⟨i, rfl, -⟩ <;> rfl

-- Only entries are on lists that belong to others.
theorem off_entry (hentry : x.owner ≠ x) (hfresh : x ∉ items x.owner) : Off items x :=
  ⟨fun huse => hentry (inUse_owner huse), hfresh⟩

theorem valid_entry (hentry : x.owner ≠ x) : m.valid x = m.live x := by
  cases x with
  | range i | rdRange i | slice i n => rfl
  | null | poison1 | poison2 | garbage | rwList | rdList | rwSlice i => exact absurd rfl hentry

theorem Wired.not_mem (h : Wired m items) (hx : Off items x) (hhead : InUse items head) :
    x ∉ head :: items head := by
  intro hmem
  have howner := h.owner head hhead x hmem
  rcases List.mem_cons.mp hmem with rfl | hmem
  · exact hx.1 hhead
  · exact hx.2 (howner ▸ hmem)

-- Two lists in use have nothing in common.
theorem Wired.disjoint (h : Wired m items) {head' : Ref} (hhead : InUse items head)
    (hhead' : InUse items head') (hne : head' ≠ head) :
    ∀ y ∈ head' :: items head', y ∉ head :: items head := by
  intro y hy' hy
  exact hne ((h.owner head' hhead' y hy').symm.trans (h.owner head hhead y hy))

-- A statement that leaves all links on lists alone, and frees nothing that is on one.
theorem Wired.congr (h : Wired m items)
    (hring : ∀ head, InUse items head → m.links.Ring head (items head) →
      m'.links.Ring head (items head))
    (hvalid : ∀ head, InUse items head → ∀ y ∈ head :: items head,
      m.valid y = true → m'.valid y = true) : Wired m' items := by
  refine ⟨fun head hhead => ⟨?_, ?_⟩, h.owner⟩
  · exact hring head hhead (h.holds head hhead).ring
  · intro y hy
    exact hvalid head hhead y hy ((h.holds head hhead).valid y hy)

-- Only the entry that a link is in decides whether it may be followed.
theorem valid_of_block {y : Ref} (hlive : m.live y.block = true → m'.live y.block = true)
    (hy : m.valid y = true) : m'.valid y = true := by
  cases y with
  | null | poison1 | poison2 | garbage => exact absurd hy (by simp [ListMem.valid])
  | rwList | rdList => rfl
  | range i | rwSlice i | slice i n | rdRange i => exact hlive hy

theorem Wired.initListHead (h : Wired m items) (hx : Off items x) :
    Wired { m with links := m.links.init x } items :=
  h.congr (fun _ hhead hring => hring.set_frame (h.not_mem hx hhead) x) (fun _ _ _ _ hy => hy)

-- The head of an empty list may be set up again.
theorem Wired.initEmpty (h : Wired m items) (hhead : InUse items head) (hempty : items head = []) :
    Wired { m with links := m.links.init head } items := by
  refine h.congr (fun head' hhead' hring => ?_) (fun _ _ _ _ hy => hy)
  by_cases heq : head' = head
  · rw [heq, hempty]
    exact Links.ring_init m.links head
  · refine hring.set_frame (fun hmem => ?_) head
    exact h.disjoint hhead hhead' heq head hmem (by simp)

theorem Wired.malloc (h : Wired m items) (hx : ∀ y ∈ x.inside, Off items y) :
    Wired { m with
      live := Function.update m.live x true
      links := x.inside.foldl (fun l y => l.set y .garbage) m.links } items := by
  refine h.congr (fun head hhead hring => ?_) (fun _ _ y _ => valid_of_block fun hy => ?_)
  · have hstep : ∀ (l : Links Ref) (y : Ref), Off items y → l.Ring head (items head) →
        (l.set y .garbage).Ring head (items head) :=
      fun l y hy hl => hl.set_frame (h.not_mem hy hhead) .garbage
    exact foldl_preserves (Off items) hstep hx hring
  · by_cases hne : y.block = x
    · simp [hne]
    · simpa [Function.update_of_ne hne] using hy

theorem Wired.free (h : Wired m items) (hx : x ∉ items x.owner) (hentry : x.owner ≠ x) :
    Wired { m with live := Function.update m.live x false } items := by
  refine h.congr (fun _ _ hring => hring) (fun head hhead y hmem => valid_of_block fun hy => ?_)
  have hne : y.block ≠ x := by
    intro hblock
    have howner := h.owner head hhead y hmem
    by_cases hself : y.block = y
    · -- the entry itself would be on a list
      obtain rfl : y = x := hself.symm.trans hblock
      rcases List.mem_cons.mp hmem with heq | hitem
      · exact hentry (howner.trans heq.symm)
      · exact hx (howner ▸ hitem)
    · -- or it would be the entry around a list in use
      obtain ⟨i, rfl⟩ : ∃ i, y = .rwSlice i := by
        cases y <;> simp_all [Ref.block]
      obtain rfl : .rwSlice i = head := howner
      obtain hhead | hhead | ⟨j, hj, hrange⟩ := hhead
      · cases hhead
      · cases hhead
      · cases hj
        exact hx (hblock ▸ hrange)
  simpa [Function.update_of_ne hne] using hy

-- A list in use behind an addition was in use before, or is the one inside the entry.
theorem inUse_add {head' : Ref} (huse : InUse (Function.update items head (new :: items head)) head') :
    InUse items head' ∨ ∃ i, new = .range i ∧ head' = .rwSlice i := by
  rcases huse with huse | huse | ⟨i, rfl, hi⟩
  · exact Or.inl (Or.inl huse)
  · exact Or.inl (Or.inr (Or.inl huse))
  · by_cases hrw : head = .rwList
    · subst hrw
      rw [Function.update_self, List.mem_cons] at hi
      rcases hi with hi | hi
      · exact Or.inr ⟨i, hi.symm, rfl⟩
      · exact Or.inl (Or.inr (Or.inr ⟨i, rfl, hi⟩))
    · rw [Function.update_of_ne (Ne.symm hrw)] at hi
      exact Or.inl (Or.inr (Or.inr ⟨i, rfl, hi⟩))

-- A removal brings no list into use.
theorem inUse_del {head' : Ref} (hitems : items head = x :: xs)
    (huse : InUse (Function.update items head xs) head') : InUse items head' := by
  rcases huse with huse | huse | ⟨i, rfl, hi⟩
  · exact Or.inl huse
  · exact Or.inr (Or.inl huse)
  · refine Or.inr (Or.inr ⟨i, rfl, ?_⟩)
    by_cases hrw : head = .rwList
    · subst hrw
      rw [Function.update_self] at hi
      simp [hitems, hi]
    · rwa [Function.update_of_ne (Ne.symm hrw)] at hi

-- Putting an entry on a list; the list inside it is in use from then on.
theorem Wired.listAdd (h : Wired m items) (hhead : InUse items head) (howner : new.owner = head)
    (hne : new ≠ head) (hmem : new ∉ items head) (hvalid : m.valid new = true)
    (hinside : ∀ i, new = .range i → m.Holds (.rwSlice i) (items (.rwSlice i)) ∧
      ∀ y ∈ .rwSlice i :: items (.rwSlice i), y.owner = .rwSlice i) :
    Wired { m with links := m.links.add new head }
      (Function.update items head (new :: items head)) := by
  have hself : head.owner = head := inUse_owner hhead
  have hholds := h.holds head hhead
  -- the other lists are those of before, and the one inside the entry
  have hother : ∀ head', InUse (Function.update items head (new :: items head)) head' →
      m.Holds head' (items head') ∧ ∀ y ∈ head' :: items head', y.owner = head' := by
    intro head' huse
    rcases inUse_add huse with hold | ⟨i, hnew, rfl⟩
    · exact ⟨h.holds head' hold, h.owner head' hold⟩
    · exact hinside i hnew
  constructor
  · intro head' huse
    by_cases hdiff : head' = head
    · subst hdiff
      rw [Function.update_self]
      refine ⟨hholds.ring.add (by simp [hne, hmem]), ?_⟩
      intro y hy
      rcases List.mem_cons.mp hy with rfl | hy
      · exact hholds.valid y (by simp)
      · rcases List.mem_cons.mp hy with rfl | hy
        · exact hvalid
        · exact hholds.valid y (by simp [hy])
    · obtain ⟨hholds', howner'⟩ := hother head' huse
      rw [Function.update_of_ne hdiff]
      refine ⟨hholds.ring.add_frame hholds'.ring ?_ ?_, hholds'.valid⟩
      · intro hnew
        exact hdiff ((howner' new hnew).symm.trans howner)
      · intro y hy' hy
        exact hdiff ((howner' y hy').symm.trans (h.owner head hhead y hy))
  · intro head' huse
    by_cases hdiff : head' = head
    · subst hdiff
      rw [Function.update_self]
      intro y hy
      rcases List.mem_cons.mp hy with rfl | hy
      · exact hself
      · rcases List.mem_cons.mp hy with rfl | hy
        · exact howner
        · exact h.owner head' hhead y (by simp [hy])
    · rw [Function.update_of_ne hdiff]
      exact (hother head' huse).2

theorem Wired.listDel (h : Wired m items) (hhead : InUse items head)
    (hitems : items head = x :: xs) :
    Wired { m with links := m.links.del .poison1 .poison2 x } (Function.update items head xs) := by
  have hring := (h.holds head hhead).ring
  rw [hitems] at hring
  have hsub : ∀ y ∈ head :: xs, y ∈ head :: items head := by
    intro y hy
    rcases List.mem_cons.mp hy with rfl | hy <;> simp [*]
  have hold (head' : Ref) (huse : InUse (Function.update items head xs) head') : InUse items head' :=
    inUse_del hitems huse
  constructor
  · intro head' huse
    by_cases hdiff : head' = head
    · subst hdiff
      rw [Function.update_self]
      exact ⟨hring.del, fun y hy => (h.holds head' hhead).valid y (hsub y hy)⟩
    · rw [Function.update_of_ne hdiff]
      have hholds' := h.holds head' (hold head' huse)
      refine ⟨hring.del_frame hholds'.ring ?_, hholds'.valid⟩
      rw [← hitems]
      exact h.disjoint hhead (hold head' huse) hdiff
  · intro head' huse y hy
    by_cases hdiff : head' = head
    · subst hdiff
      rw [Function.update_self] at hy
      exact h.owner head' hhead y (hsub y hy)
    · rw [Function.update_of_ne hdiff] at hy
      exact h.owner head' (hold head' huse) y hy

-- The statements themselves.
theorem Wired.exec_malloc (h : Wired m items) (hx : ∀ y ∈ x.inside, Off items y) :
    ∃ m', m.exec (.malloc x) = some m' ∧ Wired m' items ∧ SameData m m' ∧
      m'.live = Function.update m.live x true :=
  ⟨_, rfl, h.malloc hx, ⟨rfl, rfl, rfl⟩, rfl⟩

theorem Wired.exec_initListHead (h : Wired m items) (hx : Off items x) (hvalid : m.valid x = true) :
    ∃ m', m.exec (.initListHead x) = some m' ∧ Wired m' items ∧ SameData m m' ∧
      m'.live = m.live ∧ m'.links.Ring x [] :=
  ⟨_, if_pos hvalid, h.initListHead hx, ⟨rfl, rfl, rfl⟩, rfl, Links.ring_init m.links x⟩

theorem Wired.exec_setRange (h : Wired m items) {i : Nat} (start stop : Nat)
    (hlive : m.live (.range i) = true) :
    ∃ m', m.exec (.setRange i start stop) = some m' ∧ Wired m' items ∧ m'.live = m.live ∧
      m'.start = Function.update m.start i start ∧ m'.stop = Function.update m.stop i stop ∧
      m'.mmtestFd = m.mmtestFd := by
  refine ⟨_, if_pos hlive, h.congr (fun _ _ hring => hring) ?_, rfl, rfl, rfl, rfl⟩
  intro _ _ y _ hy
  exact valid_of_block id hy

theorem Wired.exec_listAdd (h : Wired m items) (new : Ref) (hhead : InUse items head)
    (howner : new.owner = head) (hne : new ≠ head) (hmem : new ∉ items head) (hvalid : m.valid new = true)
    (hinside : ∀ i, new = .range i → m.Holds (.rwSlice i) (items (.rwSlice i)) ∧
      ∀ y ∈ .rwSlice i :: items (.rwSlice i), y.owner = .rwSlice i) :
    ∃ m', m.exec (.listAdd new head) = some m' ∧
      Wired m' (Function.update items head (new :: items head)) ∧ SameData m m' ∧
      m'.live = m.live := by
  have hholds := h.holds head hhead
  refine ⟨_, if_pos ?_, h.listAdd hhead howner hne hmem hvalid hinside, ⟨rfl, rfl, rfl⟩, rfl⟩
  simp [hvalid, hholds.valid head (by simp), hholds.valid_next]

end Statements

end MoBoMemory.App
