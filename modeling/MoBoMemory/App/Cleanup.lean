import MoBoMemory.App.InitModule
import MoBoMemory.App.ListMemory

/-!
# Giving the lists back

`release_munmap_close` and `release_list_resource`, the places that call them and the state of the
lists there.  The read-only list is walked without a check, so a signal that comes before it is set up
follows NULL; and `read_write_test` frees the ranges before it unmaps what they say.
-/

namespace MoBoMemory.App

open Base Driver

/-! ## The two functions -/

/-- `list_del` and `free`. -/
def delFree (x : Ref) : ListProg := (emit (.listDel x)).andThen (emit (.free x))

/-- One turn over `RW_list`: first the slices of the entry. -/
def releaseRange (fuel : Nat) : Ref → ListProg
  | .range i => (listForEachSafe fuel (.rwSlice i) delFree).andThen (delFree (.range i))
  | _ => Prog.fail

def releaseListResource (fuel : Nat) : ListProg :=
  Prog.andThen
    (fun m =>
      if m.links.next .rwList ≠ .null then listForEachSafe fuel .rwList (releaseRange fuel) m
      else Prog.nop m)
    (listForEachSafe fuel .rdList delFree)

def munmapRange : Ref → ListProg
  | .range i => fun m =>
      if m.start i ≠ 0 then emit (.munmap (m.start i) (ulSub (m.stop i) (m.start i))) m
      else Prog.nop m
  | _ => Prog.fail

/-- `if (mmtest_fd > 0) close(mmtest_fd)`. -/
def closeIfOpen : ListProg := fun m =>
  if 0 < m.mmtestFd then emit .close m else Prog.nop m

def releaseMunmapClose (fuel : Nat) : ListProg :=
  Prog.andThen
    (fun m =>
      if m.links.next .rwList ≠ .null then listForEach fuel .rwList munmapRange m
      else Prog.nop m)
    closeIfOpen

/-- `close_module`, the failing path of `init_module`, and what `sig_ctrlC_exit` does to the lists. -/
def cleanup (fuel : Nat) : ListProg := (releaseMunmapClose fuel).andThen (releaseListResource fuel)

/-- The two functions return: they follow no bad link and come to an end. -/
def Safe (m : ListMem) : Prop := ∃ fuel out, cleanup fuel m = some out

/-! ## What they do to lists that are in order -/

def freeStmts (x : Ref) : List Stmt := [.listDel x, .free x]

def rangeStmts (items : Ref → List Ref) : Ref → List Stmt
  | .range i => (items (.rwSlice i)).flatMap freeStmts ++ freeStmts (.range i)
  | _ => []

def releaseStmts (items : Ref → List Ref) : List Stmt :=
  (items .rwList).flatMap (rangeStmts items) ++ (items .rdList).flatMap freeStmts

def unmapStmts (m : ListMem) : Ref → List Stmt
  | .range i =>
      if m.start i ≠ 0 then [.munmap (m.start i) (ulSub (m.stop i) (m.start i))] else []
  | _ => []

def closeStmts (m : ListMem) : List Stmt := if 0 < m.mmtestFd then [.close] else []

section Release

variable {P : ListMem → Prop} (hP : ∀ m items, Wired m items → P m) {m : ListMem}
  {items : Ref → List Ref} {head x : Ref} {xs : List Ref}

theorem inUse_update_self (hhead : InUse items head) : InUse (Function.update items head xs) head := by
  obtain hhead | hhead | ⟨i, rfl, hi⟩ := hhead
  · exact Or.inl hhead
  · exact Or.inr (Or.inl hhead)
  · refine Or.inr (Or.inr ⟨i, rfl, ?_⟩)
    rwa [Function.update_of_ne (by simp)]

-- An item is an entry, and may be followed because it is allocated.
theorem item_live (h : Wired m items) (hhead : InUse items head) (hx : x ∈ items head) :
    x.owner ≠ x ∧ m.live x = true := by
  have howner := h.owner head hhead x (by simp [hx])
  have hvalid := (h.holds head hhead).valid x (by simp [hx])
  have hentry : x.owner ≠ x := by
    intro hself
    obtain rfl : x = head := hself.symm.trans howner
    exact (List.nodup_cons.mp (h.holds x hhead).ring.nodup).1 hx
  exact ⟨hentry, by rwa [valid_entry hentry] at hvalid⟩

theorem item_range (h : Wired m items) (hx : x ∈ items .rwList) : ∃ i, x = .range i := by
  have howner := h.owner .rwList (Or.inl rfl) x (by simp [hx])
  have hentry := (item_live h (Or.inl rfl) hx).1
  cases x <;> simp_all [Ref.owner]

theorem next_ne_null {xs : List Ref} (h : m.Holds head xs) : m.links.next head ≠ .null := by
  intro hnull
  have hvalid := h.valid_next
  rw [hnull] at hvalid
  exact absurd hvalid (by simp [ListMem.valid])

theorem closeIfOpen_does (hm : P m) :
    Does ListMem.exec P (fun _ => closeIfOpen) m (closeStmts m) m := by
  by_cases hopen : 0 < m.mmtestFd
  · rw [closeStmts, if_pos hopen]
    exact (does_emit hm rfl).congr fun _ => if_pos hopen
  · rw [closeStmts, if_neg hopen]
    exact does_nop.congr fun _ => if_neg hopen

include hP

theorem delFree_does (h : Wired m items) (hhead : InUse items head) (hitems : items head = x :: xs) :
    ∃ m', Wired m' (Function.update items head xs) ∧ SameData m m' ∧
      Does ListMem.exec P (fun _ => delFree x) m (freeStmts x) m' := by
  have hholds := h.holds head hhead
  rw [hitems] at hholds
  obtain ⟨hentry, hlive⟩ := item_live h hhead (show x ∈ items head by simp [hitems])
  have hdel := h.listDel hhead hitems
  have hexec : m.exec (.listDel x) =
      some { m with links := m.links.del .poison1 .poison2 x } := by
    have hprev : m.valid (m.links.prev x) = true := by
      rw [hholds.ring.prev_first]
      exact hholds.valid head (by simp)
    have hnext : m.valid (m.links.next x) = true := by
      rw [hholds.ring.next_first]
      exact hholds.valid _ (by have hmem := Links.headD_mem head xs; grind)
    simp [ListMem.exec, hprev, hnext, hholds.valid x (by simp)]
  have howner : x.owner = head := h.owner head hhead x (by simp [hitems])
  have hoff : x ∉ Function.update items head xs x.owner := by
    rw [howner, Function.update_self]
    exact (List.nodup_cons.mp (List.nodup_cons.mp hholds.ring.nodup).2).1
  refine ⟨_, hdel.free hoff hentry, ⟨rfl, rfl, rfl⟩, ?_⟩
  exact (does_emit (hP m items h) hexec).andThen
    (does_emit (hP _ _ hdel) (if_pos hlive))

-- A list of entries without lists of their own.
theorem drain_does (h : Wired m items) (hhead : InUse items head) :
    ∃ m', Wired m' (Function.update items head []) ∧ SameData m m' ∧
      Does ListMem.exec P (fun fuel => listForEachSafe fuel head delFree) m
        ((items head).flatMap freeStmts) m' := by
  have hlist : ∀ xs m', Wired m' (Function.update items head xs) ∧ SameData m m' →
      m'.Holds head xs := by
    rintro xs m' ⟨hwired, -⟩
    have hholds := hwired.holds head (inUse_update_self hhead)
    rwa [Function.update_self] at hholds
  have hbody : ∀ x xs m₁, Wired m₁ (Function.update items head (x :: xs)) ∧ SameData m m₁ →
      ∃ m₂, (Wired m₂ (Function.update items head xs) ∧ SameData m m₂) ∧
        Does ListMem.exec P (fun _ => delFree x) m₁ (freeStmts x) m₂ := by
    rintro x xs m₁ ⟨hwired, hsame⟩
    obtain ⟨m₂, hwired₂, hsame₂, hdoes⟩ := delFree_does hP hwired (inUse_update_self hhead)
      (Function.update_self head (x :: xs) items)
    rw [Function.update_idem] at hwired₂
    exact ⟨m₂, ⟨hwired₂, hsame.trans hsame₂⟩, hdoes⟩
  obtain ⟨m', ⟨hwired, hsame⟩, hdoes⟩ := listForEachSafe_does _ hlist hbody
    (items head) ⟨by rwa [Function.update_eq_self], rfl, rfl, rfl⟩
  exact ⟨m', hwired, hsame, hdoes⟩

-- One entry of RW_list, with its slices.
theorem releaseRange_does {i : Nat} (h : Wired m items) (hitems : items .rwList = .range i :: xs) :
    ∃ m', Wired m' (Function.update (Function.update items (.rwSlice i) []) .rwList xs) ∧
      SameData m m' ∧
      Does ListMem.exec P (fun fuel => releaseRange fuel (.range i)) m
        (rangeStmts items (.range i)) m' := by
  have hslices : InUse items (.rwSlice i) := Or.inr (Or.inr ⟨i, rfl, by simp [hitems]⟩)
  obtain ⟨m₁, hwired₁, hsame₁, hdoes₁⟩ := drain_does hP h hslices
  obtain ⟨m₂, hwired₂, hsame₂, hdoes₂⟩ := delFree_does hP hwired₁ (Or.inl rfl)
    (show Function.update items (.rwSlice i) [] .rwList = .range i :: xs by
      rwa [Function.update_of_ne (by simp)])
  exact ⟨m₂, hwired₂, hsame₁.trans hsame₂, hdoes₁.andThen hdoes₂⟩

/-- What is left of the lists while `RW_list` is released. -/
structure Releasing (items : Ref → List Ref) (m : ListMem) (xs : List Ref) (m' : ListMem)
    (items' : Ref → List Ref) : Prop where
  wired : Wired m' items'
  rwList : items' .rwList = xs
  slices : ∀ i, .range i ∈ xs → items' (.rwSlice i) = items (.rwSlice i)
  rdList : items' .rdList = items .rdList
  same : SameData m m'

theorem releaseRwList_does (h : Wired m items) :
    ∃ m' items', Releasing items m [] m' items' ∧
      Does ListMem.exec P (fun fuel => listForEachSafe fuel .rwList (releaseRange fuel)) m
        ((items .rwList).flatMap (rangeStmts items)) m' := by
  have hlist : ∀ xs m', (∃ items', Releasing items m xs m' items') → m'.Holds .rwList xs := by
    rintro xs m' ⟨items', hrel⟩
    rw [← hrel.rwList]
    exact hrel.wired.holds .rwList (Or.inl rfl)
  have hbody : ∀ x xs m₁, (∃ items', Releasing items m (x :: xs) m₁ items') →
      ∃ m₂, (∃ items', Releasing items m xs m₂ items') ∧
        Does ListMem.exec P (fun fuel => releaseRange fuel x) m₁ (rangeStmts items x) m₂ := by
    rintro x xs m₁ ⟨items', hrel⟩
    obtain ⟨i, rfl⟩ := item_range hrel.wired (show x ∈ items' .rwList by simp [hrel.rwList])
    obtain ⟨m₂, hwired₂, hsame₂, hdoes⟩ := releaseRange_does hP hrel.wired hrel.rwList
    have hnodup := ((hlist _ m₁ ⟨items', hrel⟩).ring.nodup)
    refine ⟨m₂, ⟨_, hwired₂, ?_, ?_, ?_, hrel.same.trans hsame₂⟩, ?_⟩
    · rw [Function.update_self]
    · intro j hj
      -- the slices of the other entries have not been touched
      have hne : j ≠ i := by
        rintro rfl
        simp [hj] at hnodup
      rw [Function.update_of_ne (by simp), Function.update_of_ne (by simpa using hne)]
      exact hrel.slices j (by simp [hj])
    · rw [Function.update_of_ne (by simp), Function.update_of_ne (by simp)]
      exact hrel.rdList
    · rw [rangeStmts, ← hrel.slices i (by simp)]
      exact hdoes
  obtain ⟨m', ⟨items', hrel⟩, hdoes⟩ := listForEachSafe_does _ hlist hbody (items .rwList)
    ⟨items, h, rfl, fun _ _ => rfl, rfl, rfl, rfl, rfl⟩
  exact ⟨m', items', hrel, hdoes⟩

-- Both lists come out empty, and every entry is taken off and freed.
theorem releaseListResource_does (h : Wired m items) :
    ∃ m' items', Wired m' items' ∧ items' .rwList = [] ∧ items' .rdList = [] ∧ SameData m m' ∧
      Does ListMem.exec P releaseListResource m (releaseStmts items) m' := by
  obtain ⟨m₁, items₁, hrel, hdoes₁⟩ := releaseRwList_does hP h
  obtain ⟨m₂, hwired₂, hsame₂, hdoes₂⟩ := drain_does hP hrel.wired (Or.inr (Or.inl rfl))
  refine ⟨m₂, _, hwired₂, ?_, Function.update_self _ _ _, hrel.same.trans hsame₂, ?_⟩
  · rw [Function.update_of_ne (by simp)]
    exact hrel.rwList
  · rw [hrel.rdList] at hdoes₂
    refine Does.andThen (hdoes₁.congr fun fuel => ?_) hdoes₂
    exact if_pos (next_ne_null (h.holds .rwList (Or.inl rfl)))

theorem munmapRange_does (h : Wired m items) {i : Nat} :
    Does ListMem.exec P (fun _ => munmapRange (.range i)) m (unmapStmts m (.range i)) m := by
  by_cases hstart : m.start i ≠ 0
  · rw [unmapStmts, if_pos hstart]
    exact (does_emit (hP m items h) rfl).congr fun _ => if_pos hstart
  · rw [unmapStmts, if_neg hstart]
    exact does_nop.congr fun _ => if_neg hstart

-- The memory of the lists is only read.
theorem releaseMunmapClose_does (h : Wired m items) :
    Does ListMem.exec P releaseMunmapClose m
      ((items .rwList).flatMap (unmapStmts m) ++ closeStmts m) m := by
  have hlist : ∀ pre xs m', m' = m ∧ items .rwList = pre ++ xs → m'.Holds .rwList (pre ++ xs) := by
    rintro pre xs m' ⟨rfl, hitems⟩
    rw [← hitems]
    exact h.holds .rwList (Or.inl rfl)
  have hbody : ∀ pre x xs m₁, m₁ = m ∧ items .rwList = pre ++ x :: xs →
      ∃ m₂, (m₂ = m ∧ items .rwList = (pre ++ [x]) ++ xs) ∧
        Does ListMem.exec P (fun _ => munmapRange x) m₁ (unmapStmts m x) m₂ := by
    rintro pre x xs m₁ ⟨rfl, hitems⟩
    obtain ⟨i, rfl⟩ := item_range h (show x ∈ items .rwList by simp [hitems])
    exact ⟨m₁, ⟨rfl, by simp [hitems]⟩, munmapRange_does hP h⟩
  obtain ⟨m', ⟨rfl, -⟩, hdoes⟩ := listForEach_does _ hlist hbody (items .rwList) ⟨rfl, rfl⟩
  refine Does.andThen (hdoes.congr fun fuel => ?_) (closeIfOpen_does (hP m' items h))
  exact if_pos (next_ne_null (h.holds .rwList (Or.inl rfl)))

theorem cleanup_does (h : Wired m items) :
    ∃ m' items', Wired m' items' ∧ items' .rwList = [] ∧ items' .rdList = [] ∧ SameData m m' ∧
      Does ListMem.exec P cleanup m
        ((items .rwList).flatMap (unmapStmts m) ++ closeStmts m ++ releaseStmts items) m' := by
  obtain ⟨m', items', hwired, hrw, hrd, hsame, hdoes⟩ := releaseListResource_does hP h
  exact ⟨m', items', hwired, hrw, hrd, hsame, (releaseMunmapClose_does hP h).andThen hdoes⟩

end Release

/-! ## Where they may be called -/

/-- The lists before they are set up, with only the read-only one set up, and in order. -/
inductive ListState (m : ListMem) : Prop where
  | zero (rwList : m.links.next .rwList = .null) (rdList : m.links.next .rdList = .null)
  | half (rwList : m.links.next .rwList = .null) (rdList : m.Holds .rdList [])
  | wired (items : Ref → List Ref) (h : Wired m items)

section Called

variable {m : ListMem}

theorem releaseMunmapClose_null (hnull : m.links.next .rwList = .null) :
    Does ListMem.exec (fun _ => True) releaseMunmapClose m (closeStmts m) m := by
  refine Does.andThen (does_nop.congr fun fuel => ?_) (closeIfOpen_does trivial)
  exact if_neg (not_not.mpr hnull)

-- An empty read-only list is all that is looked at.
theorem cleanup_half (hnull : m.links.next .rwList = .null) (hrd : m.Holds .rdList []) :
    Does ListMem.exec (fun _ => True) cleanup m (closeStmts m) m := by
  have hlist : ∀ xs m', xs = [] ∧ m' = m → m'.Holds .rdList xs := by
    rintro xs m' ⟨rfl, rfl⟩
    exact hrd
  have hbody : ∀ x xs m₁, x :: xs = [] ∧ m₁ = m → ∃ m₂, (xs = [] ∧ m₂ = m) ∧
      Does ListMem.exec (fun _ => True) (fun _ => delFree x) m₁ (freeStmts x) m₂ := by
    rintro x xs m₁ ⟨hcons, -⟩
    cases hcons
  obtain ⟨m', ⟨-, rfl⟩, hdoes⟩ := listForEachSafe_does _ hlist hbody [] ⟨rfl, rfl⟩
  have hrelease : Does ListMem.exec (fun _ => True) releaseListResource m' [] m' := by
    refine Does.andThen (does_nop.congr fun fuel => ?_) hdoes
    exact if_neg (not_not.mpr hnull)
  have hboth := (releaseMunmapClose_null hnull).andThen hrelease
  rwa [List.append_nil] at hboth

-- The walk over the read-only list is not guarded.
theorem cleanup_zero (hnull : m.links.next .rwList = .null) (hrd : m.links.next .rdList = .null)
    (fuel : Nat) : cleanup fuel m = none := by
  have hmunmap : releaseMunmapClose fuel m = some (closeStmts m, m) := by
    simp only [releaseMunmapClose, Prog.andThen, hnull, ne_eq, not_true_eq_false, if_false,
      Prog.nop, closeIfOpen, closeStmts]
    by_cases hopen : 0 < m.mmtestFd
    · simp only [if_pos hopen, emit, Prog.emit, ListMem.exec, Option.map_some, List.nil_append]
    · simp only [if_neg hopen, Option.map_some, List.append_nil]
  have hrelease : releaseListResource fuel m = none := by
    simp only [releaseListResource, Prog.andThen, hnull, ne_eq, not_true_eq_false, if_false,
      Prog.nop, listForEachSafe, hrd, ListMem.valid, Bool.and_false, Bool.false_eq_true,
      Option.map_none]
  simp only [cleanup, Prog.andThen, hmunmap, hrelease, Option.map_none]

theorem safe_of_does {P : ListMem → Prop} {stmts : List Stmt} {m' : ListMem}
    (h : Does ListMem.exec P cleanup m stmts m') : Safe m := by
  obtain ⟨bound, hbound⟩ := h.completes
  exact ⟨bound, _, hbound bound (Nat.le_refl _)⟩

-- Cleaning up works exactly once the read-only list has been set up.
theorem safe_iff (h : ListState m) : Safe m ↔ m.links.next .rdList ≠ .null := by
  cases h with
  | zero hrw hrd =>
      refine iff_of_false ?_ (not_not.mpr hrd)
      rintro ⟨fuel, out, hout⟩
      simp [cleanup_zero hrw hrd fuel] at hout
  | half hrw hrd => exact iff_of_true (safe_of_does (cleanup_half hrw hrd)) (next_ne_null hrd)
  | wired items h =>
      obtain ⟨m', items', -, -, -, -, hdoes⟩ := cleanup_does (fun _ _ _ => trivial) h
      have hrd := h.holds .rdList (Or.inr (Or.inl rfl))
      exact iff_of_true (safe_of_does (P := fun _ => True) hdoes) (next_ne_null hrd)

end Called

end MoBoMemory.App
