import MoBoMemory.App.ReadWriteTest
import MoBoMemory.App.TestItems

/-!
# The items that a run goes through

`init_module` turns the pairs of `p->test_item` into the list of items in `test_config.test_item`.  It
fills the slots from the left while it reads back the slot it filled last, and the list ends at the
first -1, both where it is read from and where it is written to.
-/

namespace MoBoMemory.App

open Base

/-- `test_config.test_item`, and the index `j` of the slot to be filled next. -/
structure ItemSlots where
  slots : List Int
  j : Nat

namespace ItemSlots

/-- The slots after their `memset`. -/
def cleared : ItemSlots := ⟨List.replicate (itemCount * 2) (-1), 0⟩

/-- `test_config.test_item[j] = v; j++`, which is `none` when the slot is outside the array. -/
def put (c : ItemSlots) (v : Int) : Option ItemSlots :=
  if c.j < c.slots.length then some ⟨c.slots.set c.j v, c.j + 1⟩ else none

/-- `test_config.test_item[j-1]`. -/
def latest (c : ItemSlots) : Int := c.slots.getD (c.j - 1) (-1)

/-- A `while` loop: as long as the latest item asks for it, the item `step` further is put behind it.
The first argument is the number of slots that are left. -/
def fill (asks : Int → Bool) (step : Int) : Nat → ItemSlots → Option ItemSlots
  | 0, c => if asks c.latest then none else some c
  | left + 1, c =>
      if asks c.latest then (c.put (c.latest + step)).bind (fill asks step left) else some c

/-- The loop for a range that goes up. -/
def climb (last : Int) (c : ItemSlots) : Option ItemSlots :=
  fill (fun item => decide (item < last)) 1 (c.slots.length - c.j) c

/-- The loop for a range that goes down. -/
def descend (last : Int) (c : ItemSlots) : Option ItemSlots :=
  fill (fun item => decide (last < item)) (-1) (c.slots.length - c.j) c

/-- The body of the loop over the rows of `p->test_item`. -/
def addRow (c : ItemSlots) (row : Int × Int) : Option ItemSlots :=
  (c.put row.1).bind fun c =>
    if row.2 = -1 then some c
    else if row.1 ≤ row.2 then c.climb row.2
    else c.descend row.2

/-- The loop over the rows from row `i` on; its first argument is the number of rows that are left. -/
def addRows (items : TestItem) : Nat → Nat → ItemSlots → Option ItemSlots
  | 0, _, _ => none
  | left + 1, i, c =>
      if (items i).1 = -1 then some c
      else (c.addRow (items i)).bind (addRows items left (i + 1))

end ItemSlots

/-- What `init_module` leaves in `test_config.test_item`; `none` is an access outside of one of the two
arrays. -/
def expandItems (items : TestItem) : Option (List Int) :=
  (if (items 0).1 = -1 then
      (List.range itemCount).foldlM (fun c (j : Nat) => c.put j) ItemSlots.cleared
    else ItemSlots.addRows items itemCount 0 ItemSlots.cleared).map ItemSlots.slots

/-! ## What the pairs stand for -/

def IsItem (n : Int) : Prop := 0 ≤ n ∧ n < itemCount

/-- `p->test_item` holds these pairs as `parse` stores them: at most one for each row, and -1 behind
them where a row is left. -/
structure StoresPairs (items : TestItem) (ps : List (Int × Int)) : Prop where
  rows : ∀ i p, ps[i]? = some p → items i = p
  valid : ∀ p ∈ ps, IsItem p.1 ∧ (p.2 = -1 ∨ IsItem p.2)
  room : ps.length ≤ itemCount
  stop : ps.length < itemCount → (items ps.length).1 = -1

/-- `n + 1` items from `a` on. -/
def stretch (a step : Int) (n : Nat) : List Int := (List.range (n + 1)).map fun k : Nat => a + step * k

/-- One item, or a range upwards or downwards with both its ends. -/
def pairItems (p : Int × Int) : List Int :=
  if p.2 = -1 then [p.1]
  else if p.1 ≤ p.2 then stretch p.1 1 (p.2 - p.1).toNat
  else stretch p.1 (-1) (p.1 - p.2).toNat

def expansion (ps : List (Int × Int)) : List Int := ps.flatMap pairItems

/-- No access is outside, and the slots begin with the expansion of the pairs and a -1. -/
def ExpandedExactly (items : TestItem) (ps : List (Int × Int)) : Prop :=
  ∃ slots, expandItems items = some slots ∧ slots.length = itemCount * 2 ∧
    expansion ps ++ [-1] <+: slots

/-! ## Filling the slots -/

namespace ItemSlots

variable {out vs : List Int} {v step : Int} {asks : Int → Bool}

/-- The slots that hold `out`. -/
def holding (out : List Int) : ItemSlots :=
  ⟨out ++ List.replicate (itemCount * 2 - out.length) (-1), out.length⟩

theorem length_holding (h : out.length ≤ itemCount * 2) :
    (holding out).slots.length = itemCount * 2 := by
  rw [holding, List.length_append, List.length_replicate]
  omega

theorem put_holding (h : out.length < itemCount * 2) (v : Int) :
    (holding out).put v = some (holding (out ++ [v])) := by
  have hlen := length_holding h.le
  have hfree : itemCount * 2 - out.length = itemCount * 2 - (out ++ [v]).length + 1 := by
    rw [List.length_append, List.length_singleton]
    omega
  rw [put, hlen, if_pos (show (holding out).j < itemCount * 2 from h)]
  congr 1
  rw [holding, holding, hfree, List.replicate_succ]
  simp

theorem put_full (h : out.length = itemCount * 2) (v : Int) : (holding out).put v = none := by
  have hfull : ¬ (holding out).j < itemCount * 2 := h.not_lt
  rw [put, length_holding h.le, if_neg hfull]

theorem latest_holding (out : List Int) (v : Int) : (holding (out ++ [v])).latest = v := by
  simp [latest, holding]

/-- Put one item behind the other. -/
def putAll (c : ItemSlots) (vs : List Int) : Option ItemSlots := vs.foldlM put c

theorem putAll_holding (h : out.length ≤ itemCount * 2) : (holding out).putAll vs =
    if out.length + vs.length ≤ itemCount * 2 then some (holding (out ++ vs)) else none := by
  induction vs generalizing out with
  | nil => rw [List.length_nil, Nat.add_zero, if_pos h, List.append_nil]; rfl
  | cons v vs ih =>
      show ((holding out).put v).bind (fun c => c.putAll vs) = _
      rcases h.lt_or_eq with hlt | hfull
      · have hlen : (out ++ [v]).length = out.length + 1 := List.length_append
        rw [put_holding hlt, Option.bind_some, ih (by omega), hlen, List.length_cons,
          Nat.add_assoc, Nat.add_comm 1, List.append_assoc, List.singleton_append]
      · rw [put_full hfull, List.length_cons, if_neg (by omega)]
        rfl

-- The loop puts item after item until the latest one does not ask for more.
theorem fill_holding (n : Nat) (hout : (out ++ [v]).length ≤ itemCount * 2)
    (hgo : ∀ k : Nat, k < n → asks (v + step * k) = true) (hstop : asks (v + step * n) = false) :
    fill asks step (itemCount * 2 - (out ++ [v]).length) (holding (out ++ [v])) =
      (holding (out ++ [v])).putAll ((List.range n).map fun k : Nat => v + step * (k + 1)) := by
  induction n generalizing out v with
  | zero =>
      have hlast : asks v = false := by simpa using hstop
      cases hleft : itemCount * 2 - (out ++ [v]).length <;>
        simp [fill, latest_holding, hlast, putAll]
  | succ n ih =>
      have hfirst : asks v = true := by simpa using hgo 0 n.succ_pos
      rw [List.range_succ_eq_map, List.map_cons, List.map_map]
      show _ = ((holding (out ++ [v])).put (v + step * ((0 : Nat) + 1))).bind fun c => c.putAll _
      have hnext : v + step * (((0 : Nat) : Int) + 1) = v + step := by simp
      rw [hnext]
      rcases hout.lt_or_eq with hlt | hfull
      · have hlen : (out ++ [v] ++ [v + step]).length = (out ++ [v]).length + 1 := List.length_append
        have hleft : itemCount * 2 - (out ++ [v]).length =
            itemCount * 2 - (out ++ [v] ++ [v + step]).length + 1 := by omega
        rw [hleft, fill, latest_holding, if_pos hfirst, put_holding hlt, Option.bind_some,
          Option.bind_some, ih (by omega)]
        · congr 1
          apply List.map_congr_left
          intro k _
          simp only [Function.comp_apply, Nat.cast_succ]
          ring
        · intro k hk
          rw [← hgo (k + 1) (by omega)]
          congr 1
          push_cast
          ring
        · rw [← hstop]
          congr 1
          push_cast
          ring
      · have hleft : itemCount * 2 - (out ++ [v]).length = 0 := by omega
        rw [hleft, fill, latest_holding, if_pos hfirst, put_full hfull]
        rfl

theorem stretch_eq (a step : Int) (n : Nat) :
    stretch a step n = a :: (List.range n).map fun k : Nat => a + step * (k + 1) := by
  rw [stretch, List.range_succ_eq_map, List.map_cons, List.map_map]
  simp [Function.comp_def]

-- A row of the table puts the items of its pair into the slots.
theorem addRow_holding {p : Int × Int} (h : out.length ≤ itemCount * 2) :
    (holding out).addRow p = (holding out).putAll (pairItems p) := by
  rcases h.lt_or_eq with hlt | hfull
  · have hlen : (out ++ [p.1]).length = out.length + 1 := List.length_append
    have hslots := @length_holding (out ++ [p.1]) (by omega)
    have hfirst : ∀ vs, (holding out).putAll (p.1 :: vs) = (holding (out ++ [p.1])).putAll vs := by
      intro vs
      show ((holding out).put p.1).bind (fun c => c.putAll vs) = _
      rw [put_holding hlt, Option.bind_some]
    rw [addRow, put_holding hlt, Option.bind_some, pairItems]
    split_ifs with hone hup
    · exact (hfirst []).symm
    · rw [climb, hslots, stretch_eq, hfirst]
      apply fill_holding _ (by omega)
      · intro k hk
        exact decide_eq_true (by omega)
      · exact decide_eq_false (by omega)
    · rw [descend, hslots, stretch_eq, hfirst]
      apply fill_holding _ (by omega)
      · intro k hk
        exact decide_eq_true (by omega)
      · exact decide_eq_false (by omega)
  · have hpair : ∃ vs, pairItems p = p.1 :: vs := by
      rw [pairItems]
      split_ifs
      · exact ⟨[], rfl⟩
      · exact ⟨_, stretch_eq _ _ _⟩
      · exact ⟨_, stretch_eq _ _ _⟩
    obtain ⟨vs, hvs⟩ := hpair
    rw [addRow, put_full hfull, hvs]
    show none = ((holding out).put p.1).bind fun c => c.putAll vs
    rw [put_full hfull]
    rfl

theorem putAll_append (c : ItemSlots) (us vs : List Int) :
    c.putAll (us ++ vs) = (c.putAll us).bind fun c => c.putAll vs := List.foldlM_append

-- The loop over the rows ends at their -1, or behind the last row.
theorem addRows_holding {items : TestItem} {ps : List (Int × Int)} {left i : Nat}
    (hout : out.length ≤ itemCount * 2) (hrows : ∀ k p, ps[k]? = some p → items (i + k) = p)
    (hitems : ∀ p ∈ ps, p.1 ≠ -1) (hroom : ps.length ≤ left)
    (hstop : ps.length < left → (items (i + ps.length)).1 = -1) :
    addRows items left i (holding out) =
      if ps.length < left then (holding out).putAll (expansion ps) else none := by
  induction ps generalizing out left i with
  | nil =>
      cases left with
      | zero => rfl
      | succ left =>
          have hend : (items i).1 = -1 := hstop left.succ_pos
          rw [addRows, if_pos hend, if_pos (show ([] : List (Int × Int)).length < left + 1 from left.succ_pos)]
          rfl
  | cons p ps ih =>
      obtain ⟨left, rfl⟩ : ∃ m, left = m + 1 := Nat.exists_eq_succ_of_ne_zero (by
        rw [List.length_cons] at hroom
        omega)
      have hrow : items i = p := hrows 0 p rfl
      rw [addRows, hrow, if_neg (hitems p List.mem_cons_self), addRow_holding hout,
        show expansion (p :: ps) = pairItems p ++ expansion ps from List.flatMap_cons, putAll_append,
        putAll_holding hout, List.length_cons]
      simp only [Nat.add_lt_add_iff_right]
      by_cases hfit : out.length + (pairItems p).length ≤ itemCount * 2
      · rw [if_pos hfit, Option.bind_some, Option.bind_some]
        apply ih
        · rw [List.length_append]
          exact hfit
        · intro k q hq
          rw [Nat.add_assoc, Nat.add_comm 1]
          exact hrows (k + 1) q hq
        · exact fun q hq => hitems q (List.mem_cons_of_mem p hq)
        · exact Nat.le_of_succ_le_succ hroom
        · intro hlt
          have hend := hstop (Nat.succ_lt_succ hlt)
          rw [List.length_cons, Nat.add_comm ps.length, ← Nat.add_assoc] at hend
          exact hend
      · rw [if_neg hfit, Option.bind_none, Option.bind_none, ite_self]

end ItemSlots

/-! ## What `parse` stores -/

section Parsed

variable {items items' : TestItem} {args : List (List Char)} {s : List Char}
  {row : List Char} {old new : Int × Int} {n : Int}

/-- A number of a row is an item, or the -1 that `main` put there. -/
def IsEntry (n : Int) : Prop := n = -1 ∨ IsItem n

theorem checkedItem_isEntry (h : checkedItem s = some n) : IsEntry n := by
  rw [checkedItem] at h
  split_ifs at h with hout
  obtain rfl := Option.some.inj h
  exact Or.inr ⟨by omega, by omega⟩

theorem setItem_isEntry (h : setItem row old = some new) (hold : IsEntry old.1 ∧ IsEntry old.2) :
    IsEntry new.1 ∧ IsEntry new.2 := by
  rw [setItem] at h
  split_ifs at h with hshort
  · obtain ⟨n, hn, rfl⟩ := Option.map_eq_some_iff.mp h
    exact ⟨checkedItem_isEntry hn, hold.2⟩
  · rcases htoks : strtok '~' row with _ | ⟨a, _ | ⟨b, rest⟩⟩
    · rw [htoks] at h
      exact Option.some.inj h ▸ hold
    · rw [htoks] at h
      obtain ⟨n, hn, rfl⟩ := Option.map_eq_some_iff.mp h
      exact ⟨checkedItem_isEntry hn, hold.2⟩
    · rw [htoks] at h
      obtain ⟨n, hn, hrest⟩ := Option.bind_eq_some_iff.mp h
      obtain ⟨m, hm, rfl⟩ := Option.map_eq_some_iff.mp hrest
      exact ⟨checkedItem_isEntry hn, checkedItem_isEntry hm⟩

theorem testModeOption_isEntry (h : testModeOption items s = .parsed items')
    (hold : ∀ i, IsEntry (items i).1 ∧ IsEntry (items i).2) (i : Nat) :
    IsEntry (items' i).1 ∧ IsEntry (items' i).2 := by
  rw [testModeOption] at h
  split_ifs at h with hlen hlegal
  cases hcopy : copyItems (fun _ => '0') 0 (itemPieces s) with
  | none => simp [hcopy] at h
  | some testStr =>
      cases hset : setItems testStr (itemPieces s).length items with
      | none => simp [hcopy, hset] at h
      | some its =>
          obtain rfl : its = items' := by simpa [hcopy, hset] using h
          obtain ⟨hrows, hrest⟩ := foldlM_update_eq_some.mp hset
          rcases lt_or_ge i (itemPieces s).length with hi | hi
          · exact setItem_isEntry (hrows i hi) (hold i)
          · exact hrest i hi ▸ hold i

theorem parseTestModes_isEntry (h : parseTestModes args = .parsed items) (i : Nat) :
    IsEntry (items i).1 ∧ IsEntry (items i).2 := by
  induction args using List.reverseRecOn generalizing items i with
  | nil =>
      obtain rfl : (fun _ => (-1, -1)) = items := ParseOutcome.parsed.inj h
      exact ⟨Or.inl rfl, Or.inl rfl⟩
  | append_singleton args s ih =>
      rw [parseTestModes_snoc] at h
      cases hrun : parseTestModes args with
      | outside => simp [hrun, ParseOutcome.andThen] at h
      | refused ret => simp [hrun, ParseOutcome.andThen] at h
      | parsed its =>
          exact testModeOption_isEntry (by simpa [hrun, ParseOutcome.andThen] using h)
            (fun i => ih hrun i) i

/-- The rows up to the first -1. -/
def storedPairs (items : TestItem) : List (Int × Int) :=
  ((List.range itemCount).map items).takeWhile fun row => row.1 ≠ -1

-- Whatever the options were, the rows hold some pairs.
theorem parseTestModes_storesPairs (h : parseTestModes args = .parsed items) :
    StoresPairs items (storedPairs items) := by
  have hrows := parseTestModes_isEntry h
  have hsplit : storedPairs items ++ ((List.range itemCount).map items).dropWhile (fun row => row.1 ≠ -1) =
      (List.range itemCount).map items := List.takeWhile_append_dropWhile
  have hlen := congrArg List.length hsplit
  rw [List.length_append, List.length_map, List.length_range] at hlen
  have hget : ∀ i < itemCount, (storedPairs items ++
      ((List.range itemCount).map items).dropWhile fun row => row.1 ≠ -1)[i]? = some (items i) := by
    intro i hi
    rw [hsplit, List.getElem?_map, List.getElem?_range hi]
    rfl
  constructor
  · intro i p hp
    have hi := (List.getElem?_eq_some_iff.mp hp).1
    have := hget i (by omega)
    rw [List.getElem?_append_left hi, hp] at this
    exact (Option.some.inj this).symm
  · intro p hp
    obtain ⟨i, -, rfl⟩ := List.mem_map.mp (List.takeWhile_prefix _ |>.subset hp)
    rw [storedPairs] at hp
    have hne : (items i).1 ≠ -1 := by simpa using List.mem_takeWhile_imp hp
    exact ⟨(hrows i).1.resolve_left hne, (hrows i).2⟩
  · omega
  · intro hroom
    have hnext := hget _ hroom
    rw [List.getElem?_append_right le_rfl, Nat.sub_self, ← List.head?_eq_getElem?] at hnext
    have hend := List.head?_dropWhile_not (fun row : Int × Int => decide (row.1 ≠ -1))
      ((List.range itemCount).map items)
    rw [hnext] at hend
    simpa using hend

end Parsed

/-- The table that holds these pairs and -1 behind them. -/
def pairTable (ps : List (Int × Int)) : TestItem := fun i => ps.getD i (-1, -1)

theorem storesPairs_pairTable {ps : List (Int × Int)} (hroom : ps.length ≤ itemCount)
    (hvalid : ∀ p ∈ ps, IsItem p.1 ∧ (p.2 = -1 ∨ IsItem p.2)) : StoresPairs (pairTable ps) ps where
  rows i p hp := by rw [pairTable, List.getD_eq_getElem?_getD, hp, Option.getD_some]
  valid := hvalid
  room := hroom
  stop _ := by rw [pairTable, List.getD_eq_getElem?_getD, List.getElem?_eq_none le_rfl, Option.getD_none]

/-! ## When the expansion is exact -/

section Exact

variable {items : TestItem} {ps : List (Int × Int)}

theorem IsItem.ne_neg_one {n : Int} (h : IsItem n) : n ≠ -1 := by
  have := h.1
  omega

theorem StoresPairs.first_ne (h : StoresPairs items ps) (hps : ps ≠ []) : (items 0).1 ≠ -1 := by
  obtain ⟨p, rest, rfl⟩ := List.exists_cons_of_ne_nil hps
  rw [h.rows 0 p rfl]
  exact (h.valid p List.mem_cons_self).1.ne_neg_one

-- No pair at all stands for the items from 0 on.
theorem expandItems_nil (h : StoresPairs items []) : expandItems items =
    some ((List.range itemCount).map Int.ofNat ++ List.replicate itemCount (-1)) := by
  have hend : (items 0).1 = -1 := h.stop (by decide)
  rw [expandItems, if_pos hend]
  rfl

theorem expandItems_cons (h : StoresPairs items ps) (hps : ps ≠ []) : expandItems items =
    if ps.length < itemCount ∧ (expansion ps).length ≤ itemCount * 2 then
      some (expansion ps ++ List.replicate (itemCount * 2 - (expansion ps).length) (-1))
    else none := by
  have hnone : ([] : List Int).length ≤ itemCount * 2 := Nat.zero_le _
  have hrows : ItemSlots.addRows items itemCount 0 (.holding []) =
      if ps.length < itemCount then (ItemSlots.holding []).putAll (expansion ps) else none := by
    apply ItemSlots.addRows_holding hnone
    · intro k p hp
      rw [Nat.zero_add]
      exact h.rows k p hp
    · exact fun p hp => (h.valid p hp).1.ne_neg_one
    · exact h.room
    · intro hlt
      rw [Nat.zero_add]
      exact h.stop hlt
  rw [expandItems, if_neg (h.first_ne hps), show ItemSlots.cleared = .holding [] from rfl, hrows,
    ItemSlots.putAll_holding hnone, List.length_nil, Nat.zero_add, List.nil_append]
  split_ifs <;> first | rfl | omega

theorem itemOf_mem_stretch {a step n : Int} {m : Nat} (ha : IsItem a) (hend : IsItem (a + step * m))
    (hstep : step = 1 ∨ step = -1) (hn : n ∈ stretch a step m) : IsItem n := by
  obtain ⟨k, hk, rfl⟩ := List.mem_map.mp hn
  have hle : k ≤ m := Nat.le_of_lt_succ (List.mem_range.mp hk)
  unfold IsItem at *
  rcases hstep with rfl | rfl <;> omega

theorem isItem_of_mem_expansion (h : StoresPairs items ps) {n : Int} (hn : n ∈ expansion ps) :
    IsItem n := by
  obtain ⟨p, hp, hmem⟩ := List.mem_flatMap.mp hn
  obtain ⟨hfirst, hsecond⟩ := h.valid p hp
  rw [pairItems] at hmem
  split_ifs at hmem with hone hup
  · exact List.mem_singleton.mp hmem ▸ hfirst
  · have hlast := hsecond.resolve_left hone
    apply itemOf_mem_stretch hfirst _ (Or.inl rfl) hmem
    rwa [show p.1 + 1 * ((p.2 - p.1).toNat : Int) = p.2 by omega]
  · have hlast := hsecond.resolve_left hone
    apply itemOf_mem_stretch hfirst _ (Or.inr rfl) hmem
    rwa [show p.1 + -1 * ((p.1 - p.2).toNat : Int) = p.2 by omega]

-- Then `read_write_test` goes through these items.
theorem testItems_expanded (h : StoresPairs items ps) (hexact : ExpandedExactly items ps) :
    ∃ slots, expandItems items = some slots ∧ testItems slots = expansion ps := by
  obtain ⟨slots, hslots, -, rest, rfl⟩ := hexact
  refine ⟨_, hslots, ?_⟩
  rw [testItems, List.append_assoc, List.takeWhile_append_of_pos, List.singleton_append,
    List.takeWhile_cons_of_neg, List.append_nil]
  · simp
  · exact fun n hn => decide_eq_true (isItem_of_mem_expansion h hn).ne_neg_one

end Exact

-- The items are expanded exactly if there is a row left for the -1 of the pairs and a slot left for the
-- -1 of the items; no pairs at all are taken for every item.
theorem expandedExactly_iff (items : TestItem) (ps : List (Int × Int)) (h : StoresPairs items ps) :
    ExpandedExactly items ps ↔
      ps ≠ [] ∧ ps.length < itemCount ∧ (expansion ps).length < itemCount * 2 := by
  by_cases hps : ps = []
  · subst hps
    refine ⟨?_, fun hno => absurd rfl hno.1⟩
    rintro ⟨slots, hslots, -, hprefix⟩
    rw [expandItems_nil h] at hslots
    have hfirst : [(-1 : Int)] <+: slots := hprefix
    rw [← Option.some.inj hslots] at hfirst
    exact absurd hfirst (by decide)
  rw [ExpandedExactly, expandItems_cons h hps]
  constructor
  · rintro ⟨slots, hslots, hlen, hprefix⟩
    split_ifs at hslots with hfit
    have hle := hprefix.length_le
    rw [hlen, List.length_append, List.length_singleton] at hle
    exact ⟨hps, hfit.1, hle⟩
  · rintro ⟨-, hroom, hlt⟩
    refine ⟨_, if_pos ⟨hroom, hlt.le⟩, ?_, ?_⟩
    · rw [List.length_append, List.length_replicate]
      omega
    · obtain ⟨n, hn⟩ : ∃ n, itemCount * 2 - (expansion ps).length = n + 1 :=
        Nat.exists_eq_succ_of_ne_zero (by omega)
      rw [hn, List.replicate_succ]
      exact ⟨List.replicate n (-1), List.append_cons _ _ _ ▸ rfl⟩

-- The items of `-t 0,0~4,9~6,5`.
theorem expandedExactly_option : ExpandedExactly (pairTable [(0, -1), (0, 4), (9, 6), (5, -1)])
    [(0, -1), (0, 4), (9, 6), (5, -1)] := by
  refine (expandedExactly_iff _ _ (storesPairs_pairTable (by decide) ?_)).mpr (by decide)
  unfold IsItem
  decide

-- `0~10,0~10` fills every slot, and eleven single items every row.
theorem expansion_not_exact :
    (StoresPairs (pairTable [(0, 10), (0, 10)]) [(0, 10), (0, 10)] ∧
      ¬ ExpandedExactly (pairTable [(0, 10), (0, 10)]) [(0, 10), (0, 10)]) ∧
    StoresPairs (pairTable (List.replicate 11 (0, -1))) (List.replicate 11 (0, -1)) ∧
      ¬ ExpandedExactly (pairTable (List.replicate 11 (0, -1))) (List.replicate 11 (0, -1)) := by
  refine ⟨⟨storesPairs_pairTable (by decide) ?_, ?_⟩, storesPairs_pairTable (by decide) ?_, ?_⟩
  · unfold IsItem
    decide
  · rintro ⟨slots, -, hlen, hprefix⟩
    have hle := hprefix.length_le
    rw [hlen] at hle
    exact absurd hle (by decide)
  · unfold IsItem
    decide
  · rintro ⟨slots, hslots, -⟩
    have hnone : expandItems (pairTable (List.replicate 11 (0, -1))) = none := by decide
    rw [hnone] at hslots
    exact absurd hslots (by simp)

end MoBoMemory.App
