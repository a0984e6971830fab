import Mathlib.Data.Finset.Card
import Mathlib.Data.Finset.Range
import Mathlib.Data.List.Nodup

/-!
# Items with keys

A list of items that each carry a key, such as the writes to the slots of a table: the last item
under a key, and the set of the keys.  A set of natural numbers without gaps is the range of its
cardinality.
-/

namespace MoBoMemory.Base

section Keyed

variable {γ κ : Type*} [DecidableEq κ] {key : γ → κ} {c d : γ} {cs cs' : List γ} {k : κ}

/-- The last item under a key. -/
def lastWith (key : γ → κ) (cs : List γ) (k : κ) : Option γ :=
  (cs.filter fun c => key c = k).getLast?

/-- The keys of a list. -/
def keys (key : γ → κ) (cs : List γ) : Finset κ := (cs.map key).toFinset

theorem lastWith_snoc :
    lastWith key (cs ++ [c]) k = if key c = k then some c else lastWith key cs k := by
  rw [lastWith, List.filter_append]
  by_cases hkey : key c = k
  · simp [hkey]
  · simp [hkey, lastWith]

theorem lastWith_eq_none : lastWith key cs k = none ↔ k ∉ keys key cs := by
  simp [lastWith, keys]

theorem mem_of_lastWith (h : lastWith key cs k = some c) : c ∈ cs ∧ key c = k := by
  simpa using List.mem_of_getLast? h

-- Where no key occurs twice, the last item under a key is the only one.
theorem lastWith_eq_some (hcs : (cs.map key).Nodup) :
    lastWith key cs k = some c ↔ c ∈ cs ∧ key c = k := by
  refine ⟨mem_of_lastWith, ?_⟩
  rintro ⟨hc, rfl⟩
  cases hlast : lastWith key cs (key c) with
  | none =>
      have hnot : key c ∉ keys key cs := lastWith_eq_none.mp hlast
      exact absurd (by simpa [keys] using ⟨c, hc, rfl⟩) hnot
  | some d =>
      obtain ⟨hd, hkey⟩ := mem_of_lastWith hlast
      rw [List.inj_on_of_nodup_map hcs hd hc hkey]

theorem lastWith_perm (hperm : cs.Perm cs') (hcs : (cs.map key).Nodup) :
    lastWith key cs' k = lastWith key cs k := by
  have hcs' : (cs'.map key).Nodup := (hperm.map key).nodup_iff.mp hcs
  ext c
  rw [lastWith_eq_some hcs, lastWith_eq_some hcs', hperm.mem_iff]

@[simp] theorem mem_keys : k ∈ keys key cs ↔ ∃ c ∈ cs, key c = k := by simp [keys]

theorem keys_snoc : keys key (cs ++ [c]) = insert (key c) (keys key cs) := by
  ext k
  simp only [mem_keys, List.mem_append, List.mem_singleton, Finset.mem_insert]
  grind

/-! ## Rows written under the keys -/

variable {α : Type*} {g : γ → α → α}

-- A row whose key does not occur keeps its value.
theorem foldl_update_of_ne (hk : ∀ c ∈ cs, key c ≠ k) (rows : κ → α) :
    cs.foldl (fun rows c => Function.update rows (key c) (g c (rows (key c)))) rows k = rows k := by
  induction cs generalizing rows with
  | nil => rfl
  | cons c cs ih =>
      rw [List.foldl_cons, ih fun d hd => hk d (List.mem_cons_of_mem c hd)]
      exact Function.update_of_ne (hk c List.mem_cons_self).symm _ _

-- Where no key occurs twice, every row is written once.
theorem foldl_update_of_mem (hcs : (cs.map key).Nodup) (hc : c ∈ cs) (rows : κ → α) :
    cs.foldl (fun rows c => Function.update rows (key c) (g c (rows (key c)))) rows (key c) =
      g c (rows (key c)) := by
  induction cs generalizing rows with
  | nil => cases hc
  | cons d cs ih =>
      obtain ⟨hfresh, hrest⟩ := List.nodup_cons.mp (List.map_cons ▸ hcs)
      have hne : ∀ e ∈ cs, key e ≠ key d := fun e he heq => hfresh (heq ▸ List.mem_map_of_mem he)
      rw [List.foldl_cons]
      rcases List.mem_cons.mp hc with rfl | hmem
      · rw [foldl_update_of_ne hne]
        exact Function.update_self _ _ _
      · rw [ih hrest hmem, Function.update_of_ne (hne c hmem)]

-- Where a key occurs more than once, the last write stays.
theorem foldl_update_last (w : γ → α) (rows : κ → α) (k : κ) :
    cs.foldl (fun rows c => Function.update rows (key c) (w c)) rows k =
      ((lastWith key cs k).map w).getD (rows k) := by
  induction cs using List.reverseRecOn with
  | nil => rfl
  | append_singleton cs c ih =>
      rw [List.foldl_append, List.foldl_cons, List.foldl_nil, lastWith_snoc, Function.update_apply]
      by_cases hkey : key c = k
      · rw [if_pos hkey, if_pos hkey.symm]
        rfl
      · rw [if_neg hkey, if_neg (Ne.symm hkey), ih]

end Keyed

section NoGaps

variable {s : Finset Nat} {n : Nat}

-- Each element has all smaller numbers beside it, so it is below the cardinality.
theorem eq_range_card (hdown : ∀ i ∈ s, ∀ j < i, j ∈ s) : s = Finset.range s.card := by
  apply Finset.eq_of_subset_of_card_le
  · intro i hi
    have hsub : Finset.range (i + 1) ⊆ s := by
      intro j hj
      rcases Nat.lt_succ_iff_lt_or_eq.mp (Finset.mem_range.mp hj) with hlt | rfl
      · exact hdown i hi j hlt
      · exact hi
    have hcard := Finset.card_le_card hsub
    rw [Finset.card_range] at hcard
    exact Finset.mem_range.mpr (by omega)
  · rw [Finset.card_range]

-- A count names exactly the elements if there are no gaps and it is the cardinality.
theorem eq_range_iff : s = Finset.range n ↔ (∀ i ∈ s, ∀ j < i, j ∈ s) ∧ n = s.card := by
  constructor
  · rintro rfl
    refine ⟨?_, (Finset.card_range n).symm⟩
    intro i hi j hj
    rw [Finset.mem_range] at hi ⊢
    omega
  · rintro ⟨hdown, rfl⟩
    exact eq_range_card hdown

end NoGaps

end MoBoMemory.Base
