import Mathlib.Data.List.Basic

/-!
# Strings in the rows of an array

C keeps an array of strings in rows of equal width and copies a string to the beginning of its row.
A string that does not fit runs on into the next row, where the next string is copied over its end:
whoever reads the row gets both.  `rowTexts` is what is read in the rows.
-/

namespace MoBoMemory.Base

/-- The end of a C string. -/
def nul : Char := Char.ofNat 0

/-- `strcpy` to the cells from `off` on. -/
def strcpyAt (m : Nat → Char) (off : Nat) (t : List Char) : Nat → Char := fun k =>
  if off ≤ k ∧ k ≤ off + t.length then (t[k - off]?).getD nul else m k

/-- The string that begins at `off`, read over `n` cells at most. -/
def stringAt (m : Nat → Char) : Nat → Nat → List Char
  | 0, _ => []
  | n + 1, off => if m off = nul then [] else m off :: stringAt m n (off + 1)

/-- Copy the strings one after another to rows of width `w`. -/
def copyRows (w : Nat) : (Nat → Char) → Nat → List (List Char) → (Nat → Char)
  | m, _, [] => m
  | m, off, t :: ts => copyRows w (strcpyAt m off t) (off + w) ts

/-- What is read in the rows. -/
def rowTexts (w : Nat) : List (List Char) → List (List Char)
  | [] => []
  | [t] => [t]
  | t :: u :: ts =>
      (if t.length < w then t else t.take w ++ (rowTexts w (u :: ts)).headD []) :: rowTexts w (u :: ts)

/-- The strings, with their terminators, end inside the first `n` cells. -/
def RowsFit (w n : Nat) (ts : List (List Char)) : Prop := ∀ i t, ts[i]? = some t → w * i + t.length < n

section Rows

variable {m : Nat → Char} {w n off k : Nat} {t u : List Char} {ts : List (List Char)}

theorem strcpyAt_cell (hk : k < t.length) : strcpyAt m off t (off + k) = t[k] := by
  rw [strcpyAt, if_pos (by omega), Nat.add_sub_cancel_left, List.getElem?_eq_getElem hk,
    Option.getD_some]

theorem strcpyAt_end : strcpyAt m off t (off + t.length) = nul := by
  rw [strcpyAt, if_pos (by omega), Nat.add_sub_cancel_left, List.getElem?_eq_none (by omega),
    Option.getD_none]

-- Later rows leave earlier cells alone.
theorem copyRows_below (hk : k < off) : copyRows w m off ts k = m k := by
  induction ts generalizing m off with
  | nil => rfl
  | cons t ts ih => rw [copyRows, ih (by omega), strcpyAt, if_neg (by omega)]

-- Reading goes over cells that hold no terminator.
theorem stringAt_append (hcells : ∀ j (hj : j < u.length), m (off + j) = u[j]) (hu : nul ∉ u)
    (hn : u.length ≤ n) :
    stringAt m n off = u ++ stringAt m (n - u.length) (off + u.length) := by
  induction u generalizing n off with
  | nil => simp
  | cons c u ih =>
      obtain ⟨n, rfl⟩ : ∃ l, n = l + 1 := ⟨n - 1, by rw [List.length_cons] at hn; omega⟩
      rw [List.mem_cons, not_or] at hu
      rw [List.length_cons] at hn
      have hfirst : m off = c := hcells 0 (by simp)
      have hrest : ∀ j (hj : j < u.length), m (off + 1 + j) = u[j] := by
        intro j hj
        have hcell := hcells (j + 1) (by simpa using hj)
        rwa [Nat.add_assoc, Nat.add_comm 1 j]
      have hleft : n + 1 - (u.length + 1) = n - u.length := by omega
      have hright : off + 1 + u.length = off + (u.length + 1) := by omega
      rw [stringAt, hfirst, if_neg (Ne.symm hu.1), ih hrest hu.2 (by omega), List.length_cons,
        List.cons_append, hleft, hright]

theorem stringAt_of_cells (hcells : ∀ j (hj : j < t.length), m (off + j) = t[j])
    (hend : m (off + t.length) = nul)
    (ht : nul ∉ t) (hn : t.length < n) : stringAt m n off = t := by
  obtain ⟨l, hl⟩ : ∃ l, n - t.length = l + 1 := ⟨n - t.length - 1, by omega⟩
  rw [stringAt_append hcells ht (by omega), hl, stringAt, if_pos hend, List.append_nil]

theorem RowsFit.tail (h : RowsFit w n (t :: ts)) : RowsFit w (n - w) ts := by
  intro i u hu
  have hfit := h (i + 1) u (by simpa using hu)
  rw [Nat.mul_add_one] at hfit
  omega

theorem length_rowTexts (w : Nat) (ts : List (List Char)) : (rowTexts w ts).length = ts.length := by
  fun_induction rowTexts w ts <;> simp_all

theorem rowTexts_first : (rowTexts w (t :: ts))[0]? = some ((rowTexts w (t :: ts)).headD []) := by
  cases hrows : rowTexts w (t :: ts) with
  | nil => simpa [hrows] using length_rowTexts w (t :: ts)
  | cons v vs => rfl

theorem rowTexts_later {i : Nat} : (rowTexts w (t :: ts))[i + 1]? = (rowTexts w ts)[i]? := by
  cases ts with
  | nil => simp [rowTexts]
  | cons u us => rw [rowTexts, List.getElem?_cons_succ]

-- Strings that fit are read as they are.
theorem rowTexts_of_short (hts : ∀ t ∈ ts, t.length < w) : rowTexts w ts = ts := by
  fun_induction rowTexts w ts with
  | case1 => rfl
  | case2 => rfl
  | case3 t u ts ih =>
      rw [if_pos (hts t (by simp)), ih fun v hv => hts v (by simp [hv])]

-- What is read consists of characters of the strings.
theorem rowTexts_long {i : Nat} {r : List Char} (ht : ts[i]? = some t) (hlong : w ≤ t.length)
    (hr : (rowTexts w ts)[i + 1]? = some r) : (rowTexts w ts)[i]? = some (t.take w ++ r) := by
  fun_induction rowTexts w ts generalizing i with
  | case1 => simp at ht
  | case2 t' => simp at hr
  | case3 t' u ts ih =>
      cases i with
      | zero =>
          obtain rfl : t' = t := by simpa using ht
          rw [List.getElem?_cons_succ, rowTexts_first, Option.some.injEq] at hr
          rw [List.getElem?_cons_zero, if_neg (by omega), hr]
      | succ i => exact ih ht hr

theorem mem_rowTexts {c : Char} {r : List Char} (hr : r ∈ rowTexts w ts) (hc : c ∈ r) :
    ∃ t ∈ ts, c ∈ t := by
  fun_induction rowTexts w ts generalizing r with
  | case1 => simp at hr
  | case2 t => exact ⟨t, by simp, by simpa using List.mem_singleton.mp hr ▸ hc⟩
  | case3 t u ts ih =>
      have hlater : ∀ r ∈ rowTexts w (u :: ts), c ∈ r → ∃ t' ∈ t :: u :: ts, c ∈ t' := by
        intro r hr hc
        obtain ⟨t', ht', hct⟩ := ih hr hc
        exact ⟨t', by simp [ht'], hct⟩
      rcases List.mem_cons.mp hr with rfl | hr
      · split_ifs at hc with hshort
        · exact ⟨t, by simp, hc⟩
        · rcases List.mem_append.mp hc with hc | hc
          · exact ⟨t, by simp, List.mem_of_mem_take hc⟩
          · cases hrest : rowTexts w (u :: ts) with
            | nil => simp [hrest] at hc
            | cons v vs => exact hlater v (by simp [hrest]) (by simpa [hrest] using hc)
      · exact hlater r hr hc

-- The first row: its string up to the terminator or up to the next row.
theorem stringAt_first (m : Nat → Char) (off : Nat) (ht : nul ∉ t) (hn : t.length < n)
    (hrest : ∀ u us, ts = u :: us → w ≤ t.length →
      stringAt (copyRows w m off (t :: ts)) (n - w) (off + w) = (rowTexts w ts).headD []) :
    stringAt (copyRows w m off (t :: ts)) n off = (rowTexts w (t :: ts)).headD [] := by
  have hcells : ∀ j (hj : j < t.length), (j < w ∨ ts = []) →
      copyRows w m off (t :: ts) (off + j) = t[j] := by
    intro j hj hrow
    rcases hrow with hrow | rfl
    · rw [copyRows, copyRows_below (by omega), strcpyAt_cell hj]
    · exact strcpyAt_cell hj
  cases ts with
  | nil =>
      have hend : copyRows w m off [t] (off + t.length) = nul := strcpyAt_end
      exact stringAt_of_cells (fun j hj => hcells j hj (Or.inr rfl)) hend ht hn
  | cons u us =>
      by_cases hshort : t.length < w
      · have hend : copyRows w m off (t :: u :: us) (off + t.length) = nul := by
          rw [copyRows, copyRows_below (by omega), strcpyAt_end]
        rw [rowTexts, if_pos hshort, List.headD_cons]
        exact stringAt_of_cells (fun j hj => hcells j hj (Or.inl (by omega))) hend ht hn
      · have hlen : (t.take w).length = w := by
          rw [List.length_take]
          omega
        have htake : ∀ j (hj : j < (t.take w).length),
            copyRows w m off (t :: u :: us) (off + j) = (t.take w)[j] := by
          intro j hj
          rw [List.getElem_take]
          exact hcells j (by omega) (Or.inl (by omega))
        rw [stringAt_append htake (fun h => ht (List.mem_of_mem_take h)) (by omega), hlen,
          rowTexts, if_neg hshort, List.headD_cons, hrest u us rfl (by omega)]

-- The rows read as `rowTexts`: a string that fits ends in its row, one that does not is cut where the
-- next one begins.
theorem stringAt_copyRows (m : Nat → Char) (off : Nat) (hts : ∀ t ∈ ts, nul ∉ t) (hfit : RowsFit w n ts)
    {i : Nat} {r : List Char} (hr : (rowTexts w ts)[i]? = some r) :
    stringAt (copyRows w m off ts) (n - w * i) (off + w * i) = r := by
  induction ts generalizing m off n i r with
  | nil => simp [rowTexts] at hr
  | cons t ts ih =>
      have hlater : ∀ i r, (rowTexts w ts)[i]? = some r →
          stringAt (copyRows w m off (t :: ts)) (n - w - w * i) (off + w + w * i) = r :=
        fun i r => ih _ _ (fun u hu => hts u (by simp [hu])) hfit.tail
      cases i with
      | zero =>
          have hlen : t.length < n := by simpa using hfit 0 t rfl
          have hfirst := stringAt_first m off (hts t (by simp)) hlen fun u us hcons _ =>
            hlater 0 _ (hcons ▸ rowTexts_first)
          rw [rowTexts_first] at hr
          exact hfirst.trans (Option.some.inj hr)
      | succ i =>
          rw [rowTexts_later] at hr
          rw [show n - w * (i + 1) = n - w - w * i by rw [Nat.mul_add_one]; omega,
            show off + w * (i + 1) = off + w + w * i by rw [Nat.mul_add_one]; omega]
          exact hlater i r hr

end Rows

end MoBoMemory.Base
