import MoBoMemory.Base.Loop

/-!
# Words, pointers and blocks

`UL` is `unsigned long` and a `ULV *` is the byte address of an 8-byte word, with the 64-bit
wrap-around of pointer arithmetic.  `Block` is the argument pair of every algorithm of `mem_test.c`:
an array that C can address, so a null or wrapping one cannot be built.  `Bus` is what the program
sees of the memory, which need not store what is written to it.
-/

namespace MoBoMemory.TestLib

open Base

abbrev UL := BitVec 64

def errSuccess : Nat := 0
def errFail : Nat := 1
def hasComparision : Int := 1

/-- `p + k` on a `ULV *`. -/
def ptrAdd (p k : Nat) : Nat := (p + 8 * k) % 2 ^ 64

/-- `p - 1` on a `ULV *`. -/
def ptrPred (p : Nat) : Nat := (p + 2 ^ 64 - 8) % 2 ^ 64

/-- A word array that lies in the address space: non-null, aligned, and with an end pointer that
does not wrap. -/
structure Block where
  start : Nat
  cnt : Nat
  cnt_pos : 0 < cnt
  start_pos : 0 < start
  aligned : 8 ∣ start
  noWrap : start + 8 * cnt < 2 ^ 64

/-- The word addresses of the block in ascending order. -/
def Block.addrs (b : Block) : List Nat := List.range' b.start b.cnt 8

@[simp] theorem Block.length_addrs (b : Block) : b.addrs.length = b.cnt := by
  simp [Block.addrs]

theorem Block.mem_addrs (b : Block) {p : Nat} :
    p ∈ b.addrs ↔ b.start ≤ p ∧ p < b.start + 8 * b.cnt ∧ 8 ∣ p := by
  have haligned := b.aligned
  rw [Block.addrs, List.mem_range']
  constructor
  · rintro ⟨i, hi, rfl⟩
    omega
  · rintro ⟨hlow, hhigh, hp⟩
    exact ⟨(p - b.start) / 8, by omega, by omega⟩

theorem Block.start_mem_addrs (b : Block) : b.start ∈ b.addrs := by
  have hpos := b.cnt_pos
  exact b.mem_addrs.mpr ⟨le_rfl, by omega, b.aligned⟩

theorem Block.pairwise_addrs (b : Block) : b.addrs.Pairwise (· < ·) :=
  List.pairwise_lt_range' 8 (by decide)

private theorem filterMap_marked {ρ : Type} (role : Nat → Option ρ) (ps : List Nat) :
    (ps.filter (fun p => (role p).isSome)).filterMap role = ps.filterMap role := by
  rw [List.filterMap_filter]
  congr 1
  funext p
  cases role p <;> simp

-- The values of a partial function that is defined at one word only.
theorem Block.filterMap_single {ρ : Type} (b : Block) {role : Nat → Option ρ} {x : Nat} {r : ρ}
    (hx : x ∈ b.addrs) (hr : role x = some r) (hnone : ∀ p, p ≠ x → role p = none) :
    b.addrs.filterMap role = [r] := by
  have hmarked : b.addrs.filter (fun p => (role p).isSome) = [x] := by
    apply (b.pairwise_addrs.filter _).eq_of_mem_iff (by simp)
    intro p
    by_cases hp : p = x
    · simp [hp, hx, hr]
    · simp [hp, hnone p hp]
  rw [← filterMap_marked, hmarked]
  simp [hr]

-- The values of a partial function that is defined at two words only, in ascending order.
theorem Block.filterMap_pair {ρ : Type} (b : Block) {role : Nat → Option ρ} {x y : Nat} {r s : ρ}
    (hx : x ∈ b.addrs) (hy : y ∈ b.addrs) (hlt : x < y) (hr : role x = some r)
    (hs : role y = some s) (hnone : ∀ p, p ≠ x → p ≠ y → role p = none) :
    b.addrs.filterMap role = [r, s] := by
  have hmarked : b.addrs.filter (fun p => (role p).isSome) = [x, y] := by
    apply (b.pairwise_addrs.filter _).eq_of_mem_iff (by simpa using hlt)
    intro p
    by_cases hp : p = x
    · simp [hp, hx, hr]
    · by_cases hq : p = y
      · simp [hq, hy, hs]
      · simp [hp, hq, hnone p hp hq]
  rw [← filterMap_marked, hmarked]
  simp [hr, hs]

/-! ## The two loop headers -/

/-- `p < end` and `p++`. -/
theorem visits_up_range (stop : Nat) (hstop : stop < 2 ^ 64) :
    ∀ n s, s + 8 * n = stop →
      Visits (fun p => decide (p < stop)) (fun p => ptrAdd p 1) s (List.range' s n 8) := by
  intro n
  induction n with
  | zero =>
      intro s hs
      exact .stop (by simp; omega)
  | succ n ih =>
      intro s hs
      rw [List.range'_succ]
      refine .step (by simp; omega) ?_
      have hnext : ptrAdd s 1 = s + 8 := by unfold ptrAdd; omega
      rw [hnext]
      exact ih (s + 8) (by omega)

/-- `p >= start` and `p--`; a start of at least one word keeps `p--` from wrapping. -/
private theorem visits_down_range (start : Nat) (hstart : 8 ≤ start) :
    ∀ n, start + 8 * n < 2 ^ 64 →
      Visits (fun p => decide (start ≤ p)) ptrPred (start + 8 * n - 8)
        (List.range' start n 8).reverse := by
  intro n
  induction n with
  | zero =>
      intro hn
      exact .stop (by simp; omega)
  | succ n ih =>
      intro hn
      rw [List.range'_concat, List.reverse_append, List.reverse_singleton, List.singleton_append,
        show start + 8 * (n + 1) - 8 = start + 8 * n by omega]
      refine .step (by simp) ?_
      have hnext : ptrPred (start + 8 * n) = start + 8 * n - 8 := by unfold ptrPred; omega
      rw [hnext]
      exact ih (by omega)

theorem Block.end_eq (b : Block) : ptrAdd b.start b.cnt = b.start + 8 * b.cnt :=
  Nat.mod_eq_of_lt b.noWrap

theorem Block.start_ge (b : Block) : 8 ≤ b.start :=
  Nat.le_of_dvd b.start_pos b.aligned

-- `for (p = start; p < end; p++)` visits the block upwards.
theorem Block.visits_up (b : Block) :
    Visits (fun p => decide (p < ptrAdd b.start b.cnt)) (fun p => ptrAdd p 1) b.start b.addrs := by
  rw [b.end_eq]
  exact visits_up_range _ b.noWrap b.cnt b.start rfl

-- `for (p = end - 1; p >= start; p--)` visits the block downwards.
theorem Block.visits_down (b : Block) :
    Visits (fun p => decide (b.start ≤ p)) ptrPred (ptrPred (ptrAdd b.start b.cnt))
      b.addrs.reverse := by
  have hstart := b.start_ge
  have hend := b.noWrap
  have hlast : ptrPred (ptrAdd b.start b.cnt) = b.start + 8 * b.cnt - 8 := by
    rw [b.end_eq]
    unfold ptrPred
    omega
  rw [hlast]
  exact visits_down_range _ hstart b.cnt hend

/-! ## Memory seen from the program -/

/-- A memory that answers reads and takes writes; both may change its state, so intermittent and
coupled faults are buses too. -/
structure Bus (σ : Type) where
  read : σ → Nat → UL × σ
  write : σ → Nat → UL → σ

/-- Memory without faults. -/
def faithfulBus : Bus (Nat → UL) where
  read mem p := (mem p, mem)
  write mem p w := Function.update mem p w

/-- One line of the error log: `Address %p, Good %lx, Bad %lx`. -/
structure Complaint where
  address : Nat
  good : UL
  bad : UL
deriving DecidableEq

/-- The memory together with the error log the program has printed so far. -/
structure Machine (σ : Type) where
  mem : σ
  log : List Complaint

end MoBoMemory.TestLib
