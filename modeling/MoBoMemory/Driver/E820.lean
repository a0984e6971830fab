import MoBoMemory.Base.Spans

/-!
# The e820 map in pages

`e820_find_active_region` and the address arithmetic under it.  Addresses and pfns are naturals with
the 64-bit wrap-around written out; an entry whose rounded bounds do not wrap is `NoWrap`, and for
such an entry the function finds exactly the whole pages of the entry inside a window.
-/

namespace MoBoMemory.Driver

open Base

def pageShift : Nat := 12
def pageSize : Nat := 2 ^ pageShift

/-- The type code of usable memory. -/
def e820Ram : Nat := 1

/-- `struct e820entry`. -/
structure E820Entry where
  addr : Nat
  size : Nat
  type : Nat
deriving DecidableEq

/-- `round_up(addr, PAGE_SIZE)` on a `u64`. -/
def roundUp (addr : Nat) : Nat := (addr + (pageSize - 1)) / pageSize * pageSize % 2 ^ 64

/-- `round_down(addr, PAGE_SIZE)` on a `u64`. -/
def roundDown (addr : Nat) : Nat := addr / pageSize * pageSize

/-- `ei->addr + ei->size` on a `u64`. -/
def E820Entry.last (ei : E820Entry) : Nat := (ei.addr + ei.size) % 2 ^ 64

/-- The whole pages of a RAM entry between two pfns; `none` is the return value 0. -/
def e820FindActiveRegion (ei : E820Entry) (startPfn lastPfn : Nat) : Option (Nat × Nat) :=
  let eiStartPfn := roundUp ei.addr / pageSize
  let eiEndPfn := roundDown ei.last / pageSize
  if eiEndPfn ≤ eiStartPfn then none
  else if ei.type ≠ e820Ram ∨ eiEndPfn ≤ startPfn ∨ lastPfn ≤ eiStartPfn then none
  else some (if eiStartPfn < startPfn then startPfn else eiStartPfn,
    if lastPfn < eiEndPfn then lastPfn else eiEndPfn)

/-! ## Pages of an entry -/

/-- Neither the end of the entry nor its rounded-up start wraps. -/
def E820Entry.NoWrap (ei : E820Entry) : Prop :=
  ei.addr ≤ 2 ^ 64 - pageSize ∧ ei.addr + ei.size < 2 ^ 64

instance (ei : E820Entry) : Decidable ei.NoWrap := inferInstanceAs (Decidable (_ ∧ _))

/-- Page `pfn` is entirely inside the entry. -/
def E820Entry.HoldsPage (ei : E820Entry) (pfn : Nat) : Prop :=
  ei.addr ≤ pfn * pageSize ∧ (pfn + 1) * pageSize ≤ ei.addr + ei.size

/-- Page `pfn` is entirely inside an E820_RAM entry of the map. -/
def RamPage (map : List E820Entry) (pfn : Nat) : Prop :=
  ∃ ei ∈ map, ei.type = e820Ram ∧ ei.HoldsPage pfn

def E820Entry.bytes (ei : E820Entry) : Span Nat := ⟨ei.addr, ei.addr + ei.size⟩

section Bounds

variable {ei : E820Entry} (hwrap : ei.NoWrap)

include hwrap

theorem E820Entry.NoWrap.last_eq : ei.last = ei.addr + ei.size := Nat.mod_eq_of_lt hwrap.2

theorem E820Entry.NoWrap.startPfn_eq :
    roundUp ei.addr / pageSize = (ei.addr + (pageSize - 1)) / pageSize := by
  have haddr := hwrap.1
  simp only [roundUp, pageSize, pageShift] at haddr ⊢
  omega

theorem E820Entry.NoWrap.endPfn_eq :
    roundDown ei.last / pageSize = (ei.addr + ei.size) / pageSize := by
  rw [hwrap.last_eq]
  simp only [roundDown, pageSize, pageShift]
  omega

end Bounds

/-! ## What the function finds -/

section Find

variable {ei : E820Entry} {startPfn lastPfn s e : Nat}

-- The whole pages of a RAM entry, clipped to a window that touches them.
theorem e820FindActiveRegion_eq_some (hwrap : ei.NoWrap) :
    e820FindActiveRegion ei startPfn lastPfn = some (s, e) ↔
      ei.type = e820Ram ∧
      (ei.addr + (pageSize - 1)) / pageSize < (ei.addr + ei.size) / pageSize ∧
      startPfn < (ei.addr + ei.size) / pageSize ∧
      (ei.addr + (pageSize - 1)) / pageSize < lastPfn ∧
      s = max ((ei.addr + (pageSize - 1)) / pageSize) startPfn ∧
      e = min ((ei.addr + ei.size) / pageSize) lastPfn := by
  simp only [e820FindActiveRegion, hwrap.startPfn_eq, hwrap.endPfn_eq]
  generalize (ei.addr + (pageSize - 1)) / pageSize = first
  generalize (ei.addr + ei.size) / pageSize = last
  by_cases hempty : last ≤ first
  · simp only [if_pos hempty, reduceCtorEq, false_iff]
    omega
  · rw [if_neg hempty]
    -- the one test that skips an entry, read as the three conditions of the statement
    by_cases hskip : ei.type ≠ e820Ram ∨ last ≤ startPfn ∨ lastPfn ≤ first
    · simp only [if_pos hskip, reduceCtorEq, false_iff]
      omega
    · have hlo : (if first < startPfn then startPfn else first) = max first startPfn := by
        split_ifs <;> omega
      have hhi : (if lastPfn < last then lastPfn else last) = min last lastPfn := by
        split_ifs <;> omega
      have htouch : ei.type = e820Ram ∧ first < last ∧ startPfn < last ∧ first < lastPfn := by
        omega
      rw [if_neg hskip, hlo, hhi, Option.some.injEq, Prod.mk.injEq, eq_comm, eq_comm (a := min _ _)]
      simp only [htouch, true_and]

-- The found region consists of the pages of the entry that are in the window.
theorem e820FindActiveRegion_mem (hwrap : ei.NoWrap)
    (hfind : e820FindActiveRegion ei startPfn lastPfn = some (s, e)) (pfn : Nat) :
    s ≤ pfn ∧ pfn < e ↔ ei.HoldsPage pfn ∧ startPfn ≤ pfn ∧ pfn < lastPfn := by
  obtain ⟨-, -, -, -, rfl, rfl⟩ := (e820FindActiveRegion_eq_some hwrap).mp hfind
  simp only [E820Entry.HoldsPage, pageSize, pageShift]
  omega

-- Also of an entry that wraps the bounds are page numbers.
theorem e820FindActiveRegion_lt (hfind : e820FindActiveRegion ei startPfn lastPfn = some (s, e)) :
    s < 2 ^ 52 ∧ e < 2 ^ 52 := by
  have hstart : roundUp ei.addr / pageSize < 2 ^ 52 := by
    simp only [roundUp, pageSize, pageShift]
    omega
  have hend : roundDown ei.last / pageSize < 2 ^ 52 := by
    simp only [roundDown, E820Entry.last, pageSize, pageShift]
    omega
  rw [e820FindActiveRegion] at hfind
  generalize roundUp ei.addr / pageSize = first at *
  generalize roundDown ei.last / pageSize = last at *
  split_ifs at hfind
  all_goals
    obtain ⟨rfl, rfl⟩ := Prod.mk.inj (Option.some.inj hfind)
    omega

-- A window with its bounds in order gives a region with its bounds in order.
theorem e820FindActiveRegion_le (hwrap : ei.NoWrap) (hwindow : startPfn ≤ lastPfn)
    (hfind : e820FindActiveRegion ei startPfn lastPfn = some (s, e)) : s ≤ e := by
  obtain ⟨-, hne, hstart, hlast, rfl, rfl⟩ := (e820FindActiveRegion_eq_some hwrap).mp hfind
  omega

-- A RAM page in the window makes the function find something.
theorem e820FindActiveRegion_isSome (hwrap : ei.NoWrap) (hram : ei.type = e820Ram) {pfn : Nat}
    (hpage : ei.HoldsPage pfn) (hstart : startPfn ≤ pfn) (hlast : pfn < lastPfn) :
    ∃ s e, e820FindActiveRegion ei startPfn lastPfn = some (s, e) := by
  refine ⟨_, _, (e820FindActiveRegion_eq_some hwrap).mpr ⟨hram, ?_, ?_, ?_, rfl, rfl⟩⟩
  all_goals
    simp only [E820Entry.HoldsPage, pageSize, pageShift] at *
    omega

end Find

end MoBoMemory.Driver
