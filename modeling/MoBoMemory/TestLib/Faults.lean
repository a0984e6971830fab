import Mathlib.Data.Fintype.Prod
import MoBoMemory.TestLib.MarchC

/-!
# Fault coverage of March C

A `Fault` is a defect of one cell, or of one cell under the influence of another, and its bus is a
memory with that defect and no other.  Every pass of March C is one kind of sweep, `opBody`, and on a
faulty bus such a sweep is simulated by a machine that keeps the afflicted bits only.  On that small
machine no run of March C gets past the checks, which is decided.
-/

namespace MoBoMemory.TestLib

open Base

/-- One bit of one word. -/
structure Cell where
  addr : Nat
  bit : Fin 64

def bitOf (w : UL) (i : Fin 64) : Bool := w.getLsbD i

def Cell.get (c : Cell) (mem : Nat → UL) : Bool := bitOf (mem c.addr) c.bit

/-- `w` with bit `i` replaced by `v`. -/
def putBit (w : UL) (i : Fin 64) (v : Bool) : UL :=
  if v then w ||| BitVec.twoPow 64 i else w &&& ~~~(BitVec.twoPow 64 i)

@[simp] theorem bitOf_putBit_self (w : UL) (i : Fin 64) (v : Bool) : bitOf (putBit w i v) i = v := by
  cases v <;> simp [bitOf, putBit]

/-- What the victim of a coupling fault suffers. -/
inductive Effect where
  | invert
  | force (v : Bool)

def Effect.apply : Effect → Bool → Bool
  | .invert, v => !v
  | .force v, _ => v

/-- The fault kinds; `up` selects the transition from 0 to 1, its negation the one from 1 to 0. -/
inductive Fault where
  | stuckAt (cell : Cell) (value : Bool)
  | transition (cell : Cell) (up : Bool)
  | coupling (aggressor victim : Cell) (up : Bool) (effect : Effect)

/-- The fault sits in the bits of the block, a coupling one in two different words. -/
def Fault.InBlock (b : Block) : Fault → Prop
  | .stuckAt cell _ => cell.addr ∈ b.addrs
  | .transition cell _ => cell.addr ∈ b.addrs
  | .coupling aggressor victim _ _ =>
      aggressor.addr ∈ b.addrs ∧ victim.addr ∈ b.addrs ∧ aggressor.addr ≠ victim.addr

/-- A bit that was `old` and is written as `new` makes the given transition. -/
def fires (up old new : Bool) : Bool := old == !up && new == up

/-- Memory with the single given fault. -/
def Fault.bus : Fault → Bus (Nat → UL)
  | .stuckAt cell value =>
      { read := fun mem p => (if p = cell.addr then putBit (mem p) cell.bit value else mem p, mem)
        write := fun mem p w => Function.update mem p w }
  | .transition cell up =>
      { read := fun mem p => (mem p, mem)
        write := fun mem p w =>
          Function.update mem p
            (if p = cell.addr ∧ fires up (bitOf (mem p) cell.bit) (bitOf w cell.bit) then putBit w cell.bit (!up) else w) }
  | .coupling aggressor victim up effect =>
      { read := fun mem p => (mem p, mem)
        write := fun mem p w =>
          if p = aggressor.addr ∧ fires up (bitOf (mem p) aggressor.bit) (bitOf w aggressor.bit) then
            Function.update (Function.update mem p w) victim.addr
              (putBit (Function.update mem p w victim.addr) victim.bit
                (effect.apply (victim.get (Function.update mem p w))))
          else Function.update mem p w }

/-! ## One kind of pass -/

section Ops

variable {σ : Type}

/-- Read and compare if there is something to compare with, then write if there is something to
write. -/
def opBody (bus : Bus σ) (check write : Option UL) (p : Nat) (m : Machine σ) : Machine σ × Bool :=
  match check, write with
  | none, none => (m, false)
  | none, some w => fillupBody bus w p m
  | some good, none => verifyABody bus good p m
  | some good, some w => verifyAWriteBBody bus good w p m

/-- The word whose bits are all `v`. -/
def allBits (v : Bool) : UL := if v then ~~~0 else 0

@[simp] theorem bitOf_allBits (v : Bool) (i : Fin 64) : bitOf (allBits v) i = v := by
  cases v with
  | false => simp [bitOf, allBits]
  | true =>
      simp only [bitOf, allBits, if_true, BitVec.getLsbD_not]
      simp

/-- A march element: its direction, the bits it expects and the bits it writes. -/
structure Element where
  down : Bool
  check : Option Bool
  write : Option Bool

/-- The fill and the checked passes of the first iteration. -/
def openingElements : List Element :=
  [⟨false, none, some false⟩, ⟨false, some false, some true⟩, ⟨false, some true, some false⟩,
   ⟨false, some false, none⟩, ⟨true, some false, some true⟩, ⟨true, some true, some false⟩]

def Element.pass (bus : Bus σ) (b : Block) (el : Element) (m : Machine σ) : Machine σ × Bool :=
  sweep (opBody bus (el.check.map allBits) (el.write.map allBits))
    (if el.down then b.addrs.reverse else b.addrs) m

theorem fill_stays (bus : Bus σ) (b : Block) (m : Machine σ) :
    sweep (fillupBody bus 0) b.addrs m = (filled bus b 0 m, false) :=
  Prod.ext rfl (sweep_complete (fun _ _ => True) (fun _ _ _ _ => ⟨rfl, trivial⟩) _ _ trivial).1

theorem openingElements_eq (bus : Bus σ) (b : Block) (m : Machine σ) :
    sweep (fun el m => Element.pass bus b el m) openingElements m =
      checkedPart bus b 0 (filled bus b 0 m) := by
  have hfill : Element.pass bus b ⟨false, none, some false⟩ m = (filled bus b 0 m, false) :=
    fill_stays bus b m
  rw [openingElements, sweep, hfill]
  rfl

end Ops

theorem Fault.read_mem (f : Fault) (mem : Nat → UL) (p : Nat) : (f.bus.read mem p).2 = mem := by
  cases f <;> rfl

-- An operation that lets the pass go on has read what it expects and has written its pattern.
theorem Fault.opBody_stays (f : Fault) (check write : Option UL) (p : Nat) (m : Machine (Nat → UL))
    (hstays : (opBody f.bus check write p m).2 = false) :
    (∀ good, check = some good → (f.bus.read m.mem p).1 = good) ∧
      (opBody f.bus check write p m).1.mem = write.elim m.mem (f.bus.write m.mem p) := by
  cases check with
  | none => cases write <;> exact ⟨by simp, rfl⟩
  | some good =>
      cases write with
      | none =>
          by_cases hread : (f.bus.read m.mem p).1 = good
          · simp [opBody, verifyABody, hread, f.read_mem]
          · simp [opBody, verifyABody, hread] at hstays
      | some w =>
          by_cases hread : (f.bus.read m.mem p).1 = good
          · simp [opBody, verifyAWriteBBody, hread, f.read_mem]
          · simp [opBody, verifyAWriteBBody, hread] at hstays

-- Reading does not change the memory of a faulty bus, so the closing pass does not either.
theorem Fault.closingPass_mem (f : Fault) (b : Block) (m : Machine (Nat → UL)) :
    (closingPass f.bus b 0 m).1.mem = m.mem := by
  apply sweep_preserves (fun m' : Machine (Nat → UL) => m'.mem = m.mem) _ _ _ rfl
  intro p m' hm'
  unfold verifyABody
  split
  · exact (f.read_mem _ p).trans hm'
  · exact (f.read_mem _ p).trans hm'

/-! ## The afflicted bits -/

/-- What a fault does to the bits it afflicts, with a role for each word that has one of them. -/
structure BitMachine (ρ τ : Type) where
  see : τ → ρ → Bool
  put : τ → ρ → Bool → τ

section Bits

variable {ρ τ : Type} (bits : BitMachine ρ τ)

/-- `opBody` on one afflicted bit; a mismatch has no outcome. -/
def BitMachine.op (check write : Option Bool) (t : τ) (r : ρ) : Option τ :=
  if check.all (· == bits.see t r) then some (write.elim t (bits.put t r)) else none

/-- A pass over the words with a role, given in ascending order. -/
def BitMachine.pass (roles : List ρ) (t : τ) (el : Element) : Option τ :=
  (if el.down then roles.reverse else roles).foldlM (bits.op el.check el.write) t

/-- No way past the checks: whatever the bits are before the fill, the opening gets stuck, or a
closing pass does and so does the first pass of a further iteration. -/
def BitMachine.Blocked (roles : List ρ) : Prop :=
  ∀ t t', openingElements.foldlM (bits.pass roles) t = some t' →
    bits.pass roles t' ⟨true, some false, none⟩ = none ∧
      bits.pass roles t' ⟨false, some false, some true⟩ = none

/-- `bits` follows the fault through `proj`: it sees a bit of what the bus reads, and a write of
equal bits changes the projected bits as `put` says, or not at all at a word without a role. -/
structure Follows (f : Fault) (proj : (Nat → UL) → τ) (role : Nat → Option ρ) : Prop where
  read : ∀ mem p r, role p = some r →
    ∃ i : Fin 64, bitOf (f.bus.read mem p).1 i = bits.see (proj mem) r
  write : ∀ mem p r v, role p = some r →
    proj (f.bus.write mem p (allBits v)) = bits.put (proj mem) r v
  frame : ∀ mem p v, role p = none → proj (f.bus.write mem p (allBits v)) = proj mem

variable {bits} {f : Fault} {b : Block} {proj : (Nat → UL) → τ} {role : Nat → Option ρ}

theorem Follows.op (h : Follows bits f proj role) (check write : Option Bool) (p : Nat)
    (m : Machine (Nat → UL))
    (hstays : (opBody f.bus (check.map allBits) (write.map allBits) p m).2 = false) :
    ((role p).elim (some (proj m.mem)) (bits.op check write (proj m.mem))) =
      some (proj (opBody f.bus (check.map allBits) (write.map allBits) p m).1.mem) := by
  obtain ⟨hread, hmem⟩ := f.opBody_stays _ _ p m hstays
  rw [hmem]
  cases hrole : role p with
  -- an address without a part in the fault: the write leaves the projection alone
  | none =>
      cases write with
      | none => rfl
      | some v => exact congrArg some (h.frame m.mem p v hrole).symm
  | some r =>
      have hsee : check.all (· == bits.see (proj m.mem) r) = true := by
        cases check with
        | none => rfl
        | some v =>
            obtain ⟨i, hi⟩ := h.read m.mem p r hrole
            rw [hread _ rfl, bitOf_allBits] at hi
            simp [hi]
      rw [Option.elim_some, BitMachine.op, if_pos hsee]
      cases write with
      | none => rfl
      | some v => exact congrArg some (h.write m.mem p r v hrole).symm

theorem Follows.pass (h : Follows bits f proj role) (el : Element) (m : Machine (Nat → UL))
    (hstays : (el.pass f.bus b m).2 = false) :
    bits.pass (b.addrs.filterMap role) (proj m.mem) el = some (proj (el.pass f.bus b m).1.mem) := by
  have hsim := sweep_simulates (fun m : Machine (Nat → UL) => proj m.mem)
    (fun t p => (role p).elim (some t) (bits.op el.check el.write t))
    (fun p m hp => h.op el.check el.write p m hp) _ m hstays
  have hroles : (if el.down then (b.addrs.filterMap role).reverse else b.addrs.filterMap role) =
      (if el.down then b.addrs.reverse else b.addrs).filterMap role := by
    cases el.down
    · rfl
    · exact (List.filterMap_reverse ..).symm
  rw [BitMachine.pass, hroles, List.foldlM_filterMap, Element.pass, ← hsim]
  congr 1
  funext t p
  cases role p <;> rfl

-- If the afflicted bits are blocked, some decisive comparison mismatches.
theorem Follows.decisive (h : Follows bits f proj role)
    (hblocked : bits.Blocked (b.addrs.filterMap role)) (n : Nat) (m : Machine (Nat → UL)) :
    decisiveMismatch f.bus b 0 (n + 1) (filled f.bus b 0 m) = true := by
  by_contra hclean
  rw [Bool.not_eq_true, decisiveMismatch, Bool.or_eq_false_iff, Bool.or_eq_false_iff,
    Bool.and_eq_false_imp] at hclean
  obtain ⟨⟨hchecked, hclosing⟩, hmore⟩ := hclean
  have hopening := sweep_simulates (fun m : Machine (Nat → UL) => proj m.mem)
    (bits.pass (b.addrs.filterMap role)) (fun el m hel => h.pass el m hel) openingElements m
    (by rw [openingElements_eq]; exact hchecked)
  obtain ⟨hdown, hup⟩ := hblocked _ _ hopening
  rw [openingElements_eq] at hdown hup
  cases n with
  | zero =>
      -- the closing pass of the only iteration is decisive
      have hlast := h.pass (b := b) ⟨true, some false, none⟩ _ (hclosing rfl)
      rw [hdown] at hlast
      exact absurd hlast (by simp)
  | succ n =>
      -- the next iteration opens on the memory the closing pass has left alone
      rw [decisiveMismatch, Bool.or_eq_false_iff, Bool.or_eq_false_iff] at hmore
      have hfirst : (Element.pass f.bus b ⟨false, some false, some true⟩
          (closingPass f.bus b 0 (checkedPart f.bus b 0 (filled f.bus b 0 m)).1).1).2 = false := by
        have hnext := hmore.1.1
        rw [checkedPart, checkedPasses] at hnext
        have hhead := sweep_head_stays hnext
        exact hhead
      have hnext := h.pass ⟨false, some false, some true⟩ _ hfirst
      rw [Fault.closingPass_mem, hup] at hnext
      exact absurd hnext (by simp)

end Bits

/-! ## The fault kinds -/

/-- Where a one-cell fault keeps its bit. -/
def oneRole (x p : Nat) : Option Unit := if p = x then some () else none

def stuckAtBits (value : Bool) : BitMachine Unit Unit where
  see _ _ := value
  put _ _ _ := ()

theorem stuckAt_follows (cell : Cell) (value : Bool) :
    Follows (stuckAtBits value) (.stuckAt cell value) (fun _ => ()) (oneRole cell.addr) where
  read mem p r hrole := by
    have hp : p = cell.addr := by
      by_contra hne
      simp [oneRole, hne] at hrole
    exact ⟨cell.bit, by simp [Fault.bus, hp, stuckAtBits]⟩
  write _ _ _ _ _ := rfl
  frame _ _ _ _ := rfl

def transitionBits (up : Bool) : BitMachine Unit Bool where
  see t _ := t
  put t _ v := if fires up t v then !up else v

theorem transition_follows (cell : Cell) (up : Bool) :
    Follows (transitionBits up) (.transition cell up) cell.get (oneRole cell.addr) where
  read mem p r hrole := by
    have hp : p = cell.addr := by
      by_contra hne
      simp [oneRole, hne] at hrole
    exact ⟨cell.bit, by simp [Fault.bus, hp, transitionBits, Cell.get]⟩
  write mem p r v hrole := by
    have hp : p = cell.addr := by
      by_contra hne
      simp [oneRole, hne] at hrole
    subst hp
    simp only [Fault.bus, transitionBits, Cell.get, Function.update_self, true_and, bitOf_allBits]
    split <;> simp
  frame mem p v hrole := by
    have hp : cell.addr ≠ p := by
      rintro rfl
      simp [oneRole] at hrole
    simp [Fault.bus, Cell.get, Function.update_of_ne hp]

/-- The aggressor's word plays `false`, the victim's word `true`. -/
def pairRole (x y p : Nat) : Option Bool :=
  if p = x then some false else if p = y then some true else none

/-- The state is the aggressor's bit and the victim's bit. -/
def couplingBits (up : Bool) (effect : Effect) : BitMachine Bool (Bool × Bool) where
  see t r := if r then t.2 else t.1
  put t r v :=
    if r then (t.1, v) else (v, if fires up t.1 v then effect.apply t.2 else t.2)

theorem coupling_follows (aggressor victim : Cell) (up : Bool) (effect : Effect)
    (hne : aggressor.addr ≠ victim.addr) :
    Follows (couplingBits up effect) (.coupling aggressor victim up effect)
      (fun mem => (aggressor.get mem, victim.get mem)) (pairRole aggressor.addr victim.addr) where
  read mem p r hrole := by
    rw [pairRole] at hrole
    split_ifs at hrole with ha hv
    · obtain rfl : false = r := by simpa using hrole
      exact ⟨aggressor.bit, by simp [Fault.bus, ha, couplingBits, Cell.get]⟩
    · obtain rfl : true = r := by simpa using hrole
      exact ⟨victim.bit, by simp [Fault.bus, hv, couplingBits, Cell.get]⟩
  write mem p r v hrole := by
    rw [pairRole] at hrole
    split_ifs at hrole with ha hv
    · obtain rfl : false = r := by simpa using hrole
      subst ha
      by_cases hfires : fires up (bitOf (mem aggressor.addr) aggressor.bit) v = true
      · simp [Fault.bus, couplingBits, Cell.get, hfires, hne, hne.symm]
      · simp [Fault.bus, couplingBits, Cell.get, hfires, hne.symm]
    · obtain rfl : true = r := by simpa using hrole
      subst hv
      simp [Fault.bus, couplingBits, Cell.get, ha, hne]
  frame mem p v hrole := by
    rw [pairRole] at hrole
    split_ifs at hrole with ha hv
    simp [Fault.bus, Cell.get, ha, Function.update_of_ne (Ne.symm ha),
      Function.update_of_ne (Ne.symm hv)]

theorem stuckAt_blocked (value : Bool) : (stuckAtBits value).Blocked [()] := by
  unfold BitMachine.Blocked
  cases value <;> decide

theorem transition_blocked (up : Bool) : (transitionBits up).Blocked [()] := by
  unfold BitMachine.Blocked
  cases up <;> decide

-- The march detects the coupling in both address orders.
theorem coupling_blocked (up : Bool) (effect : Effect) :
    (couplingBits up effect).Blocked [false, true] ∧
      (couplingBits up effect).Blocked [true, false] := by
  unfold BitMachine.Blocked
  rcases effect with _ | v
  · cases up <;> decide
  · cases up <;> cases v <;> decide

-- A single fault in the block always makes a decisive comparison mismatch.
theorem Fault.decisive (f : Fault) (b : Block) (hf : f.InBlock b) (n : Nat)
    (m : Machine (Nat → UL)) :
    decisiveMismatch f.bus b 0 (n + 1) (filled f.bus b 0 m) = true := by
  cases f with
  | stuckAt cell value =>
      apply (stuckAt_follows cell value).decisive
      rw [b.filterMap_single hf (r := ()) (by simp [oneRole]) (fun p hp => by simp [oneRole, hp])]
      exact stuckAt_blocked value
  | transition cell up =>
      apply (transition_follows cell up).decisive
      rw [b.filterMap_single hf (r := ()) (by simp [oneRole]) (fun p hp => by simp [oneRole, hp])]
      exact transition_blocked up
  | coupling aggressor victim up effect =>
      obtain ⟨ha, hv, hne⟩ := hf
      apply (coupling_follows aggressor victim up effect hne).decisive
      rcases Nat.lt_or_gt_of_ne hne with hlt | hlt
      · rw [b.filterMap_pair ha hv hlt (r := false) (s := true) (by simp [pairRole])
          (by simp [pairRole, hne.symm]) (fun p hp hq => by simp [pairRole, hp, hq])]
        exact (coupling_blocked up effect).1
      · rw [b.filterMap_pair hv ha hlt (r := true) (s := false) (by simp [pairRole, hne.symm])
          (by simp [pairRole]) (fun p hp hq => by simp [pairRole, hp, hq])]
        exact (coupling_blocked up effect).2

/-! ## Memory without faults -/

/-- `mem` with `w` at the positions `ps`. -/
def overwrite (ps : List Nat) (w : UL) (mem : Nat → UL) (p : Nat) : UL :=
  if p ∈ ps then w else mem p

theorem overwrite_cons (p : Nat) (ps : List Nat) (w : UL) (mem : Nat → UL) :
    overwrite ps w (Function.update mem p w) = overwrite (p :: ps) w mem := by
  funext q
  by_cases hq : q = p
  · simp [overwrite, hq]
  · simp [overwrite, hq]

@[simp] theorem overwrite_overwrite (ps : List Nat) (v w : UL) (mem : Nat → UL) :
    overwrite ps w (overwrite ps v mem) = overwrite ps w mem := by
  funext q
  unfold overwrite
  split_ifs <;> rfl

@[simp] theorem overwrite_reverse (ps : List Nat) (w : UL) (mem : Nat → UL) :
    overwrite ps.reverse w mem = overwrite ps w mem := by
  funext q
  simp [overwrite]

theorem fill_faithful (ps : List Nat) (w : UL) (m : Machine (Nat → UL)) :
    sweep (fillupBody faithfulBus w) ps m = (⟨overwrite ps w m.mem, m.log⟩, false) := by
  induction ps generalizing m with
  | nil => rfl
  | cons p ps ih =>
      rw [sweep, if_neg (by simp [fillupBody]), ih]
      simp only [fillupBody, faithfulBus, overwrite_cons]

-- A read-and-write pass over words that all hold what it expects.
theorem verifyAWriteB_faithful {ps : List Nat} (hnodup : ps.Nodup) (v w : UL)
    (m : Machine (Nat → UL)) (hmem : ∀ p ∈ ps, m.mem p = v) :
    sweep (verifyAWriteBBody faithfulBus v w) ps m =
      (⟨overwrite ps w m.mem, m.log⟩, false) := by
  induction ps generalizing m with
  | nil => rfl
  | cons p ps ih =>
      obtain ⟨hp, hps⟩ := List.nodup_cons.mp hnodup
      have hbody : verifyAWriteBBody faithfulBus v w p m =
          (⟨Function.update m.mem p w, m.log⟩, false) := by
        simp [verifyAWriteBBody, faithfulBus, hmem p]
      have hrest : ∀ q ∈ ps, Function.update m.mem p w q = v := by
        intro q hq
        have hne : q ≠ p := fun heq => hp (heq ▸ hq)
        rw [Function.update_of_ne hne, hmem q (by simp [hq])]
      rw [sweep, hbody, if_neg (by simp), ih hps _ hrest, overwrite_cons]

theorem verifyA_faithful {ps : List Nat} (v : UL) (m : Machine (Nat → UL))
    (hmem : ∀ p ∈ ps, m.mem p = v) :
    sweep (verifyABody faithfulBus v) ps m = (m, false) := by
  induction ps with
  | nil => rfl
  | cons p ps ih =>
      have hbody : verifyABody faithfulBus v p m = (m, false) := by
        simp [verifyABody, faithfulBus, hmem p]
      rw [sweep, hbody, if_neg (by simp), ih fun q hq => hmem q (by simp [hq])]

section Faithful

variable (b : Block) (p1 : UL) (mem : Nat → UL) (log : List Complaint)

-- On a block that holds the background, the checked part of an iteration finds and leaves it.
theorem checkedPart_faithful :
    checkedPart faithfulBus b p1 ⟨overwrite b.addrs p1 mem, log⟩ =
      (⟨overwrite b.addrs p1 mem, log⟩, false) := by
  have hup : b.addrs.Nodup := b.pairwise_addrs.imp Nat.ne_of_lt
  have hdown : b.addrs.reverse.Nodup := List.nodup_reverse.mpr hup
  have hholds : ∀ v, ∀ p ∈ b.addrs, overwrite b.addrs v mem p = v := by
    intro v p hp
    simp [overwrite, hp]
  have hpassUp : ∀ v w, sweep (verifyAWriteBBody faithfulBus v w) b.addrs
      ⟨overwrite b.addrs v mem, log⟩ = (⟨overwrite b.addrs w mem, log⟩, false) := by
    intro v w
    rw [verifyAWriteB_faithful hup v w _ (hholds v), overwrite_overwrite]
  have hpassDown : ∀ v w, sweep (verifyAWriteBBody faithfulBus v w) b.addrs.reverse
      ⟨overwrite b.addrs v mem, log⟩ = (⟨overwrite b.addrs w mem, log⟩, false) := by
    intro v w
    rw [verifyAWriteB_faithful hdown v w _ (by simpa using hholds v), overwrite_reverse,
      overwrite_overwrite]
  have hpassRead : sweep (verifyABody faithfulBus p1) b.addrs ⟨overwrite b.addrs p1 mem, log⟩ =
      (⟨overwrite b.addrs p1 mem, log⟩, false) := verifyA_faithful p1 _ (hholds p1)
  simp only [checkedPart, checkedPasses, sweep, hpassUp, hpassDown, hpassRead,
    Bool.false_eq_true, ↓reduceIte]

theorem closingPass_faithful :
    closingPass faithfulBus b p1 ⟨overwrite b.addrs p1 mem, log⟩ =
      (⟨overwrite b.addrs p1 mem, log⟩, false) := by
  apply verifyA_faithful
  intro p hp
  rw [List.mem_reverse] at hp
  simp [overwrite, hp]

variable {fuel : Nat} (hfuel : b.cnt < fuel)

include hfuel

theorem marchCRounds_faithful (n : Nat) :
    marchCRounds faithfulBus fuel b.start b.cnt p1 n errSuccess ⟨overwrite b.addrs p1 mem, log⟩ =
      some (errSuccess, ⟨overwrite b.addrs p1 mem, log⟩) := by
  induction n with
  | zero => rfl
  | succ n ih =>
      rw [marchCRounds_succ b hfuel, checkRet_exitCode, checkedPart_faithful,
        closingPass_faithful, if_neg (by simp)]
      exact ih

end Faithful

/-- Fault coverage: a single fault in the block is reported, and memory without faults passes, ends
with the background in the block and is untouched elsewhere. -/
theorem marchC_fault_coverage (b : Block) {fuel : Nat} (hfuel : b.cnt < fuel) (noComp : Int)
    {iter : Nat} (hiter : 0 < iter) (mem : Nat → UL) :
    (∀ f : Fault, f.InBlock b →
      ∃ m', marchC f.bus fuel b.start b.cnt noComp 0 iter ⟨mem, []⟩ = some (errFail, m')) ∧
    ∃ m', marchC faithfulBus fuel b.start b.cnt noComp 0 iter ⟨mem, []⟩ = some (errSuccess, m') ∧
      ∀ p, m'.mem p = if p ∈ b.addrs then 0 else mem p := by
  constructor
  · intro f hf
    obtain ⟨n, rfl⟩ : ∃ n, iter = n + 1 := ⟨iter - 1, by omega⟩
    obtain ⟨m', hrun, -⟩ :=
      marchCRounds_verdict f.bus b hfuel 0 n errSuccess (filled f.bus b 0 ⟨mem, []⟩)
    rw [f.decisive b hf] at hrun
    exact ⟨m', (marchC_eq b hfuel f.bus noComp 0 _ _).trans hrun⟩
  · refine ⟨⟨overwrite b.addrs 0 mem, []⟩, ?_, fun p => rfl⟩
    rw [marchC_eq b hfuel, filled, fill_faithful]
    exact marchCRounds_faithful b 0 mem [] hfuel iter

/-- Two words, and an upward transition of a bit of the second that inverts a bit of the first. -/
theorem marchC_fault_coverage_coupling :
    ((Fault.coupling ⟨16, 3⟩ ⟨8, 0⟩ true .invert).InBlock
        ⟨8, 2, by decide, by decide, by decide, by decide⟩ ∧
      ∃ m', marchC (Fault.coupling ⟨16, 3⟩ ⟨8, 0⟩ true .invert).bus 3 8 2 hasComparision 0 1
        ⟨fun _ => 5, []⟩ = some (errFail, m')) ∧
    ∃ m', marchC faithfulBus 3 8 2 hasComparision 0 1 ⟨fun _ => 5, []⟩ = some (errSuccess, m') ∧
      ∀ p, m'.mem p = if p ∈ [8, 16] then 0 else 5 :=
  have hcoverage := marchC_fault_coverage ⟨8, 2, by decide, by decide, by decide, by decide⟩
    (by decide : 2 < 3) hasComparision (by decide : 0 < 1) (fun _ => 5)
  have hfault : (Fault.coupling ⟨16, 3⟩ ⟨8, 0⟩ true .invert).InBlock
      ⟨8, 2, by decide, by decide, by decide, by decide⟩ :=
    ⟨by decide, by decide, by decide⟩
  ⟨⟨hfault, hcoverage.1 _ hfault⟩, hcoverage.2⟩

end MoBoMemory.TestLib
