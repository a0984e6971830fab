import MoBoMemory.Base.Tables

/-!
# The cachetest proc file

A write runs the cache test, a read shows the state of the last one.  Reading the state resets it when
the test has stopped, and `f_on_read` reads it twice: once for the length of the message and once for
the message itself.
-/

namespace MoBoMemory.AbsDiag

open Base

inductive CachetestStat where
  | ready
  | inprocess
  | stopSucc
  | stopFail
  | stopNomem
deriving DecidableEq

def CachetestStat.code : CachetestStat → Nat
  | .ready => 0
  | .inprocess => 1
  | .stopSucc => 2
  | .stopFail => 3
  | .stopNomem => 4

/-- `stat + '0'`. -/
def CachetestStat.digit (stat : CachetestStat) : Char := Char.ofNat (stat.code + '0'.toNat)

/-- What the allocation and the two rounds over the buffer return during one call of `cachetest`. -/
structure CachetestEnv where
  tmemsetup : Int
  doTest : BitVec 64 → Int

def ebusy : Int := 16
def enomem : Int := 12

/-- `PAT`, in both halves of a word. -/
def cachetestPat : BitVec 64 := 0x80808080 ||| (0x80808080 <<< 32)

/-- The state that is returned, and the one that is left. -/
def cachetestStat (gStat : CachetestStat) : CachetestStat × CachetestStat :=
  (gStat, if gStat = .stopSucc ∨ gStat = .stopFail ∨ gStat = .stopNomem then .ready else gStat)

def cachetest (env : CachetestEnv) (gStat : CachetestStat) : Int × CachetestStat :=
  let (_, gStat) := cachetestStat gStat
  if gStat = .ready then
    if env.tmemsetup = 0 then
      let ret := env.doTest cachetestPat
      let ret := if ret = 0 then env.doTest (~~~cachetestPat) else ret
      (ret, if ret = 0 then .stopSucc else .stopFail)
    else (-enomem, .stopNomem)
  else (-ebusy, gStat)

/-- The return value of a read, the bytes it copies and the offset and the state it leaves. -/
structure ReadOutcome where
  ret : Int
  copied : List Char
  offset : Nat
  gStat : CachetestStat
deriving DecidableEq

/-- `uncopied` is what `copy_to_user` returns, the number of the bytes at the end that are not copied. -/
def fOnRead (gStat : CachetestStat) (len offset uncopied : Nat) : ReadOutcome :=
  let (stat, gStat) := cachetestStat gStat
  let msg := [stat.digit, '\n']
  if msg.length ≤ offset then ⟨0, [], offset, gStat⟩
  else
    let (stat, gStat) := cachetestStat gStat
    let msg := [stat.digit, '\n']
    let sz := msg.length - offset
    let sz := if len < sz then len else sz
    if uncopied = 0 then ⟨sz, (msg.drop offset).take sz, offset + sz, gStat⟩
    else ⟨uncopied, (msg.drop offset).take (sz - uncopied), offset, gStat⟩

/-! ## Sequences of writes and reads -/

/-- A read starts at offset 0, has room for the message and is copied. -/
inductive CachetestOp where
  | write (env : CachetestEnv)
  | read (len : {len : Nat // 2 ≤ len})

def CachetestOp.next (gStat : CachetestStat) : CachetestOp → CachetestStat
  | .write env => (cachetest env gStat).2
  | .read len => (fOnRead gStat len.val 0 0).gStat

def cachetestAfter (ops : List CachetestOp) : CachetestStat := ops.foldl CachetestOp.next .ready

/-- What a read copies after a sequence of operations. -/
def shownAfter (ops : List CachetestOp) (len : {len : Nat // 2 ≤ len}) : List Char :=
  (fOnRead (cachetestAfter ops) len.val 0 0).copied

/-- The first read after a test shows the state that the test ended in, any other read shows READY. -/
structure Reported (ops : List CachetestOp) : Prop where
  first : ∀ pre env len post, ops = pre ++ .write env :: .read len :: post →
    shownAfter (pre ++ [.write env]) len = [(cachetestAfter (pre ++ [.write env])).digit, '\n']
  later : ∀ pre len post, ops = pre ++ .read len :: post →
    (∀ pre' env, pre ≠ pre' ++ [.write env]) →
      shownAfter pre len = [CachetestStat.ready.digit, '\n']

/-! ## What a read shows -/

section Steps

variable {gStat : CachetestStat}

theorem cachetestStat_reset (h : gStat ≠ .inprocess) : (cachetestStat gStat).2 = .ready := by
  cases gStat with
  | inprocess => exact absurd rfl h
  | ready => rfl
  | stopSucc => rfl
  | stopFail => rfl
  | stopNomem => rfl

-- A test that runs ends in one of the three stopped states.
theorem cachetest_stops (env : CachetestEnv) (h : gStat ≠ .inprocess) :
    (cachetest env gStat).2 = .stopSucc ∨ (cachetest env gStat).2 = .stopFail ∨
      (cachetest env gStat).2 = .stopNomem := by
  simp only [cachetest, cachetestStat_reset h, if_true]
  by_cases hsetup : env.tmemsetup = 0
  · rw [if_pos hsetup]
    generalize (if env.doTest cachetestPat = 0 then env.doTest (~~~cachetestPat)
      else env.doTest cachetestPat) = ret
    by_cases hret : ret = 0
    · exact Or.inl (if_pos hret)
    · exact Or.inr (Or.inl (if_neg hret))
  · rw [if_neg hsetup]
    exact Or.inr (Or.inr rfl)

-- The second look is the one that is shown, and the first has reset the state.
theorem fOnRead_shows_ready (len : {len : Nat // 2 ≤ len}) (h : gStat ≠ .inprocess) :
    (fOnRead gStat len.val 0 0).copied = [CachetestStat.ready.digit, '\n'] ∧
      (fOnRead gStat len.val 0 0).gStat = .ready := by
  obtain ⟨len, hlen⟩ := len
  have hroom : ¬ len < 2 := by omega
  have hfirst := cachetestStat_reset h
  have hsecond : cachetestStat .ready = (.ready, .ready) := rfl
  simp [fOnRead, hfirst, hsecond, hroom]

theorem next_not_inprocess (op : CachetestOp) (h : gStat ≠ .inprocess) :
    op.next gStat ≠ .inprocess := by
  cases op with
  | write env =>
      show (cachetest env gStat).2 ≠ .inprocess
      rcases cachetest_stops env h with hs | hs | hs <;> simp [hs]
  | read len =>
      show (fOnRead gStat len.val 0 0).gStat ≠ .inprocess
      simp [(fOnRead_shows_ready len h).2]

end Steps

-- Between two operations no test is in process.
theorem cachetestAfter_not_inprocess (ops : List CachetestOp) :
    cachetestAfter ops ≠ .inprocess := by
  have hstep : ∀ (gStat : CachetestStat) (op : CachetestOp), True → gStat ≠ .inprocess →
      op.next gStat ≠ .inprocess := fun _ op _ h => next_not_inprocess op h
  apply @foldl_preserves _ _ (fun gStat op => CachetestOp.next gStat op) (· ≠ .inprocess) _ hstep
  · intro _ _
    trivial
  · decide

-- Every read shows READY, whatever has been tested before.
theorem shownAfter_eq (ops : List CachetestOp) (len : {len : Nat // 2 ≤ len}) :
    shownAfter ops len = [CachetestStat.ready.digit, '\n'] :=
  (fOnRead_shows_ready len (cachetestAfter_not_inprocess ops)).1

theorem cachetestAfter_write_digit (pre : List CachetestOp) (env : CachetestEnv) :
    (cachetestAfter (pre ++ [.write env])).digit ≠ CachetestStat.ready.digit := by
  have hstops := cachetest_stops env (cachetestAfter_not_inprocess pre)
  have hafter : cachetestAfter (pre ++ [.write env]) = (cachetest env (cachetestAfter pre)).2 := by
    rw [cachetestAfter, List.foldl_append]
    rfl
  rw [hafter]
  rcases hstops with hs | hs | hs <;> rw [hs] <;> decide

/-- A sequence is reported exactly if no read of it follows a test: no test is ever reported. -/
theorem cachetest_reported_iff (ops : List CachetestOp) :
    Reported ops ↔ ∀ pre env len post, ops ≠ pre ++ .write env :: .read len :: post := by
  constructor
  · intro hreported pre env len post hops
    have hfirst := hreported.first pre env len post hops
    rw [shownAfter_eq] at hfirst
    exact cachetestAfter_write_digit pre env (List.cons.inj hfirst).1.symm
  · intro hnone
    constructor
    · intro pre env len post hops
      exact absurd hops (hnone pre env len post)
    · intro pre len post _ _
      exact shownAfter_eq pre len

/-- A failed test is followed by a read that shows READY. -/
theorem cachetest_not_reported :
    cachetestAfter [.write ⟨0, fun _ => -1⟩] = .stopFail ∧
      shownAfter [.write ⟨0, fun _ => -1⟩] ⟨2, Nat.le_refl 2⟩ = ['0', '\n'] ∧
      ¬ Reported [.write ⟨0, fun _ => -1⟩, .read ⟨2, Nat.le_refl 2⟩] := by
  refine ⟨by decide, by decide, ?_⟩
  intro hreported
  have hfirst := hreported.first [] ⟨0, fun _ => -1⟩ ⟨2, Nat.le_refl 2⟩ [] rfl
  exact absurd hfirst (by decide)

end MoBoMemory.AbsDiag
