import Mathlib.Algebra.Order.Ring.Int
import MoBoMemory.Base.Tables
import MoBoMemory.Base.Transfers

/-!
# Reading and writing the proc files

The handlers of mecc, abs_diagdev and addrmap.  `copy_to_user` and `copy_from_user` return the number of bytes that
they have not copied, and the handlers return it as it is: a fault looks like a short transfer.  The
handlers that write cut the length to the size of their buffer, and put the terminator behind it.
-/

namespace MoBoMemory.AbsDiag

open Base

def erestartsys : Int := 512

/-! ## Reading -/

/-- The length of a call, whether a signal interrupts it at the semaphore, and how many bytes can be written to
the user's buffer. -/
structure ReadCall where
  len : Nat
  interrupted : Bool
  room : Nat

/-- Where all read handlers end. -/
def copyOut (msg : List Char) (offset : Nat) (call : ReadCall) : Delivery Char :=
  let sz := msg.length - offset
  let sz := if sz > call.len then call.len else sz
  let (ret, copied) := copyUser call.room ((msg.drop offset).take sz)
  if ret = 0 then ⟨sz, copied, offset + sz⟩ else ⟨ret, copied, offset⟩

/-- A handler that looks for the end with one message, and copies another when it has the semaphore. -/
def readLocking (early msg : List Char) (offset : Nat) (call : ReadCall) : Delivery Char :=
  if early.length ≤ offset then ⟨0, [], offset⟩
  else if call.interrupted then ⟨-erestartsys, [], offset⟩
  else copyOut msg offset call

namespace Mecc

/-- `"%d\n%lu\n"`. -/
def msg (enabled : Bool) (gCnt : BitVec 64) : List Char :=
  (if enabled then '1' else '0') :: '\n' :: Nat.toDigits 10 gCnt.toNat ++ ['\n']

def fOnRead (enabled : Bool) (gCnt : BitVec 64) : Nat → ReadCall → Delivery Char :=
  readLocking (msg true gCnt) (msg enabled gCnt)

end Mecc

namespace AbsDiagdev

/-- `ABS_DIAGDEV_VERSION`. -/
def version : List Char := ['0', '1', '0', '0', '0', '8', '1', '8']

/-- `ABS_DIAGDEV_VERSION"\n%d\n"`. -/
def msg (on : Bool) : List Char := version ++ ['\n', if on then '1' else '0', '\n']

/-- `X86_CR0_CD` and `X86_CR0_NW` come from a header of the kernel. -/
structure Cr0Bits where
  cd : BitVec 64
  nw : BitVec 64

def cacheOn (bits : Cr0Bits) (cr0 : BitVec 64) : Bool :=
  if cr0 &&& bits.cd ≠ 0 then false else if cr0 &&& bits.nw = 0 then true else false

def fOnRead (bits : Cr0Bits) (cr0 : BitVec 64) : Nat → ReadCall → Delivery Char :=
  readLocking (msg true) (msg (cacheOn bits cr0))

end AbsDiagdev

namespace Addrmap

/-- `ADDRMAP_VERSION`. -/
def version : List Char := ['0', '0', '0', '1', '0', '4', '0', '6']

/-- `ADDRMAP_VERSION"\n0x%p\n0x%p\n0x%p\n"`, with the kernel's own way to print a pointer. -/
def msg (showPtr : BitVec 64 → List Char) (gVa pa : BitVec 64) : List Char :=
  version ++ ['\n', '0', 'x'] ++ showPtr gVa ++ ['\n', '0', 'x'] ++ showPtr pa ++ ['\n', '0', 'x'] ++
    showPtr 0 ++ ['\n']

/-- `pa` is what `addrmap_convt` makes of `g_va`. -/
def fOnRead (showPtr : BitVec 64 → List Char) (gVa pa : BitVec 64) (offset : Nat) (call : ReadCall) :
    Delivery Char :=
  if call.interrupted then ⟨-erestartsys, [], offset⟩
  else if (msg showPtr gVa pa).length ≤ offset then ⟨0, [], offset⟩
  else copyOut (msg showPtr gVa pa) offset call

end Addrmap

/-- A file that is read, with the state it reports. -/
inductive ReadFile where
  | mecc (enabled : Bool) (gCnt : BitVec 64)
  | absDiagdev (bits : AbsDiagdev.Cr0Bits) (cr0 : BitVec 64)
  | addrmap (showPtr : BitVec 64 → List Char) (gVa pa : BitVec 64)

namespace ReadFile

def msg : ReadFile → List Char
  | mecc enabled gCnt => Mecc.msg enabled gCnt
  | absDiagdev bits cr0 => AbsDiagdev.msg (AbsDiagdev.cacheOn bits cr0)
  | addrmap showPtr gVa pa => Addrmap.msg showPtr gVa pa

/-- `sizeof(msg)`. -/
def msgSize : ReadFile → Nat
  | mecc _ _ | absDiagdev _ _ => 32
  | addrmap _ _ _ => 32 * 4

def fOnRead : ReadFile → Nat → ReadCall → Delivery Char
  | mecc enabled gCnt => Mecc.fOnRead enabled gCnt
  | absDiagdev bits cr0 => AbsDiagdev.fOnRead bits cr0
  | addrmap showPtr gVa pa => Addrmap.fOnRead showPtr gVa pa

def step (file : ReadFile) (s : Reader Char) (call : ReadCall) : Option (Reader Char) :=
  some (s.after (file.fOnRead s.offset call))

/-- The call keeps to the protocol. -/
def Serves (file : ReadFile) (s : Reader Char) (call : ReadCall) : Prop :=
  s.Served file.msg call.len (file.fOnRead s.offset call)

/-- The call copies nothing, or has room for all that it copies. -/
def Fits (file : ReadFile) (s : Reader Char) (call : ReadCall) : Prop :=
  call.interrupted = true ∨ min call.len (file.msg.length - s.offset) ≤ call.room

end ReadFile

section Calls

variable {file : ReadFile} {s s' : Reader Char} {call : ReadCall} {early msg : List Char} {offset : Nat}

-- The piece that a call copies.
theorem copyOut_eq (msg : List Char) (offset : Nat) (call : ReadCall) :
    copyOut msg offset call =
      let sz := min call.len (msg.length - offset)
      let (ret, copied) := copyUser call.room ((msg.drop offset).take sz)
      if ret = 0 then ⟨sz, copied, offset + sz⟩ else ⟨ret, copied, offset⟩ := by
  have hsz : (if msg.length - offset > call.len then call.len else msg.length - offset) =
      min call.len (msg.length - offset) := by
    split_ifs <;> omega
  simp only [copyOut, hsz]

theorem piece_length (msg : List Char) (offset : Nat) (call : ReadCall) :
    ((msg.drop offset).take (min call.len (msg.length - offset))).length =
      min call.len (msg.length - offset) := by
  rw [List.length_take, List.length_drop]
  omega

theorem copyOut_fits (h : min call.len (msg.length - offset) ≤ call.room) :
    copyOut msg offset call = ⟨(min call.len (msg.length - offset) : Nat),
      (msg.drop offset).take (min call.len (msg.length - offset)), offset + min call.len (msg.length - offset)⟩ := by
  rw [← piece_length msg offset call] at h
  simp only [copyOut_eq, copyUser_of_le h, if_true]

theorem copyOut_short (h : call.room < min call.len (msg.length - offset)) :
    0 < (copyOut msg offset call).ret ∧ (copyOut msg offset call).offset = offset := by
  rw [← piece_length msg offset call] at h
  have hret : ¬ (copyUser call.room ((msg.drop offset).take (min call.len (msg.length - offset)))).1 = 0 :=
    fun hzero => absurd (copyUser_eq_zero_iff.mp hzero) (by omega)
  simp only [copyOut_eq, if_neg hret]
  exact ⟨Int.natCast_pos.mpr (Nat.pos_of_ne_zero hret), trivial⟩

theorem readLocking_cases (hlen : early.length = msg.length) (offset : Nat) (call : ReadCall) :
    (msg.length ≤ offset ∧ readLocking early msg offset call = ⟨0, [], offset⟩) ∨
      (call.interrupted = true ∧ readLocking early msg offset call = ⟨-erestartsys, [], offset⟩) ∨
      (offset < msg.length ∧ call.interrupted = false ∧
        readLocking early msg offset call = copyOut msg offset call) := by
  rw [readLocking, hlen]
  by_cases hend : msg.length ≤ offset
  · exact Or.inl ⟨hend, if_pos hend⟩
  · rw [if_neg hend]
    cases hsignal : call.interrupted with
    | true => exact Or.inr (Or.inl ⟨rfl, rfl⟩)
    | false => exact Or.inr (Or.inr ⟨Nat.lt_of_not_le hend, rfl, rfl⟩)

-- `sprintf` stays in the buffer, if a pointer is printed in 16 digits at most.
theorem msg_fits (file : ReadFile)
    (hptr : ∀ showPtr gVa pa, file = .addrmap showPtr gVa pa → ∀ p, (showPtr p).length ≤ 16) :
    file.msg.length < file.msgSize := by
  cases file with
  | mecc enabled gCnt =>
      have hcnt : gCnt.toNat < 10 ^ 20 := by
        have hword := gCnt.isLt
        omega
      have hdigits : (Nat.toDigits 10 gCnt.toNat).length ≤ 20 :=
        (Nat.length_toDigits_le_iff (by decide) (by decide)).mpr hcnt
      simp only [ReadFile.msg, ReadFile.msgSize, Mecc.msg, List.length_append, List.length_cons, List.length_nil]
      omega
  | absDiagdev bits cr0 => simp [ReadFile.msg, ReadFile.msgSize, AbsDiagdev.msg, AbsDiagdev.version]
  | addrmap showPtr gVa pa =>
      have hlen := hptr showPtr gVa pa rfl
      have h0 := hlen 0
      have hva := hlen gVa
      have hpa := hlen pa
      simp only [ReadFile.msg, ReadFile.msgSize, Addrmap.msg, Addrmap.version, List.length_append,
        List.length_cons, List.length_nil]
      omega

-- The ways that a call goes, whichever file it reads.
theorem fOnRead_cases (file : ReadFile) (offset : Nat) (call : ReadCall) :
    (file.msg.length ≤ offset ∧ file.fOnRead offset call = ⟨0, [], offset⟩) ∨
      (call.interrupted = true ∧ file.fOnRead offset call = ⟨-erestartsys, [], offset⟩) ∨
      (offset < file.msg.length ∧ call.interrupted = false ∧
        file.fOnRead offset call = copyOut file.msg offset call) := by
  cases file with
  | mecc enabled gCnt =>
      have hlen : (Mecc.msg true gCnt).length = (Mecc.msg enabled gCnt).length := by simp [Mecc.msg]
      exact readLocking_cases hlen offset call
  | absDiagdev bits cr0 =>
      have hlen : (AbsDiagdev.msg true).length = (AbsDiagdev.msg (AbsDiagdev.cacheOn bits cr0)).length := by
        simp [AbsDiagdev.msg]
      exact readLocking_cases hlen offset call
  | addrmap showPtr gVa pa =>
      simp only [ReadFile.fOnRead, ReadFile.msg, Addrmap.fOnRead]
      cases hsignal : call.interrupted with
      | true => exact Or.inr (Or.inl ⟨rfl, rfl⟩)
      | false =>
          by_cases hend : (Addrmap.msg showPtr gVa pa).length ≤ offset
          · exact Or.inl ⟨hend, if_pos hend⟩
          · exact Or.inr (Or.inr ⟨Nat.lt_of_not_le hend, rfl, if_neg hend⟩)

-- A call keeps to the protocol exactly if its copy is not cut short.
theorem serves_iff (hs : s.Within file.msg) : file.Serves s call ↔ file.Fits s call := by
  unfold ReadFile.Serves ReadFile.Fits
  rcases fOnRead_cases file s.offset call with ⟨hend, heq⟩ | ⟨hsignal, heq⟩ | ⟨hmore, hsignal, heq⟩
  · rw [heq]
    exact iff_of_true (Reader.served_eof hs hend) (Or.inr (by omega))
  · rw [heq]
    exact iff_of_true (Reader.served_error hs (by decide)) (Or.inl hsignal)
  · rw [heq]
    by_cases hroom : min call.len (file.msg.length - s.offset) ≤ call.room
    · rw [copyOut_fits hroom]
      exact iff_of_true (Reader.served_piece hs hmore rfl) (Or.inr hroom)
    · obtain ⟨hret, hstays⟩ := copyOut_short (Nat.lt_of_not_le hroom)
      refine iff_of_false (Reader.not_served_of_pos hret hstays) ?_
      rintro (hinterrupted | hfits)
      · rw [hsignal] at hinterrupted
        cases hinterrupted
      · exact hroom hfits

theorem reads_iff (file : ReadFile) (calls : List ReadCall) :
    EachStep file.step file.Serves .opened calls ↔ EachStep file.step file.Fits .opened calls := by
  refine EachStep.congr (I := Reader.Within file.msg) ?_ (fun _ _ hs => serves_iff hs) Reader.opened_within
  intro s call s' hserves _ hstep
  obtain rfl := Option.some.inj hstep
  exact hserves.within

end Calls

/-! ## Writing -/

/-- The bytes of a call, whether a signal interrupts it at the semaphore, and how many of the bytes can be read. -/
structure WriteCall where
  bytes : List Char
  interrupted : Bool
  readable : Nat

/-- What a call returns, what `copy_from_user` has returned to it, and the index of the buffer at which it has
put the terminator. -/
structure WriteOutcome where
  ret : Int
  uncopied : Option Nat
  terminator : Option Nat

/-- The string in a buffer that is terminated behind these bytes. -/
def bufferString (bytes : List Char) : List Char := bytes.takeWhile (· ≠ '\x00')

namespace AbsDiagdev

/-- `sizeof(msg)`. -/
def bufferSize : Nat := 8

def fOnWrite (bits : Cr0Bits) (cr0 : BitVec 64) (call : WriteCall) : WriteOutcome × BitVec 64 :=
  let sz := call.bytes.length
  let sz := if sz > bufferSize then bufferSize else sz
  let (ret, msg) := copyUser call.readable (call.bytes.take sz)
  if ret = 0 then
    if call.interrupted then (⟨-erestartsys, some 0, some sz⟩, cr0)
    else
      let cr0 := if (bufferString msg).head? = some '0' then (cr0 ||| bits.cd) &&& ~~~bits.nw
        else (cr0 &&& ~~~bits.cd) &&& ~~~bits.nw
      (⟨sz, some 0, some sz⟩, cr0)
  else (⟨ret, some ret, none⟩, cr0)

end AbsDiagdev

namespace Addrmap

/-- `sizeof(msg)`. -/
def bufferSize : Nat := 32

/-- The string up to its last newline. -/
def cutNewline (str : List Char) : List Char :=
  if '\n' ∈ str then ((str.reverse.dropWhile (· ≠ '\n')).drop 1).reverse else str

/-- `simpleStrtoul` is the kernel's, with base 16. -/
def fOnWrite (simpleStrtoul : List Char → BitVec 64) (gVa : BitVec 64) (call : WriteCall) :
    WriteOutcome × BitVec 64 :=
  let sz := call.bytes.length
  let sz := if sz > bufferSize then bufferSize else sz
  if call.interrupted then (⟨-erestartsys, none, none⟩, gVa)
  else
    let (ret, msg) := copyUser call.readable (call.bytes.take sz)
    if ret = 0 then (⟨sz, some 0, some sz⟩, simpleStrtoul (cutNewline (bufferString msg)))
    else (⟨ret, some ret, none⟩, gVa)

end Addrmap

/-- The terminator of a call that copies its bytes is inside the buffer, and a call that fails to copy them
returns an error. -/
structure WriteOutcome.Safe (bufferSize : Nat) (o : WriteOutcome) : Prop where
  inside : ∀ i ∈ o.terminator, i < bufferSize
  terminated : o.uncopied = some 0 → o.terminator ≠ none
  failed : ∀ n ∈ o.uncopied, n ≠ 0 → o.ret < 0

section Writes

variable {call : WriteCall} {size : Nat}

-- The whole length is copied and ends before the buffer does.
def WriteCall.FitsBuffer (size : Nat) (call : WriteCall) : Prop :=
  call.bytes.length < size ∧ call.bytes.length ≤ call.readable

theorem safe_of_copied {ret : Int} {sz : Nat}
    (hsz : sz = if call.bytes.length > size then size else call.bytes.length)
    (hcopied : (copyUser call.readable (call.bytes.take sz)).1 = 0) :
    WriteOutcome.Safe size ⟨ret, some 0, some sz⟩ ↔ call.FitsBuffer size := by
  rw [copyUser_eq_zero_iff, List.length_take] at hcopied
  have hinside : sz < size ↔ call.bytes.length < size := by
    rw [hsz]
    split_ifs <;> omega
  constructor
  · intro h
    have hlt := hinside.mp (h.inside sz rfl)
    rw [if_neg (by omega)] at hsz
    exact ⟨hlt, by omega⟩
  · rintro ⟨hlt, -⟩
    refine ⟨?_, by simp, by simp⟩
    rintro i ⟨⟩
    exact hinside.mpr hlt

theorem not_safe_of_uncopied {ret : Nat} {sz : Nat}
    (hsz : sz = if call.bytes.length > size then size else call.bytes.length)
    (hret : ret = (copyUser call.readable (call.bytes.take sz)).1) (hne : ret ≠ 0) :
    ¬ WriteOutcome.Safe size ⟨ret, some ret, none⟩ ∧ ¬ call.FitsBuffer size := by
  constructor
  · intro h
    have hneg := h.failed ret rfl hne
    exact absurd hneg (by simp)
  · rintro ⟨hlt, hreadable⟩
    rw [if_neg (by omega)] at hsz
    refine hne (hret.trans (copyUser_eq_zero_iff.mpr ?_))
    rw [List.length_take]
    omega

theorem absDiagdev_safe_iff (bits : AbsDiagdev.Cr0Bits) (cr0 : BitVec 64) (call : WriteCall) :
    (AbsDiagdev.fOnWrite bits cr0 call).1.Safe AbsDiagdev.bufferSize ↔ call.FitsBuffer AbsDiagdev.bufferSize := by
  unfold AbsDiagdev.fOnWrite
  extract_lets len sz
  by_cases hcopied : (copyUser call.readable (call.bytes.take sz)).1 = 0
  · by_cases hsignal : call.interrupted = true
    · simp only [if_pos hcopied, if_pos hsignal]
      exact safe_of_copied rfl hcopied
    · simp only [if_pos hcopied, if_neg hsignal]
      exact safe_of_copied rfl hcopied
  · simp only [if_neg hcopied]
    obtain ⟨hoverrun, hlong⟩ := not_safe_of_uncopied rfl rfl hcopied
    exact iff_of_false hoverrun hlong

theorem addrmap_safe_iff (simpleStrtoul : List Char → BitVec 64) (gVa : BitVec 64) (call : WriteCall) :
    (Addrmap.fOnWrite simpleStrtoul gVa call).1.Safe Addrmap.bufferSize ↔
      call.interrupted = true ∨ call.FitsBuffer Addrmap.bufferSize := by
  unfold Addrmap.fOnWrite
  extract_lets len sz
  cases hsignal : call.interrupted with
  | true =>
      refine iff_of_true ?_ (Or.inl rfl)
      simp only [if_true]
      exact ⟨by simp, by simp, by simp⟩
  | false =>
      rw [or_iff_right Bool.false_ne_true, if_neg Bool.false_ne_true]
      by_cases hcopied : (copyUser call.readable (call.bytes.take sz)).1 = 0
      · simp only [if_pos hcopied]
        exact safe_of_copied rfl hcopied
      · simp only [if_neg hcopied]
        obtain ⟨hoverrun, hlong⟩ := not_safe_of_uncopied rfl rfl hcopied
        exact iff_of_false hoverrun hlong

end Writes

/-- The read handlers keep to the protocol in a sequence of calls exactly if no copy is cut short, and the write
handlers in a call exactly if it is shorter than their buffer and all of it can be copied; one of addrmap that is
interrupted does nothing. -/
theorem transfers_iff (file : ReadFile) (calls : List ReadCall) (bits : AbsDiagdev.Cr0Bits) (cr0 : BitVec 64)
    (simpleStrtoul : List Char → BitVec 64) (gVa : BitVec 64) (call : WriteCall) :
    (EachStep file.step file.Serves .opened calls ↔ EachStep file.step file.Fits .opened calls) ∧
      ((AbsDiagdev.fOnWrite bits cr0 call).1.Safe AbsDiagdev.bufferSize ↔
        call.FitsBuffer AbsDiagdev.bufferSize) ∧
      ((Addrmap.fOnWrite simpleStrtoul gVa call).1.Safe Addrmap.bufferSize ↔
        call.interrupted = true ∨ call.FitsBuffer Addrmap.bufferSize) :=
  ⟨reads_iff file calls, absDiagdev_safe_iff bits cr0 call, addrmap_safe_iff simpleStrtoul gVa call⟩

/-- The bits as the kernel has them. -/
def kernelBits : AbsDiagdev.Cr0Bits := ⟨0x40000000, 0x20000000⟩

/-- A read that can store one byte only returns the number of the missing ones; a write of 8 bytes puts the
terminator behind the buffer, and one that cannot be copied returns its length. -/
theorem transfers_fail :
    ¬ EachStep (ReadFile.mecc true 0).step (ReadFile.mecc true 0).Serves .opened [⟨8, false, 1⟩] ∧
      (AbsDiagdev.fOnWrite kernelBits 0 ⟨List.replicate 8 '1', false, 8⟩).1 = ⟨8, some 0, some 8⟩ ∧
      ¬ (AbsDiagdev.fOnWrite kernelBits 0 ⟨List.replicate 8 '1', false, 8⟩).1.Safe AbsDiagdev.bufferSize ∧
      (AbsDiagdev.fOnWrite kernelBits 0 ⟨['1'], false, 0⟩).1 = ⟨1, some 1, none⟩ ∧
      ¬ (AbsDiagdev.fOnWrite kernelBits 0 ⟨['1'], false, 0⟩).1.Safe AbsDiagdev.bufferSize := by
  refine ⟨?_, rfl, ?_, rfl, ?_⟩
  · rw [reads_iff]
    rintro ⟨hinterrupted | hfits, -⟩
    · cases hinterrupted
    · simp only [ReadFile.msg, Mecc.msg, Reader.opened, List.length_append, List.length_cons, List.length_nil] at hfits
      omega
  · rw [absDiagdev_safe_iff]
    exact fun h => absurd h.1 (by decide)
  · rw [absDiagdev_safe_iff]
    exact fun h => absurd h.2 (by decide)

end MoBoMemory.AbsDiag
