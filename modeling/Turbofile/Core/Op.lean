import Mathlib

/-!
# Ops, replies and messages

The vocabulary of `turbofile-core`: what a submitter sends to a driver thread
and what comes back.  A callback is a `Box<dyn FnOnce>` built for one
submission, so it is known here by the id of the op it was submitted with.
-/

namespace Turbofile.Core

abbrev Byte := UInt8
abbrev OpId := ℕ
abbrev Handle := ℕ
abbrev Fd := ℕ
abbrev Callback := OpId

/-- The errno values the code looks at; every other one is passed through. -/
inductive Errno
  | ecanceled
  | eagain
  | eintr
  | other (code : ℕ)
  deriving DecidableEq

inductive ErrorKind
  | invalidInput
  | brokenPipe
  | other
  deriving DecidableEq

/-- `io::Error`: a raw OS error, or a kind with a message. -/
inductive IoError
  | os (errno : Errno)
  | custom (kind : ErrorKind) (message : String)
  deriving DecidableEq

/-- The error an op settles with when its cancel request won. -/
def cancelledError : IoError := .os .ecanceled

def isCancelled : IoError → Bool
  | .os .ecanceled => true
  | _ => false

def badHandle : IoError :=
  .custom .invalidInput "unknown or closed turbofile handle"

def driverGone : IoError :=
  .custom .brokenPipe "turbofile driver thread is gone"

structure OpenSpec where
  read : Bool := false
  write : Bool := false
  append : Bool := false
  truncate : Bool := false
  create : Bool := false
  createNew : Bool := false
  deriving DecidableEq

/-- Bytes to write.  A borrowed payload names memory the submitter keeps alive
and unchanged until the callback runs, so its bytes are part of the value. -/
inductive Payload
  | owned (data : List Byte)
  | borrowed (ptr : ℕ) (data : List Byte)
  deriving DecidableEq

def Payload.asSlice : Payload → List Byte
  | .owned data => data
  | .borrowed _ data => data

def Payload.len (payload : Payload) : ℕ := payload.asSlice.length

def Payload.isEmpty (payload : Payload) : Bool := payload.len == 0

/-- Where read bytes go. -/
inductive Dest
  | alloc (len : ℕ)
  | into (ptr len : ℕ)
  deriving DecidableEq

/-- How many bytes are asked for. -/
def Dest.asked : Dest → ℕ
  | .alloc len | .into _ len => len

abbrev Path := List Byte

inductive Op
  | openFile (path : Path) (spec : OpenSpec)
  | readAt (handle : Handle) (pos : ℕ) (dest : Dest)
  | readToEnd (handle : Handle) (pos : ℕ)
  | writeAt (handle : Handle) (pos : ℕ) (data : Payload) (append : Bool)
  | close (handle : Handle)
  | sync (handle : Handle) (dataOnly : Bool)
  | setLen (handle : Handle) (size : ℕ)
  | size (handle : Handle)
  | readFile (path : Path) (inlineMax : ℕ)
  | writeFile (path : Path) (data : Payload)
  | nop
  deriving DecidableEq

inductive Reply
  | handle (id : Handle) (size : ℕ) (fd : Fd)
  | bytes (data : List Byte)
  | read (n : ℕ)
  | written (n fileEnd : ℕ)
  | size (size : ℕ)
  | unit
  deriving DecidableEq

abbrev Outcome := Except IoError Reply

inductive Msg
  | submit (id : OpId) (op : Op) (cb : Callback)
  | cancel (id : OpId)
  deriving DecidableEq

/-- `pos + n as u64` on machine words. -/
def u64Add (pos n : ℕ) : ℕ := (pos + n) % 2 ^ 64

/-- A `u64` cast to `off_t`. -/
def asOffT (pos : ℕ) : ℤ := (BitVec.ofNat 64 pos).toInt

theorem u64Add_eq {pos n : ℕ} (hfits : pos + n < 2 ^ 64) : u64Add pos n = pos + n :=
  Nat.mod_eq_of_lt hfits

theorem asOffT_eq {pos : ℕ} (hfits : pos < 2 ^ 63) : asOffT pos = pos := by
  have hnat : (BitVec.ofNat 64 pos).toNat = pos := by
    rw [BitVec.toNat_ofNat]
    omega
  rw [asOffT, BitVec.toInt_eq_toNat_cond, hnat]
  omega

theorem asOffT_u64Add {pos n : ℕ} (hfits : pos + n < 2 ^ 63) :
    asOffT (u64Add pos n) = pos + n := by
  rw [u64Add_eq (by omega), asOffT_eq hfits]
  push_cast
  rfl

/-- A cast position that is not negative is the position. -/
theorem asOffT_eq_natCast {pos offset : ℕ} (hpos : pos < 2 ^ 64) (hoffset : asOffT pos = offset) :
    pos < 2 ^ 63 ∧ offset = pos := by
  have hnat : (BitVec.ofNat 64 pos).toNat = pos := by
    rw [BitVec.toNat_ofNat]
    omega
  rw [asOffT, BitVec.toInt_eq_toNat_cond, hnat] at hoffset
  split at hoffset <;> omega

/-- Permissions and effects of an `open(2)` call. -/
structure OpenFlags where
  read : Bool
  write : Bool
  append : Bool
  truncate : Bool
  create : Bool
  exclusive : Bool
  deriving DecidableEq

/-- The `st_size` and file type `fstat` reports. -/
structure FileStat where
  size : ℕ
  regular : Bool
  deriving DecidableEq

/-- `regular_file_size`: only a regular file's size is trusted. -/
def regularFileSize (stat : Except Errno FileStat) : Option ℕ :=
  match stat with
  | .ok st => if st.regular then some st.size else none
  | .error _ => none

end Turbofile.Core
