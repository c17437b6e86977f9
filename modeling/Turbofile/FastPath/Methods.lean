import Turbofile.FastPath.Inner

/-!
# The methods of `FastPath`

What Python calls, over any platform: the reads of one file, and on Linux the
read of a whole file by its path.
-/

namespace Turbofile.FastPath

open Turbofile.Core
open Turbofile.Coroutine

/-- A Python buffer: what `readinto` checks of it. -/
structure Buffer where
  readonly : Bool
  cContiguous : Bool
  len : ℕ
  deriving DecidableEq

section Methods

variable (platform : Platform)

/-- Up to `len` bytes at `pos`, short only at the end of the file. -/
def read (pos len : ℕ) : FastProg platform.Inner (Option Bytes) :=
  if len = 0 then pure none
  else do
    ask (.newBytes len)
    platform.fill pos len

/-- The bytes put at the front of the buffer. -/
def readinto (pos : ℕ) (buffer : Buffer) : FastProg platform.Inner (Option Bytes) :=
  if buffer.readonly then .raise (.valueError "readinto needs a writable buffer")
  else if !buffer.cContiguous then .raise (.valueError "buffer must be C-contiguous")
  else if buffer.len = 0 then pure none
  else platform.fill pos buffer.len

/-- The bytes of a fill, if they are all `len` that were asked for. -/
def whole (len : ℕ) (filled : Option Bytes) : Option Bytes :=
  filled.filter fun data => data.length = len

/-- What a read-all answers, unless the file does not end at `size` any more. -/
def confirm (size : ℕ) (data : Bytes) : FastProg platform.Inner (Option Bytes) := do
  if ← platform.atEof size then pure (some data) else pure none

/-- Everything from `pos` to the end of the file. -/
def readAll (pos : ℕ) : FastProg platform.Inner (Option Bytes) := do
  match ← platform.size with
  | none => pure none
  | some size =>
      match usizeTryFrom (size - pos) with
      | none => pure none
      | some len => do
          ask (.newBytes len)
          let filled ← if 0 < len then platform.fill pos len else pure (some [])
          match whole len filled with
          | none => pure none
          | some data => confirm platform size data

end Methods

/-! ## Whole files by path -/

/-- `read_file` between the open and the close; the state is its own `Inner`. -/
def readOpened : FastProg Linux.Inner (Option Bytes) := do
  match ← Linux.Inner.size with
  | none => pure none
  | some size =>
      match usizeTryFrom size with
      | none => pure none
      | some len => do
          ask (.newBytes len)
          let filled ← Linux.Inner.fill 0 len
          match whole len filled with
          | none => pure none
          | some data => confirm .linux size data

/-- The result of a call that may have raised. -/
def reraise {σ α : Type} : Except Raised α → FastProg σ α
  | .ok value => pure value
  | .error error => .raise error

/-- `OwnedFd` closes the descriptor on every way out. -/
def withOwnedFd (fd : ℤ) : FastProg Linux.Inner (Option Bytes) := do
  .modify fun _ => .new fd
  let result ← readOpened.attempt
  ask (.close fd)
  reraise result

/-- `try_read_file`. -/
def readFile (path : Path) : FastProg Linux.Inner (Option Bytes) :=
  if 0 ∈ path then pure none
  else do
    match ← ask (.openat2 path) with
    | .error _ => pure none
    | .ok fd => withOwnedFd fd

end Turbofile.FastPath
