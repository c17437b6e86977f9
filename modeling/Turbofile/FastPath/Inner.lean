import Turbofile.Core.Op
import Turbofile.Library.Coroutine

/-!
# The page-cache fast path, platform by platform

Each platform supplies an `Inner` with the same operations.  A read the
platform cannot serve at once answers `None`; the reads it serves are loops of
positional reads at `kernel_offset`.
-/

namespace Turbofile.FastPath

open Turbofile.Core
open Turbofile.Coroutine

abbrev Bytes := List Byte

/-- The system calls of the fast path, and the allocation of a `bytes`. -/
inductive SysCall
  | openat2 (path : Path)
  | close (fd : ℤ)
  | fstat (fd : ℤ)
  | preadv2 (fd offset : ℤ) (len : ℕ)
  | pread (fd offset : ℤ) (len : ℕ)
  | mmap (fd : ℤ) (len : ℕ)
  | munmap (addr len : ℕ)
  | mincore (addr len : ℕ)
  | newBytes (len : ℕ)
  deriving DecidableEq

/-- A read answers with the bytes it put into its buffer; the count it returns
is their number.  `mincore` answers with one flag byte for each page. -/
abbrev SysCall.Answer : SysCall → Type
  | .openat2 _ => Except Errno ℤ
  | .fstat _ => Except Errno FileStat
  | .preadv2 .. | .pread .. | .mincore .. => Except Errno Bytes
  | .mmap .. => Except Errno ℕ
  | .close _ | .munmap .. | .newBytes _ => Unit

/-- Where in the file a call reads. -/
def SysCall.offset : SysCall → Option ℤ
  | .preadv2 _ offset _ | .pread _ offset _ => some offset
  | _ => none

abbrev kernel : Interface := ⟨SysCall, SysCall.Answer⟩

/-- What a method of `FastPath` can raise. -/
inductive Raised
  | valueError (message : String)
  | memoryError
  deriving DecidableEq

abbrev FastProg (σ : Type) := Prog kernel σ Raised

def ask {σ : Type} (c : SysCall) : FastProg σ c.Answer :=
  @Prog.await kernel σ Raised c

/-! ## Helpers shared by the platforms -/

/-- `u64::checked_add`. -/
def checkedAdd (m n : ℕ) : Option ℕ := if m + n < 2 ^ 64 then some (m + n) else none

/-- `off_t::try_from`. -/
def offTryFrom (pos : ℕ) : Option ℤ := if pos < 2 ^ 63 then some pos else none

/-- `usize::try_from`, on a 64-bit platform. -/
def usizeTryFrom (size : ℕ) : Option ℕ := if size < 2 ^ 64 then some size else none

def kernelOffset (pos filled : ℕ) : Option ℤ := (checkedAdd pos filled).bind offTryFrom

def fileSize {σ : Type} (fd : ℤ) : FastProg σ (Option ℕ) :=
  if fd < 0 then pure none
  else do
    let stat ← ask (.fstat fd)
    pure (regularFileSize stat)

/-- One round of the loop in `fill`; `filled` is what the buffer holds. -/
def fillRound {σ : Type} (read : ℤ → ℕ → FastProg σ (Except Errno Bytes)) (pos len : ℕ)
    (filled : Bytes) : FastProg σ (Bytes ⊕ Option Bytes) :=
  if filled.length < len then
    match kernelOffset pos filled.length with
    | none => pure (.inr none)
    | some offset => do
        match ← read offset (len - filled.length) with
        | .error .eintr => pure (.inl filled)
        | .error _ => pure (.inr none)
        | .ok data =>
            if data.isEmpty then pure (.inr (some filled)) else pure (.inl (filled ++ data))
  else pure (.inr (some filled))

def fillLoop {σ : Type} (read : ℤ → ℕ → FastProg σ (Except Errno Bytes)) (pos len : ℕ) :
    FastProg σ (Option Bytes) :=
  .repeatUntil (fillRound read pos len) []

/-! ## Linux -/

namespace Linux

structure Inner where
  fd : ℤ
  deriving DecidableEq

namespace Inner

def new (fd : ℤ) : Inner := ⟨fd⟩

def size : FastProg Inner (Option ℕ) := do
  let self ← .state
  fileSize self.fd

def fill (pos len : ℕ) : FastProg Inner (Option Bytes) := do
  let self ← .state
  if self.fd < 0 then pure none
  else fillLoop (fun offset n => ask (.preadv2 self.fd offset n)) pos len

/-- One byte past `size` must read as the end of the file. -/
def atEof (size : ℕ) : FastProg Inner Bool :=
  match kernelOffset size 0 with
  | none => pure false
  | some offset => do
      let self ← .state
      match ← ask (.preadv2 self.fd offset 1) with
      | .ok data => pure data.isEmpty
      | .error _ => pure false

def probe (fd : ℤ) (_ : Unit) : FastProg Inner (Unit ⊕ Bool) := do
  match ← ask (.preadv2 fd 0 1) with
  | .ok _ => pure (.inr true)
  | .error .eintr => pure (.inl ())
  | .error .eagain => pure (.inr true)
  | .error _ => pure (.inr false)

def supported : FastProg Inner Bool := do
  let self ← .state
  if self.fd < 0 then pure false
  else .repeatUntil (probe self.fd) ()

end Inner

end Linux

/-! ## Darwin -/

namespace Darwin

def HEADROOM : ℕ := 2 ^ 20

def FLAGS_PER_CALL : ℕ := 256

/-- A mapping of the file's first `len` bytes. -/
structure View where
  addr : ℕ
  len : ℕ
  deriving DecidableEq

structure Inner where
  fd : ℤ
  view : Option View
  deriving DecidableEq

def viewLen (page size : ℕ) : Option ℕ := do
  let padded ← checkedAdd size (page - 1)
  let reserved ← checkedAdd (padded / page * page) HEADROOM
  usizeTryFrom reserved

/-- The first page of a `mincore` vector that is not resident. -/
def coldPage (flags : Bytes) : Option ℕ := flags.findIdx? fun flag => flag &&& 1 = 0

namespace Inner

def new (fd : ℤ) : Inner := ⟨fd, none⟩

def size : FastProg Inner (Option ℕ) := do
  let self ← .state
  fileSize self.fd

def viewCovers (self : Inner) (stop : ℕ) : Bool := self.view.any fun view => stop ≤ view.len

/-- A new view takes the place of the old one, which is unmapped. -/
def replaceView (view : View) : FastProg Inner Unit := do
  let self ← .state
  .modify fun self => { self with view := some view }
  match self.view with
  | none => pure ()
  | some old => ask (.munmap old.addr old.len)

def ensureView (page stop : ℕ) : FastProg Inner Bool := do
  let self ← .state
  if self.viewCovers stop then pure true
  else do
    match ← fileSize self.fd with
    | none => pure false
    | some size =>
        match viewLen page size with
        | none => pure false
        | some len =>
            if self.view.any fun view => len ≤ view.len then pure false
            else do
              match ← ask (.mmap self.fd len) with
              | .error _ => pure false
              | .ok addr => do
                  replaceView ⟨addr, len⟩
                  let self ← .state
                  pure (self.viewCovers stop)

/-- One `mincore` call of the loop in `resident`, for the pages from `off` on. -/
def residentRound (page addr last off : ℕ) : FastProg Inner (ℕ ⊕ Bool) :=
  if off < last then do
    let chunk := min (last - off) (FLAGS_PER_CALL * page)
    match ← ask (.mincore (addr + off) chunk) with
    | .error _ => pure (.inr false)
    | .ok flags =>
        match coldPage (flags.take (chunk / page)) with
        | none => pure (.inl (off + chunk))
        | some index => do
            let self ← .state
            let size ← fileSize self.fd
            pure (.inr (size.any fun size => size ≤ off + index * page))
  else pure (.inr true)

/-- Every page of `[pos, pos + len)` that holds file data is resident. -/
def resident (page pos len : ℕ) : FastProg Inner Bool :=
  match checkedAdd pos len with
  | none => pure false
  | some stop => do
      if ← ensureView page stop then do
        let self ← .state
        match self.view with
        | none => pure false
        | some view =>
            let first := pos / page * page
            let last := (stop + (page - 1)) / page * page
            .repeatUntil (residentRound page view.addr last) first
      else pure false

def fill (page pos len : ℕ) : FastProg Inner (Option Bytes) := do
  if ← resident page pos len then do
    let self ← .state
    fillLoop (fun offset n => ask (.pread self.fd offset n)) pos len
  else pure none

/-- A second `fstat` must agree with the first. -/
def atEof (size : ℕ) : FastProg Inner Bool := do
  let self ← .state
  let sizeNow ← fileSize self.fd
  pure (sizeNow = some size)

def supported (page : ℕ) : FastProg Inner Bool := do
  let self ← .state
  if self.view.isSome then pure true else ensureView page 0

end Inner

end Darwin

/-! ## The platforms -/

/-- The `Inner` of a platform. -/
structure Platform where
  Inner : Type
  new : ℤ → Inner
  size : FastProg Inner (Option ℕ)
  fill : ℕ → ℕ → FastProg Inner (Option Bytes)
  atEof : ℕ → FastProg Inner Bool
  supported : FastProg Inner Bool

/-- The targets, Darwin with what `sysconf` says is its page size. -/
inductive Os
  | linux
  | darwin (page : ℕ)
  | other

namespace Platform

def linux : Platform where
  Inner := Linux.Inner
  new := .new
  size := Linux.Inner.size
  fill := Linux.Inner.fill
  atEof := Linux.Inner.atEof
  supported := Linux.Inner.supported

def darwin (page : ℕ) : Platform where
  Inner := Darwin.Inner
  new := .new
  size := Darwin.Inner.size
  fill := Darwin.Inner.fill page
  atEof := Darwin.Inner.atEof
  supported := Darwin.Inner.supported page

/-- No way to ask about residency without blocking. -/
def none : Platform where
  Inner := Unit
  new _ := ()
  size := pure Option.none
  fill _ _ := pure Option.none
  atEof _ := pure false
  supported := pure false

end Platform

def Os.platform : Os → Platform
  | .linux => .linux
  | .darwin page => .darwin (max page 1)
  | .other => .none

end Turbofile.FastPath
