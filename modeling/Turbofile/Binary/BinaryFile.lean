import Turbofile.Binary.Reference
import Turbofile.Library.Coroutine

/-!
# Binary async file objects

`BinaryFile` method by method.  A call is a call into the extension module: the
ones on the `FastPath` are inline and answer at once, the others are awaited.
-/

namespace Turbofile.Binary

open Turbofile.Core
open Turbofile.Coroutine

/-- The reads of a `FastPath`, which answer `None` or data. -/
inductive Probe
  | read (pos size : ℕ)
  | readinto (pos size : ℕ)
  | readAll (start : ℕ)
  deriving DecidableEq

inductive BridgeCall
  | fast (fd : Fd) (probe : Probe)
  | fastSize (fd : Fd)
  | fastSupported (fd : Fd)
  | read (handle : Handle) (pos size : ℕ)
  | readinto (handle : Handle) (pos size : ℕ)
  | readToEnd (handle : Handle) (pos : ℕ)
  | readParallel (handle : Handle) (pos size chunk : ℕ)
  | write (handle : Handle) (pos : ℕ) (data : Bytes) (append : Bool)
  | setLen (handle : Handle) (size : ℤ)
  | size (handle : Handle)
  | close (handle : Handle)
  deriving DecidableEq

/-- A `readinto` answers with the bytes it put at the front of the buffer; the
count it returns is their number. -/
abbrev BridgeCall.Answer : BridgeCall → Type
  | .fast .. => Option Bytes
  | .fastSize _ => Option ℕ
  | .fastSupported _ => Bool
  | .read .. | .readinto .. | .readToEnd .. | .readParallel .. => Bytes
  | .write .. => ℕ × ℕ
  | .setLen .. | .close _ => Unit
  | .size _ => ℕ

/-- Inline calls never suspend the coroutine that makes them. -/
def BridgeCall.awaited : BridgeCall → Bool
  | .fast .. | .fastSize _ | .fastSupported _ => false
  | _ => true

abbrev bridge : Interface := ⟨BridgeCall, BridgeCall.Answer⟩

def LARGE_READ : ℕ := 1024 * 1024

def PARALLEL_CHUNK : ℕ := 512 * 1024

/-- `fast` is whether there still is a `FastPath`; `sizeHint` is a heuristic. -/
structure BinaryFile where
  handle : Handle
  fd : Fd
  info : ModeInfo
  pos : ℕ
  isOpen : Bool
  pending : Bytes
  fast : Bool
  sizeHint : ℕ
  deriving DecidableEq

abbrev BinaryProg := Prog bridge BinaryFile PyError

def ask (c : BridgeCall) : BinaryProg c.Answer :=
  @Prog.await bridge BinaryFile PyError c

/-- `read_to_eof_parallel`'s loop to true EOF. -/
def readTail (handle : Handle) : List Bytes × ℕ → BinaryProg (List Bytes × ℕ ⊕ Bytes)
  | (parts, offset) => do
      let tail ← ask (.readToEnd handle offset)
      if tail.isEmpty then pure (.inr parts.flatten)
      else pure (.inl (parts ++ [tail], offset + tail.length))

/-- `fast.size() if fast else None`. -/
def inlineSize (fd : Fd) (fast : Bool) : BinaryProg (Option ℕ) :=
  if fast then ask (.fastSize fd) else pure none

def sizeSnapshot (handle : Handle) (fd : Fd) (fast : Bool) : BinaryProg ℕ := do
  match ← inlineSize fd fast with
  | some size => pure size
  | none => ask (.size handle)

/-- Everything from `start` on, filled by parallel chunks. -/
def readToEofParallel (handle : Handle) (fd : Fd) (fast : Bool) (start : ℕ) :
    BinaryProg Bytes := do
  let sizeNow ← sizeSnapshot handle fd fast
  let remaining := sizeNow - start
  let first ← ask (.readParallel handle start remaining PARALLEL_CHUNK)
  if first.length < remaining then pure first
  else do
    let confirmed ← inlineSize fd fast
    if confirmed = some sizeNow then pure first
    else .repeatUntil (readTail handle) ([first], start + first.length)

/-- The mode `r+b`. -/
def readWrite : ModeInfo := ⟨true, true, false, false, false, false, true⟩

namespace BinaryFile

def new (handle : Handle) (fd : Fd) (size : ℕ) (info : ModeInfo) : BinaryFile where
  handle := handle
  fd := fd
  info := info
  pos := if info.append then size else 0
  isOpen := true
  pending := []
  fast := true
  sizeHint := size

def checkOpen : BinaryProg Unit := do
  let self ← .state
  if self.isOpen then pure () else .raise (.valueError "I/O operation on closed file")

def checkReadable : BinaryProg Unit := do
  let self ← .state
  if self.info.read then pure () else .raise notReadable

def checkWritable : BinaryProg Unit := do
  let self ← .state
  if self.info.writable then pure () else .raise notWritable

def fastDeclined : BinaryProg Unit := do
  let self ← .state
  if self.fast then do
    let supported ← ask (.fastSupported self.fd)
    if supported then pure () else .modify fun self => { self with fast := false }
  else pure ()

/-- Ask the `FastPath`, if there is one, and after a `None` whether it can ever
apply: `read_resident`, `readinto_resident` and the start of a read-all. -/
def resident (probe : Probe) : BinaryProg (Option Bytes) := do
  let self ← .state
  let data ← if self.fast then ask (.fast self.fd probe) else pure none
  match data with
  | some data => pure (some data)
  | none => do
      fastDeclined
      pure none

/-- `read_resident`, and the kernel read when it answers `None`. -/
def fetch (pos size : ℕ) : BinaryProg Bytes := do
  let self ← .state
  match ← resident (.read pos size) with
  | some data => pure data
  | none => ask (.read self.handle pos size)

/-- `readinto_resident`, and the kernel read when it answers `None`. -/
def fetchInto (pos size : ℕ) : BinaryProg Bytes := do
  let self ← .state
  match ← resident (.readinto pos size) with
  | some data => pure data
  | none => ask (.readinto self.handle pos size)

/-! ## Reads -/

def readAllLarge (start : ℕ) : BinaryProg Bytes := do
  let self ← .state
  let rest ← readToEofParallel self.handle self.fd self.fast start
  let self ← .state
  let data := self.pending ++ rest
  let pos := start + rest.length
  .modify fun self =>
    { self with pending := [], pos := pos, sizeHint := max self.sizeHint pos }
  pure data

/-- `fast.read_all`, and the kernel's read to end when it answers `None`. -/
def fetchAll (start : ℕ) : BinaryProg Bytes := do
  let self ← .state
  match ← resident (.readAll start) with
  | some rest => pure rest
  | none => ask (.readToEnd self.handle start)

/-- `read` without a size. -/
def readRest : BinaryProg Bytes := do
  let self ← .state
  let start := self.pos + self.pending.length
  if LARGE_READ ≤ self.sizeHint - start then readAllLarge start
  else do
    let rest ← fetchAll start
    let self ← .state
    let data := self.pending ++ rest
    .modify fun self =>
      { self with
        pending := []
        pos := self.pos + data.length
        sizeHint := max self.sizeHint (self.pos + data.length) }
    pure data

/-- Take `n` bytes of the read-ahead. -/
def takePending (n : ℕ) : BinaryProg Bytes := do
  let self ← .state
  let data := self.pending.take n
  .modify fun self => { self with pending := self.pending.drop n, pos := self.pos + data.length }
  pure data

/-- `read` of `size` bytes. -/
def readSized (size : ℕ) : BinaryProg Bytes := do
  let self ← .state
  if size ≤ self.pending.length then takePending size
  else do
    let head := self.pending
    .modify fun self => { self with pending := [] }
    let rest ← fetch (self.pos + head.length) (size - head.length)
    let data := head ++ rest
    .modify fun self => { self with pos := self.pos + data.length }
    pure data

def read (size : Option ℤ) : BinaryProg Bytes := do
  checkOpen
  checkReadable
  match asked size with
  | none => readRest
  | some size => readSized size

def read1 (size : ℤ) : BinaryProg Bytes := do
  checkOpen
  checkReadable
  let want := if size < 0 then CHUNK else size.toNat
  let self ← .state
  if self.pending.isEmpty then do
    let data ← fetch self.pos want
    .modify fun self => { self with pos := self.pos + data.length }
    pure data
  else takePending want

def readall : BinaryProg Bytes := read (some (-1))

/-- The size is not looked at. -/
def peek (_size : ℤ) : BinaryProg Bytes := do
  checkOpen
  checkReadable
  let self ← .state
  if self.pending.isEmpty then do
    let ahead ← fetch self.pos CHUNK
    .modify fun self => { self with pending := ahead }
    pure ahead
  else pure self.pending

/-- One round of `readline`'s loop: the parts so far and their total length. -/
def fetchLine (limit : Option ℕ) :
    List Bytes × ℕ → BinaryProg (List Bytes × ℕ ⊕ List Bytes)
  | (parts, total) => do
      let self ← .state
      let chunk ← fetch (self.pos + total) CHUNK
      if chunk.isEmpty then pure (.inr parts)
      else if (findNewline chunk).isSome then pure (.inr (parts ++ [chunk]))
      else if limit.any (· ≤ total + chunk.length) then pure (.inr (parts ++ [chunk]))
      else pure (.inl (parts ++ [chunk], total + chunk.length))

/-- Read ahead until the next line or the limit is in `pending`. -/
def fillLine (limit : Option ℕ) : BinaryProg Unit := do
  let self ← .state
  if (findNewline self.pending).isNone ∧ limit.all (self.pending.length < ·) then do
    let parts ← .repeatUntil (fetchLine limit) ([self.pending], self.pending.length)
    .modify fun self => { self with pending := parts.flatten }
  else pure ()

def readline (size : Option ℤ) : BinaryProg Bytes := do
  checkOpen
  checkReadable
  let limit := asked size
  fillLine limit
  let self ← .state
  let stop := lineLength limit self.pending
  let line := self.pending.take stop
  .modify fun self => { self with pending := self.pending.drop stop, pos := self.pos + stop }
  pure line

/-- One round of `readlines`' loop: the lines so far and their total length. -/
def nextLine (hint : Option ℤ) :
    List Bytes × ℕ → BinaryProg (List Bytes × ℕ ⊕ List Bytes)
  | (lines, total) => do
      let line ← readline (some (-1))
      if line.isEmpty then pure (.inr lines)
      else if hint.any fun size => 0 < size ∧ size ≤ ((total + line.length : ℕ) : ℤ) then
        pure (.inr (lines ++ [line]))
      else pure (.inl (lines ++ [line], total + line.length))

def readlines (hint : Option ℤ) : BinaryProg (List Bytes) :=
  .repeatUntil (nextLine hint) ([], 0)

/-- The count returned and the buffer afterwards. -/
def readinto (buffer : Bytes) : BinaryProg (ℕ × Bytes) := do
  checkOpen
  checkReadable
  let self ← .state
  if self.pending.isEmpty then do
    let data ← fetchInto self.pos buffer.length
    .modify fun self => { self with pos := self.pos + data.length }
    pure (data.length, data ++ buffer.drop data.length)
  else do
    let n := min buffer.length self.pending.length
    let front := self.pending.take n
    .modify fun self => { self with pending := self.pending.drop n, pos := self.pos + n }
    if n = buffer.length then pure (n, front)
    else do
      let self ← .state
      let rest ← fetchInto self.pos (buffer.length - n)
      .modify fun self => { self with pos := self.pos + rest.length }
      pure (n + rest.length, front ++ rest ++ buffer.drop (n + rest.length))

/-! ## Writes and positions -/

def write (data : Bytes) : BinaryProg ℕ := do
  checkOpen
  checkWritable
  .modify fun self => { self with pending := [] }
  let self ← .state
  let (n, fileEnd) ← ask (.write self.handle self.pos data self.info.append)
  .modify fun self => { self with pos := fileEnd, sizeHint := max self.sizeHint fileEnd }
  pure n

/-- The target `seek` computes from `whence`. -/
def seekFrom (pos whence : ℤ) : BinaryProg ℤ := do
  let self ← .state
  if whence = 0 then pure pos
  else if whence = 1 then pure (self.pos + pos)
  else if whence = 2 then do
    let sizeNow ← ask (.size self.handle)
    .modify fun self => { self with sizeHint := sizeNow }
    pure (sizeNow + pos)
  else .raise (badWhence whence)

def seek (pos whence : ℤ) : BinaryProg ℤ := do
  checkOpen
  let target ← seekFrom pos whence
  if target < 0 then .raise .invalidArgument
  else do
    .modify fun self => { self with pending := [], pos := target.toNat }
    pure target

def tell : BinaryProg ℕ := do
  checkOpen
  let self ← .state
  pure self.pos

def truncate (size : Option ℤ) : BinaryProg ℤ := do
  checkOpen
  checkWritable
  let self ← .state
  let target := size.getD self.pos
  .modify fun self => { self with pending := [] }
  let _ ← ask (.setLen self.handle target)
  .modify fun self => { self with sizeHint := target.toNat }
  pure target

def close : BinaryProg Unit := do
  let self ← .state
  if self.isOpen then do
    .modify fun self => { self with isOpen := false, pending := [], fast := false }
    ask (.close self.handle)
  else pure ()

/-- An operation by its name, with its result as a value. -/
def perform (op : BinOp) : BinaryProg Value :=
  match op with
  | .read size => do pure (.bytes (← read size))
  | .read1 size => do pure (.bytes (← read1 size))
  | .readall => do pure (.bytes (← readall))
  | .peek size => do pure (.bytes (← peek size))
  | .readline size => do pure (.bytes (← readline size))
  | .readlines hint => do pure (.lines (← readlines hint))
  | .readinto buffer => do
      let (n, buffer) ← readinto buffer
      pure (.filled n buffer)
  | .write data => do pure (.int (← write data))
  | .seek pos whence => do pure (.int (← seek pos whence))
  | .tell => do pure (.int (← tell))
  | .truncate size => do pure (.int (← truncate size))

/-- One operation after the other; an error ends an operation, not the sequence. -/
def performAll : List BinOp → BinaryProg (List (BinOp × Result))
  | [] => pure []
  | op :: ops => do
      let result ← (perform op).attempt
      let results ← performAll ops
      pure ((op, result) :: results)

end BinaryFile

end Turbofile.Binary
