import Turbofile.Futures.KernelFuture

/-!
# Submissions and their completions

The part of the bridge that carries a result from the callback of an op to its
future.  The callback runs on a driver thread and pushes a completion, either
its own or, as the last chunk of a group, that of the group; the drain on the
loop thread delivers it.
-/

namespace Turbofile.Bridge

open Turbofile.Core
open Turbofile.Asyncio
open Turbofile.Futures

abbrev FutureId := ℕ
abbrev GroupId := ℕ

/-- What a future settles with, as Python sees it. -/
inductive Value
  | bytes (data : List Byte)
  | number (n : ℕ)
  | pair (n fileEnd : ℕ)
  | opened (handle : Handle) (size : ℕ) (fd : Fd)
  | nothing
  deriving DecidableEq

/-- The exceptions of this layer and of the coroutines above it. -/
inductive Raised
  | osError (error : IoError)
  | mismatchedReply
  | memoryError
  | typeError
  deriving DecidableEq

/-- `FillBytes` comes with the content of its bytes object. -/
inductive Output
  | plain
  | fillBytes (bytes : List Byte)
  | readInto
  | writtenCount
  | wholeFile (onHandle : Bool)
  deriving DecidableEq

structure Completion where
  future : FutureId
  result : Core.Outcome
  output : Output

structure ReadGroup where
  future : FutureId
  remaining : ℕ
  bytes : List Byte
  nLimit : ℕ
  error : Option IoError := none

/-- The two closures that are handed to `Driver::submit`. -/
inductive OnDone
  | complete (future : FutureId) (output : Output)
  | chunkDone (group : GroupId) (start len : ℕ)
  deriving DecidableEq

structure Inflight where
  op : Op
  onDone : OnDone

/-- `settles` lists the calls that settle a future, the newest first. -/
structure World where
  nextId : OpId := 0
  submitted : List Op := []
  inflight : List Inflight := []
  groups : List ReadGroup := []
  queue : List Completion := []
  futures : List (KernelFuture Value) := []
  settles : List (FutureId × Asyncio.Outcome Value) := []

def buildValue (reply : Reply) (output : Output) : Option Value :=
  match output with
  | .fillBytes bytes =>
      match reply with
      | .read n => some (.bytes (if bytes.length = n then bytes else bytes.take n))
      | .bytes data => some (.bytes data)
      | .handle id size fd => some (.opened id size fd)
      | .written n fileEnd => some (.pair n fileEnd)
      | .size size => some (.number size)
      | .unit => some .nothing
  | output =>
      match reply with
      | .read n => if output = .readInto then some (.number n) else none
      | .bytes data => some (.bytes data)
      | .handle id size fd => some (.opened id size fd)
      | .written n fileEnd =>
          if output = .writtenCount then some (.number n) else some (.pair n fileEnd)
      | .size size => some (.number size)
      | .unit => some .nothing

/-- What one chunk adds to its group. -/
def ReadGroup.record (group : ReadGroup) (start len : ℕ) (result : Core.Outcome)
    (data : List Byte) : ReadGroup :=
  let bytes := group.bytes.take start ++ data ++ group.bytes.drop (start + data.length)
  match result with
  | .ok (.read n) =>
      { group with
        bytes := bytes
        nLimit := if n < len then min group.nLimit (start + n) else group.nLimit }
  | .ok _ =>
      { group with
        bytes := bytes
        error := some (group.error.getD
          (.custom .other "mismatched turbofile reply in read group")) }
  | .error error => { group with bytes := bytes, error := some (group.error.getD error) }

@[simp]
theorem ReadGroup.record_future (group : ReadGroup) (start len : ℕ) (result : Core.Outcome)
    (data : List Byte) : (group.record start len result data).future = group.future := by
  cases result with
  | error error => rfl
  | ok reply => cases reply <;> rfl

@[simp]
theorem ReadGroup.record_remaining (group : ReadGroup) (start len : ℕ) (result : Core.Outcome)
    (data : List Byte) : (group.record start len result data).remaining = group.remaining := by
  cases result with
  | error error => rfl
  | ok reply => cases reply <;> rfl

/-- What the group's completion carries. -/
def ReadGroup.result (group : ReadGroup) : Core.Outcome :=
  match group.error with
  | some error => .error error
  | none => .ok (.read group.nLimit)

namespace World

variable (world : World)

def outcome (future : FutureId) : Option (Asyncio.Outcome Value) :=
  (world.futures[future]?).bind (·.outcome)

/-- `KernelFuture.cancel`; what it asks of the driver leaves no trace here. -/
def cancelFuture (future : FutureId) (world : World) : Bool × World :=
  match world.futures[future]? with
  | none => (false, world)
  | some future => (future.cancel.2, world)

def settle (future : FutureId) (outcome : Asyncio.Outcome Value) : World :=
  { world with
    futures := world.futures.modify future (·.settle outcome)
    settles := (future, outcome) :: world.settles }

def submit (op : Op) (output : Output) : FutureId × World :=
  let future := world.futures.length
  (future,
    { world with
      nextId := world.nextId + 1
      submitted := op :: world.submitted
      inflight := world.inflight ++ [⟨op, .complete future output⟩]
      futures := world.futures ++ [{ opIds := [world.nextId] }] })

/-- `ReadGroup::chunk_done`; `data` is what the kernel has put in the chunk's
part of the bytes object. -/
def chunkDone (group : GroupId) (start len : ℕ) (result : Core.Outcome) (data : List Byte) :
    World :=
  match world.groups[group]? with
  | none => world
  | some state =>
      let state := state.record start len result data
      let counted : World :=
        { world with
          groups := world.groups.set group { state with remaining := state.remaining - 1 } }
      if state.remaining ≠ 1 then counted
      else
        { counted with
          queue := counted.queue ++ [⟨state.future, state.result, .fillBytes state.bytes⟩] }

/-- The op of the chunk that begins at `start`. -/
def chunkOp (handle : Handle) (group : GroupId) (pos len chunk start : ℕ) : Inflight :=
  let chunkLen := min chunk (len - start)
  ⟨.readAt handle (u64Add pos start) (.into start chunkLen), .chunkDone group start chunkLen⟩

/-- `read_parallel`; its bytes object starts out with no content of interest. -/
def readParallel (handle : Handle) (pos len chunk : ℕ) : FutureId × World :=
  let future := world.futures.length
  let group := world.groups.length
  let chunkCount := max ((len + chunk - 1) / chunk) 1
  let made : World :=
    { world with
      groups := world.groups ++ [⟨future, chunkCount, List.replicate len 0, len, none⟩] }
  if len = 0 then
    let empty : World := { made with futures := world.futures ++ [{ opIds := [] }] }
    (future, empty.chunkDone group 0 0 (.ok (.read 0)) [])
  else
    let ops := (List.range chunkCount).map fun index =>
      chunkOp handle group pos len chunk (index * chunk)
    (future,
      { made with
        nextId := world.nextId + chunkCount
        submitted := (ops.map Inflight.op).reverse ++ world.submitted
        inflight := world.inflight ++ ops
        futures := world.futures ++
          [{ opIds := (List.range chunkCount).map (world.nextId + ·) }] })

/-- The driver runs the callback of one op. -/
def callback (index : ℕ) (result : Core.Outcome) (data : List Byte) : Option World :=
  (world.inflight[index]?).map fun entry =>
    let rest : World := { world with inflight := world.inflight.eraseIdx index }
    match entry.onDone with
    | .complete future output =>
        { rest with queue := rest.queue ++ [⟨future, result, output⟩] }
    | .chunkDone group start len => rest.chunkDone group start len result data

/-- The settling part of `deliver`: the handle of a large file goes to the hook
instead. -/
def deliver (code : Raised → ℕ) (completion : Completion) :
    World × Option (FutureId × Handle × Fd) :=
  match completion.result with
  | .error error =>
      if isCancelled error then (world.settle completion.future .cancelled, none)
      else (world.settle completion.future (.failed (code (.osError error))), none)
  | .ok reply =>
      let settled :=
        match buildValue reply completion.output with
        | some value => world.settle completion.future (.result value)
        | none => world.settle completion.future (.failed (code .mismatchedReply))
      match completion.output with
      | .wholeFile true =>
          match reply with
          | .handle id _ fd => (world, some (completion.future, id, fd))
          | .bytes _ | .read _ | .written _ _ | .size _ | .unit => (settled, none)
      | .plain | .fillBytes _ | .readInto | .writtenCount | .wholeFile false => (settled, none)

end World

end Turbofile.Bridge
