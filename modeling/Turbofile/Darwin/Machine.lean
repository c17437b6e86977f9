import Turbofile.Darwin.Chunks
import Turbofile.Drivers.FileService

/-!
# The POSIX AIO driver on a disk

The driver with a kernel that has the files: what the calls of a step answer is
read off the disk, and what they change is changed there.  Ops come one at a
time, each after the callback of the one before.
-/

namespace Turbofile.Darwin

open Turbofile.Core
open Turbofile.FileService

/-! ## The kernel's answers -/

/-- The open file of a descriptor. -/
def nodeOf (fd : Fd) : List Event → Option Node
  | [] => none
  | .opened fd' path flags :: log => if fd' = fd then some ⟨path, flags⟩ else nodeOf fd log
  | .closed fd' _ :: log => if fd' = fd then none else nodeOf fd log
  | _ :: log => nodeOf fd log

/-- The open file of a handle. -/
def State.nodeFor (handle : Handle) (state : State) : Option Node :=
  (state.files.lookup handle).bind fun entry => nodeOf entry.fd state.log

/-- What the kernel has free choice in: what wakes the driver, which descriptor
an open returns, whether there is a slot for a request, whether a request that
must fail does so at once, and whether one is completed. -/
structure Choice where
  wake : Wake := .msg
  fd : Fd := 0
  full : Bool := false
  early : Bool := false
  ready : Bool := false

def JobKind.payload : JobKind → List Byte
  | .write job => job.data.asSlice
  | .read _ | .fsync _ => []

section Kernel

variable (kernel : Kernel)

/-- Data is stored in full, at the end of a file that is open for appending: there
the kernel is taken to ignore the offset of an `aio_write`, a negative one too. -/
def put (node : Node) (offset : ℤ) (data : List Byte) (disk : Disk) : Except Errno Disk :=
  if node.flags.append then extend kernel node data disk else write kernel node offset data disk

/-- A call for the next chunk of a job.  The kernel is taken to serve a request of
any length, in full up to the end of the file. -/
def transfer (node : Node) (call : Syscall) (payload : List Byte) (disk : Disk) :
    Except Errno (Transferred × Disk) :=
  match call with
  | .aioRead offset _ nbytes | .pread offset _ nbytes =>
      (read node offset nbytes disk).map fun data => (⟨data.length, data⟩, disk)
  | .aioWrite offset start nbytes | .pwrite offset start nbytes =>
      let data := (payload.drop start).take nbytes
      (put kernel node offset data disk).map (⟨data.length, []⟩, ·)
  | .write start nbytes =>
      let data := (payload.drop start).take nbytes
      (extend kernel node data disk).map (⟨data.length, []⟩, ·)
  | .fstat | .ftruncate _ | .aioFsync | .aioCancel | .fsync => .ok (⟨0, []⟩, disk)

/-- The chunk is completed, or fails. -/
def chunkAnswers (node : Node) (kind : JobKind) (call : Syscall) (disk : Disk) :
    Answers × Disk :=
  match transfer kernel node call kind.payload disk with
  | .error errno => ({ aio := .failed errno, transfer := .error errno }, disk)
  | .ok (transferred, disk) =>
      ({ aio := .done transferred, transfer := .ok transferred, stat := .ok (stat node disk) },
        disk)

/-- The answer to a request for a chunk. -/
def requestAnswers (choice : Choice) (node : Node) (kind : JobKind) (call : Syscall)
    (disk : Disk) : Answers :=
  if choice.full then { submitted := .error .eagain }
  else
    match transfer kernel node call kind.payload disk with
    | .error errno => if choice.early then { submitted := .error errno } else {}
    | .ok _ => {}

def openAnswers (choice : Choice) (path : Path) (spec : OpenSpec) (disk : Disk) :
    Answers × Disk :=
  match openFlags spec with
  | none => ({}, disk)
  | some flags =>
      if 0 ∈ path then ({}, disk)
      else
        match openAt kernel ⟨path, flags⟩ disk with
        | .error errno => ({ openFd := .error errno }, disk)
        | .ok disk =>
            ({ openFd := .ok choice.fd, stat := .ok (stat ⟨path, flags⟩ disk) }, disk)

/-- The calls made while a message is handled. -/
def opAnswers (choice : Choice) (op : Op) (node : Option Node) (disk : Disk) : Answers × Disk :=
  match op with
  | .openFile path spec => openAnswers kernel choice path spec disk
  | .readFile path _ => openAnswers kernel choice path { read := true } disk
  | .writeFile path _ =>
      openAnswers kernel choice path { write := true, create := true, truncate := true } disk
  | .setLen _ size =>
      match node with
      | none => ({}, disk)
      | some node =>
          match truncate kernel node (asOffT size) disk with
          | .error errno => ({ ftruncate := .error errno }, disk)
          | .ok disk => ({}, disk)
  | .readAt .. | .readToEnd .. | .writeAt .. | .close _ | .sync .. | .size _ | .nop =>
      match node with
      | none => ({}, disk)
      | some node => ({ stat := .ok (stat node disk) }, disk)

/-- The op of the next message, if the next step handles it. -/
def State.handles (state : State) : Option Op :=
  match state.rx with
  | .submit _ op _ :: _ =>
      match state.point with
      | .head => if state.inflight.isEmpty && state.queue.isEmpty then some op else none
      | .drainRx => some op
      | _ => none
  | _ => none

/-- What the calls of the driver thread's next step answer. -/
def State.answers (choice : Choice) (disk : Disk) (state : State) : Answers × Disk :=
  match state.task with
  | .executeSync job =>
      match nodeOf job.fd state.log with
      | none => ({}, disk)
      | some node => chunkAnswers kernel node job.kind (syncCall job) disk
  | .submitReady =>
      match state.queue with
      | [] => ({}, disk)
      | job :: _ =>
          match nodeOf job.fd state.log with
          | none => ({}, disk)
          | some node => (requestAnswers kernel choice node job.kind (prepare job).2 disk, disk)
  | .none =>
      match state.point with
      | .reap index =>
          match state.inflight[index]? with
          | none => ({}, disk)
          | some entry =>
              match nodeOf entry.job.fd state.log with
              | none => ({}, disk)
              | some node =>
                  if choice.ready then chunkAnswers kernel node entry.job.kind entry.call disk
                  else ({}, disk)
      | _ =>
          match state.handles with
          | none => ({ wake := choice.wake }, disk)
          | some op =>
              let (ans, disk) := opAnswers kernel choice op ((named op).bind state.nodeFor) disk
              ({ ans with wake := choice.wake }, disk)

/-- The calls of a helper thread's next step. -/
def State.helperAnswers (choice : Choice) (index : ℕ) (disk : Disk) (state : State) :
    Answers × Disk :=
  match state.helpers[index]? with
  | some (.running (.openFile path spec _)) => openAnswers kernel choice path spec disk
  | _ => ({}, disk)

end Kernel

/-! ## The machine -/

/-- The driver, its disk, what it has answered, and the op it is at. -/
structure Machine where
  state : State
  disk : Disk
  calls : Calls
  pending : Option (OpId × Op)

/-- Where an op of the script goes to the driver, under its own handle. -/
inductive Turn
  | submit (id : OpId) (op : Op) (handle : Handle)
  | drive (choice : Choice)
  | help (index : ℕ) (choice : Choice)

def Event.outcome? (id : OpId) : Event → Option Outcome
  | .settled cb result => if cb = id then some result else none
  | _ => none

/-- The op is done once a step has run its callback. -/
def Machine.settle (events : List Event) (machine : Machine) : Machine :=
  match machine.pending with
  | none => machine
  | some (id, op) =>
      match events.findSome? (Event.outcome? id) with
      | none => machine
      | some outcome =>
          { machine with calls := machine.calls ++ [(op, outcome)], pending := none }

/-- The driver has taken a step. -/
def Machine.after (next : Option State) (disk : Disk) (machine : Machine) : Option Machine :=
  next.map fun next =>
    ({ machine with state := next, disk := disk }).settle (newEvents machine.state next)

def Machine.step (kernel : Kernel) (machine : Machine) (turn : Turn) : Option Machine :=
  match turn with
  | .submit id op handle =>
      if machine.pending.isNone ∧ (∀ slot ∈ named op, Names machine.calls slot handle) ∧
          suits (machine.state.nodeFor handle) op then
        (Darwin.step machine.state (.submit id (on handle op))).map fun next =>
          { machine with state := next, pending := some (id, op) }
      else none
  | .drive choice =>
      let (ans, disk) := machine.state.answers kernel choice machine.disk
      machine.after (Darwin.step machine.state (.drive ans)) disk
  | .help index choice =>
      let (ans, disk) := machine.state.helperAnswers kernel choice index machine.disk
      machine.after (Darwin.step machine.state (.help index ans)) disk

/-- Sequential runs on a disk. -/
def machines (kernel : Kernel) (disk : Disk) : System Machine Turn where
  init machine := driver.init machine.state ∧ machine.disk = disk ∧ machine.calls = [] ∧
    machine.pending = none
  step := Machine.step kernel

end Turbofile.Darwin
