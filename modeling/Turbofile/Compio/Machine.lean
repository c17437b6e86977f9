import Turbofile.Compio.Step
import Turbofile.Drivers.FileService
import Turbofile.Drivers.OpenModes

/-!
# The compio driver on a disk

The driver with a kernel that has the files, for ops that come one at a time.
The methods of `File` do what their names say: a read to the end and a write of
everything are one answer, and nothing is written for an empty payload.
-/

namespace Turbofile.Compio.OnDisk

open Turbofile.Core
open Turbofile.FileService
open Turbofile.OpenModes (openOptions stdFlags)

/-! ## The kernel's answers -/

/-- The open file of a descriptor. -/
def nodeOf (fd : Fd) : List Event → Option Node
  | [] => none
  | .opened fd' path spec :: log =>
      if fd' = fd then (stdFlags (openOptions spec)).map (⟨path, ·⟩) else nodeOf fd log
  | .closed fd' :: log => if fd' = fd then none else nodeOf fd log
  | _ :: log => nodeOf fd log

/-- The open file of a handle. -/
def nodeFor (handle : Handle) (state : State) : Option Node :=
  (state.files.lookup handle).bind fun fd => nodeOf fd state.log

/-- The path and the options an op opens with. -/
def opens : Op → Option (Path × OpenSpec)
  | .openFile path spec => some (path, spec)
  | .readFile path _ => some (path, { read := true })
  | .writeFile path _ => some (path, { write := true, create := true, truncate := true })
  | _ => none

/-- Where an op reads to the end from. -/
def endFrom : Op → ℕ
  | .readToEnd _ pos => pos
  | _ => 0

section Kernel

variable (kernel : Kernel)

/-- A path with a NUL and options without access are refused before any call. -/
def openAnswers (fd : Fd) (path : Path) (spec : OpenSpec) (disk : Disk) : Answers × Disk :=
  if 0 ∈ path then ({ openFd := .error einval }, disk)
  else
    match stdFlags (openOptions spec) with
    | none => ({ openFd := .error einval }, disk)
    | some flags =>
        match openAt kernel ⟨path, flags⟩ disk with
        | .error errno => ({ openFd := .error errno }, disk)
        | .ok disk => ({ openFd := .ok fd }, disk)

def changeAnswers (called : Except Errno Disk) (disk : Disk) : Answers × Disk :=
  match called with
  | .error errno => ({ done := .error errno }, disk)
  | .ok disk => ({}, disk)

/-- The call a task with an open file waits for. -/
def callAnswers (op : Op) (stage : Stage) (node : Node) (disk : Disk) : Answers × Disk :=
  match stage with
  | .statting _ => ({ stat := .ok (stat node disk) }, disk)
  | .reading _ buf =>
      match op with
      | .readAt _ pos _ =>
          ({ data := read node (asOffT (u64Add pos buf.len)) buf.cap disk }, disk)
      | _ => ({}, disk)
  | .readingToEnd _ =>
      ({ data := read node (asOffT (endFrom op)) (stat node disk).size disk }, disk)
  | .writing _ =>
      match op with
      | .writeAt _ pos data _ =>
          if data.isEmpty then ({}, disk)
          else changeAnswers (write kernel node (asOffT pos) data.asSlice disk) disk
      | .writeFile _ data =>
          if data.isEmpty then ({}, disk)
          else changeAnswers (write kernel node 0 data.asSlice disk) disk
      | _ => ({}, disk)
  | .appending _ =>
      match op with
      | .writeAt _ _ data _ =>
          if data.isEmpty then ({}, disk)
          else changeAnswers (extend kernel node data.asSlice disk) disk
      | _ => ({}, disk)
  | .resizing _ =>
      match op with
      | .setLen _ size => changeAnswers (truncate kernel node (asOffT size) disk) disk
      | _ => ({}, disk)
  | .spawned | .opening | .syncing _ | .closing _ _ => ({}, disk)

/-- What the call of a poll answers. -/
def answers (fd : Fd) (index : ℕ) (disk : Disk) (state : State) : Answers × Disk :=
  match state.tasks[index]? with
  | none => ({}, disk)
  | some task =>
      match task.stage.fd with
      | some fd =>
          match nodeOf fd state.log with
          | none => ({}, disk)
          | some node => callAnswers kernel task.op task.stage node disk
      | none =>
          if task.stage = .opening then
            match opens task.op with
            | none => ({}, disk)
            | some (path, spec) => openAnswers kernel fd path spec disk
          else ({}, disk)

end Kernel

/-! ## The machine -/

/-- The driver, its disk, what it has answered, and the op it is at. -/
structure Machine where
  state : State
  disk : Disk
  calls : Calls
  pending : Option (OpId × Op)

/-- `fd` is the descriptor an open returns. -/
inductive Turn
  | submit (id : OpId) (op : Op) (handle : Handle)
  | recv
  | poll (index : ℕ) (fd : Fd)

def outcome? (id : OpId) : Event → Option Outcome
  | .settled cb result => if cb = id then some result else none
  | _ => none

def newEvents (state next : State) : List Event :=
  next.log.take (next.log.length - state.log.length)

/-- The op is done once a step has run its callback. -/
def Machine.settle (events : List Event) (machine : Machine) : Machine :=
  match machine.pending with
  | none => machine
  | some (id, op) =>
      match events.findSome? (outcome? id) with
      | none => machine
      | some outcome =>
          { machine with calls := machine.calls ++ [(op, outcome)], pending := none }

/-- The driver has taken a step. -/
def Machine.after (next : Option State) (disk : Disk) (machine : Machine) : Option Machine :=
  next.map fun next =>
    ({ machine with state := next, disk := disk }).settle (newEvents machine.state next)

/-- What a mode gives: an access, the write access it takes to make or cut a
file, and never both a new file and a cut one. -/
def modal (spec : OpenSpec) : Bool :=
  (spec.read || spec.write || spec.append) &&
    (!(spec.truncate || spec.create || spec.createNew) || spec.write || spec.append) &&
    !(spec.truncate && spec.createNew)

def opensModal : Op → Bool
  | .openFile _ spec => modal spec
  | _ => true

/-- Positions, sizes and lengths stay clear of the end of `off_t`: io_uring takes
the offset `u64::MAX` for the file's current position, and refuses a range that
ends behind `i64::MAX`. -/
def inRange : Op → Bool
  | .readAt _ pos dest => pos < 2 ^ 61 && dest.asked < 2 ^ 61
  | .readToEnd _ pos => pos < 2 ^ 61
  | .writeAt _ pos data _ => pos < 2 ^ 61 && data.len < 2 ^ 61
  | .setLen _ size => size < 2 ^ 61
  | _ => true

/-- The kernel never hands out a descriptor that is still open. -/
def fresh (ans : Answers) (state : State) : Bool :=
  match ans.openFd with
  | .ok fd => decide (fd ∉ state.heldFds)
  | .error _ => true

def Machine.step (kernel : Kernel) (machine : Machine) (turn : Turn) : Option Machine :=
  match turn with
  | .submit id op handle =>
      if machine.pending.isNone ∧ (∀ slot ∈ named op, Names machine.calls slot handle) ∧
          suits (nodeFor handle machine.state) op ∧ opensModal op ∧ inRange op then
        (Compio.step machine.state (.submit id (on handle op))).map fun next =>
          { machine with state := next, pending := some (id, op) }
      else none
  | .recv => machine.after (Compio.step machine.state .recv) machine.disk
  | .poll index fd =>
      let (ans, disk) := answers kernel fd index machine.disk machine.state
      if fresh ans machine.state then
        machine.after (Compio.step machine.state (.poll index ans)) disk
      else none

/-- Sequential runs on a disk. -/
def machines (kernel : Kernel) (disk : Disk) : System Machine Turn where
  init machine := driver.init machine.state ∧ machine.disk = disk ∧ machine.calls = [] ∧
    machine.pending = none
  step := Machine.step kernel

/-- On the options a mode gives, the two ways to flags agree. -/
theorem stdFlags_wanted {spec : OpenSpec} (hmodal : modal spec = true) :
    stdFlags (openOptions spec) = wanted spec := by
  have hall : ∀ read write append truncate create createNew : Bool,
      modal ⟨read, write, append, truncate, create, createNew⟩ = true →
      stdFlags (openOptions ⟨read, write, append, truncate, create, createNew⟩) =
        wanted ⟨read, write, append, truncate, create, createNew⟩ := by decide
  exact hall _ _ _ _ _ _ hmodal

/-- Whatever `open` submits has such options. -/
theorem opensModal_of_openFile {repr : String → String} {args : OpenModes.OpenArgs}
    {info : ModeInfo} {op : Op}
    (hopen : OpenModes.openFile repr args = .ok (info, op)) : opensModal op = true := by
  obtain ⟨hinfo, -, -, rfl⟩ := OpenModes.openFile_ok_iff.mp hopen
  obtain ⟨⟨base, updating, kind⟩, -, rfl⟩ := OpenModes.parseMode_spells.mp hinfo
  rw [opensModal]
  cases base <;> cases updating <;> cases kind <;> decide

end Turbofile.Compio.OnDisk
