import Turbofile.Bridge.Completion
import Turbofile.Library.Fairness

/-!
# Whole-file reads above `LARGE_READ`

`read_bytes` returns the completion future of a `ReadFile` op.  For a large
file the op ends with an open handle; the drain then calls
`finish_large_read`, whose task reads the file, closes the handle and settles
the future.  The system below runs one such read: its cancels, the callbacks
of its ops, the drain and the turns of the loop come in any order.
-/

namespace Turbofile.LargeRead

open Turbofile.Core
open Turbofile.Asyncio
open Turbofile.Bridge

def LARGE_READ : ℕ := 1024 * 1024
def PARALLEL_CHUNK : ℕ := 512 * 1024

/-- What one step of the coroutine may ask of its own thread: `fast.size()`, and
whether the bytes object of `read_parallel` can be made. -/
structure Inline where
  size : Option ℕ
  memory : Bool
  deriving DecidableEq

/-- The awaits of `read_handle_to_end`, each with the future it waits for; the
`finally` keeps how the `try` ended. -/
inductive Reading
  | start
  | sizing (future : FutureId)
  | filling (future : FutureId) (sizeNow remaining : ℕ)
  | probing (future : FutureId) (parts : List (List Byte)) (offset : ℕ)
  | closing (future : FutureId) (ending : Except Exc (List Byte))
  | ended
  deriving DecidableEq

abbrev Step : Type := Signal FutureId Value × Reading × World

section Coroutine

variable (code : Raised → ℕ) (handle : Handle)

/-- What `await future` gives when the task is woken. -/
def received (exc : Option Exc) (future : FutureId) (world : World) : Except Exc Value :=
  match exc with
  | some exc => .error exc
  | none =>
      match world.outcome future with
      | some (.result value) => .ok value
      | some (.failed code) => .error (.other code)
      | some .cancelled | none => .error .cancelled

/-- The `finally` block. -/
def close (ending : Except Exc (List Byte)) (world : World) : Step :=
  let (future, world) := world.submit (.close handle) .plain
  (.waits future, .closing future ending, world)

def probe (parts : List (List Byte)) (offset : ℕ) (world : World) : Step :=
  let (future, world) := world.submit (.readToEnd handle offset) .plain
  (.waits future, .probing future parts offset, world)

def fill (inline : Inline) (sizeNow : ℕ) (world : World) : Step :=
  let remaining := sizeNow - 0
  if inline.memory then
    let (future, world) := world.readParallel handle 0 remaining PARALLEL_CHUNK
    (.waits future, .filling future sizeNow remaining, world)
  else close handle (.error (.other (code .memoryError))) world

/-- `read_handle_to_end`, with `read_to_eof_parallel` from offset 0 in its `try`. -/
def readHandleToEnd (inline : Inline) (exc : Option Exc) (reading : Reading) (world : World) :
    Step :=
  match reading with
  | .start =>
      match exc with
      | some exc => (.raises exc, .ended, world)
      | none =>
          match inline.size with
          | some sizeNow => fill code handle inline sizeNow world
          | none =>
              let (future, world) := world.submit (.size handle) .plain
              (.waits future, .sizing future, world)
  | .sizing future =>
      match received exc future world with
      | .error exc => close handle (.error exc) world
      | .ok (.number sizeNow) => fill code handle inline sizeNow world
      | .ok _ => close handle (.error (.other (code .typeError))) world
  | .filling future sizeNow remaining =>
      match received exc future world with
      | .error exc => close handle (.error exc) world
      | .ok (.bytes first) =>
          if first.length < remaining then close handle (.ok first) world
          else if inline.size = some sizeNow then close handle (.ok first) world
          else probe handle [first] (0 + first.length) world
      | .ok _ => close handle (.error (.other (code .typeError))) world
  | .probing future parts offset =>
      match received exc future world with
      | .error exc => close handle (.error exc) world
      | .ok (.bytes []) => close handle (.ok parts.flatten) world
      | .ok (.bytes (byte :: data)) =>
          probe handle (parts ++ [byte :: data]) (offset + (byte :: data).length) world
      | .ok _ => close handle (.error (.other (code .typeError))) world
  | .closing future ending =>
      match received exc future world with
      | .error exc => (.raises exc, .ended, world)
      | .ok _ =>
          match ending with
          | .ok data => (.returns (.bytes data), .ended, world)
          | .error exc => (.raises exc, .ended, world)
  | .ended => (.raises .cancelled, .ended, world)

end Coroutine

/-! ## The system -/

/-- `finish_large_read`: the task, and whether its done callback has run. -/
structure Continuation where
  handle : Handle
  task : Task Reading FutureId Value
  settled : Bool := false

/-- One call of `read_bytes`; its future is the first one of the world. -/
structure State where
  world : World
  continuation : Option Continuation := none

/-- The largest size a file can have: offsets are an `off_t`. -/
def maxFileSize : ℕ := 2 ^ 63 - 1

/-- The replies a driver gives to an op.  A read that starts at `pos` has no
bytes from beyond the largest file. -/
def fits (op : Op) (result : Core.Outcome) (data : List Byte) : Bool :=
  match result with
  | .error _ => true
  | .ok reply =>
      match op, reply with
      | .readAt _ _ (.into _ len), .read n => n == data.length && n ≤ len
      | .readToEnd _ pos, .bytes content =>
          content.isEmpty || pos + content.length ≤ maxFileSize
      | .size _, .size _ => true
      | .close _, .unit => true
      | .readFile _ _, .bytes _ => true
      | .readFile _ inlineMax, .handle _ size _ => inlineMax < size
      | _, _ => false

inductive Move
  | cancel
  | callback (index : ℕ) (result : Core.Outcome) (data : List Byte)
  | deliver (inline : Inline)
  | turn (inline : Inline)
  | settleFrom

/-- Everything but the requests to cancel. -/
def Move.progress : Move → Prop
  | .cancel => False
  | .callback _ _ _ | .deliver _ | .turn _ | .settleFrom => True

namespace State

variable (code : Raised → ℕ) (state : State)

def pending : Option (Asyncio.Outcome Value) := state.world.outcome 0

/-- `pending.cancel()`. -/
def cancel : State :=
  match state.world.futures[0]? with
  | none => state
  | some pending =>
      match pending.cancel.1, state.continuation with
      | some .continuation, some continuation =>
          let (task, world) := continuation.task.cancel World.cancelFuture state.world
          { world := world, continuation := some { continuation with task := task } }
      | _, _ => state

/-- `finish_large_read`, called by the drain. -/
def finishLargeRead (inline : Inline) (handle : Handle) (world : World) : State :=
  let (task, world) := Task.eager (readHandleToEnd code handle inline) .start world
  { world :=
      { world with futures := world.futures.modify 0 fun pending =>
          { pending with continuation := true } }
    continuation := some { handle := handle, task := task } }

def deliver (inline : Inline) : Option State :=
  match state.world.queue with
  | [] => none
  | completion :: rest =>
      match ({ state.world with queue := rest } : World).deliver code completion with
      | (world, none) => some { state with world := world }
      | (world, some (_, handle, _)) => some (finishLargeRead code inline handle world)

/-- The loop steps the task, which is woken once the future it waits for is done. -/
def turn (inline : Inline) : Option State :=
  state.continuation.bind fun continuation =>
    (continuation.task.run (readHandleToEnd code continuation.handle inline)
      (fun future world => world.outcome future) state.world).map fun (task, world) =>
        { world := world, continuation := some { continuation with task := task } }

/-- `settle_from`, the done callback of the task. -/
def settleFrom : Option State :=
  match state.continuation with
  | none => none
  | some continuation =>
      match continuation.settled, continuation.task.phase with
      | false, .done outcome =>
          some
            { world := state.world.settle 0 outcome
              continuation := some { continuation with settled := true } }
      | _, _ => none

def step (state : State) : Move → Option State
  | .cancel => some state.cancel
  | .callback index result data =>
      if (state.world.inflight[index]?).any fun entry => fits entry.op result data then
        (state.world.callback index result data).map fun world => { state with world := world }
      else none
  | .deliver inline => state.deliver code inline
  | .turn inline => state.turn code inline
  | .settleFrom => state.settleFrom

end State

/-- The future `read_bytes` returns: a file the platform could read inline is
there at once. -/
def readBytes (path : Path) (inlined : Option (List Byte)) : World :=
  match inlined with
  | some data => World.settle { futures := [{}] } 0 (.result (.bytes data))
  | none => (({} : World).submit (.readFile path LARGE_READ) (.wholeFile true)).2

def system (code : Raised → ℕ) : System State Move where
  init state := ∃ path inlined, state = { world := readBytes path inlined }
  step := State.step code

end Turbofile.LargeRead
