import Turbofile.Bridge.ParallelFill
import Turbofile.Futures.Driven
import Turbofile.Futures.Handoff

/-!
# One event loop and everything it waits for

The bridge of a loop with any number of single ops, parallel reads, handed-over
reads and tasks at once.  The driver thread runs the callbacks, also while the
loop thread is still submitting the chunks of a read; on the loop thread the
drain, the tasks, their done callbacks and the requests to cancel come in any
order.
-/

namespace Turbofile.EventLoop

open Turbofile.Core
open Turbofile.Asyncio
open Turbofile.Bridge
open Turbofile.Futures
open Turbofile.LargeRead (Continuation Reading Inline readHandleToEnd)

/-- A read that the drain has handed over to `finish_large_read`.  `asked`
records the futures its task has waited for. -/
structure Handed where
  owner : FutureId
  continuation : Continuation
  asked : List FutureId := []

/-- A task around a future, which it drives itself or awaits in a coroutine;
its coroutine is the flag whether it has come to the await. -/
structure Waiter where
  future : FutureId
  driving : Bool
  task : Task Bool Unit Value

/-- `unsubmitted` is what the loop of the current `read_parallel` has left to do. -/
structure State where
  world : World := {}
  unsubmitted : List Inflight := []
  handed : List Handed := []
  waiters : List Waiter := []

inductive Move
  | submit (op : Op) (output : Output)
  | enter (call : ParallelFill.Call)
  | post
  | callback (index : ℕ) (result : Core.Outcome) (data : List Byte)
  | deliver (inline : Inline)
  | turn (index : ℕ) (inline : Inline)
  | settleFrom (index : ℕ)
  | cancel (future : FutureId)
  | wait (future : FutureId) (driving : Bool)
  | cancelTask (index : ℕ)
  | turnTask (index : ℕ)

namespace Handed

variable (code : Raised → ℕ) (handed : Handed)

/-- The future its task waits for joins the record. -/
def note : Handed :=
  match handed.continuation.task.phase with
  | .waiting future => { handed with asked := handed.asked ++ [future] }
  | .created | .done _ => handed

/-- `continuation.cancel()`. -/
def cancel (world : World) : Handed :=
  { handed with
    continuation := { handed.continuation with
      task := (handed.continuation.task.cancel World.cancelFuture world).1 } }

/-- `finish_large_read` up to the task's first await. -/
def start (inline : Inline) (owner : FutureId) (handle : Handle) (world : World) :
    Handed × World :=
  let (task, world) := Task.eager (readHandleToEnd code handle inline) .start world
  (note { owner := owner, continuation := { handle := handle, task := task } },
    { world with futures := world.futures.modify owner fun pending =>
        { pending with continuation := true } })

/-- The loop steps the task. -/
def turn (inline : Inline) (world : World) : Option (Handed × World) :=
  (handed.continuation.task.run (readHandleToEnd code handed.continuation.handle inline)
    (fun future world => world.outcome future) world).map fun (task, world) =>
      (note { handed with continuation := { handed.continuation with task := task } }, world)

/-- `settle_from`, the done callback of the task. -/
def settleFrom (world : World) : Option (Handed × World) :=
  match handed.continuation.settled, handed.continuation.task.phase with
  | false, .done outcome =>
      some ({ handed with continuation := { handed.continuation with settled := true } },
        world.settle handed.owner outcome)
  | _, _ => none

end Handed

namespace State

variable (code : Raised → ℕ) (state : State)

/-- What `KernelFuture.cancel` asks for; only a request to a continuation
changes anything here. -/
def request (future : FutureId) (asked : Option Request) : State :=
  match asked with
  | some .continuation =>
      { state with
        handed := state.handed.map fun handed =>
          if handed.owner = future then handed.cancel state.world else handed }
  | some (.ops _) | none => state

/-- `KernelFuture.cancel`. -/
def cancel (future : FutureId) : State :=
  match state.world.futures[future]? with
  | none => state
  | some pending => state.request future pending.cancel.1

end State

namespace Waiter

variable (waiter : Waiter)

/-- One step of the task's coroutine. -/
def resume (exc : Option Exc) (started : Bool) (state : State) :
    Signal Unit Value × Bool × State :=
  match state.world.futures[waiter.future]? with
  | none => (.raises .cancelled, started, state)
  | some future =>
      if waiter.driving then
        match exc with
        | none => (future.send, started, state)
        | some exc =>
            let (signal, asked, future) := future.throw exc
            let thrown : State :=
              { state with
                world := { state.world with
                  futures := state.world.futures.set waiter.future future } }
            (signal, started, thrown.request waiter.future asked)
      else
        let (signal, started, _) := awaiting exc started future
        (signal, started, state)

def cancel (state : State) : Waiter × State :=
  let (task, state) :=
    waiter.task.cancel (fun _ state => (false, state.cancel waiter.future)) state
  ({ waiter with task := task }, state)

def turn (state : State) : Option (Waiter × State) :=
  (waiter.task.run waiter.resume (fun _ state => state.world.outcome waiter.future) state).map
    fun (task, state) => ({ waiter with task := task }, state)

end Waiter

namespace State

variable (code : Raised → ℕ) (state : State)

/-- The drain delivers one completion. -/
def deliver (inline : Inline) : Option State :=
  match state.world.queue with
  | [] => none
  | completion :: rest =>
      match ({ state.world with queue := rest } : World).deliver code completion with
      | (world, none) => some { state with world := world }
      | (world, some (owner, handle, _)) =>
          let (handed, world) := Handed.start code inline owner handle world
          some { state with world := world, handed := state.handed ++ [handed] }

def turn (index : ℕ) (inline : Inline) : Option State :=
  (state.handed[index]?).bind fun handed =>
    (handed.turn code inline state.world).map fun (handed, world) =>
      { state with world := world, handed := state.handed.set index handed }

def settleFrom (index : ℕ) : Option State :=
  (state.handed[index]?).bind fun handed =>
    (handed.settleFrom state.world).map fun (handed, world) =>
      { state with world := world, handed := state.handed.set index handed }

/-- A task is made around a future the bridge has returned. -/
def wait (future : FutureId) (driving : Bool) : Option State :=
  if future < state.world.futures.length then
    some
      { state with
        waiters := state.waiters ++ [⟨future, driving, { coro := false }⟩] }
  else none

def cancelTask (index : ℕ) : Option State :=
  (state.waiters[index]?).map fun waiter =>
    let (waiter, state) := waiter.cancel state
    { state with waiters := state.waiters.set index waiter }

def turnTask (index : ℕ) : Option State :=
  (state.waiters[index]?).bind fun waiter =>
    (waiter.turn state).map fun (waiter, state) =>
      { state with waiters := state.waiters.set index waiter }

/-- What the loop thread does between two submissions of chunks. -/
def loopStep (state : State) : Move → Option State
  | .submit op output => some { state with world := (state.world.submit op output).2 }
  | .enter call =>
      if 0 < call.chunk then
        some
          { state with
            world := call.enter state.world
            unsubmitted := call.ops state.world.groups.length }
      else none
  | .deliver inline => state.deliver code inline
  | .turn index inline => state.turn code index inline
  | .settleFrom index => state.settleFrom index
  | .cancel future => some (state.cancel future)
  | .wait future driving => state.wait future driving
  | .cancelTask index => state.cancelTask index
  | .turnTask index => state.turnTask index
  | .post | .callback _ _ _ => none

def step (state : State) : Move → Option State
  | .post =>
      match state.unsubmitted with
      | [] => none
      | entry :: rest =>
          some { state with world := ParallelFill.post state.world entry, unsubmitted := rest }
  | .callback index result data =>
      (state.world.callback index result data).map fun world => { state with world := world }
  | move => if state.unsubmitted = [] then state.loopStep code move else none

end State

def system (code : Raised → ℕ) : System State Move where
  init state := state = {}
  step := State.step code

end Turbofile.EventLoop
