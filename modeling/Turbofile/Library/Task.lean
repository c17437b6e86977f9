import Mathlib

/-!
# Tasks of an event loop

A task steps a coroutine until it returns or raises.  Between two steps it
waits for one future, and a cancel request that the future does not take over
is thrown in at the next step.  The coroutine and the futures belong to the
program that is modelled: a step reads and writes their common world.
-/

namespace Turbofile.Asyncio

variable {σ ω ι ν : Type*}

/-- `CancelledError`, or any other exception. -/
inductive Exc
  | cancelled
  | other (code : ℕ)
  deriving DecidableEq

/-- How a future or a task is done. -/
inductive Outcome (ν : Type*)
  | result (value : ν)
  | failed (code : ℕ)
  | cancelled
  deriving DecidableEq

/-- What `result()` raises. -/
def Outcome.raises : Outcome ν → Option Exc
  | .result _ => none
  | .failed code => some (.other code)
  | .cancelled => some .cancelled

/-- How a task ends that lets the exception out. -/
def Exc.outcome : Exc → Outcome ν
  | .cancelled => .cancelled
  | .other code => .failed code

/-- How one step of a coroutine ends: at an `await`, or for good. -/
inductive Signal (ι ν : Type*)
  | waits (future : ι)
  | returns (value : ν)
  | raises (exc : Exc)

/-- `return future.result()`. -/
def Outcome.signal : Outcome ν → Signal ι ν
  | .result value => .returns value
  | .failed code => .raises (.other code)
  | .cancelled => .raises .cancelled

inductive Phase (ι ν : Type*)
  | created
  | waiting (future : ι)
  | done (outcome : Outcome ν)
  deriving DecidableEq

def Signal.phase : Signal ι ν → Phase ι ν
  | .waits future => .waiting future
  | .returns value => .done (.result value)
  | .raises exc => .done exc.outcome

structure Task (σ ι ν : Type*) where
  coro : σ
  mustCancel : Bool := false
  phase : Phase ι ν := .created

namespace Task

def isDone (task : Task σ ι ν) : Bool :=
  match task.phase with
  | .done _ => true
  | .created | .waiting _ => false

/-- `__step(exc)`: a request not yet delivered replaces the exception. -/
def step (resume : Option Exc → σ → ω → Signal ι ν × σ × ω) (exc : Option Exc)
    (task : Task σ ι ν) (world : ω) : Task σ ι ν × ω :=
  let exc := if task.mustCancel then some .cancelled else exc
  let (signal, coro, world) := resume exc task.coro world
  ({ coro := coro, mustCancel := false, phase := signal.phase }, world)

/-- `cancel()`; `cancelFuture` is that of the futures, which answers whether
the future takes the request over. -/
def cancel (cancelFuture : ι → ω → Bool × ω) (task : Task σ ι ν) (world : ω) :
    Task σ ι ν × ω :=
  match task.phase with
  | .done _ => (task, world)
  | .created => ({ task with mustCancel := true }, world)
  | .waiting future =>
      match cancelFuture future world with
      | (true, world) => (task, world)
      | (false, world) => ({ task with mustCancel := true }, world)

/-- The next turn of the loop for the task: its first step, or the wakeup once
its future is done; `none` while there is none. -/
def run (resume : Option Exc → σ → ω → Signal ι ν × σ × ω)
    (outcomeOf : ι → ω → Option (Outcome ν)) (task : Task σ ι ν) (world : ω) :
    Option (Task σ ι ν × ω) :=
  match task.phase with
  | .done _ => none
  | .created => some (task.step resume none world)
  | .waiting future =>
      (outcomeOf future world).map fun outcome => task.step resume outcome.raises world

/-- A task made with `eager_start`: its first step is part of its creation. -/
def eager (resume : Option Exc → σ → ω → Signal ι ν × σ × ω) (coro : σ) (world : ω) :
    Task σ ι ν × ω :=
  step resume none { coro := coro } world

end Task

end Turbofile.Asyncio
