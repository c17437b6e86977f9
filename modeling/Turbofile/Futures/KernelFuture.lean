import Turbofile.Core.Op
import Turbofile.Library.Task

/-!
# The completion future

`KernelFuture`, method by method.  None of the methods below settles the
future: `cancel` only passes a request on, and `thrown` is a slot beside it.
-/

namespace Turbofile.Futures

open Turbofile.Core
open Turbofile.Asyncio

/-- Whom `cancel` asks: the driver, or the task that fills a large read. -/
inductive Request
  | ops (ids : List OpId)
  | continuation
  deriving DecidableEq

structure KernelFuture (ν : Type*) where
  outcome : Option (Outcome ν) := none
  opIds : List OpId := []
  continuation : Bool := false
  thrown : Option Exc := none
  deriving DecidableEq

namespace KernelFuture

variable {ν : Type*}

def isDone (future : KernelFuture ν) : Bool := future.outcome.isSome

/-- The request it makes, if any; the answer to the caller is always False. -/
def cancel (future : KernelFuture ν) : Option Request × Bool :=
  if future.isDone then (none, false)
  else if future.continuation then (some .continuation, false)
  else (some (.ops future.opIds), false)

/-- `set_result`, `set_exception` and `settle_cancelled`: the first one counts. -/
def settle (outcome : Outcome ν) (future : KernelFuture ν) : KernelFuture ν :=
  if future.isDone then future else { future with outcome := some outcome }

/-- `send(None)`; a future that is not done is what it yields. -/
def send (future : KernelFuture ν) : Signal Unit ν :=
  match future.outcome with
  | none => .waits ()
  | some outcome =>
      match future.thrown with
      | some exc => .raises exc
      | none => outcome.signal

/-- `throw(exc)`, with the request its `self.cancel()` makes. -/
def throw (exc : Exc) (future : KernelFuture ν) :
    Signal Unit ν × Option Request × KernelFuture ν :=
  match future.outcome with
  | none => (.waits (), future.cancel.1, { future with thrown := some exc })
  | some _ => (.raises exc, none, future)

@[simp]
theorem settle_of_pending {future : KernelFuture ν} (hpending : future.outcome = none)
    (outcome : Outcome ν) :
    future.settle outcome = { future with outcome := some outcome } := by
  simp [settle, isDone, hpending]

end KernelFuture

end Turbofile.Futures
