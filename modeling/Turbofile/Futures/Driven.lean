import Turbofile.Futures.KernelFuture
import Turbofile.Library.System

/-!
# Tasks around a completion future

A task may drive a `KernelFuture` itself, through `send` and `throw`, or a
coroutine that awaits it.  Both are run here by the same loop, with cancel
requests and the settling of the ops at any point.
-/

namespace Turbofile.Futures

open Turbofile.Core
open Turbofile.Asyncio

variable {σ ν : Type*}

/-! ## The two coroutines -/

/-- The future itself, driven by `create_task(future)`. -/
def direct (exc : Option Exc) (coro : Unit) (future : KernelFuture ν) :
    Signal Unit ν × Unit × KernelFuture ν :=
  match exc with
  | none => (future.send, coro, future)
  | some exc =>
      match future.throw exc with
      | (signal, _, future) => (signal, coro, future)

/-- `return await future`, and whether it has come to its await. -/
def awaiting (exc : Option Exc) (started : Bool) (future : KernelFuture ν) :
    Signal Unit ν × Bool × KernelFuture ν :=
  match exc with
  | some exc => (.raises exc, started, future)
  | none =>
      match future.outcome with
      | none => (.waits (), true, future)
      | some outcome => (outcome.signal, started, future)

/-! ## The system -/

/-- `requested` remembers a `task.cancel()` made before the task was done. -/
structure Driven (σ ν : Type*) where
  task : Task σ Unit ν
  future : KernelFuture ν
  requested : Bool := false

inductive Move (ν : Type*)
  | cancel
  | settle (outcome : Outcome ν)
  | run

namespace Driven

def cancel (driven : Driven σ ν) : Driven σ ν :=
  let (task, future) :=
    driven.task.cancel (fun _ future => (future.cancel.2, future)) driven.future
  { task := task, future := future, requested := driven.requested || !driven.task.isDone }

def run (resume : Option Exc → σ → KernelFuture ν → Signal Unit ν × σ × KernelFuture ν)
    (driven : Driven σ ν) : Option (Driven σ ν) :=
  (driven.task.run resume (fun _ future => future.outcome) driven.future).map
    fun (task, future) => { driven with task := task, future := future }

def step (resume : Option Exc → σ → KernelFuture ν → Signal Unit ν × σ × KernelFuture ν)
    (driven : Driven σ ν) : Move ν → Option (Driven σ ν)
  | .cancel => some driven.cancel
  | .settle outcome =>
      if driven.future.isDone then none
      else some { driven with future := driven.future.settle outcome }
  | .run => driven.run resume

/-- One task around one future, from the creation of the task on; the ops may
have settled before that. -/
def system (resume : Option Exc → σ → KernelFuture ν → Signal Unit ν × σ × KernelFuture ν)
    (start : σ) : System (Driven σ ν) (Move ν) where
  init driven := driven.task = { coro := start } ∧ driven.future.thrown = none ∧
    driven.requested = false
  step := step resume

/-- The wakeup of a task whose ops failed after an exception was thrown in,
with no newer request to cancel. -/
def FailedUnderThrow (driven : Driven σ ν) : Prop :=
  (∃ code, driven.future.outcome = some (.failed code)) ∧
    driven.future.thrown.isSome = true ∧ driven.task.mustCancel = false

/-- A task that was cancelled before it was done ends cancelled. -/
def EndsCancelled (driven : Driven σ ν) : Prop :=
  driven.requested = true → ∀ outcome, driven.task.phase = .done outcome →
    outcome = .cancelled

theorem cancel_of_done {driven : Driven σ ν} (hdone : driven.task.isDone = true) :
    driven.cancel = driven := by
  obtain ⟨⟨coro, mustCancel, phase⟩, future, requested⟩ := driven
  cases phase with
  | done outcome => simp [cancel, Task.cancel, Task.isDone]
  | created => cases hdone
  | waiting future => cases hdone

/-- The future takes no request over, so the task keeps it. -/
theorem cancel_of_going {driven : Driven σ ν} (hgoing : driven.task.isDone = false) :
    driven.cancel =
      { driven with task := { driven.task with mustCancel := true }, requested := true } := by
  obtain ⟨⟨coro, mustCancel, phase⟩, future, requested⟩ := driven
  cases phase with
  | done outcome => cases hgoing
  | created => simp [cancel, Task.cancel, Task.isDone]
  | waiting awaited =>
      have hanswer : future.cancel.2 = false := by
        simp only [KernelFuture.cancel]
        split_ifs <;> rfl
      simp [cancel, Task.cancel, Task.isDone, hanswer]

theorem going_of_run {driven next : Driven σ ν}
    {resume : Option Exc → σ → KernelFuture ν → Signal Unit ν × σ × KernelFuture ν}
    (hrun : driven.run resume = some next) : driven.task.isDone = false := by
  cases hphase : driven.task.phase with
  | done outcome => simp [run, Task.run, hphase] at hrun
  | created => simp [Task.isDone, hphase]
  | waiting awaited => simp [Task.isDone, hphase]

/-! ## The future driven directly -/

section Direct

variable {driven next : Driven Unit ν}

/-- How the task ends when it runs with the future done. -/
def ending (driven : Driven Unit ν) (outcome : Outcome ν) : Outcome ν :=
  if driven.task.mustCancel then .cancelled
  else
    match outcome with
    | .result value =>
        match driven.future.thrown with
        | none => .result value
        | some exc => exc.outcome
    | .failed code => .failed code
    | .cancelled => .cancelled

theorem run_of_settled {outcome : Outcome ν} (hgoing : driven.task.isDone = false)
    (hsettled : driven.future.outcome = some outcome)
    (hcreated : driven.task.phase = .created → driven.future.thrown = none) :
    driven.run direct = some { driven with
      task := { coro := (), mustCancel := false, phase := .done (driven.ending outcome) } } := by
  obtain ⟨⟨coro, mustCancel, phase⟩, ⟨settled, opIds, continuation, thrown⟩, requested⟩ := driven
  simp only at hsettled hcreated
  subst hsettled
  cases phase with
  | done outcome => cases hgoing
  | created =>
      obtain rfl := hcreated rfl
      cases mustCancel <;> cases outcome <;> rfl
  | waiting awaited =>
      cases mustCancel with
      | true => cases outcome <;> rfl
      | false =>
          cases outcome with
          | failed code => rfl
          | cancelled => rfl
          | result value => cases thrown <;> rfl

/-- With the ops in flight only a first step can be made, and it waits. -/
theorem run_of_pending (hpending : driven.future.outcome = none)
    (hrun : driven.run direct = some next) :
    driven.task.phase = .created ∧ next = { driven with
      task := { coro := (), mustCancel := false, phase := .waiting () }
      future := if driven.task.mustCancel
        then { driven.future with thrown := some .cancelled } else driven.future } := by
  obtain ⟨⟨coro, mustCancel, phase⟩, ⟨settled, opIds, continuation, thrown⟩, requested⟩ := driven
  simp only at hpending
  subst hpending
  cases phase with
  | done outcome => cases hrun
  | waiting awaited => cases hrun
  | created =>
      cases mustCancel <;> exact ⟨rfl, (Option.some.inj hrun).symm⟩

/-- A request is on its way, as the flag of the task or as what was thrown into
the future, until the task is done. -/
structure Carried (driven : Driven Unit ν) : Prop where
  requested : driven.task.isDone = false →
    (driven.requested = true ↔
      driven.future.thrown.isSome = true ∨ driven.task.mustCancel = true)
  thrown : ∀ exc, driven.future.thrown = some exc → exc = .cancelled
  created : driven.task.phase = .created → driven.future.thrown = none
  settled : driven.task.isDone = true → driven.future.isDone = true

theorem Carried.step (hcarried : Carried driven) {move : Move ν}
    (hstep : driven.step direct move = some next) : Carried next := by
  cases move with
  | cancel =>
      obtain rfl := Option.some.inj hstep
      cases hgoing : driven.task.isDone with
      | true => rwa [cancel_of_done hgoing]
      | false =>
          rw [cancel_of_going hgoing]
          exact
            { requested := fun _ => by simp
              thrown := hcarried.thrown
              created := hcarried.created
              settled := hcarried.settled }
  | settle outcome =>
      simp only [Driven.step] at hstep
      split at hstep
      · cases hstep
      · next hpending =>
          obtain rfl := Option.some.inj hstep
          have hnone : driven.future.outcome = none := by
            simpa [KernelFuture.isDone] using hpending
          rw [KernelFuture.settle_of_pending hnone]
          exact
            { requested := hcarried.requested
              thrown := hcarried.thrown
              created := hcarried.created
              settled := fun _ => rfl }
  | run =>
      change driven.run direct = some next at hstep
      cases hsettled : driven.future.outcome with
      | none =>
          obtain ⟨hphase, rfl⟩ := run_of_pending hsettled hstep
          have hthrown := hcarried.created hphase
          have hgoing : driven.task.isDone = false := by simp [Task.isDone, hphase]
          have hrequested := hcarried.requested hgoing
          rw [hthrown] at hrequested
          cases hmust : driven.task.mustCancel with
          | true =>
              exact
                { requested := fun _ => by simpa [hmust] using hrequested
                  thrown := fun exc hexc => by simpa using hexc.symm
                  created := fun hphase => by cases hphase
                  settled := fun hdone => by cases hdone }
          | false =>
              exact
                { requested := fun _ => by simpa [hmust, hthrown] using hrequested
                  thrown := hcarried.thrown
                  created := fun hphase => by cases hphase
                  settled := fun hdone => by cases hdone }
      | some outcome =>
          have hgoing := going_of_run hstep
          rw [run_of_settled hgoing hsettled hcarried.created] at hstep
          obtain rfl := Option.some.inj hstep
          exact
            { requested := fun hdone => by cases hdone
              thrown := hcarried.thrown
              created := fun hphase => by cases hphase
              settled := fun _ => by simp [KernelFuture.isDone, hsettled] }

theorem Carried.of_reachable (hreach : (system direct ()).Reachable driven) :
    Carried driven := by
  refine hreach.invariant ?_ ?_
  · rintro ⟨task, future, requested⟩ ⟨rfl, hthrown, rfl⟩
    exact
      { requested := fun _ => by simp [show future.thrown = none from hthrown]
        thrown := fun exc hexc => by
          rw [show future.thrown = none from hthrown] at hexc
          cases hexc
        created := fun _ => hthrown
        settled := fun hdone => by cases hdone }
  · intro _ _ _ _ hcarried hstep
    exact hcarried.step hstep

/-- With a request on its way only a failure of the ops can take its place. -/
theorem ending_eq_cancelled_iff (hcarried : Carried driven)
    (hgoing : driven.task.isDone = false) (hrequested : driven.requested = true)
    {outcome : Outcome ν} (hsettled : driven.future.outcome = some outcome) :
    driven.ending outcome = .cancelled ↔ ¬ driven.FailedUnderThrow := by
  unfold ending FailedUnderThrow
  rw [hsettled]
  cases hmust : driven.task.mustCancel with
  | true => simp
  | false =>
      have hthrown : driven.future.thrown.isSome = true := by
        have hway := (hcarried.requested hgoing).mp hrequested
        simpa [hmust] using hway
      obtain ⟨exc, hexc⟩ := Option.isSome_iff_exists.mp hthrown
      obtain rfl := hcarried.thrown exc hexc
      cases outcome with
      | result value => simp [hexc, Exc.outcome]
      | failed code => simp [hexc]
      | cancelled => simp [hexc]

/-- The step that ends a task. -/
theorem ends_of_run (hcarried : Carried driven) (hrun : driven.run direct = some next)
    {outcome : Outcome ν} (hdone : next.task.phase = .done outcome) :
    ∃ settled, driven.future.outcome = some settled ∧ outcome = driven.ending settled ∧
      next.requested = driven.requested := by
  have hgoing := going_of_run hrun
  cases hsettled : driven.future.outcome with
  | none =>
      obtain ⟨-, rfl⟩ := run_of_pending hsettled hrun
      cases hdone
  | some settled =>
      rw [run_of_settled hgoing hsettled hcarried.created] at hrun
      obtain rfl := Option.some.inj hrun
      refine ⟨settled, rfl, ?_, rfl⟩
      exact (Phase.done.inj hdone).symm

end Direct

/-! ## A coroutine that awaits the future -/

section Awaiting

variable {driven next : Driven Bool ν}

/-- Here the request stays with the task until it is thrown in. -/
structure Kept (driven : Driven Bool ν) : Prop where
  requested : driven.task.isDone = false →
    (driven.requested = true ↔ driven.task.mustCancel = true)
  ends : driven.EndsCancelled

theorem Kept.run (hkept : Kept driven) (hrun : driven.run awaiting = some next) : Kept next := by
  have hgoing := going_of_run hrun
  have hrequested := hkept.requested hgoing
  obtain ⟨⟨coro, mustCancel, phase⟩, ⟨settled, opIds, continuation, thrown⟩, requested⟩ := driven
  simp only at hrequested
  have hsteps : ∃ exc, next = (Driven.mk
      (Task.step awaiting exc (Task.mk coro mustCancel phase)
        (KernelFuture.mk settled opIds continuation thrown)).1
      (Task.step awaiting exc (Task.mk coro mustCancel phase)
        (KernelFuture.mk settled opIds continuation thrown)).2 requested) := by
    cases phase with
    | done outcome => cases hgoing
    | created => exact ⟨_, (Option.some.inj hrun).symm⟩
    | waiting awaited =>
        cases settled with
        | none => cases hrun
        | some outcome => exact ⟨_, (Option.some.inj hrun).symm⟩
  obtain ⟨exc, rfl⟩ := hsteps
  cases mustCancel with
  | true =>
      refine ⟨fun hnext => (by cases hnext), fun _ outcome hdone => ?_⟩
      exact (Phase.done.inj hdone).symm
  | false =>
      have hnone : requested = false := by simpa using hrequested
      subst hnone
      exact
        { requested := fun _ => by simp [Task.step]
          ends := fun hrequested => by cases hrequested }

theorem Kept.of_reachable (hreach : (system awaiting false).Reachable driven) :
    Kept driven := by
  refine hreach.invariant ?_ ?_
  · rintro ⟨task, future, requested⟩ ⟨rfl, -, rfl⟩
    exact
      { requested := fun _ => by simp
        ends := fun hrequested => by cases hrequested }
  · intro driven move next _ hkept hstep
    cases move with
    | cancel =>
        obtain rfl := Option.some.inj hstep
        cases hgoing : driven.task.isDone with
        | true => rwa [cancel_of_done hgoing]
        | false =>
            rw [cancel_of_going hgoing]
            refine ⟨fun _ => by simp, fun _ outcome hdone => ?_⟩
            have hphase : driven.task.phase = .done outcome := hdone
            simp [Task.isDone, hphase] at hgoing
    | settle outcome =>
        change Driven.step awaiting driven (.settle outcome) = some next at hstep
        simp only [Driven.step] at hstep
        split at hstep
        · cases hstep
        · obtain rfl := Option.some.inj hstep
          exact ⟨hkept.requested, hkept.ends⟩
    | run => exact hkept.run hstep

end Awaiting

/-! ## The outcome -/

/-- **A cancelled task around a completion future.**  Driven directly, a task
that was cancelled before it was done ends cancelled in every run in which its
wakeup never finds failed ops under a thrown exception, and it ends otherwise
exactly there.  It ends only once the ops have settled and then with its next
step.  A coroutine that awaits the future ends cancelled in every run. -/
theorem direct_endsCancelled :
    (∀ driven : Driven Unit ν,
      (system direct ()).ReachableBy
        (fun driven move => move = .run → ¬ driven.FailedUnderThrow) driven →
      driven.EndsCancelled) ∧
    (∀ (driven next : Driven Unit ν) (outcome : Outcome ν),
      (system direct ()).Reachable driven → driven.requested = true →
      driven.step direct .run = some next → next.task.phase = .done outcome →
      (outcome = .cancelled ↔ ¬ driven.FailedUnderThrow)) ∧
    (∀ driven : Driven Unit ν, (system direct ()).Reachable driven →
      (driven.task.isDone = true → driven.future.isDone = true) ∧
      (driven.future.isDone = true → driven.task.isDone = false →
        ∃ next, driven.step direct .run = some next ∧ next.task.isDone = true)) ∧
    ∀ driven : Driven Bool ν, (system awaiting false).Reachable driven →
      driven.EndsCancelled := by
  have hends : ∀ (driven next : Driven Unit ν) (outcome : Outcome ν),
      (system direct ()).Reachable driven → driven.requested = true →
      driven.step direct .run = some next → next.task.phase = .done outcome →
      (outcome = .cancelled ↔ ¬ driven.FailedUnderThrow) := by
    intro driven next outcome hreach hrequested hrun hdone
    have hcarried := Carried.of_reachable hreach
    obtain ⟨settled, hsettled, rfl, -⟩ := ends_of_run hcarried hrun hdone
    exact ending_eq_cancelled_iff hcarried (going_of_run hrun) hrequested hsettled
  refine ⟨?_, hends, ?_, fun driven hreach => (Kept.of_reachable hreach).ends⟩
  · intro driven hreach
    refine hreach.invariant ?_ ?_
    · rintro ⟨task, future, requested⟩ ⟨rfl, -, rfl⟩ hrequested
      cases hrequested
    · intro driven move next hprev ih hallowed hstep hrequested outcome hdone
      cases move with
      | run =>
          have hcarried := Carried.of_reachable hprev.reachable
          obtain ⟨settled, hsettled, -, hsame⟩ := ends_of_run hcarried hstep hdone
          rw [hsame] at hrequested
          exact (hends driven next outcome hprev.reachable hrequested hstep hdone).mpr
            (hallowed rfl)
      | cancel =>
          obtain rfl := Option.some.inj hstep
          cases hgoing : driven.task.isDone with
          | true =>
              rw [cancel_of_done hgoing] at hrequested hdone
              exact ih hrequested outcome hdone
          | false =>
              rw [cancel_of_going hgoing] at hdone
              have hphase : driven.task.phase = .done outcome := hdone
              simp [Task.isDone, hphase] at hgoing
      | settle settled =>
          change Driven.step direct driven (.settle settled) = some next at hstep
          simp only [Driven.step] at hstep
          split at hstep
          · cases hstep
          · obtain rfl := Option.some.inj hstep
            exact ih hrequested outcome hdone
  · intro driven hreach
    have hcarried := Carried.of_reachable hreach
    refine ⟨hcarried.settled, fun hsettled hgoing => ?_⟩
    obtain ⟨outcome, houtcome⟩ := Option.isSome_iff_exists.mp hsettled
    exact ⟨_, run_of_settled hgoing houtcome hcarried.created, rfl⟩

/-- The cancel comes before the first step, and the ops end with a result. -/
theorem direct_endsCancelled_result :
    ∃ (driven : Driven Unit ℕ) (outcome : Outcome ℕ),
      (system direct ()).exec ⟨{ coro := () }, {}, false⟩
        [.cancel, .run, .settle (.result 7), .run] = some driven ∧
      driven.task.phase = .done outcome ∧ outcome = .cancelled := by
  have hstart : (system direct ()).ReachableBy
      (fun driven move => move = .run → ¬ driven.FailedUnderThrow)
      (⟨{ coro := () }, {}, false⟩ : Driven Unit ℕ) := .init ⟨rfl, rfl, rfl⟩
  have hcancelled := hstart.step .cancel (fun hrun => by cases hrun) rfl
  have hthrown := hcancelled.step .run
    (by rintro - ⟨⟨code, hfailed⟩, -⟩; cases hfailed) rfl
  have hsettled := hthrown.step (.settle (.result 7)) (fun hrun => by cases hrun) rfl
  have hended := hsettled.step .run
    (by rintro - ⟨⟨code, hfailed⟩, -⟩; cases hfailed) rfl
  exact ⟨_, _, rfl, rfl, direct_endsCancelled.1 _ hended rfl _ rfl⟩

/-- The same with ops that fail: the task ends with their error. -/
theorem direct_ends_with_error :
    ∃ driven : Driven Unit ℕ,
      (system direct ()).exec ⟨{ coro := () }, {}, false⟩
        [.cancel, .run, .settle (.failed 5), .run] = some driven ∧
      driven.requested = true ∧ driven.task.phase = .done (.failed 5) :=
  ⟨_, rfl, rfl, rfl⟩

end Driven

end Turbofile.Futures
