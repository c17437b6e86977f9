import Turbofile.Bridge.Completion
import Turbofile.Compio.CloseCancel
import Turbofile.Darwin.CloseCancel
import Turbofile.Drivers.Fork

/-!
# A task that awaits an op of a driver

The three layers of one awaited op in one system: the driver with all that goes
on there, the completion future with the drain that settles it, and the task
whose coroutine submits the op and waits for the future.
-/

namespace Turbofile.Drivers

open Turbofile.Core
open Turbofile.Asyncio
open Turbofile.Bridge
open Turbofile.Futures
open Turbofile.Logs

/-! ## The driver on its own -/

/-- Either driver from `Driver::new` on. -/
def drivers : System Driver Thread where
  init driver := ∃ backend, driver = .new backend
  step := Driver.step

namespace Driver

variable {driver next : Driver} {thread : Thread} {id : OpId} {handle : Handle} {fd : Fd}

theorem compio_of_reachableBy {allowed : Driver → Thread → Prop}
    (hreach : drivers.ReachableBy allowed driver) {state : Compio.State}
    (hstate : driver = .compio state) :
    Compio.driver.ReachableBy (fun state label => allowed (.compio state) (.compio label))
      state := by
  induction hreach generalizing state with
  | init hinit =>
      obtain ⟨backend, rfl⟩ := hinit
      cases backend with
      | compio =>
          cases hstate
          exact .init rfl
      | darwin hardware maxInflight => cases hstate
  | @step prev _ thread hprev hallowed hstep ih =>
      subst hstate
      cases prev with
      | darwin other =>
          cases thread with
          | compio label => cases hstep
          | darwin label =>
              obtain ⟨_, -, hsame⟩ := Option.map_eq_some_iff.mp hstep
              cases hsame
      | compio other =>
          cases thread with
          | darwin label => cases hstep
          | compio label =>
              obtain ⟨_, htake, hsame⟩ := Option.map_eq_some_iff.mp hstep
              cases hsame
              exact .step label (ih rfl) hallowed htake

theorem valid_of_reachableBy {allowed : Driver → Thread → Prop}
    (hreach : drivers.ReachableBy allowed driver) : driver.Valid := by
  refine hreach.invariant ?_ ?_
  · rintro _ ⟨backend, rfl⟩
    exact valid_new backend
  · intro driver thread next _ hvalid _ hstep
    exact hvalid.step hstep

/-- `Driver::cancel`; a request that cannot be sent is dropped. -/
def cancel (id : OpId) (driver : Driver) : Driver :=
  let thread :=
    match driver with
    | .compio _ => Thread.compio (.requestCancel id)
    | .darwin _ => Thread.darwin (.requestCancel id)
  (driver.step thread).getD driver

/-- What the callback of an op was called with. -/
def result (id : OpId) : Driver → Option Core.Outcome
  | .compio state => state.log.findSome? fun event =>
      match event with
      | .settled cb result => if cb = id then some result else none
      | _ => none
  | .darwin state => state.log.findSome? fun event =>
      match event with
      | .settled cb result => if cb = id then some result else none
      | _ => none

/-- The callback of the op has run with the result. -/
def Settled (id : OpId) (result : Core.Outcome) : Driver → Prop
  | .compio state => Compio.Event.settled id result ∈ state.log
  | .darwin state => Darwin.Event.settled id result ∈ state.log

theorem settled_of_result {result : Core.Outcome} (hresult : driver.result id = some result) :
    driver.Settled id result := by
  cases driver with
  | compio state =>
      obtain ⟨event, hmem, hevent⟩ := List.exists_of_findSome?_eq_some hresult
      cases event with
      | settled cb result' =>
          obtain ⟨rfl, hsame⟩ := Option.ite_some_none_eq_some.mp hevent
          exact hsame ▸ hmem
      | _ => cases hevent
  | darwin state =>
      obtain ⟨event, hmem, hevent⟩ := List.exists_of_findSome?_eq_some hresult
      cases event with
      | settled cb result' =>
          obtain ⟨rfl, hsame⟩ := Option.ite_some_none_eq_some.mp hevent
          exact hsame ▸ hmem
      | _ => cases hevent

theorem Settled.step {result : Core.Outcome} (hsettled : driver.Settled id result)
    (hvalid : driver.Valid) (hstep : driver.step thread = some next) :
    next.Settled id result := by
  cases driver with
  | compio state =>
      cases thread with
      | darwin label => cases hstep
      | compio label =>
          obtain ⟨state', htake, rfl⟩ := Option.map_eq_some_iff.mp hstep
          exact (Compio.step_suffix (.of_reachable hvalid) htake).subset hsettled
  | darwin state =>
      cases thread with
      | compio label => cases hstep
      | darwin label =>
          obtain ⟨state', htake, rfl⟩ := Option.map_eq_some_iff.mp hstep
          exact (Darwin.step_suffix (.of_reachable hvalid) htake).subset hsettled

end Driver

/-! ## Futures and the drain -/

/-- An op that a coroutine has submitted, with its future. -/
structure Call where
  id : OpId
  future : KernelFuture Value

/-- `deliver`, for an op with a plain output. -/
def delivered (code : Raised → ℕ) (result : Core.Outcome) : Asyncio.Outcome Value :=
  match result with
  | .error error => if isCancelled error then .cancelled else .failed (code (.osError error))
  | .ok reply =>
      match buildValue reply .plain with
      | some value => .result value
      | none => .failed (code .mismatchedReply)

/-- The drain settles the future with that and does nothing else. -/
theorem deliver_plain (code : Raised → ℕ) (world : Bridge.World) (future : FutureId)
    (result : Core.Outcome) :
    world.deliver code ⟨future, result, .plain⟩ =
      (world.settle future (delivered code result), none) := by
  cases result with
  | error error =>
      simp only [Bridge.World.deliver, delivered]
      split <;> rfl
  | ok reply =>
      cases hvalue : buildValue reply .plain with
      | none => simp [Bridge.World.deliver, delivered, hvalue]
      | some value => simp [Bridge.World.deliver, delivered, hvalue]

/-! ## The task -/

/-- What a step of the coroutine reads and writes: the call it has made, and the
op it submits in this step. -/
structure Desk where
  call : Option Call
  submits : Option Op := none

abbrev Coroutine (σ : Type*) :=
  Option Exc → σ → Desk → Signal Unit Value × σ × Desk

structure Session (σ : Type*) where
  driver : Driver
  call : Option Call
  task : Task σ Unit Value

/-- `drive` is anything that goes on at the driver, other ops and cancel requests
included; `cancel` is `task.cancel()`; `run` carries the id the next op gets. -/
inductive Turn
  | drive (thread : Thread)
  | deliver
  | cancel
  | run (id : OpId)

namespace Session

variable {σ : Type*}

/-- `KernelFuture.cancel` with `cancel_ops`. -/
def cancelFuture (call : Option Call) (driver : Driver) : Bool × Driver :=
  match call with
  | none => (false, driver)
  | some call =>
      let (request, taken) := call.future.cancel
      match request with
      | some (.ops ids) => (taken, ids.foldl (fun driver id => driver.cancel id) driver)
      | some .continuation | none => (taken, driver)

def cancel (session : Session σ) : Session σ :=
  let (task, driver) :=
    session.task.cancel (fun _ driver => cancelFuture session.call driver) session.driver
  { session with task := task, driver := driver }

def run (resume : Coroutine σ) (id : OpId) (session : Session σ) : Option (Session σ) :=
  (session.task.run resume (fun _ desk => desk.call.bind (·.future.outcome))
      { call := session.call }).bind fun (task, desk) =>
    match desk.submits with
    | none => some { session with task := task }
    | some op =>
        (session.driver.submit id op).map fun driver =>
          { driver := driver, task := task, call := some ⟨id, { opIds := [id] }⟩ }

def deliver (code : Raised → ℕ) (session : Session σ) : Option (Session σ) :=
  session.call.bind fun call =>
    (session.driver.result call.id).map fun result =>
      { session with
        call := some { call with future := call.future.settle (delivered code result) } }

def step (code : Raised → ℕ) (resume : Coroutine σ) (session : Session σ) :
    Turn → Option (Session σ)
  | .drive thread =>
      (session.driver.step thread).map fun driver => { session with driver := driver }
  | .deliver => session.deliver code
  | .cancel => some session.cancel
  | .run id => session.run resume id

end Session

/-- One task around one coroutine, created when the driver is ready for it. -/
def sessions {σ : Type*} (code : Raised → ℕ) (resume : Coroutine σ) (coro : σ)
    (ready : Driver → Prop) : System (Session σ) Turn where
  init session := ready session.driver ∧ session.call = none ∧ session.task = { coro := coro }
  step := Session.step code resume

/-! ## What a turn does -/

namespace Driver

variable {driver : Driver}

/-- A cancel request is a step of a submitter, or is not sent at all. -/
theorem cancel_cases (id : OpId) (driver : Driver) :
    driver.cancel id = driver ∨
      (∃ state, driver = .compio state ∧
        driver.step (.compio (.requestCancel id)) = some (driver.cancel id)) ∨
      ∃ state, driver = .darwin state ∧
        driver.step (.darwin (.requestCancel id)) = some (driver.cancel id) := by
  cases driver with
  | compio state =>
      cases hstep : (Driver.compio state).step (.compio (.requestCancel id)) with
      | none => exact .inl (by simp [cancel, hstep])
      | some next => exact .inr (.inl ⟨state, rfl, by simp [cancel, hstep]⟩)
  | darwin state =>
      cases hstep : (Driver.darwin state).step (.darwin (.requestCancel id)) with
      | none => exact .inl (by simp [cancel, hstep])
      | some next => exact .inr (.inr ⟨state, rfl, by simp [cancel, hstep]⟩)

end Driver

namespace Session

variable {σ : Type*} {session next : Session σ} {resume : Coroutine σ} {code : Raised → ℕ}

theorem cancelFuture_keeps {keeps : Driver → Prop}
    (hcancel : ∀ id driver, keeps driver → keeps (driver.cancel id)) (call : Option Call)
    {driver : Driver} (hkeeps : keeps driver) : keeps (cancelFuture call driver).2 := by
  have hall : ∀ (ids : List OpId) (driver : Driver), keeps driver →
      keeps (ids.foldl (fun driver id => driver.cancel id) driver) := by
    intro ids
    induction ids with
    | nil => exact fun driver hdriver => hdriver
    | cons id ids ih => exact fun driver hdriver => ih _ (hcancel id driver hdriver)
  cases call with
  | none => exact hkeeps
  | some call =>
      simp only [cancelFuture]
      split
      · exact hall _ _ hkeeps
      · exact hkeeps
      · exact hkeeps

/-- The future takes no request over. -/
theorem cancelFuture_fst (call : Option Call) (driver : Driver) :
    (cancelFuture call driver).1 = false := by
  cases call with
  | none => rfl
  | some call =>
      have hanswer : call.future.cancel.2 = false := by
        simp only [KernelFuture.cancel]
        split_ifs <;> rfl
      simp only [cancelFuture]
      split
      · exact hanswer
      · exact hanswer
      · exact hanswer

/-- A request marks the task, and goes to the driver while the future waits. -/
theorem cancel_spec (session : Session σ) :
    session.cancel.call = session.call ∧ session.cancel.task.coro = session.task.coro ∧
      session.cancel.task.phase = session.task.phase ∧
      ∀ keeps : Driver → Prop, (∀ id driver, keeps driver → keeps (driver.cancel id)) →
        keeps session.driver → keeps session.cancel.driver := by
  obtain ⟨driver, call, coro, mustCancel, phase⟩ := session
  cases phase with
  | done outcome => exact ⟨rfl, rfl, rfl, fun _ _ hkeeps => hkeeps⟩
  | created => exact ⟨rfl, rfl, rfl, fun _ _ hkeeps => hkeeps⟩
  | waiting future =>
      have hanswer := cancelFuture_fst call driver
      have hkept : ∀ keeps : Driver → Prop, (∀ id driver, keeps driver → keeps (driver.cancel id)) →
          keeps driver → keeps (cancelFuture call driver).2 :=
        fun keeps hcancel => cancelFuture_keeps hcancel call
      revert hanswer hkept
      simp only [cancel, Task.cancel]
      generalize cancelFuture call driver = answer
      rintro hanswer hkept
      obtain ⟨taken, driver'⟩ := answer
      obtain rfl : taken = false := hanswer
      exact ⟨trivial, rfl, rfl, hkept⟩

/-- Why the task runs: it is new, or its future is done. -/
inductive Wakes (session : Session σ) : Option Exc → Prop
  | created (hphase : session.task.phase = .created) :
      Wakes session (if session.task.mustCancel then some .cancelled else none)
  | woken (call : Call) (outcome : Asyncio.Outcome Value)
      (hphase : session.task.phase = .waiting ()) (hcall : session.call = some call)
      (houtcome : call.future.outcome = some outcome) :
      Wakes session (if session.task.mustCancel then some .cancelled else outcome.raises)

theorem run_cases {id : OpId} (hrun : session.run resume id = some next) :
    ∃ exc signal coro desk, Wakes session exc ∧
      resume exc session.task.coro { call := session.call } = (signal, coro, desk) ∧
      next.task = { coro := coro, mustCancel := false, phase := signal.phase } ∧
      ((desk.submits = none ∧ next.driver = session.driver ∧ next.call = session.call) ∨
        ∃ op, desk.submits = some op ∧ session.driver.submit id op = some next.driver ∧
          next.call = some ⟨id, { opIds := [id] }⟩) := by
  obtain ⟨⟨task, desk⟩, hsteps, hrest⟩ := Option.bind_eq_some_iff.mp hrun
  have hstepped : ∃ exc, Wakes session exc ∧
      (task, desk) =
        (({ coro := (resume exc session.task.coro { call := session.call }).2.1
            mustCancel := false
            phase := (resume exc session.task.coro { call := session.call }).1.phase } :
          Task σ Unit Value),
        (resume exc session.task.coro { call := session.call }).2.2) := by
    simp only [Task.run] at hsteps
    split at hsteps
    · cases hsteps
    · next hphase => exact ⟨_, .created hphase, (Option.some.inj hsteps).symm⟩
    · next hphase =>
        obtain ⟨outcome, houtcome, hstep⟩ := Option.map_eq_some_iff.mp hsteps
        obtain ⟨call, hcall, hdone⟩ := Option.bind_eq_some_iff.mp houtcome
        exact ⟨_, .woken call outcome hphase hcall hdone, hstep.symm⟩
  obtain ⟨exc, hwakes, hsame⟩ := hstepped
  cases hsame
  refine ⟨exc, _, _, _, hwakes, rfl, ?_⟩
  simp only at hrest
  split at hrest
  · next hnone =>
      cases hrest
      exact ⟨rfl, .inl ⟨hnone, rfl, rfl⟩⟩
  · next op hop =>
      obtain ⟨driver, hsubmit, rfl⟩ := Option.map_eq_some_iff.mp hrest
      exact ⟨rfl, .inr ⟨op, hop, hsubmit, rfl⟩⟩

/-- The future holds what the callback of its op was called with. -/
structure Answered (code : Raised → ℕ) (session : Session σ) : Prop where
  valid : session.driver.Valid
  outcome : ∀ call outcome, session.call = some call → call.future.outcome = some outcome →
    ∃ result, session.driver.Settled call.id result ∧ outcome = delivered code result

/-- It holds what the drain of the bridge settles a future with for that result. -/
theorem Answered.delivers (hanswered : Answered code session) {call : Call}
    {outcome : Asyncio.Outcome Value} (hcall : session.call = some call)
    (houtcome : call.future.outcome = some outcome) :
    ∃ result, session.driver.Settled call.id result ∧
      ∀ (world : Bridge.World) (future : FutureId),
        world.deliver code ⟨future, result, .plain⟩ = (world.settle future outcome, none) := by
  obtain ⟨result, hsettled, rfl⟩ := hanswered.outcome call outcome hcall houtcome
  exact ⟨result, hsettled, fun world future => deliver_plain code world future result⟩

theorem Answered.step (hanswered : Answered code session) {turn : Turn}
    (hstep : session.step code resume turn = some next) : Answered code next := by
  have hcancels : ∀ keeps : Driver → Prop,
      (∀ thread driver driver', driver.Valid → driver.step thread = some driver' →
        keeps driver → keeps driver') →
      keeps session.driver → keeps session.cancel.driver ∧ session.cancel.driver.Valid := by
    intro keeps hkeeps hdriver
    have hboth := (cancel_spec session).2.2.2 (fun driver => keeps driver ∧ driver.Valid) ?_
      ⟨hdriver, hanswered.valid⟩
    · exact hboth
    · rintro id driver ⟨hdriver, hvalid⟩
      rcases driver.cancel_cases id with hsame | ⟨-, -, htake⟩ | ⟨-, -, htake⟩
      · rw [hsame]
        exact ⟨hdriver, hvalid⟩
      · exact ⟨hkeeps _ _ _ hvalid htake hdriver, hvalid.step htake⟩
      · exact ⟨hkeeps _ _ _ hvalid htake hdriver, hvalid.step htake⟩
  cases turn with
  | drive thread =>
      obtain ⟨driver, htake, rfl⟩ := Option.map_eq_some_iff.mp hstep
      refine ⟨hanswered.valid.step htake, fun call outcome hcall houtcome => ?_⟩
      obtain ⟨result, hsettled, hsame⟩ := hanswered.outcome call outcome hcall houtcome
      exact ⟨result, hsettled.step hanswered.valid htake, hsame⟩
  | deliver =>
      obtain ⟨call, hcall, hmap⟩ := Option.bind_eq_some_iff.mp hstep
      obtain ⟨result, hresult, rfl⟩ := Option.map_eq_some_iff.mp hmap
      refine ⟨hanswered.valid, fun other outcome hother houtcome => ?_⟩
      cases hother
      simp only [KernelFuture.settle] at houtcome
      split at houtcome
      · exact hanswered.outcome call outcome hcall houtcome
      · exact ⟨result, Driver.settled_of_result hresult, (Option.some.inj houtcome).symm⟩
  | cancel =>
      cases hstep
      refine ⟨(hcancels (fun _ => True) (fun _ _ _ _ _ _ => trivial) trivial).2,
        fun call outcome hcall houtcome => ?_⟩
      rw [(cancel_spec session).1] at hcall
      obtain ⟨result, hsettled, hsame⟩ := hanswered.outcome call outcome hcall houtcome
      exact ⟨result, (hcancels (·.Settled call.id result)
        (fun _ _ _ hvalid htake hkept => hkept.step hvalid htake) hsettled).1, hsame⟩
  | run id =>
      obtain ⟨-, -, -, -, -, -, -, ⟨-, hdriver, hcall⟩ | ⟨op, -, hsubmit, hcall⟩⟩ :=
        run_cases hstep
      · refine ⟨hdriver ▸ hanswered.valid, ?_⟩
        rw [hcall, hdriver]
        exact hanswered.outcome
      · obtain ⟨thread, htake⟩ := Driver.submit_step hsubmit
        refine ⟨hanswered.valid.step htake, fun call outcome hnew houtcome => ?_⟩
        rw [hcall] at hnew
        cases hnew
        cases houtcome

end Session

end Turbofile.Drivers
