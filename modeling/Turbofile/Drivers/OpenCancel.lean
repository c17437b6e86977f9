import Turbofile.Darwin.Replies
import Turbofile.Drivers.CloseCancel

/-!
# An open that is cancelled

A request to cancel is thrown into the coroutine of `turbofile.open` at its
await, and what the op has brought is discarded: a handle that came all the
same belongs to nobody.
-/

namespace Turbofile.Drivers

open Turbofile.Core
open Turbofile.Asyncio
open Turbofile.Bridge
open Turbofile.Futures

/-! ## Handles and the ops that created them -/

namespace Driver

/-- The handle is in the table. -/
def Listed (handle : Handle) : Driver → Prop
  | .compio state => (state.files.lookup handle).isSome
  | .darwin state => (state.files.lookup handle).isSome

/-- The reply to the op was the handle. -/
def Created (id : OpId) (handle : Handle) (driver : Driver) : Prop :=
  ∃ size fd, driver.Settled id (.ok (.handle handle size fd))

variable {driver : Driver} {id : OpId} {handle : Handle}

/-- Every handle in the table was created by some op. -/
theorem created_of_listed (hvalid : driver.Valid) (hlisted : driver.Listed handle) :
    ∃ id, driver.Created id handle := by
  cases driver with
  | compio state =>
      obtain ⟨fd, hlookup⟩ := Option.isSome_iff_exists.mp hlisted
      have hregistered := (Compio.Noted.of_reachable hvalid).files handle fd hlookup
      obtain ⟨cb, size, hsettled⟩ := Compio.Numbered.of_reachable hvalid handle fd hregistered
      exact ⟨cb, size, fd, hsettled⟩
  | darwin state =>
      obtain ⟨entry, hlookup⟩ := Option.isSome_iff_exists.mp hlisted
      have hstood : Darwin.standing handle state.log ≠ .unregistered := by
        intro hnew
        have hagrees := (Darwin.Hand.Protocol.of_reachable hvalid).kept.table handle
        rw [hnew] at hagrees
        have hnone : state.files.lookup handle = none := hagrees
        rw [hlookup] at hnone
        cases hnone
      obtain ⟨fd, hregistered⟩ := Darwin.registered_of_standing hstood
      obtain ⟨cb, size, hsettled⟩ := Darwin.Numbered.of_reachable hvalid handle fd hregistered
      exact ⟨cb, size, fd, hsettled⟩

theorem settled_once (hvalid : driver.Valid) {result other : Core.Outcome}
    (hresult : driver.Settled id result) (hother : driver.Settled id other) : result = other := by
  cases driver with
  | compio state => exact Compio.settled_once hvalid hresult hother
  | darwin state =>
      have hcons := (Darwin.Invariant.of_reachable hvalid).ledger
      exact Darwin.settled_once (hcons.settledTimes_of_mem hresult) hresult hother

end Driver

/-- Only the reply with a handle is delivered as one. -/
theorem delivered_opened {code : Raised → ℕ} {result : Core.Outcome} {handle : Handle} {size : ℕ}
    {fd : Fd} :
    delivered code result = .result (.opened handle size fd) ↔
      result = .ok (.handle handle size fd) := by
  cases result with
  | error error =>
      simp only [delivered]
      split <;> simp
  | ok reply => cases reply <;> simp [delivered, buildValue]

/-! ## `turbofile.open` -/

/-- `open_file`; `arguments` is what its checks before the await make of the
arguments, or what they raise. -/
def openFile (code : Raised → ℕ) (arguments : Except ℕ (Path × OpenSpec)) : Coroutine Frame :=
  fun exc frame desk =>
    match frame, exc with
    | .start, none =>
        match arguments with
        | .error raised => (.raises (.other raised), .ended, desk)
        | .ok (path, spec) =>
            (.waits (), .awaiting, { desk with submits := some (.openFile path spec) })
    | .awaiting, none =>
        match desk.call.bind (·.future.outcome) with
        | some (.result (.opened handle size fd)) =>
            (.returns (.opened handle size fd), .ended, desk)
        | _ => (.raises (.other (code .typeError)), .ended, desk)
    | .start, some exc | .awaiting, some exc => (.raises exc, .ended, desk)
    | .ended, _ => (.raises .cancelled, .ended, desk)

/-- A `FileContext`: where its coroutine is, and the file `__aexit__` closes. -/
structure FileContext where
  coro : Frame
  file : Option Handle
  deriving DecidableEq

/-- `await turbofile.open(...)` and `async with turbofile.open(...)`. -/
inductive Entry
  | await
  | aenter
  deriving DecidableEq

namespace FileContext

/-- What is left in the context when the coroutine has ended so. -/
def noted (entry : Entry) (signal : Signal Unit Value) (file : Option Handle) : Option Handle :=
  match entry, signal with
  | .aenter, .returns (.opened handle _ _) => some handle
  | _, _ => file

/-- `__await__` and `__aenter__`. -/
def enter (code : Raised → ℕ) (arguments : Except ℕ (Path × OpenSpec)) (entry : Entry) :
    Coroutine FileContext :=
  fun exc context desk =>
    let (signal, coro, desk) := openFile code arguments exc context.coro desk
    (signal, ⟨coro, noted entry signal context.file⟩, desk)

end FileContext

/-- A task that opens a file. -/
def openings (code : Raised → ℕ) (arguments : Except ℕ (Path × OpenSpec)) (entry : Entry) :
    System (Session FileContext) Turn :=
  sessions code (FileContext.enter code arguments entry) ⟨.start, none⟩ Driver.Valid

/-- The task does not wake up cancelled when its open has brought a handle. -/
def Unraced (session : Session FileContext) (turn : Turn) : Prop :=
  ∀ id call handle size fd, turn = .run id → session.task.mustCancel = true →
    session.call = some call → call.future.outcome ≠ some (.result (.opened handle size fd))

/-- The future of the call brought the file. -/
def Call.Brings (call : Call) (handle : Handle) (size : ℕ) (fd : Fd) : Prop :=
  call.future.outcome = some (.result (.opened handle size fd))

/-- The task has returned the file its open created. -/
structure Holds (entry : Entry) (session : Session FileContext) (call : Call) (handle : Handle)
    (size : ℕ) (fd : Fd) : Prop where
  called : session.call = some call
  brings : call.Brings handle size fd
  phase : session.task.phase = .done (.result (.opened handle size fd))
  file : entry = .aenter → session.task.coro.file = some handle

/-- The task has ended without a file, and its open, if any, has brought none. -/
structure Fails (session : Session FileContext) : Prop where
  phase : ∀ value, session.task.phase ≠ .done (.result value)
  file : session.task.coro.file = none
  brings : ∀ call, session.call = some call → call.future.isDone = true ∧
    ∀ handle size fd, ¬call.Brings handle size fd

structure Opens (code : Raised → ℕ) (entry : Entry) (session : Session FileContext) : Prop where
  answered : session.Answered code
  created : session.task.phase = .created →
    session.task.coro = ⟨.start, none⟩ ∧ session.call = none
  waiting : session.task.phase = .waiting () → session.task.coro = ⟨.awaiting, none⟩
  ended : session.task.isDone = true →
    (∃ call handle size fd, Holds entry session call handle size fd) ∨ Fails session

/-- A future that is done stays as it is. -/
theorem settle_of_done {future : KernelFuture Value} (hdone : future.isDone = true)
    (outcome : Asyncio.Outcome Value) : future.settle outcome = future := by
  rw [KernelFuture.settle, if_pos hdone]

namespace Opens

variable {code : Raised → ℕ} {arguments : Except ℕ (Path × OpenSpec)} {entry : Entry}
  {session next : Session FileContext}

/-- The delivery, a cancel request and the driver leave a task that has ended. -/
theorem kept (hopens : Opens code entry session) (hanswered : next.Answered code)
    (hcoro : next.task.coro = session.task.coro) (hphase : next.task.phase = session.task.phase)
    (hcall : next.call = session.call ∨ ∃ call outcome, session.call = some call ∧
      next.call = some { call with future := call.future.settle outcome }) :
    Opens code entry next := by
  have hdone : next.task.isDone = session.task.isDone := by
    simp only [Task.isDone, hphase]
  refine ⟨hanswered, ?_, ?_, ?_⟩
  · rw [hphase, hcoro]
    intro hcreated
    obtain ⟨hstart, hnone⟩ := hopens.created hcreated
    refine ⟨hstart, ?_⟩
    rcases hcall with hsame | ⟨call, outcome, hsome, -⟩
    · rw [hsame, hnone]
    · rw [hnone] at hsome
      cases hsome
  · rw [hphase, hcoro]
    exact hopens.waiting
  · rw [hdone]
    intro hended
    have hsettled : ∀ call, session.call = some call → call.future.isDone = true →
        next.call = some call := by
      intro call hsome hdone
      rcases hcall with hsame | ⟨other, outcome, hother, hnext⟩
      · rw [hsame, hsome]
      · rw [hsome] at hother
        cases hother
        rw [hnext, settle_of_done hdone]
    rcases hopens.ended hended with ⟨call, handle, size, fd, hholds⟩ | hfails
    · left
      refine ⟨call, handle, size, fd, hsettled call hholds.called ?_, hholds.brings,
        hphase.trans hholds.phase, fun haenter => ?_⟩
      · rw [KernelFuture.isDone, show call.future.outcome = _ from hholds.brings]
        rfl
      · rw [hcoro]
        exact hholds.file haenter
    · right
      refine ⟨hphase ▸ hfails.phase, hcoro ▸ hfails.file, fun call hsome => ?_⟩
      rcases hcall with hsame | ⟨other, outcome, hother, hnext⟩
      · exact hfails.brings call (hsame ▸ hsome)
      · have hfuture := hfails.brings other hother
        have hsame := hsettled other hother hfuture.1
        rw [hsome] at hsame
        cases hsame
        exact hfuture

/-- A step in which the coroutine raises. -/
theorem raised (hanswered : next.Answered code) {signal : Signal Unit Value} {exc : Exc}
    (hsignal : signal = .raises exc) (htask : next.task = ⟨⟨.ended, none⟩, false, signal.phase⟩)
    (hbrings : ∀ call, next.call = some call → call.future.isDone = true ∧
      ∀ handle size fd, ¬call.Brings handle size fd) : Opens code entry next := by
  subst hsignal
  refine ⟨hanswered, ?_, ?_, fun _ => .inr ⟨fun value => ?_, ?_, hbrings⟩⟩
  · rw [htask]
    rintro ⟨⟩
  · rw [htask]
    rintro ⟨⟩
  · rw [htask]
    cases exc with
    | cancelled => rintro ⟨⟩
    | other raised => rintro ⟨⟩
  · rw [htask]

/-- The first step of the task. -/
theorem begun (hopens : Opens code entry session) (hanswered : next.Answered code)
    (hphase : session.task.phase = .created) {exc : Option Exc} {signal : Signal Unit Value}
    {context : FileContext} {desk : Desk}
    (hresume : FileContext.enter code arguments entry exc session.task.coro
      { call := session.call } = (signal, context, desk))
    (htask : next.task = ⟨context, false, signal.phase⟩)
    (hquiet : desk.submits = none → next.call = session.call) : Opens code entry next := by
  obtain ⟨hstart, hnone⟩ := hopens.created hphase
  rw [hstart, hnone] at hresume
  have hunasked : desk.submits = none → ∀ call, next.call = some call →
      call.future.isDone = true ∧ ∀ handle size fd, ¬call.Brings handle size fd := by
    intro hsubmits call hsome
    rw [hquiet hsubmits, hnone] at hsome
    cases hsome
  cases exc with
  | some exc =>
      cases entry <;> cases hresume
      · exact raised hanswered rfl htask (hunasked rfl)
      · exact raised hanswered rfl htask (hunasked rfl)
  | none =>
      cases arguments with
      | error code' =>
          cases entry <;> cases hresume
          · exact raised hanswered rfl htask (hunasked rfl)
          · exact raised hanswered rfl htask (hunasked rfl)
      | ok spec =>
          have hwaits : signal = .waits () ∧ context = ⟨.awaiting, none⟩ := by
            cases entry <;> cases hresume
            · exact ⟨rfl, rfl⟩
            · exact ⟨rfl, rfl⟩
          obtain ⟨rfl, rfl⟩ := hwaits
          refine ⟨hanswered, ?_, fun _ => ?_, ?_⟩
          · rw [htask]
            rintro ⟨⟩
          · rw [htask]
          · rw [htask]
            rintro ⟨⟩

/-- The step after the await. -/
theorem woken (hopens : Opens code entry session) (hanswered : next.Answered code)
    (hphase : session.task.phase = .waiting ()) {call : Call} {outcome : Asyncio.Outcome Value}
    (hcalled : session.call = some call) (houtcome : call.future.outcome = some outcome)
    {exc : Option Exc} (hexc : exc = if session.task.mustCancel then some .cancelled else
      outcome.raises) (hunraced : session.task.mustCancel = true →
        ∀ handle size fd, ¬call.Brings handle size fd)
    {signal : Signal Unit Value} {context : FileContext} {desk : Desk}
    (hresume : FileContext.enter code arguments entry exc session.task.coro
      { call := session.call } = (signal, context, desk))
    (htask : next.task = ⟨context, false, signal.phase⟩)
    (hquiet : desk.submits = none → next.call = session.call) : Opens code entry next := by
  rw [hopens.waiting hphase, hcalled] at hresume
  have hdone : call.future.isDone = true := by
    rw [KernelFuture.isDone, houtcome]
    rfl
  have hempty : desk.submits = none → (∀ handle size fd, ¬call.Brings handle size fd) →
      ∀ other, next.call = some other →
        other.future.isDone = true ∧ ∀ handle size fd, ¬other.Brings handle size fd := by
    intro hsubmits hbrings other hother
    rw [hquiet hsubmits, hcalled] at hother
    cases hother
    exact ⟨hdone, hbrings⟩
  cases exc with
  | some exc =>
      have hbrings : ∀ handle size fd, ¬call.Brings handle size fd := by
        cases hmust : session.task.mustCancel with
        | true => exact hunraced hmust
        | false =>
            rw [hmust] at hexc
            rintro handle size fd hbrings
            rw [Call.Brings, houtcome] at hbrings
            cases hbrings
            cases hexc
      cases entry <;> cases hresume
      · exact raised hanswered rfl htask (hempty rfl hbrings)
      · exact raised hanswered rfl htask (hempty rfl hbrings)
  | none =>
      by_cases hopened : ∃ handle size fd, call.Brings handle size fd
      · obtain ⟨handle, size, fd, hbrings⟩ := hopened
        have hreturns : signal = .returns (.opened handle size fd) ∧ desk.submits = none ∧
            (entry = .aenter → context.file = some handle) := by
          simp only [FileContext.enter, openFile, Option.bind_some,
            show call.future.outcome = _ from hbrings] at hresume
          cases hresume
          exact ⟨rfl, rfl, by rintro rfl; rfl⟩
        obtain ⟨rfl, hsubmits, hfile⟩ := hreturns
        refine ⟨hanswered, ?_, ?_, fun _ => .inl ⟨call, handle, size, fd, ?_, hbrings, ?_, ?_⟩⟩
        · rw [htask]
          rintro ⟨⟩
        · rw [htask]
          rintro ⟨⟩
        · rw [hquiet hsubmits, hcalled]
        · rw [htask]
          rfl
        · rw [htask]
          exact hfile
      · have hbrings : ∀ handle size fd, ¬call.Brings handle size fd :=
          fun handle size fd hbrings => hopened ⟨handle, size, fd, hbrings⟩
        have hraises : ∃ exc, signal = .raises exc ∧ context = ⟨.ended, none⟩ ∧
            desk.submits = none := by
          simp only [FileContext.enter, openFile, Option.bind_some] at hresume
          split at hresume
          · next handle size fd hsome => exact absurd hsome (hbrings handle size fd)
          · cases entry <;> cases hresume
            · exact ⟨_, rfl, rfl, rfl⟩
            · exact ⟨_, rfl, rfl, rfl⟩
        obtain ⟨exc, hsignal, rfl, hsubmits⟩ := hraises
        exact raised hanswered hsignal htask (hempty hsubmits hbrings)

theorem step (hopens : Opens code entry session) {turn : Turn} (hallowed : Unraced session turn)
    (hstep : session.step code (FileContext.enter code arguments entry) turn = some next) :
    Opens code entry next := by
  have hanswered := hopens.answered.step hstep
  cases turn with
  | drive thread =>
      obtain ⟨driver, -, rfl⟩ := Option.map_eq_some_iff.mp hstep
      exact hopens.kept hanswered rfl rfl (.inl rfl)
  | deliver =>
      obtain ⟨call, hcall, hmap⟩ := Option.bind_eq_some_iff.mp hstep
      obtain ⟨result, -, rfl⟩ := Option.map_eq_some_iff.mp hmap
      exact hopens.kept hanswered rfl rfl (.inr ⟨call, _, hcall, rfl⟩)
  | cancel =>
      cases hstep
      obtain ⟨hcall, hcoro, hphase, -⟩ := session.cancel_spec
      exact hopens.kept hanswered hcoro hphase (.inl hcall)
  | run id =>
      obtain ⟨exc, signal, coro, desk, hwakes, hresume, htask, hsubmits⟩ := Session.run_cases hstep
      have hquiet : desk.submits = none → next.call = session.call := by
        intro hnone
        rw [hnone] at hsubmits
        exact (hsubmits.resolve_right (by rintro ⟨op, ⟨⟩, -⟩)).2.2
      cases hwakes with
      | created hphase => exact hopens.begun hanswered hphase hresume htask hquiet
      | woken call outcome hphase hcalled houtcome =>
          refine hopens.woken hanswered hphase hcalled houtcome rfl ?_ hresume htask hquiet
          intro hmust handle size fd
          exact hallowed id call handle size fd rfl hmust hcalled

theorem of_reachable
    (hreach : (openings code arguments entry).ReachableBy Unraced session) :
    Opens code entry session := by
  refine hreach.invariant ?_ ?_
  · rintro ⟨driver, call, task⟩ ⟨hvalid, hcall, htask⟩
    obtain rfl : call = none := hcall
    obtain rfl : task = { coro := ⟨.start, none⟩ } := htask
    refine ⟨⟨hvalid, ?_⟩, fun _ => ⟨rfl, rfl⟩, ?_, ?_⟩
    · rintro call outcome ⟨⟩
    · rintro ⟨⟩
    · rintro ⟨⟩
  · intro session turn next _ hopens hallowed hstep
    exact hopens.step hallowed hstep

end Opens

section Owned

variable {code : Raised → ℕ} {arguments : Except ℕ (Path × OpenSpec)} {entry : Entry}
  {session next : Session FileContext}

/-- What a future brought is what the driver replied. -/
theorem created_of_brings (hanswered : session.Answered code) {call : Call} {handle : Handle}
    {size : ℕ} {fd : Fd} (hcalled : session.call = some call)
    (hbrings : call.Brings handle size fd) : session.driver.Created call.id handle := by
  obtain ⟨result, hsettled, hsame⟩ := hanswered.outcome call _ hcalled hbrings
  rw [delivered_opened.mp hsame.symm] at hsettled
  exact ⟨size, fd, hsettled⟩

/-- An open whose future is done with something else created nothing. -/
theorem not_created (hanswered : session.Answered code) {call : Call} {handle : Handle}
    (hcalled : session.call = some call) (hdone : call.future.isDone = true)
    (hbrings : ∀ handle size fd, ¬call.Brings handle size fd) :
    ¬session.driver.Created call.id handle := by
  rintro ⟨size, fd, hreplied⟩
  obtain ⟨outcome, houtcome⟩ := Option.isSome_iff_exists.mp hdone
  obtain ⟨result, hsettled, hsame⟩ := hanswered.outcome call outcome hcalled houtcome
  obtain rfl := Driver.settled_once hanswered.valid hsettled hreplied
  refine hbrings handle size fd ?_
  rw [Call.Brings, houtcome, hsame, delivered_opened.mpr rfl]

/-- The step that is left out discards the handle. -/
theorem discarded (hopens : Opens code entry session) {turn : Turn}
    (hraced : ¬Unraced session turn)
    (hstep : session.step code (FileContext.enter code arguments entry) turn = some next) :
    next.task.phase = .done .cancelled ∧ next.task.coro.file = none ∧
      next.driver = session.driver ∧
      ∃ call handle, next.call = some call ∧ next.driver.Created call.id handle := by
  simp only [Unraced, not_forall, not_not] at hraced
  obtain ⟨id, call, handle, size, fd, rfl, hmust, hcalled, hbrings⟩ := hraced
  obtain ⟨exc, signal, coro, desk, hwakes, hresume, htask, hsubmits⟩ := Session.run_cases hstep
  cases hwakes with
  | created hphase =>
      have hnone := (hopens.created hphase).2
      rw [hcalled] at hnone
      cases hnone
  | woken other outcome hphase hother houtcome =>
      rw [if_pos hmust, hopens.waiting hphase] at hresume
      have hends : signal = .raises .cancelled ∧ coro.file = none ∧ desk.submits = none := by
        cases entry <;> cases hresume
        · exact ⟨rfl, rfl, rfl⟩
        · exact ⟨rfl, rfl, rfl⟩
      obtain ⟨rfl, hfile, hnone⟩ := hends
      rw [hnone] at hsubmits
      obtain ⟨-, hdriver, hcall⟩ := hsubmits.resolve_right (by rintro ⟨op, ⟨⟩, -⟩)
      refine ⟨?_, ?_, hdriver, call, handle, hcall.trans hcalled, ?_⟩
      · rw [htask]
        rfl
      · rw [htask]
        exact hfile
      · rw [hdriver]
        exact created_of_brings hopens.answered hcalled hbrings

end Owned

/-- **A cancelled open.**  In every run in which the task does not wake up
cancelled when its open has brought a handle, the task that has ended holds the
file, or no handle in the table was created by its open.  Every handle in the
table was created by some op.  The first step that is left out ends the task
cancelled, with the handle created and the driver as it was.  What the future of
the open holds is what the drain delivers for the result its callback got. -/
theorem open_owned (code : Raised → ℕ) (arguments : Except ℕ (Path × OpenSpec)) (entry : Entry) :
    (∀ session, (openings code arguments entry).ReachableBy Unraced session →
        session.task.isDone = true →
        (∃ call handle size fd, Holds entry session call handle size fd ∧
            session.driver.Created call.id handle) ∨
          Fails session ∧ ∀ call handle, session.call = some call →
            session.driver.Listed handle → ¬session.driver.Created call.id handle) ∧
      (∀ driver handle, Driver.Valid driver → driver.Listed handle →
        ∃ id, driver.Created id handle) ∧
      (∀ session turn next, (openings code arguments entry).ReachableBy Unraced session →
        ¬Unraced session turn →
        (openings code arguments entry).step session turn = some next →
        next.task.phase = .done .cancelled ∧ next.task.coro.file = none ∧
          next.driver = session.driver ∧
          ∃ call handle, next.call = some call ∧ next.driver.Created call.id handle) ∧
      ∀ session call outcome, (openings code arguments entry).ReachableBy Unraced session →
        session.call = some call → call.future.outcome = some outcome →
        ∃ result, session.driver.Settled call.id result ∧
          ∀ (world : Bridge.World) (future : FutureId),
            world.deliver code ⟨future, result, .plain⟩ = (world.settle future outcome, none) := by
  refine ⟨fun session hreach hdone => ?_, fun driver handle hvalid hlisted =>
    Driver.created_of_listed hvalid hlisted, fun session turn next hreach hraced hstep =>
    discarded (Opens.of_reachable hreach) hraced hstep, fun session call outcome hreach =>
    (Opens.of_reachable hreach).answered.delivers⟩
  have hopens := Opens.of_reachable hreach
  rcases hopens.ended hdone with ⟨call, handle, size, fd, hholds⟩ | hfails
  · exact .inl ⟨call, handle, size, fd, hholds,
      created_of_brings hopens.answered hholds.called hholds.brings⟩
  · refine .inr ⟨hfails, fun call handle hcalled _ => ?_⟩
    obtain ⟨hsettled, hbrings⟩ := hfails.brings call hcalled
    exact not_created hopens.answered hcalled hsettled hbrings

def bringsFile : Asyncio.Outcome Value → Bool
  | .result (.opened _ _ _) => true
  | _ => false

/-- A test for `Unraced`. -/
def unracedTest (session : Session FileContext) (turn : Turn) : Bool :=
  match turn with
  | .run _ =>
      !session.task.mustCancel ||
        session.call.all fun call => !call.future.outcome.any bringsFile
  | _ => true

theorem unraced_of_test (session : Session FileContext) (turn : Turn)
    (htest : unracedTest session turn = true) : Unraced session turn := by
  rintro id call handle size fd rfl hmust hcalled hbrings
  simp [unracedTest, hmust, hcalled, hbrings, bringsFile] at htest

/-- A task that is about to open a file on a new compio driver. -/
def opener : Session FileContext :=
  { driver := .new .compio, call := none, task := { coro := ⟨.start, none⟩ } }

/-- The driver opens the file, until the callback of the open has run. -/
def opensFile : List Turn :=
  [.run 1, .drive (.compio .recv), .drive (.compio (.poll 0 {})),
    .drive (.compio (.poll 0 { openFd := .ok 5 })), .drive (.compio (.poll 0 {}))]

/-- The request is handled before the open is polled: the task ends cancelled, and
its open has made no handle. -/
theorem open_owned_cancelled :
    ∃ session, (openings (fun _ => 0) (.ok ([97], { read := true })) .aenter).exec opener
        [.run 1, .cancel, .drive (.compio .recv), .drive (.compio .recv),
          .drive (.compio (.poll 0 {})), .deliver, .run 2] = some session ∧
      session.task.phase = .done .cancelled ∧
      ∀ call handle, session.call = some call → session.driver.Listed handle →
        ¬session.driver.Created call.id handle := by
  obtain ⟨session, hrun⟩ : ∃ session,
      (openings (fun _ => 0) (.ok ([97], { read := true })) .aenter).exec opener
        [.run 1, .cancel, .drive (.compio .recv), .drive (.compio .recv),
          .drive (.compio (.poll 0 {})), .deliver, .run 2] = some session := ⟨_, rfl⟩
  have hstart : (openings (fun _ => 0) (.ok ([97], { read := true })) .aenter).ReachableBy Unraced
      opener := .init ⟨Driver.valid_new .compio, rfl, rfl⟩
  have hreach := hstart.ofExec unraced_of_test hrun rfl
  have hphase : session.task.phase = .done .cancelled := by
    cases hrun
    rfl
  refine ⟨session, hrun, hphase, ?_⟩
  rcases (open_owned (fun _ => 0) (.ok ([97], { read := true })) .aenter).1 session hreach
    (by simp [Task.isDone, hphase]) with ⟨call, handle, size, fd, hholds, -⟩ | ⟨-, hnone⟩
  · have hresult := hholds.phase
    rw [hphase] at hresult
    cases hresult
  · exact hnone

/-- The request comes after the kernel has opened the file: the task ends
cancelled, and the handle stays in the table. -/
theorem open_cancelled_leaks :
    ∃ session state, (openings (fun _ => 0) (.ok ([97], { read := true })) .aenter).exec opener
        (opensFile ++ [.cancel, .deliver, .run 2]) = some session ∧
      session.task.phase = .done .cancelled ∧ session.task.coro.file = none ∧
      session.driver = .compio state ∧
      Compio.Event.settled 1 (.ok (.handle 1 0 5)) ∈ state.log ∧
      state.tasks = [] ∧ state.files.lookup 1 = some 5 :=
  ⟨_, _, rfl, rfl, rfl, rfl, by decide, rfl, rfl⟩

end Turbofile.Drivers
