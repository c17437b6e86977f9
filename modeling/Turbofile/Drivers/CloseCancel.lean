import Turbofile.Drivers.Session

/-!
# A close that is cancelled

`BinaryFile.close` marks the file closed and then awaits its Close op.  On the
darwin driver a cancel does not reach that op.  On the compio driver it does as
long as the op's task has not been polled, and then the file stays open.
-/

namespace Turbofile.Drivers

open Turbofile.Core
open Turbofile.Asyncio
open Turbofile.Bridge
open Turbofile.Futures
open Turbofile.Logs

/-! ## The close of a handle, on either driver -/

namespace Driver

/-- The driver has opened the file under the number. -/
def Opened (handle : Handle) (fd : Fd) : Driver → Prop
  | .compio state => Compio.Event.registered handle fd ∈ state.log
  | .darwin state => Darwin.Event.registered handle fd ∈ state.log

/-- The op was sent as a close of a file that had been registered. -/
def Asked (handle : Handle) (fd : Fd) (id : OpId) : Driver → Prop
  | .compio state => Precedes (Compio.Event.registered handle fd)
      (.sent (.submit id (.close handle) id)) state.log
  | .darwin state => Precedes (Darwin.Event.registered handle fd)
      (.sent (.submit id (.close handle) id)) state.log

/-- No other close of the handle was sent. -/
def Sole (handle : Handle) (id : OpId) : Driver → Prop
  | .compio state => ∀ other cb,
      Compio.Event.sent (.submit other (.close handle) cb) ∈ state.log → other = id
  | .darwin state => ∀ other cb,
      Darwin.Event.sent (.submit other (.close handle) cb) ∈ state.log → other = id

/-- The handle is out of the table, and its descriptor has been closed. -/
def Shut (handle : Handle) (fd : Fd) : Driver → Prop
  | .compio state => state.files.lookup handle = none ∧
      Precedes (Compio.Event.registered handle fd) (.closed fd) state.log
  | .darwin state => state.files.lookup handle = none ∧
      ∃ carriers, Precedes (Darwin.Event.registered handle fd) (.closed fd carriers) state.log

/-- No close of the handle comes to its first poll on a compio driver with its
flag set. -/
def Unflagged (handle : Handle) (driver : Driver) (thread : Thread) : Prop :=
  match driver, thread with
  | .compio state, .compio label => Compio.Unflagged handle state label
  | _, _ => True

variable {driver next : Driver} {thread : Thread} {id : OpId} {handle : Handle} {fd : Fd}

theorem shut_of_settled (hreach : drivers.ReachableBy (Unflagged handle) driver)
    (hasked : driver.Asked handle fd id) (hsole : driver.Sole handle id)
    {result : Core.Outcome} (hsettled : driver.Settled id result) : driver.Shut handle fd := by
  cases driver with
  | compio state =>
      exact Compio.shut_of_settled (compio_of_reachableBy hreach rfl) hasked hsole hsettled
  | darwin state =>
      exact Darwin.shut_of_settled (valid_of_reachableBy hreach) hasked hsole hsettled

theorem Opened.step (hopened : driver.Opened handle fd) (hvalid : driver.Valid)
    (hstep : driver.step thread = some next) : next.Opened handle fd := by
  cases driver with
  | compio state =>
      cases thread with
      | darwin label => cases hstep
      | compio label =>
          obtain ⟨state', htake, rfl⟩ := Option.map_eq_some_iff.mp hstep
          exact (Compio.step_suffix (.of_reachable hvalid) htake).subset hopened
  | darwin state =>
      cases thread with
      | compio label => cases hstep
      | darwin label =>
          obtain ⟨state', htake, rfl⟩ := Option.map_eq_some_iff.mp hstep
          exact (Darwin.step_suffix (.of_reachable hvalid) htake).subset hopened

theorem Asked.step (hasked : driver.Asked handle fd id) (hvalid : driver.Valid)
    (hstep : driver.step thread = some next) : next.Asked handle fd id := by
  cases driver with
  | compio state =>
      cases thread with
      | darwin label => cases hstep
      | compio label =>
          obtain ⟨state', htake, rfl⟩ := Option.map_eq_some_iff.mp hstep
          exact hasked.mono (Compio.step_suffix (.of_reachable hvalid) htake)
  | darwin state =>
      cases thread with
      | compio label => cases hstep
      | darwin label =>
          obtain ⟨state', htake, rfl⟩ := Option.map_eq_some_iff.mp hstep
          exact hasked.mono (Darwin.step_suffix (.of_reachable hvalid) htake)

theorem Opened.asked (hopened : driver.Opened handle fd)
    (hsubmit : driver.submit id (.close handle) = some next) : next.Asked handle fd id := by
  cases driver with
  | compio state =>
      obtain ⟨state', htake, rfl⟩ := Option.map_eq_some_iff.mp hsubmit
      simp only [Compio.driver, Compio.step] at htake
      split at htake
      · cases htake
      · obtain ⟨rfl, -⟩ := Compio.send_eq htake
        exact .head hopened
  | darwin state =>
      obtain ⟨state', htake, rfl⟩ := Option.map_eq_some_iff.mp hsubmit
      simp only [Darwin.driver, Darwin.step, Darwin.State.send] at htake
      split at htake
      · cases htake
      · split at htake
        · cases htake
        · cases htake
          exact .head hopened

/-- Submitters poll nothing. -/
theorem unflagged_cancel (handle : Handle) (driver : Driver) (id : OpId) :
    drivers.ReachableBy (Unflagged handle) driver →
      drivers.ReachableBy (Unflagged handle) (driver.cancel id) := by
  intro hreach
  rcases driver.cancel_cases id with hsame | ⟨state, rfl, hstep⟩ | ⟨state, rfl, hstep⟩
  · rwa [hsame]
  · refine .step (.compio (.requestCancel id)) hreach ?_ hstep
    rintro index ans task ⟨⟩
  · exact .step (.darwin (.requestCancel id)) hreach trivial hstep

theorem unflagged_submit {op : Op} (hreach : drivers.ReachableBy (Unflagged handle) driver)
    (hsubmit : driver.submit id op = some next) :
    drivers.ReachableBy (Unflagged handle) next := by
  cases driver with
  | compio state =>
      refine .step (.compio (.submit id op)) hreach ?_ hsubmit
      rintro index ans task ⟨⟩
  | darwin state => exact .step (.darwin (.submit id op)) hreach trivial hsubmit

end Driver

/-! ## `BinaryFile.close` -/

inductive Frame
  | start
  | awaiting
  | ended
  deriving DecidableEq

/-- The file's `is_open` and where its `close` is. -/
structure Closing where
  isOpen : Bool
  frame : Frame
  deriving DecidableEq

def BinaryFile.close (handle : Handle) : Coroutine Closing :=
  fun exc closing desk =>
    match closing.frame, exc with
    | .start, none =>
        if closing.isOpen then
          (.waits (), ⟨false, .awaiting⟩, { desk with submits := some (.close handle) })
        else (.returns .nothing, { closing with frame := .ended }, desk)
    | .awaiting, none => (.returns .nothing, { closing with frame := .ended }, desk)
    | .start, some exc | .awaiting, some exc =>
        (.raises exc, { closing with frame := .ended }, desk)
    | .ended, _ => (.raises .cancelled, closing, desk)

/-- A task that closes a file which was opened as `fd`. -/
def closings (code : Raised → ℕ) (handle : Handle) (fd : Fd) : System (Session Closing) Turn :=
  sessions code (BinaryFile.close handle) ⟨true, .start⟩ fun driver =>
    drivers.ReachableBy (Driver.Unflagged handle) driver ∧ driver.Opened handle fd

def Uncancelled (handle : Handle) (session : Session Closing) (turn : Turn) : Prop :=
  ∀ thread, turn = .drive thread → Driver.Unflagged handle session.driver thread

structure Closes (code : Raised → ℕ) (handle : Handle) (fd : Fd) (session : Session Closing) :
    Prop where
  reach : drivers.ReachableBy (Driver.Unflagged handle) session.driver
  opened : session.driver.Opened handle fd
  answered : session.Answered code
  asked : ∀ call, session.call = some call → session.driver.Asked handle fd call.id
  created : session.task.phase = .created → session.task.coro = ⟨true, .start⟩
  waiting : session.task.phase = .waiting () → session.task.coro = ⟨false, .awaiting⟩
  ended : session.task.isDone = true → session.task.coro.isOpen = false →
    ∃ call outcome, session.call = some call ∧ call.future.outcome = some outcome

namespace Closes

variable {code : Raised → ℕ} {handle : Handle} {fd : Fd} {id : OpId}
  {session next : Session Closing}

/-- A step of the task that ends it. -/
theorem finished (hcloses : Closes code handle fd session) (hanswered : next.Answered code)
    (hdriver : next.driver = session.driver) (hcall : next.call = session.call)
    (hdone : next.task.phase ≠ .created ∧ next.task.phase ≠ .waiting ())
    (hended : next.task.coro.isOpen = false →
      ∃ call outcome, session.call = some call ∧ call.future.outcome = some outcome) :
    Closes code handle fd next where
  reach := hdriver ▸ hcloses.reach
  opened := hdriver ▸ hcloses.opened
  answered := hanswered
  asked := by
    rw [hdriver, hcall]
    exact hcloses.asked
  created hcreated := absurd hcreated hdone.1
  waiting hwaiting := absurd hwaiting hdone.2
  ended _ hclosed := hcall ▸ hended hclosed

/-- The answer of the driver reaches the future. -/
theorem deliver (hcloses : Closes code handle fd session) (hanswered : next.Answered code)
    (hdeliver : session.step code (BinaryFile.close handle) .deliver = some next) :
    Closes code handle fd next := by
  obtain ⟨call, hcall, hmap⟩ := Option.bind_eq_some_iff.mp hdeliver
  obtain ⟨result, hresult, rfl⟩ := Option.map_eq_some_iff.mp hmap
  refine { hcloses with answered := hanswered, asked := ?_, ended := ?_ }
  · intro other hother
    cases hother
    exact hcloses.asked call hcall
  · intro hdone hclosed
    obtain ⟨other, outcome, hother, houtcome⟩ := hcloses.ended hdone hclosed
    rw [hcall] at hother
    cases hother
    refine ⟨_, outcome, rfl, ?_⟩
    simp [KernelFuture.settle, KernelFuture.isDone, houtcome]

/-- A cancel of the task may send one for the op, and changes nothing else. -/
theorem cancel (hcloses : Closes code handle fd session)
    (hanswered : session.cancel.Answered code) : Closes code handle fd session.cancel := by
  obtain ⟨hcall, hcoro, hphase, hdriver⟩ := session.cancel_spec
  have hkept : drivers.ReachableBy (Driver.Unflagged handle) session.cancel.driver ∧
      session.cancel.driver.Opened handle fd ∧
      ∀ call, session.call = some call → session.cancel.driver.Asked handle fd call.id := by
    refine hdriver (fun driver => drivers.ReachableBy (Driver.Unflagged handle) driver ∧
      driver.Opened handle fd ∧
      ∀ call, session.call = some call → driver.Asked handle fd call.id) ?_
      ⟨hcloses.reach, hcloses.opened, hcloses.asked⟩
    rintro id driver ⟨hreach, hopened, hasked⟩
    have hvalid := Driver.valid_of_reachableBy hreach
    refine ⟨Driver.unflagged_cancel handle driver id hreach, ?_⟩
    rcases driver.cancel_cases id with hsame | ⟨-, -, htake⟩ | ⟨-, -, htake⟩
    · rw [hsame]
      exact ⟨hopened, hasked⟩
    · exact ⟨hopened.step hvalid htake, fun call hcall => (hasked call hcall).step hvalid htake⟩
    · exact ⟨hopened.step hvalid htake, fun call hcall => (hasked call hcall).step hvalid htake⟩
  have hdone : session.cancel.task.isDone = session.task.isDone := by
    simp only [Task.isDone, hphase]
  exact
    { reach := hkept.1
      opened := hkept.2.1
      answered := hanswered
      asked := by
        rw [hcall]
        exact hkept.2.2
      created := by
        rw [hphase, hcoro]
        exact hcloses.created
      waiting := by
        rw [hphase, hcoro]
        exact hcloses.waiting
      ended := by
        rw [hdone, hcoro, hcall]
        exact hcloses.ended }

/-- The first step of the task asks the driver, unless the task was cancelled before. -/
theorem start (hcloses : Closes code handle fd session) (hanswered : next.Answered code)
    {signal : Signal Unit Value} {coro : Closing} {desk : Desk} {exc : Option Exc}
    (hphase : session.task.phase = .created)
    (hresume : BinaryFile.close handle exc session.task.coro { call := session.call } =
      (signal, coro, desk))
    (htask : next.task = { coro := coro, mustCancel := false, phase := signal.phase })
    (hsubmits : (desk.submits = none ∧ next.driver = session.driver ∧ next.call = session.call) ∨
      ∃ op, desk.submits = some op ∧ session.driver.submit id op = some next.driver ∧
        next.call = some ⟨id, { opIds := [id] }⟩) : Closes code handle fd next := by
  rw [hcloses.created hphase] at hresume
  cases exc with
  | some exc =>
      cases hresume
      obtain ⟨-, hdriver, hcall⟩ := hsubmits.resolve_right (by rintro ⟨op, ⟨⟩, -⟩)
      refine hcloses.finished hanswered hdriver hcall ?_ ?_
      · rw [htask]
        exact ⟨by rintro ⟨⟩, by rintro ⟨⟩⟩
      · rw [htask]
        rintro ⟨⟩
  | none =>
      cases hresume
      obtain ⟨op, hop, hsubmit, hcall⟩ := hsubmits.resolve_left (by rintro ⟨⟨⟩, -⟩)
      cases hop
      obtain ⟨thread, htake⟩ := Driver.submit_step hsubmit
      constructor
      · exact Driver.unflagged_submit hcloses.reach hsubmit
      · exact hcloses.opened.step hcloses.answered.valid htake
      · exact hanswered
      · intro call hnew
        rw [hcall] at hnew
        cases hnew
        exact hcloses.opened.asked hsubmit
      · rw [htask]
        rintro ⟨⟩
      · rw [htask]
        exact fun _ => rfl
      · rw [htask]
        rintro ⟨⟩

/-- With its future done the task ends. -/
theorem wake (hcloses : Closes code handle fd session) (hanswered : next.Answered code)
    {signal : Signal Unit Value} {coro : Closing} {desk : Desk} {exc : Option Exc} {call : Call}
    {outcome : Asyncio.Outcome Value} (hphase : session.task.phase = .waiting ())
    (hcalled : session.call = some call) (houtcome : call.future.outcome = some outcome)
    (hresume : BinaryFile.close handle exc session.task.coro { call := session.call } =
      (signal, coro, desk))
    (htask : next.task = { coro := coro, mustCancel := false, phase := signal.phase })
    (hsubmits : (desk.submits = none ∧ next.driver = session.driver ∧ next.call = session.call) ∨
      ∃ op, desk.submits = some op ∧ session.driver.submit id op = some next.driver ∧
        next.call = some ⟨id, { opIds := [id] }⟩) : Closes code handle fd next := by
  rw [hcloses.waiting hphase] at hresume
  have hends : desk.submits = none ∧ signal.phase ≠ .created ∧ signal.phase ≠ .waiting () := by
    cases exc with
    | none =>
        cases hresume
        exact ⟨rfl, by rintro ⟨⟩, by rintro ⟨⟩⟩
    | some exc =>
        cases hresume
        exact ⟨rfl, by rintro ⟨⟩, by rintro ⟨⟩⟩
  obtain ⟨hnone, hphases⟩ := hends
  rw [hnone] at hsubmits
  obtain ⟨-, hdriver, hcall⟩ := hsubmits.resolve_right (by rintro ⟨op, ⟨⟩, -⟩)
  refine hcloses.finished hanswered hdriver hcall ?_ fun _ => ?_
  · rwa [htask]
  · exact ⟨call, outcome, hcalled, houtcome⟩

theorem step (hcloses : Closes code handle fd session) {turn : Turn}
    (hallowed : Uncancelled handle session turn)
    (hstep : session.step code (BinaryFile.close handle) turn = some next) :
    Closes code handle fd next := by
  have hvalid := hcloses.answered.valid
  have hanswered := hcloses.answered.step hstep
  cases turn with
  | drive thread =>
      obtain ⟨driver, htake, rfl⟩ := Option.map_eq_some_iff.mp hstep
      exact
        { hcloses with
          reach := .step thread hcloses.reach (hallowed thread rfl) htake
          opened := hcloses.opened.step hvalid htake
          answered := hanswered
          asked := fun call hcall => (hcloses.asked call hcall).step hvalid htake }
  | deliver => exact hcloses.deliver hanswered hstep
  | cancel =>
      cases hstep
      exact hcloses.cancel hanswered
  | run id =>
      obtain ⟨exc, signal, coro, desk, hwakes, hresume, htask, hsubmits⟩ := Session.run_cases hstep
      cases hwakes with
      | created hphase => exact hcloses.start hanswered hphase hresume htask hsubmits
      | woken call outcome hphase hcalled houtcome =>
          exact hcloses.wake hanswered hphase hcalled houtcome hresume htask hsubmits

theorem of_reachable
    (hreach : (closings code handle fd).ReachableBy (Uncancelled handle) session) :
    Closes code handle fd session := by
  refine hreach.invariant ?_ ?_
  · rintro ⟨driver, call, task⟩ ⟨⟨hready, hopened⟩, hcall, htask⟩
    obtain rfl : call = none := hcall
    obtain rfl : task = { coro := ⟨true, .start⟩ } := htask
    exact
      { reach := hready
        opened := hopened
        answered := ⟨Driver.valid_of_reachableBy hready, by rintro call outcome ⟨⟩⟩
        asked := by rintro call ⟨⟩
        created := fun _ => rfl
        waiting := by rintro ⟨⟩
        ended := by rintro ⟨⟩ }
  · intro session turn next _ hcloses hallowed hstep
    exact hcloses.step hallowed hstep

end Closes

/-- **A cancelled close.**  In every run in which no close of the handle comes to
its first poll on a compio driver with its flag set, the callback of the only
close of a registered handle finds it out of the table and its descriptor
closed; and so does the end of `await f.close()`, however it ends, whose future
holds what the drain delivers for the result of that callback.  In a step that
is left out the close ends cancelled and the table is as before. -/
theorem close_shuts (code : Raised → ℕ) (handle : Handle) (fd : Fd) :
    (∀ driver id result, drivers.ReachableBy (Driver.Unflagged handle) driver →
        driver.Asked handle fd id → driver.Sole handle id → driver.Settled id result →
        driver.Shut handle fd) ∧
      (∀ session, (closings code handle fd).ReachableBy (Uncancelled handle) session →
        session.task.isDone = true → session.task.coro.isOpen = false →
        ∃ call, session.call = some call ∧
          (session.driver.Sole handle call.id → session.driver.Shut handle fd) ∧
          ∃ result outcome, session.driver.Settled call.id result ∧
            call.future.outcome = some outcome ∧
            ∀ (world : Bridge.World) (future : Bridge.FutureId),
              world.deliver code ⟨future, result, .plain⟩ =
                (world.settle future outcome, none)) ∧
      ∀ state next index ans task, state.tasks[index]? = some task → task.stage = .spawned →
        state.cancelled task.id = true → Compio.driver.step state (.poll index ans) = some next →
        Compio.Event.settled task.cb (.error cancelledError) ∈ next.log ∧
          next.files.lookup handle = state.files.lookup handle := by
  refine ⟨fun driver id result hreach hasked hsole hsettled =>
    Driver.shut_of_settled hreach hasked hsole hsettled, ?_, ?_⟩
  · intro session hreach hdone hclosed
    have hcloses := Closes.of_reachable hreach
    obtain ⟨call, outcome, hcall, houtcome⟩ := hcloses.ended hdone hclosed
    obtain ⟨result, hsettled, hdelivers⟩ := hcloses.answered.delivers hcall houtcome
    refine ⟨call, hcall, fun hsole => ?_, result, outcome, hsettled, houtcome, hdelivers⟩
    exact Driver.shut_of_settled hcloses.reach (hcloses.asked call hcall) hsole hsettled
  · intro state next index ans task hget hspawned hcancelled hpoll
    exact Compio.kept_of_flagged hget hspawned hcancelled hpoll

/-- A compio driver that has opened a file as number 1. -/
def opening : List Thread :=
  [.compio (.submit 1 (.openFile [97] { read := true })), .compio .recv, .compio (.poll 0 {}),
    .compio (.poll 0 { openFd := .ok 5 }), .compio (.poll 0 {})]

def openedState : Compio.State :=
  { Compio.State.new with
    files := AList.insert 1 5 ∅
    cancelFlags := AList.erase 1 (AList.insert 1 false ∅)
    nextId := 2
    log := [.settled 1 (.ok (.handle 1 0 5)), .registered 1 5, .opened 5 [97] { read := true },
      .handled (.submit 1 (.openFile [97] { read := true }) 1),
      .sent (.submit 1 (.openFile [97] { read := true }) 1)] }

theorem exec_opening : drivers.exec (.new .compio) opening = some (.compio openedState) := rfl

/-- A test for `Unflagged`: no flag of a task is set before its first poll. -/
def unflaggedTest (driver : Driver) (_ : Thread) : Bool :=
  match driver with
  | .compio state => state.tasks.all fun task => task.stage ≠ .spawned || !state.cancelled task.id
  | .darwin _ => true

theorem unflagged_of_test (handle : Handle) (driver : Driver) (thread : Thread)
    (htest : unflaggedTest driver thread = true) : Driver.Unflagged handle driver thread := by
  cases driver with
  | darwin state => cases thread <;> trivial
  | compio state =>
      cases thread with
      | darwin label => trivial
      | compio label =>
          rintro index ans task rfl hget hspawned -
          rw [unflaggedTest, List.all_eq_true] at htest
          simpa [hspawned] using htest task (List.mem_of_getElem? hget)

def uncancelledTest (session : Session Closing) (turn : Turn) : Bool :=
  match turn with
  | .drive thread => unflaggedTest session.driver thread
  | _ => true

theorem uncancelled_of_test (handle : Handle) (session : Session Closing) (turn : Turn)
    (htest : uncancelledTest session turn = true) : Uncancelled handle session turn := by
  rintro thread rfl
  exact unflagged_of_test handle session.driver thread htest

def closesOnly (handle : Handle) (id : OpId) (event : Compio.Event) : Bool :=
  match event with
  | .sent (.submit other (.close closed) _) => closed ≠ handle || other = id
  | _ => true

theorem sole_of_test {state : Compio.State} {handle : Handle} {id : OpId}
    (htest : state.log.all (closesOnly handle id) = true) :
    (Driver.compio state).Sole handle id := by
  intro other cb hmem
  have hevent := List.all_eq_true.mp htest _ hmem
  simpa [closesOnly] using hevent

/-- A task that is about to close the file. -/
def closer : Session Closing :=
  { driver := .compio openedState, call := none, task := { coro := ⟨true, .start⟩ } }

theorem closer_ready :
    (closings (fun _ => 0) 1 5).ReachableBy (Uncancelled 1) closer := by
  have hnew : drivers.ReachableBy (Driver.Unflagged 1) (.new .compio) := .init ⟨.compio, rfl⟩
  have hopened : (Driver.compio openedState).Opened 1 5 :=
    List.mem_cons_of_mem _ List.mem_cons_self
  exact .init ⟨⟨hnew.ofExec (unflagged_of_test 1) exec_opening rfl, hopened⟩, rfl, rfl⟩

def lateCancel : List Turn :=
  [.run 2, .drive (.compio .recv), .drive (.compio (.poll 0 {})), .cancel,
    .drive (.compio .recv), .drive (.compio (.poll 0 {})), .deliver, .run 3]

/-- The request comes when the close has taken the file out. -/
theorem close_shuts_late_cancel :
    ∃ session, (closings (fun _ => 0) 1 5).exec closer lateCancel = some session ∧
      session.task.phase = .done .cancelled ∧ session.driver.Shut 1 5 := by
  obtain ⟨session, hrun⟩ : ∃ session,
      (closings (fun _ => 0) 1 5).exec closer lateCancel = some session := ⟨_, rfl⟩
  have hreach := closer_ready.ofExec (uncancelled_of_test 1) hrun rfl
  obtain ⟨hphase, hopen, hcall⟩ : session.task.phase = .done .cancelled ∧
      session.task.coro.isOpen = false ∧ ∀ call, session.call = some call →
        session.driver.Sole 1 call.id := by
    cases hrun
    refine ⟨rfl, rfl, ?_⟩
    rintro call ⟨⟩
    exact sole_of_test rfl
  refine ⟨session, hrun, hphase, ?_⟩
  obtain ⟨call, hsome, hshut, -⟩ := (close_shuts (fun _ => 0) 1 5).2.1 session hreach
    (by simp [Task.isDone, hphase]) hopen
  exact hshut (hcall call hsome)

/-- The request comes before the first poll of the close: the task has ended and
the file counts as closed, but the driver has it open. -/
theorem close_cancelled_leaks :
    ∃ session state, (closings (fun _ => 0) 1 5).exec closer
        [.run 2, .drive (.compio .recv), .cancel, .drive (.compio .recv),
          .drive (.compio (.poll 0 {})), .deliver, .run 3] = some session ∧
      session.task.phase = .done .cancelled ∧ session.task.coro.isOpen = false ∧
      session.driver = .compio state ∧
      Compio.Event.settled 2 (.error cancelledError) ∈ state.log ∧
      session.driver.Sole 1 2 ∧ state.tasks = [] ∧ state.files.lookup 1 = some 5 ∧
      Compio.Event.closed 5 ∉ state.log :=
  ⟨_, _, rfl, rfl, rfl, rfl, List.mem_cons_self, sole_of_test rfl, rfl, rfl, by decide⟩

end Turbofile.Drivers
