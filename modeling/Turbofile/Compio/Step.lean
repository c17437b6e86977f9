import Turbofile.Core.Op
import Turbofile.Library.System
import Turbofile.Library.Tally

/-!
# The compio driver

One runtime thread receives messages and polls one task for each op.  A poll
runs a task from one await to the next, so `Stage` is the await a task is at,
and between two polls anything else may happen on the thread.  What an awaited
call answers is an input of the step function.
-/

namespace Turbofile.Compio

open Turbofile.Core
open Turbofile.Tally

/-- A `Vec` or a `RawBufMut`: its allocation and how much of it counts as
initialised. -/
structure Buf where
  cap : ℕ
  len : ℕ
  mem : List Byte
  deriving DecidableEq

/-- `read_at` stores from the first byte `as_uninit` exposes, which is that of
the whole allocation, and raises the length to what it read. -/
def Buf.fill (buf : Buf) (data : List Byte) : Buf :=
  { buf with
    len := max buf.len data.length
    mem := data ++ buf.mem.drop data.length }

/-- The await a task is at, with the clone of the file it holds there. -/
inductive Stage
  | spawned
  | opening
  | statting (fd : Fd)
  | reading (fd : Fd) (buf : Buf)
  | readingToEnd (fd : Fd)
  | writing (fd : Fd)
  | appending (fd : Fd)
  | syncing (fd : Fd)
  | resizing (fd : Fd)
  | closing (fd : Fd) (reply : Reply)
  deriving DecidableEq

def Stage.fd : Stage → Option Fd
  | .spawned | .opening => none
  | .statting fd | .reading fd _ | .readingToEnd fd | .writing fd | .appending fd
  | .syncing fd | .resizing fd | .closing fd _ => some fd

structure Task where
  id : OpId
  op : Op
  openId : Option Handle
  cb : Callback
  stage : Stage
  deriving DecidableEq

inductive Event
  | sent (msg : Msg)
  | handled (msg : Msg)
  | opened (fd : Fd) (path : Path) (spec : OpenSpec)
  | registered (handle : Handle) (fd : Fd)
  | closed (fd : Fd)
  | settled (cb : Callback) (result : Outcome)
  deriving DecidableEq

/-- What the awaited call of one poll answers. -/
structure Answers where
  openFd : Except Errno Fd := .error (.other 2)
  stat : Except Errno FileStat := .ok ⟨0, true⟩
  data : Except Errno (List Byte) := .ok []
  done : Except Errno Unit := .ok ()

structure State where
  rx : List Msg
  submittersGone : Bool
  files : Table Handle Fd
  cancelFlags : Table OpId Bool
  nextId : Handle
  tasks : List Task
  returned : Bool
  log : List Event

namespace State

def new : State where
  rx := []
  submittersGone := false
  files := ∅
  cancelFlags := ∅
  nextId := 1
  tasks := []
  returned := false
  log := []

def emit (event : Event) (state : State) : State :=
  { state with log := event :: state.log }

/-- Some clone of the file is alive. -/
def holds (fd : Fd) (state : State) : Bool :=
  state.tasks.any (fun task => task.stage.fd = some fd) ||
    state.files.entries.any fun row => row.2 = fd

/-- Drop a clone: the last one closes the descriptor. -/
def release (fd : Fd) (state : State) : State :=
  if state.holds fd then state else state.emit (.closed fd)

/-- `cancelled.get()` in the task of an op. -/
def cancelled (id : OpId) (state : State) : Bool :=
  state.cancelFlags.lookup id = some true

/-- Wait for the next call. -/
def suspend (index : ℕ) (task : Task) (stage : Stage) (state : State) : State :=
  { state with tasks := state.tasks.set index { task with stage := stage } }

/-- `execute` has returned and dropped its file. -/
def finish (index : ℕ) (task : Task) (held : Option Fd) (result : Outcome)
    (state : State) : State :=
  let state := { state with tasks := state.tasks.eraseIdx index }
  let state :=
    match held with
    | none => state
    | some fd => state.release fd
  ({ state with cancelFlags := state.cancelFlags.erase task.id }).emit
    (.settled task.cb result)

def insertFile (index : ℕ) (task : Task) (fd : Fd) (size : ℕ) (state : State) : State :=
  match task.openId with
  | none => state
  | some handle =>
      ({ state with
        files := state.files.insert handle fd
        log := .registered handle fd :: state.log }).finish index task none
        (.ok (.handle handle size fd))

/-- The head of `read_up_to`'s loop. -/
def readUpTo (index : ℕ) (task : Task) (fd : Fd) (dest : Dest) (buf : Buf)
    (state : State) : State :=
  let len :=
    match dest with
    | .alloc len => len
    | .into _ len => len
  if state.cancelled task.id then state.finish index task (some fd) (.error cancelledError)
  else if len ≤ buf.len then
    state.finish index task (some fd)
      (.ok (match dest with
        | .alloc _ => .bytes (buf.mem.take buf.len)
        | .into _ _ => .read buf.len))
  else state.suspend index task (.reading fd buf)

/-- After `lookup`: the ops on a handle get a clone of its file. -/
def withFile (index : ℕ) (task : Task) (handle : Handle) (use : Fd → State)
    (state : State) : State :=
  match state.files.lookup handle with
  | none => state.finish index task none (.error badHandle)
  | some fd => use fd

/-- `execute` up to its first await. -/
def execute (index : ℕ) (task : Task) (state : State) : State :=
  if state.cancelled task.id then
    state.finish index task none (.error cancelledError)
  else
    match task.op with
    | .nop => state.finish index task none (.ok .unit)
    | .openFile _ _ | .readFile _ _ | .writeFile _ _ => state.suspend index task .opening
    | .close handle =>
        match state.files.lookup handle with
        | none => state.finish index task none (.error badHandle)
        | some fd =>
            ({ state with files := state.files.erase handle }).suspend index task
              (.closing fd .unit)
    | .readAt handle _ dest =>
        state.withFile index task handle fun fd =>
          match dest with
          | .alloc len => state.readUpTo index task fd dest ⟨len, 0, []⟩
          | .into _ len => state.readUpTo index task fd dest ⟨len, 0, []⟩
    | .readToEnd handle _ | .size handle =>
        state.withFile index task handle fun fd => state.suspend index task (.statting fd)
    | .writeAt handle _ _ append =>
        state.withFile index task handle fun fd =>
          if append then state.suspend index task (.appending fd)
          else state.suspend index task (.writing fd)
    | .sync handle _ =>
        state.withFile index task handle fun fd => state.suspend index task (.syncing fd)
    | .setLen handle _ =>
        state.withFile index task handle fun fd => state.suspend index task (.resizing fd)

/-- After `metadata`. -/
def statted (index : ℕ) (task : Task) (fd : Fd) (stat : FileStat) (state : State) : State :=
  match task.op with
  | .openFile _ _ => state.insertFile index task fd stat.size
  | .readFile _ inlineMax =>
      if inlineMax < stat.size then state.insertFile index task fd stat.size
      else state.suspend index task (.readingToEnd fd)
  | .readToEnd _ _ => state.suspend index task (.readingToEnd fd)
  | .writeAt _ _ data _ =>
      state.finish index task (some fd) (.ok (.written data.len stat.size))
  | .size _ => state.finish index task (some fd) (.ok (.size stat.size))
  | _ => state

/-- After the whole payload has been written at a position. -/
def wrote (index : ℕ) (task : Task) (fd : Fd) (state : State) : State :=
  match task.op with
  | .writeAt _ pos data _ =>
      state.finish index task (some fd) (.ok (.written data.len (u64Add pos data.len)))
  | .writeFile _ data =>
      state.suspend index task (.closing fd (.written data.len data.len))
  | _ => state

/-- After `read_to_end_at`. -/
def readAll (index : ℕ) (task : Task) (fd : Fd) (data : List Byte) (state : State) : State :=
  match task.op with
  | .readToEnd _ _ => state.finish index task (some fd) (.ok (.bytes data))
  | .readFile _ _ => state.suspend index task (.closing fd (.bytes data))
  | _ => state

def openedFile (index : ℕ) (task : Task) (fd : Fd) (state : State) : State :=
  match task.op with
  | .openFile path spec =>
      (state.emit (.opened fd path spec)).suspend index task (.statting fd)
  | .readFile path _ =>
      (state.emit (.opened fd path { read := true })).suspend index task (.statting fd)
  | .writeFile path _ =>
      (state.emit (.opened fd path { write := true, create := true, truncate := true })).suspend
        index task (.writing fd)
  | _ => state

/-- `res?`: an error ends `execute`. -/
def orFail {α : Type} (index : ℕ) (task : Task) (held : Option Fd) (result : Except Errno α)
    (next : α → State) (state : State) : State :=
  match result with
  | .error errno => state.finish index task held (.error (.os errno))
  | .ok value => next value

/-- Run a task from its await to the next one; `none` while the call it waits
for cannot end: a close waits for the other clones of the file. -/
def poll (ans : Answers) (index : ℕ) (state : State) : Option State :=
  match state.tasks[index]? with
  | none => none
  | some task =>
      match task.stage with
      | .spawned => some (state.execute index task)
      | .opening =>
          some (state.orFail index task none ans.openFd fun fd =>
            state.openedFile index task fd)
      | .statting fd =>
          some (state.orFail index task (some fd) ans.stat fun stat =>
            state.statted index task fd stat)
      | .reading fd buf =>
          match task.op with
          | .readAt _ _ dest =>
              some (state.orFail index task (some fd) ans.data fun data =>
                if data = [] then
                  state.finish index task (some fd)
                    (.ok (match dest with
                      | .alloc _ => .bytes (buf.mem.take buf.len)
                      | .into _ _ => .read buf.len))
                else state.readUpTo index task fd dest (buf.fill data))
          | _ => none
      | .readingToEnd fd =>
          some (state.orFail index task (some fd) ans.data fun data =>
            state.readAll index task fd data)
      | .writing fd =>
          some (state.orFail index task (some fd) ans.done fun _ => state.wrote index task fd)
      | .appending fd =>
          some (state.orFail index task (some fd) ans.done fun _ =>
            state.suspend index task (.statting fd))
      | .syncing fd | .resizing fd =>
          some (state.orFail index task (some fd) ans.done fun _ =>
            state.finish index task (some fd) (.ok .unit))
      | .closing fd reply =>
          if ({ state with tasks := state.tasks.eraseIdx index }).holds fd then none
          else
            let state := state.emit (.closed fd)
            some (state.orFail index task none ans.done fun _ =>
              state.finish index task none (.ok reply))

/-! ## The loop of `run` -/

def openIdFor (op : Op) (nextId : Handle) : Option Handle :=
  match op with
  | .openFile _ _ | .readFile _ _ => some nextId
  | _ => none

def handleMsg (msg : Msg) (state : State) : State :=
  let state := state.emit (.handled msg)
  match msg with
  | .cancel id =>
      if (state.cancelFlags.lookup id).isSome then
        { state with cancelFlags := state.cancelFlags.insert id true }
      else state
  | .submit id op cb =>
      let openId := openIdFor op state.nextId
      { state with
        nextId := if openId.isSome then state.nextId + 1 else state.nextId
        cancelFlags := state.cancelFlags.insert id false
        tasks := state.tasks ++ [⟨id, op, openId, cb, .spawned⟩] }

/-- All descriptors that some clone keeps open. -/
def heldFds (state : State) : List Fd :=
  (state.tasks.filterMap (fun task => task.stage.fd) ++
    state.files.entries.map fun row => row.2).dedup

/-- `recv_async`: the loop waits while the channel is empty, and is over when
the senders are gone too. -/
def recv (state : State) : Option State :=
  if state.returned then none
  else
    match state.rx with
    | msg :: rx => some (({ state with rx := rx }).handleMsg msg)
    | [] => none

/-- The unfinished tasks are gone, and the files with them. -/
def dropped (state : State) : State :=
  { state with
    tasks := []
    files := ∅
    cancelFlags := ∅
    returned := true
    log := state.heldFds.map .closed ++ state.log }

/-- The runtime is dropped, some time after the end of the channel: `block_on`
looks at the result of `run` only after it has run the rest of the executor's
tick, so tasks may be polled in between. -/
def dropRuntime (state : State) : Option State :=
  if state.returned = false ∧ state.rx = [] ∧ state.submittersGone = true then some state.dropped
  else none

def submittedIds : List Event → List OpId
  | [] => []
  | .sent (.submit id _ _) :: log => id :: submittedIds log
  | _ :: log => submittedIds log

def send (msg : Msg) (state : State) : Option State :=
  if state.submittersGone then none
  else some (({ state with rx := state.rx ++ [msg] }).emit (.sent msg))

end State

inductive Label
  | submit (id : OpId) (op : Op)
  | requestCancel (id : OpId)
  | dropSubmitters
  | recv
  | dropRuntime
  | poll (index : ℕ) (ans : Answers)

/-- The steps of the submitters; the others are the driver thread's. -/
def Label.submits : Label → Bool
  | .submit _ _ | .requestCancel _ | .dropSubmitters => true
  | .recv | .dropRuntime | .poll _ _ => false

def step (state : State) (label : Label) : Option State :=
  match label with
  | .submit id op =>
      if id ∈ State.submittedIds state.log then none
      else state.send (.submit id op id)
  | .requestCancel id => state.send (.cancel id)
  | .dropSubmitters => some { state with submittersGone := true }
  | .recv => state.recv
  | .dropRuntime => state.dropRuntime
  | .poll index ans => state.poll ans index

theorem State.dropRuntime_eq {state next : State} (hdrop : state.dropRuntime = some next) :
    state.returned = false ∧ state.rx = [] ∧ state.submittersGone = true ∧
      next = state.dropped := by
  unfold State.dropRuntime at hdrop
  split at hdrop
  · next hended => exact ⟨hended.1, hended.2.1, hended.2.2, (Option.some.inj hdrop).symm⟩
  · cases hdrop

/-- The driver thread with its submitters, from `spawn` on. -/
def driver : System State Label where
  init state := state = .new
  step := step

end Turbofile.Compio
