import Turbofile.Darwin.State
import Turbofile.Library.System

/-!
# The POSIX AIO driver, step by step

Each definition is the driver method of the same name, as a function of the
answers its calls get and of the state.  A method that ends in `submit_ready`
leaves that call to the following steps by setting `task`.
-/

namespace Turbofile.Darwin

open Turbofile.Core
open Turbofile.Tally

namespace State

def emit (event : Event) (state : State) : State :=
  { state with log := event :: state.log }

def issue (op : OpId) (fd : Fd) (call : Syscall) (state : State) : State :=
  state.emit (.syscall op fd call)

def settle (cb : Callback) (result : Outcome) (state : State) : State :=
  state.emit (.settled cb result)

def closeRaw (fd : Fd) (state : State) : State :=
  state.emit (.closed fd ((state.liveJobs.filter fun job => job.fd = fd).map (·.id)))

/-- Descriptors the process has opened here and not closed, newest first. -/
def openFds : List Event → List Fd
  | [] => []
  | .opened fd _ _ :: log => fd :: openFds log
  | .closed fd _ :: log => (openFds log).erase fd
  | _ :: log => openFds log

/-- A helper thread still holds both channel ends. -/
def helpersLive (state : State) : Bool :=
  state.helpers.any fun helper =>
    match helper with
    | .exited => false
    | _ => true

def hasBacklog (state : State) : Bool :=
  !state.rx.isEmpty || !state.queue.isEmpty || decide (state.pendingOpens ≠ ∅)

end State

def osResult {α : Type} (result : Except Errno α) : Except IoError α :=
  result.mapError .os

/-! ## Opening -/

/-- The flags `open_raw` passes, when the spec asks for any access. -/
def openFlags (spec : OpenSpec) : Option OpenFlags :=
  let write := spec.write || spec.append
  if spec.read || write then
    some {
      read := spec.read
      write := write
      append := spec.append
      truncate := spec.truncate
      create := spec.create || spec.createNew
      exclusive := spec.createNew }
  else none

namespace State

def openRaw (ans : Answers) (path : Path) (spec : OpenSpec) (state : State) :
    Except IoError Fd × State :=
  if 0 ∈ path then
    (.error (.custom .invalidInput "path contains NUL"), state)
  else
    match openFlags spec with
    | none =>
        (.error (.custom .invalidInput "open needs read or write access"), state)
    | some flags =>
        match ans.openFd with
        | .error errno => (.error (.os errno), state)
        | .ok fd => (.ok fd, state.emit (.opened fd path flags))

def openSized (ans : Answers) (op : OpId) (path : Path) (spec : OpenSpec)
    (state : State) : Except IoError (Fd × ℕ) × State :=
  match state.openRaw ans path spec with
  | (.error error, state) => (.error error, state)
  | (.ok fd, state) =>
      let state := state.issue op fd .fstat
      match ans.stat with
      | .ok stat => (.ok (fd, stat.size), state)
      | .error errno => (.error (.os errno), state.closeRaw fd)

/-- The open an op needs: a write to a fresh file has no size worth asking. -/
def openFor (ans : Answers) (path : Path) (spec : OpenSpec)
    (pending : PendingOpen) (state : State) :
    Except IoError (Fd × ℕ) × State :=
  match pending.after with
  | .writeFile _ =>
      match state.openRaw ans path spec with
      | (.error error, state) => (.error error, state)
      | (.ok fd, state) => (.ok (fd, 0), state)
  | .handle | .readFile _ => state.openSized ans pending.id path spec

/-! ## Handles and the queue -/

def register (fd : Fd) (size : ℕ) (state : State) : Reply × State :=
  let id := state.nextId
  (.handle id size fd,
    { state with
      nextId := state.nextId + 1
      files := state.files.insert id { fd := fd, ops := 0, closing := none }
      log := .registered id fd :: state.log })

def withFd (handle : Handle) (state : State) : Except IoError Fd :=
  match state.files.lookup handle with
  | none => .error badHandle
  | some entry => if entry.closing.isSome then .error badHandle else .ok entry.fd

def enqueue (id : OpId) (kind : JobKind) (handle : Option Handle)
    (cb : Callback) (state : State) : State :=
  let files :=
    match handle with
    | none => state.files
    | some handle =>
        match state.files.lookup handle with
        | none => state.files
        | some entry =>
            state.files.insert handle { entry with ops := entry.ops + 1 }
  { state with
    files := files
    queue := state.queue ++ [{ id := id, cancelled := false, kind := kind, cb := cb }]
    task := .submitReady }

def opened (ans : Answers) (pending : PendingOpen)
    (result : Except IoError (Fd × ℕ)) (state : State) : State :=
  match result with
  | .error error => state.settle pending.cb (.error error)
  | .ok (fd, size) =>
      match pending.after with
      | .handle =>
          let (reply, state) := state.register fd size
          state.settle pending.cb (.ok reply)
      | .readFile inlineMax =>
          if inlineMax < size then
            let (reply, state) := state.register fd size
            state.settle pending.cb (.ok reply)
          else
            state.enqueue pending.id
              (.read {
                handle := none
                fd := fd
                ownedFd := true
                pos := 0
                want := .toEnd
                buf := .owned (max size 1 + ans.slack) []
                filled := 0 })
              none pending.cb
      | .writeFile data =>
          state.enqueue pending.id
            (.write {
              handle := none
              fd := fd
              ownedFd := true
              pos := 0
              append := false
              data := data
              filled := 0 })
            none pending.cb

/-- A job the helpers could not take, run on the driver thread. -/
def runHere (ans : Answers) (job : HelperJob) (state : State) : State :=
  match job with
  | .openFile path spec pending =>
      let (result, state) := state.openFor ans path spec pending
      state.opened ans pending result
  | .close fd => state.closeRaw fd

def openThen (ans : Answers) (id : OpId) (path : Path) (spec : OpenSpec)
    (after : AfterOpen) (cb : Callback) (state : State) : State :=
  let pending : PendingOpen := { id := id, after := after, cb := cb }
  if !state.hasBacklog then
    let (result, state) := state.openFor ans path spec pending
    state.opened ans pending result
  else
    let job := HelperJob.openFile path spec pending
    if state.helpersLive then
      { state with
        pendingOpens := insert id state.pendingOpens
        helperQueue := state.helperQueue ++ [job] }
    else
      ({ state with pendingOpens := (insert id state.pendingOpens).erase id }).runHere
        ans job

/-- Close a descriptor only the driver knows about. -/
def closeOwned (ans : Answers) (fd : Fd) (state : State) : State :=
  if !state.hasBacklog then state.closeRaw fd
  else if state.helpersLive then
    { state with helperQueue := state.helperQueue ++ [.close fd] }
  else state.runHere ans (.close fd)

def close (ans : Answers) (handle : Handle) (cb : Callback) (state : State) : State :=
  match state.files.lookup handle with
  | none => state.settle cb (.error badHandle)
  | some entry =>
      if entry.closing.isSome then state.settle cb (.error badHandle)
      else if 0 < entry.ops then
        { state with
          files := state.files.insert handle { entry with closing := some cb } }
      else
        let state := { state with files := state.files.erase handle }
        (state.closeRaw entry.fd).settle cb
          ((osResult ans.close).map fun _ => .unit)

/-! ## Settling a job -/

def finish (ans : Answers) (job : Job) (result : Outcome) (state : State) : State :=
  let state := if job.ownedFd then state.closeOwned ans job.fd else state
  let state := state.settle job.cb result
  match job.handle with
  | none => state
  | some handle =>
      match state.files.lookup handle with
      | none => state
      | some entry =>
          let entry := { entry with ops := entry.ops - 1 }
          match entry.closing with
          | none => { state with files := state.files.insert handle entry }
          | some cb =>
              if 0 < entry.ops then
                { state with files := state.files.insert handle entry }
              else
                let state := { state with files := state.files.erase handle }
                (state.closeRaw entry.fd).settle cb
                  ((osResult ans.close).map fun _ => .unit)

end State

/-! ## One chunk of a job -/

/-- `Vec::reserve`: nothing happens while the capacity suffices. -/
def vecReserve (cap len additional slack : ℕ) : ℕ :=
  if len + additional ≤ cap then cap else len + additional + slack

def readReply (read : ReadJob) : Outcome :=
  match read.buf with
  | .owned _ mem => .ok (.bytes mem)
  | .external .. => .ok (.read read.filled)

namespace State

/-- `ReadJob::complete`; only a read to end asks for the size. -/
def complete (ans : Answers) (op : OpId) (read : ReadJob) (state : State) :
    Bool × State :=
  match read.want with
  | .exact len => (decide (len ≤ read.filled), state)
  | .toEnd =>
      let state := state.issue op read.fd .fstat
      match regularFileSize ans.stat with
      | none => (false, state)
      | some size => (decide (size ≤ u64Add read.pos read.filled), state)

/-- `step`: account for `n` bytes; `some` is the reply of a finished job.
`vec.len()` is 0 here, so `reserve` measures against the bare capacity. -/
def stepJob (ans : Answers) (transferred : Transferred) (job : Job) (state : State) :
    Job × Option Outcome × State :=
  match job.kind with
  | .read read =>
      let read := { read with
        filled := read.filled + transferred.n
        buf := read.buf.deposit read.filled transferred.data }
      if transferred.n = 0 then
        ({ job with kind := .read read }, some (readReply read), state)
      else
        match state.complete ans job.id read with
        | (true, state) =>
            ({ job with kind := .read read }, some (readReply read), state)
        | (false, state) =>
            let buf :=
              match read.buf with
              | .owned cap mem =>
                  if read.filled = cap then
                    .owned (vecReserve cap 0 (max cap 65536) ans.slack) mem
                  else .owned cap mem
              | .external ptr len mem => .external ptr len mem
            ({ job with kind := .read { read with buf := buf } }, none, state)
  | .write write =>
      let write := { write with filled := write.filled + transferred.n }
      let job := { job with kind := .write write }
      if write.filled < write.data.len then (job, none, state)
      else if write.append then
        (job,
          some ((osResult ans.stat).map fun stat =>
            .written write.data.len stat.size),
          state.issue job.id write.fd .fstat)
      else
        (job, some (.ok (.written write.data.len (u64Add write.pos write.data.len))),
          state)
  | .fsync _ => (job, some (.ok .unit), state)

/-- One chunk completed: resubmit the remainder or finish the job. -/
def advance (ans : Answers) (transferred : Transferred) (job : Job)
    (state : State) : State :=
  match state.stepJob ans transferred job with
  | (job, some reply, state) => state.finish ans job reply
  | (job, none, state) =>
      if job.cancelled then state.finish ans job (.error cancelledError)
      else { state with queue := job :: state.queue, task := .submitReady }

end State

/-- The control block `submit` fills and the call it makes with it. -/
def prepare (job : Job) : Aiocb × Syscall :=
  match job.kind with
  | .read read =>
      let (start, remaining) := read.buf.chunk read.filled
      let offset := asOffT (u64Add read.pos read.filled)
      (⟨read.fd, offset, start, remaining⟩, .aioRead offset start remaining)
  | .write write =>
      let remaining := write.data.len - write.filled
      let offset := asOffT (u64Add write.pos write.filled)
      (⟨write.fd, offset, write.filled, remaining⟩,
        .aioWrite offset write.filled remaining)
  | .fsync fsync => (⟨fsync.fd, 0, 0, 0⟩, .aioFsync)

/-- The plain syscall `execute_sync` makes for the next chunk. -/
def syncCall (job : Job) : Syscall :=
  match job.kind with
  | .read read =>
      let (start, remaining) := read.buf.chunk read.filled
      .pread (asOffT (u64Add read.pos read.filled)) start remaining
  | .write write =>
      let remaining := write.data.len - write.filled
      if write.append then .write write.filled remaining
      else .pwrite (asOffT (u64Add write.pos write.filled)) write.filled remaining
  | .fsync _ => .fsync

namespace State

/-- One round of `submit_ready`'s loop, `submit` included.  The source returns
`Full` to stop the loop and `Inflight` to go on. -/
def submitReady (ans : Answers) (state : State) : State :=
  if state.inflight.length < state.maxInflight then
    match state.queue with
    | [] => { state with task := .none }
    | job :: queue =>
        let (aiocb, call) := prepare job
        let state := ({ state with queue := queue }).issue job.id job.fd call
        match ans.submitted with
        | .ok () => { state with inflight := state.inflight ++ [⟨aiocb, job⟩] }
        | .error .eagain =>
            if state.inflight.isEmpty then { state with task := .executeSync job }
            else { state with queue := job :: state.queue, task := .none }
        | .error errno => state.finish ans job (.error (.os errno))
  else { state with task := .none }

/-- One round of `execute_sync`'s loop; `submit_ready` goes on when it ends. -/
def executeSync (ans : Answers) (job : Job) (state : State) : State :=
  let state := state.issue job.id job.fd (syncCall job)
  match osResult ans.transfer with
  | .error error =>
      ({ state with task := .submitReady }).finish ans job (.error error)
  | .ok transferred =>
      match state.stepJob ans transferred job with
      | (job, some reply, state) =>
          ({ state with task := .submitReady }).finish ans job reply
      | (job, none, state) => { state with task := .executeSync job }

/-! ## Messages -/

def cancel (ans : Answers) (id : OpId) (state : State) : State :=
  match state.queue.find? (fun job => job.id = id) with
  | some job =>
      ({ state with queue := state.queue.eraseP fun job => job.id = id }).finish ans
        job (.error cancelledError)
  | none =>
      match state.inflight.findIdx? (fun entry => entry.job.id = id) with
      | none =>
          if id ∈ state.pendingOpens then
            { state with cancelledOpens := insert id state.cancelledOpens }
          else state
      | some index =>
          let fildes := (state.inflight[index]?.map (·.aiocb.fildes)).getD 0
          ({ state with
            inflight := state.inflight.modify index fun entry =>
              { entry with job := { entry.job with cancelled := true } } }).issue
            id fildes .aioCancel

def handleOp (ans : Answers) (id : OpId) (op : Op) (cb : Callback)
    (state : State) : State :=
  match op with
  | .nop => state.settle cb (.ok .unit)
  | .openFile path spec => state.openThen ans id path spec .handle cb
  | .close handle => state.close ans handle cb
  | .size handle =>
      match state.withFd handle with
      | .error error => state.settle cb (.error error)
      | .ok fd =>
          (state.issue id fd .fstat).settle cb
            ((osResult ans.stat).map fun stat => .size stat.size)
  | .setLen handle size =>
      match state.withFd handle with
      | .error error => state.settle cb (.error error)
      | .ok fd =>
          (state.issue id fd (.ftruncate (asOffT size))).settle cb
            ((osResult ans.ftruncate).map fun _ => .unit)
  | .sync handle _ =>
      match state.withFd handle with
      | .error error => state.settle cb (.error error)
      | .ok fd => state.enqueue id (.fsync ⟨handle, fd⟩) (some handle) cb
  | .readAt handle pos dest =>
      match state.withFd handle with
      | .error error => state.settle cb (.error error)
      | .ok fd =>
          match dest with
          | .alloc 0 => state.settle cb (.ok (.bytes []))
          | .into _ 0 => state.settle cb (.ok (.read 0))
          | .alloc len =>
              state.enqueue id
                (.read ⟨some handle, fd, false, pos, .exact len,
                  .owned (len + ans.slack) [], 0⟩)
                (some handle) cb
          | .into ptr len =>
              state.enqueue id
                (.read ⟨some handle, fd, false, pos, .exact len,
                  .external ptr len [], 0⟩)
                (some handle) cb
  | .readToEnd handle pos =>
      match state.withFd handle with
      | .error error => state.settle cb (.error error)
      | .ok fd =>
          let hint :=
            match ans.stat with
            | .ok stat => stat.size - pos
            | .error _ => 0
          (state.issue id fd .fstat).enqueue id
            (.read ⟨some handle, fd, false, pos, .toEnd,
              .owned (max hint 1 + ans.slack) [], 0⟩)
            (some handle) cb
  | .writeAt handle pos data append =>
      match state.withFd handle with
      | .error error => state.settle cb (.error error)
      | .ok fd =>
          if data.isEmpty then
            if append then
              (state.issue id fd .fstat).settle cb
                ((osResult ans.stat).map fun stat => .written 0 stat.size)
            else state.settle cb (.ok (.written 0 pos))
          else
            state.enqueue id
              (.write ⟨some handle, fd, false, pos, append, data, 0⟩)
              (some handle) cb
  | .readFile path inlineMax =>
      state.openThen ans id path { read := true } (.readFile inlineMax) cb
  | .writeFile path data =>
      state.openThen ans id path { write := true, create := true, truncate := true }
        (.writeFile data) cb

def handleMsg (ans : Answers) (msg : Msg) (state : State) : State :=
  let state := ({ state with progress := true }).emit (.handled msg)
  match msg with
  | .submit id op cb => state.handleOp ans id op cb
  | .cancel id => state.cancel ans id

/-- `if let Ok((fd, _)) = opened.result { close_raw(fd) }`. -/
def closeOpened (result : Except IoError (Fd × ℕ)) (state : State) : State :=
  match result with
  | .ok (fd, _) => state.closeRaw fd
  | .error _ => state

def handleOpened (ans : Answers) (message : Opened) (state : State) : State :=
  let id := message.pending.id
  let state := { state with
    progress := true
    pendingOpens := state.pendingOpens.erase id }
  if id ∈ state.cancelledOpens then
    let state := { state with cancelledOpens := state.cancelledOpens.erase id }
    (state.closeOpened message.result).settle message.pending.cb (.error cancelledError)
  else state.opened ans message.pending message.result

def loseHelpers (state : State) : State :=
  { state with helpersGone := true, pendingOpens := ∅ }

/-! ## The loop -/

/-- The wait with nothing in flight or queued; `none` while it blocks. -/
def waitIdle (ans : Answers) (state : State) : Option State :=
  let wake :=
    if state.disconnected then
      if state.back.isEmpty then .helpersGone else .opened
    else if state.helpersGone then
      if state.rx.isEmpty then .submittersGone else .msg
    else ans.wake
  match wake with
  | .msg =>
      match state.rx with
      | [] => none
      | msg :: rx => some (({ state with rx := rx }).handleMsg ans msg)
  | .opened =>
      match state.back with
      | [] => none
      | message :: back => some (({ state with back := back }).handleOpened ans message)
  | .submittersGone =>
      if state.rx.isEmpty && state.submittersGone then
        some { state with disconnected := true }
      else none
  | .helpersGone =>
      if state.back.isEmpty && !state.helpersLive then some state.loseHelpers
      else none

/-- One check of `reap`'s loop. -/
def reap (ans : Answers) (index : ℕ) (state : State) : State :=
  match state.inflight[index]? with
  | none => { state with point := .drainRx }
  | some entry =>
      match ans.aio with
      | .inProgress => { state with point := .reap (index + 1) }
      | .done transferred =>
          ({ state with
            inflight := swapRemove state.inflight index
            progress := true }).advance ans transferred entry.job
      | .failed errno =>
          ({ state with
            inflight := swapRemove state.inflight index
            progress := true }).finish ans entry.job (.error (.os errno))

def drainRx (ans : Answers) (state : State) : State :=
  match state.rx with
  | msg :: rx => ({ state with rx := rx }).handleMsg ans msg
  | [] =>
      { state with
        disconnected := state.disconnected || state.submittersGone
        point := .drainBack }

def drainBack (ans : Answers) (state : State) : State :=
  match state.back with
  | message :: back => ({ state with back := back }).handleOpened ans message
  | [] =>
      if state.helpersLive then { state with point := .submit }
      else { state.loseHelpers with point := .submit }

/-- The driver thread's next step; `none` when it is blocked or has returned. -/
def drive (ans : Answers) (state : State) : Option State :=
  match state.task with
  | .submitReady => some (state.submitReady ans)
  | .executeSync job => some (state.executeSync ans job)
  | .none =>
      match state.point with
      | .head =>
          if state.inflight.isEmpty && state.queue.isEmpty then
            if state.disconnected && decide (state.pendingOpens = ∅) then
              some { state with point := .returned }
            else ({ state with point := .suspend }).waitIdle ans
          else some { state with point := .suspend }
      | .suspend =>
          if state.inflight.isEmpty then some { state with point := .drainRx }
          else some { state with point := .reap 0 }
      | .reap index => some (state.reap ans index)
      | .drainRx => some (state.drainRx ans)
      | .drainBack => some (state.drainBack ans)
      | .submit => some { state with task := .submitReady, point := .pace }
      | .pace =>
          some { state with
            suspendNs :=
              if state.progress then suspendMinNs
              else min (state.suspendNs * 2) suspendMaxNs
            progress := false
            point := .head }
      | .returned => none

/-! ## Helper threads -/

/-- One step of `helper_loop` on the thread at `index`: take a job, run it, or
hand the descriptor back.  A thread ends only once the driver has dropped its
end of the job channel and no job is left. -/
def help (ans : Answers) (index : ℕ) (state : State) : Option State :=
  match state.helpers[index]? with
  | some .idle =>
      match state.helperQueue with
      | job :: queue =>
          some { state with
            helperQueue := queue
            helpers := state.helpers.set index (.running job) }
      | [] =>
          if state.point = .returned then
            some { state with helpers := state.helpers.set index .exited }
          else none
  | some (.running (.close fd)) =>
      some (({ state with helpers := state.helpers.set index .idle }).closeRaw fd)
  | some (.running (.openFile path spec pending)) =>
      let (result, state) := state.openFor ans path spec pending
      some { state with
        helpers := state.helpers.set index (.sending ⟨pending, result⟩) }
  | some (.sending message) =>
      let state := { state with helpers := state.helpers.set index .idle }
      if state.point = .returned then
        some ((state.closeOpened message.result).settle message.pending.cb
          (.error driverGone))
      else some { state with back := state.back ++ [message] }
  | _ => none

/-! ## Submitters -/

/-- Ids handed out so far: the counter in `Driver::submit` never repeats one. -/
def submittedIds : List Event → List OpId
  | [] => []
  | .sent (.submit id _ _) :: log => id :: submittedIds log
  | _ :: log => submittedIds log

def send (msg : Msg) (state : State) : Option State :=
  if state.submittersGone then none
  else some (({ state with rx := state.rx ++ [msg] }).emit (.sent msg))

end State

/-- `submit` and `requestCancel` are `Driver::submit` and `Driver::cancel` on
any thread, `dropSubmitters` the drop of the last sender. -/
inductive Label
  | submit (id : OpId) (op : Op)
  | requestCancel (id : OpId)
  | dropSubmitters
  | help (index : ℕ) (ans : Answers)
  | drive (ans : Answers)

/-- The kernel never hands out a descriptor that is still open. -/
def Answers.fresh (ans : Answers) (state : State) : Bool :=
  match ans.openFd with
  | .ok fd => decide (fd ∉ State.openFds state.log)
  | .error _ => true

def step (state : State) (label : Label) : Option State :=
  match label with
  | .submit id op =>
      if id ∈ State.submittedIds state.log then none
      else state.send (.submit id op id)
  | .requestCancel id => state.send (.cancel id)
  | .dropSubmitters => some { state with submittersGone := true }
  | .help index ans => if ans.fresh state then state.help ans index else none
  | .drive ans => if ans.fresh state then state.drive ans else none

/-- The driver with its submitters and helpers, from `spawn` on. -/
def driver : System State Label where
  init state := ∃ hardware maxInflight, 0 < maxInflight ∧
    state = State.new (helpersFor hardware) maxInflight
  step := step

end Turbofile.Darwin
