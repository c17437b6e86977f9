import Turbofile.Darwin.Runs

/-!
# What a step is made of

A step of the driver is one action, or a short chain of actions between which
the running call holds an open's result or a job that is about to settle.  An
action says everything it changes, so an invariant is kept by the driver when
every action keeps it.
-/

namespace Turbofile.Darwin

open Turbofile.Core
open Turbofile.Tally
open State

/-! ## What an action may look at -/

/-- The handle an op names. -/
def Op.target : Op → Option Handle
  | .readAt handle _ _ | .readToEnd handle _ | .writeAt handle _ _ _ | .close handle
  | .sync handle _ | .setLen handle _ | .size handle => some handle
  | .openFile .. | .readFile .. | .writeFile .. | .nop => none

def Op.isClose : Op → Bool
  | .close _ => true
  | _ => false

/-- What the open of an op is for. -/
def Op.after : Op → Option AfterOpen
  | .openFile .. => some .handle
  | .readFile _ inlineMax => some (.readFile inlineMax)
  | .writeFile _ data => some (.writeFile data)
  | .readAt .. | .readToEnd .. | .writeAt .. | .close _ | .sync .. | .setLen .. | .size _
  | .nop => none

/-- The jobs an open can lead to. -/
def AfterOpen.starts : AfterOpen → JobKind → Prop
  | .handle, _ => False
  | .readFile _, kind => ∃ fd size slack,
      kind = .read ⟨none, fd, true, 0, .toEnd, .owned (max size 1 + slack) [], 0⟩
  | .writeFile data, kind => ∃ fd, kind = .write ⟨none, fd, true, 0, false, data, 0⟩

/-- The jobs an op can start as. -/
def Op.starts : Op → JobKind → Prop
  | .sync handle _, kind => ∃ fd, kind = .fsync ⟨handle, fd⟩
  | .readAt handle pos (.alloc len), kind => 0 < len ∧ ∃ fd slack,
      kind = .read ⟨some handle, fd, false, pos, .exact len, .owned (len + slack) [], 0⟩
  | .readAt handle pos (.into ptr len), kind => 0 < len ∧ ∃ fd,
      kind = .read ⟨some handle, fd, false, pos, .exact len, .external ptr len [], 0⟩
  | .readToEnd handle pos, kind => ∃ fd hint slack,
      kind = .read ⟨some handle, fd, false, pos, .toEnd, .owned (max hint 1 + slack) [], 0⟩
  | .writeAt handle pos data append, kind => 0 < data.len ∧ ∃ fd,
      kind = .write ⟨some handle, fd, false, pos, append, data, 0⟩
  | op, kind => ∃ after, Op.after op = some after ∧ after.starts kind

/-- The replies of the ops that need no job. -/
def Op.answers : Op → Reply → Prop
  | .readAt _ _ (.alloc 0), .bytes data => data = []
  | .readAt _ _ (.into _ 0), .read n => n = 0
  | .writeAt _ pos data append, .written n fileEnd =>
      data.len = 0 ∧ n = 0 ∧ (append = false → fileEnd = pos)
  | .size _, .size _ | .setLen .., .unit => True
  | _, _ => False

/-- The calls that move data or flush it. -/
def Syscall.transfers : Syscall → Bool
  | .aioRead .. | .aioWrite .. | .aioFsync | .pread .. | .pwrite .. | .write .. | .fsync => true
  | .fstat | .ftruncate _ | .aioCancel => false

/-- A call of the step, other than a check of a control block, answers an error. -/
inductive Answers.Fails (ans : Answers) (errno : Errno) : Prop
  | openFd (hfails : ans.openFd = .error errno)
  | stat (hfails : ans.stat = .error errno)
  | ftruncate (hfails : ans.ftruncate = .error errno)
  | close (hfails : ans.close = .error errno)
  | submitted (hfails : ans.submitted = .error errno)
  | transfer (hfails : ans.transfer = .error errno)

/-- A reply, or an error some call of the step answered. -/
def Answers.Gives {α : Type} (ans : Answers) (result : Except IoError α) : Prop :=
  ∀ error, result = .error error → ∃ errno, ans.Fails errno ∧ error = .os errno

/-- What invariants are about; the rest is the loop's own bookkeeping. -/
structure View where
  rx : List Msg
  helperQueue : List HelperJob
  helpers : List Helper
  back : List Opened
  pendingOpens : Finset OpId
  cancelledOpens : Finset OpId
  files : Table Handle FileEntry
  nextId : Handle
  inflight : List Inflight
  queue : List Job
  running : List Job
  log : List Event

namespace State

def view (state : State) : View :=
  ⟨state.rx, state.helperQueue, state.helpers, state.back, state.pendingOpens,
    state.cancelledOpens, state.files, state.nextId, state.inflight, state.queue,
    state.task.jobs, state.log⟩

/-- The message is taken off the channel and handled. -/
def received (msg : Msg) (rx : List Msg) (state : State) : State :=
  ({ state with rx := rx, progress := true }).emit (.handled msg)

/-- Ask for the size of the file an op is on, or not. -/
def asked (asks : Bool) (id : OpId) (fd : Fd) (state : State) : State :=
  if asks then state.issue id fd .fstat else state

end State

/-! ## What the calls of an action log -/

/-- Descriptors opened and closed, and calls for an op that move no data. -/
def Event.chore (id : OpId) : Event → Prop
  | .opened .. | .closed .. => True
  | .syscall op _ call => op = id ∧ call.transfers = false
  | .sent _ | .handled _ | .registered .. | .settled .. => False

/-- The log has grown by chores of an op. -/
def Chores (id : OpId) (log grown : List Event) : Prop :=
  ∃ events, grown = events ++ log ∧ ∀ event ∈ events, event.chore id

namespace Chores

variable {id : OpId} {log grown : List Event} {state : State} {ans : Answers}

theorem refl (id : OpId) (log : List Event) : Chores id log log := ⟨[], rfl, by simp⟩

theorem cons {event : Event} (hevent : event.chore id) (hgrown : Chores id log grown) :
    Chores id log (event :: grown) := by
  obtain ⟨events, rfl, hevents⟩ := hgrown
  refine ⟨event :: events, rfl, fun other hmem => ?_⟩
  rcases List.mem_cons.mp hmem with rfl | htail
  · exact hevent
  · exact hevents other htail

theorem one {event : Event} (hevent : event.chore id) : Chores id log (event :: log) :=
  cons hevent (refl id log)

/-- An event of another kind is new only if it was there before. -/
theorem mem_iff (hgrown : Chores id log grown) {event : Event} (hother : ¬event.chore id) :
    event ∈ grown ↔ event ∈ log := by
  obtain ⟨events, rfl, hevents⟩ := hgrown
  refine ⟨fun hmem => ?_, fun hmem => List.mem_append_right _ hmem⟩
  rcases List.mem_append.mp hmem with hnew | hold
  · exact absurd (hevents event hnew) hother
  · exact hold

theorem openRaw (id : OpId) (path : Path) (spec : OpenSpec) :
    Chores id state.log (state.openRaw ans path spec).2.log := by
  unfold State.openRaw
  repeat' split
  · exact refl id _
  · exact refl id _
  · exact refl id _
  · exact one trivial

theorem openFor (path : Path) (spec : OpenSpec) (pending : PendingOpen) :
    Chores pending.id state.log (state.openFor ans path spec pending).2.log := by
  have hraw : Chores pending.id state.log (state.openRaw ans path spec).2.log :=
    openRaw pending.id path spec
  have hsized : Chores pending.id state.log
      (state.openSized ans pending.id path spec).2.log := by
    unfold State.openSized
    split
    · next hopen =>
        rw [hopen] at hraw
        exact hraw
    · next fd mid hopen =>
        rw [hopen] at hraw
        have hissued : Chores pending.id state.log (.syscall pending.id fd .fstat :: mid.log) :=
          cons ⟨rfl, rfl⟩ hraw
        simp only
        split
        · exact hissued
        · exact cons trivial hissued
  unfold State.openFor
  split
  · split
    · next hopen =>
        rw [hopen] at hraw
        exact hraw
    · next hopen =>
        rw [hopen] at hraw
        exact hraw
  · exact hsized
  · exact hsized

theorem stepJob {job job' : Job} {transferred : Transferred} {reply : Option Outcome}
    {next : State} (hstep : state.stepJob ans transferred job = (job', reply, next)) :
    Chores job.id state.log next.log := by
  have hlog := stepJob_state state ans transferred job
  rw [hstep] at hlog
  rcases hlog with hsame | hstat
  · change next = state at hsame
    rw [hsame]
    exact refl job.id _
  · change next = state.issue job.id job.fd .fstat at hstat
    rw [hstat]
    exact one ⟨rfl, rfl⟩

theorem asked (asks : Bool) (id : OpId) (fd : Fd) :
    Chores id state.log (state.asked asks id fd).log := by
  cases asks
  · exact refl id _
  · exact one ⟨rfl, rfl⟩

theorem issues (id : OpId) (fd : Fd) (calls : List Syscall)
    (hcalls : ∀ call ∈ calls, call.transfers = false) :
    Chores id state.log (calls.foldr (State.issue id fd) state).log := by
  induction calls with
  | nil => exact refl id _
  | cons call calls ih =>
      exact cons ⟨rfl, hcalls call List.mem_cons_self⟩
        (ih fun other hmem => hcalls other (List.mem_cons_of_mem _ hmem))

theorem closeOwned (id : OpId) (fd : Fd) :
    Chores id state.log (state.closeOwned ans fd).log := by
  unfold State.closeOwned
  split
  · exact one trivial
  · split
    · exact refl id _
    · exact one trivial

theorem closeOpened (id : OpId) (result : Except IoError (Fd × ℕ)) :
    Chores id state.log (state.closeOpened result).log := by
  cases result with
  | ok opened => exact one trivial
  | error error => exact refl id _

/-- The end of a job: chores, its callback, and with the last one on a closing
handle the close of that handle. -/
theorem finish (ans : Answers) (state : State) (job : Job) (result : Outcome) :
    ∃ grown, Chores job.id state.log grown ∧
      ((state.finish ans job result).log = .settled job.cb result :: grown ∨
        ∃ handle entry cb carriers, state.files.lookup handle = some entry ∧
          entry.closing = some cb ∧
          (state.finish ans job result).log =
            .settled cb ((osResult ans.close).map fun _ => .unit) :: .closed entry.fd carriers ::
              .settled job.cb result :: grown) := by
  have hfiles : ∀ fd, (state.closeOwned ans fd).files = state.files := by
    intro fd
    unfold State.closeOwned
    repeat' split
    all_goals rfl
  have hclosed : Chores job.id state.log (state.closeOwned ans job.fd).log :=
    closeOwned job.id job.fd
  obtain ⟨mid, hgrown, hsame, hmid⟩ : ∃ mid, Chores job.id state.log mid.log ∧
      mid.files = state.files ∧
      (if job.ownedFd then state.closeOwned ans job.fd else state) = mid := by
    refine ⟨_, ?_, ?_, rfl⟩
    · split
      · exact hclosed
      · exact refl _ _
    · split
      · exact hfiles _
      · rfl
  refine ⟨mid.log, hgrown, ?_⟩
  unfold State.finish
  simp only [hmid]
  cases job.handle with
  | none => exact Or.inl rfl
  | some handle =>
      have hkept : (mid.settle job.cb result).files.lookup handle =
          state.files.lookup handle := by
        rw [← hsame]
        rfl
      simp only [hkept]
      cases hlookup : state.files.lookup handle with
      | none => exact Or.inl rfl
      | some entry =>
          obtain ⟨fd, ops, closing⟩ := entry
          cases closing with
          | none => exact Or.inl rfl
          | some cb =>
              simp only
              split
              · exact Or.inl rfl
              · exact Or.inr ⟨handle, _, cb, _, hlookup, rfl, rfl⟩

end Chores

/-- What the running call holds. -/
inductive Hand
  | empty
  | opening (pending : PendingOpen) (result : Except IoError (Fd × ℕ))
  | ending (job : Job) (result : Outcome)

namespace Hand

def jobs : Hand → List Job
  | .ending job _ => [job]
  | .empty | .opening _ _ => []

def fds : Hand → List Fd
  | .opening _ result => openedFds result
  | .empty | .ending _ _ => []

def cbs : Hand → List Callback
  | .opening pending _ => [pending.cb]
  | .empty | .ending _ _ => []

/-- The ledger with what is in hand. -/
structure Ledger (hand : Hand) (state : State) : Prop where
  cons : Consistent hand.jobs hand.fds hand.cbs state
  own : ∀ pending result, hand = .opening pending result → pending.cb = pending.id

end Hand

/-! ## Actions -/

inductive Act (ans : Answers) : Hand → State → Hand → State → Prop
  | still {state next : State} (hview : next.view = state.view) :
      Act ans .empty state .empty next
  | sent {state : State} (msg : Msg)
      (hown : ∀ id op cb, msg = .submit id op cb → cb = id ∧ id ∉ submittedIds state.log) :
      Act ans .empty state .empty (({ state with rx := state.rx ++ [msg] }).emit (.sent msg))
  -- messages
  | nop {state : State} {id : OpId} {cb : Callback} {rx : List Msg}
      (hrx : state.rx = .submit id .nop cb :: rx) :
      Act ans .empty state .empty
        ((state.received (.submit id .nop cb) rx).settle cb (.ok .unit))
  | refused {state : State} {id : OpId} {op : Op} {cb : Callback} {rx : List Msg} {handle : Handle}
      (hrx : state.rx = .submit id op cb :: rx) (htarget : Op.target op = some handle)
      (hbad : state.withFd handle = .error badHandle) :
      Act ans .empty state .empty
        ((state.received (.submit id op cb) rx).settle cb (.error badHandle))
  | answered {state : State} {id : OpId} {op : Op} {cb : Callback} {rx : List Msg}
      {handle : Handle} {fd : Fd} {result : Outcome} (calls : List Syscall)
      (hrx : state.rx = .submit id op cb :: rx) (htarget : Op.target op = some handle)
      (hclose : Op.isClose op = false) (hopen : state.withFd handle = .ok fd)
      (hcalls : ∀ call ∈ calls, call.transfers = false) (hresult : ans.Gives result)
      (hreply : ∀ reply, result = .ok reply → Op.answers op reply) :
      Act ans .empty state .empty
        ((calls.foldr (State.issue id fd) (state.received (.submit id op cb) rx)).settle cb result)
  | enqueued {state : State} {id : OpId} {op : Op} {cb : Callback} {rx : List Msg}
      {handle : Handle} {kind : JobKind} (asks : Bool)
      (hrx : state.rx = .submit id op cb :: rx) (htask : state.task.jobs = [])
      (htarget : Op.target op = some handle) (hclose : Op.isClose op = false)
      (hopen : state.withFd handle = .ok (Job.mk id false kind cb).fd)
      (hhandle : (Job.mk id false kind cb).handle = some handle)
      (howned : (Job.mk id false kind cb).ownedFd = false) (hstarts : Op.starts op kind) :
      Act ans .empty state .empty
        (((state.received (.submit id op cb) rx).asked asks id
          (Job.mk id false kind cb).fd).enqueue id kind (some handle) cb)
  | closeDeferred {state : State} {id : OpId} {cb : Callback} {rx : List Msg} {handle : Handle}
      {entry : FileEntry} (hrx : state.rx = .submit id (.close handle) cb :: rx)
      (hlookup : state.files.lookup handle = some entry) (hopen : entry.closing = none)
      (hbusy : 0 < entry.ops) :
      Act ans .empty state .empty
        { state.received (.submit id (.close handle) cb) rx with
          files := state.files.insert handle { entry with closing := some cb } }
  | closeNow {state : State} {id : OpId} {cb : Callback} {rx : List Msg} {handle : Handle}
      {entry : FileEntry} (hrx : state.rx = .submit id (.close handle) cb :: rx)
      (hlookup : state.files.lookup handle = some entry) (hopen : entry.closing = none)
      (hidle : entry.ops = 0) :
      Act ans .empty state .empty
        ((({ state.received (.submit id (.close handle) cb) rx with
          files := state.files.erase handle }).closeRaw entry.fd).settle cb
            ((osResult ans.close).map fun _ => .unit))
  | openedHere {state : State} {id : OpId} {op : Op} {cb : Callback} {rx : List Msg}
      (path : Path) (spec : OpenSpec) (after : AfterOpen)
      (hrx : state.rx = .submit id op cb :: rx) (htarget : Op.target op = none)
      (hfresh : ans.fresh state) (hafter : Op.after op = some after) :
      Act ans .empty state
        (.opening ⟨id, after, cb⟩
          ((state.received (.submit id op cb) rx).openFor ans path spec ⟨id, after, cb⟩).1)
        ((state.received (.submit id op cb) rx).openFor ans path spec ⟨id, after, cb⟩).2
  | sentOpen {state : State} {id : OpId} {op : Op} {cb : Callback} {rx : List Msg}
      (path : Path) (spec : OpenSpec) (after : AfterOpen)
      (hrx : state.rx = .submit id op cb :: rx) (htarget : Op.target op = none)
      (hafter : Op.after op = some after) :
      Act ans .empty state .empty
        { state.received (.submit id op cb) rx with
          pendingOpens := insert id state.pendingOpens
          helperQueue := state.helperQueue ++ [.openFile path spec ⟨id, after, cb⟩] }
  -- cancels
  | cancelQueued {state : State} {id : OpId} {rx : List Msg} {job : Job}
      (hrx : state.rx = .cancel id :: rx)
      (hfind : state.queue.find? (fun job => job.id = id) = some job) :
      Act ans .empty state (.ending job (.error cancelledError))
        { state.received (.cancel id) rx with
          queue := state.queue.eraseP fun job => job.id = id }
  | cancelInflight {state : State} {id : OpId} {rx : List Msg} {index : ℕ} {entry : Inflight}
      (hrx : state.rx = .cancel id :: rx)
      (hnone : state.queue.find? (fun job => job.id = id) = none)
      (hget : state.inflight[index]? = some entry) (hid : entry.job.id = id) :
      Act ans .empty state .empty
        (({ state.received (.cancel id) rx with
          inflight := state.inflight.modify index fun entry =>
            { entry with job := { entry.job with cancelled := true } } }).issue
          id entry.aiocb.fildes .aioCancel)
  | cancelOpening {state : State} {id : OpId} {rx : List Msg}
      (hrx : state.rx = .cancel id :: rx)
      (hnone : state.queue.find? (fun job => job.id = id) = none)
      (hflying : ∀ entry ∈ state.inflight, entry.job.id ≠ id) (hpending : id ∈ state.pendingOpens) :
      Act ans .empty state .empty
        { state.received (.cancel id) rx with cancelledOpens := insert id state.cancelledOpens }
  | cancelNothing {state : State} {id : OpId} {rx : List Msg}
      (hrx : state.rx = .cancel id :: rx)
      (hnone : state.queue.find? (fun job => job.id = id) = none)
      (hflying : ∀ entry ∈ state.inflight, entry.job.id ≠ id) (hpending : id ∉ state.pendingOpens) :
      Act ans .empty state .empty (state.received (.cancel id) rx)
  -- opens
  | openFailed {state : State} {pending : PendingOpen} {error : IoError} :
      Act ans (.opening pending (.error error)) state .empty
        (state.settle pending.cb (.error error))
  | registered {state : State} {pending : PendingOpen} {fd : Fd} {size : ℕ} :
      Act ans (.opening pending (.ok (fd, size))) state .empty
        ((state.register fd size).2.settle pending.cb (.ok (state.register fd size).1))
  | enqueuedOwned {state : State} {pending : PendingOpen} {fd : Fd} {size : ℕ} {kind : JobKind}
      (htask : state.task.jobs = [])
      (hhandle : (Job.mk pending.id false kind pending.cb).handle = none)
      (howned : (Job.mk pending.id false kind pending.cb).ownedFd = true)
      (hfd : (Job.mk pending.id false kind pending.cb).fd = fd)
      (hstarts : pending.after.starts kind) :
      Act ans (.opening pending (.ok (fd, size))) state .empty
        (state.enqueue pending.id kind none pending.cb)
  | tookOpened {state : State} {message : Opened} {back : List Opened}
      (hback : state.back = message :: back) (hkept : message.pending.id ∉ state.cancelledOpens) :
      Act ans .empty state (.opening message.pending message.result)
        { state with
          back := back
          progress := true
          pendingOpens := state.pendingOpens.erase message.pending.id }
  | openCancelled {state : State} {message : Opened} {back : List Opened}
      (hback : state.back = message :: back)
      (hcancelled : message.pending.id ∈ state.cancelledOpens) :
      Act ans .empty state .empty
        ((({ state with
          back := back
          progress := true
          pendingOpens := state.pendingOpens.erase message.pending.id
          cancelledOpens := state.cancelledOpens.erase message.pending.id }).closeOpened
            message.result).settle message.pending.cb (.error cancelledError))
  -- chunks in flight
  | chunkFailed {state : State} {index : ℕ} {entry : Inflight} {errno : Errno}
      (hpoint : state.point = .reap index) (hget : state.inflight[index]? = some entry)
      (haio : ans.aio = .failed errno) :
      Act ans .empty state (.ending entry.job (.error (.os errno)))
        { state with inflight := swapRemove state.inflight index, progress := true }
  | chunkReplied {state next : State} {index : ℕ} {entry : Inflight} {transferred : Transferred}
      {job : Job} {reply : Outcome} (hget : state.inflight[index]? = some entry)
      (hstep : ({ state with
          inflight := swapRemove state.inflight index, progress := true }).stepJob ans transferred
        entry.job = (job, some reply, next))
      (hdone : ans.aio = .done transferred) :
      Act ans .empty state (.ending job reply) next
  | chunkFlagged {state next : State} {index : ℕ} {entry : Inflight} {transferred : Transferred}
      {job : Job} (hget : state.inflight[index]? = some entry)
      (hstep : ({ state with
          inflight := swapRemove state.inflight index, progress := true }).stepJob ans transferred
        entry.job = (job, none, next))
      (hflag : job.cancelled = true) (hdone : ans.aio = .done transferred) :
      Act ans .empty state (.ending job (.error cancelledError)) next
  | chunkRequeued {state next : State} {index : ℕ} {entry : Inflight} {transferred : Transferred}
      {job : Job} (htask : state.task.jobs = []) (hget : state.inflight[index]? = some entry)
      (hstep : ({ state with
          inflight := swapRemove state.inflight index, progress := true }).stepJob ans transferred
        entry.job = (job, none, next))
      (hflag : job.cancelled = false) (hdone : ans.aio = .done transferred) :
      Act ans .empty state .empty
        { next with queue := job :: next.queue, task := .submitReady }
  -- submissions
  | submitInflight {state : State} {job : Job} {queue : List Job} (htask : state.task.jobs = [])
      (hqueue : state.queue = job :: queue) :
      Act ans .empty state .empty
        { ({ state with queue := queue }).issue job.id job.fd (prepare job).2 with
          inflight := state.inflight ++ [⟨(prepare job).1, job⟩] }
  | submitFull {state : State} {job : Job} {queue : List Job} (htask : state.task.jobs = [])
      (hqueue : state.queue = job :: queue) :
      Act ans .empty state .empty
        { ({ state with queue := queue }).issue job.id job.fd (prepare job).2 with
          queue := job :: queue
          task := .none }
  | submitSync {state : State} {job : Job} {queue : List Job} (htask : state.task.jobs = [])
      (hqueue : state.queue = job :: queue) :
      Act ans .empty state .empty
        { ({ state with queue := queue }).issue job.id job.fd (prepare job).2 with
          task := .executeSync job }
  | submitFailed {state : State} {job : Job} {queue : List Job} {errno : Errno}
      (htask : state.task.jobs = []) (hqueue : state.queue = job :: queue)
      (hfails : ans.submitted = .error errno) :
      Act ans .empty state (.ending job (.error (.os errno)))
        (({ state with queue := queue }).issue job.id job.fd (prepare job).2)
  -- the synchronous fallback
  | execFailed {state : State} {job : Job} {errno : Errno} (htask : state.task = .executeSync job)
      (hfails : ans.transfer = .error errno) :
      Act ans .empty state (.ending job (.error (.os errno)))
        { state.issue job.id job.fd (syncCall job) with task := .submitReady }
  | execReplied {state next : State} {job job' : Job} {transferred : Transferred} {reply : Outcome}
      (htask : state.task = .executeSync job)
      (hstep : (state.issue job.id job.fd (syncCall job)).stepJob ans transferred job =
        (job', some reply, next))
      (hdone : ans.transfer = .ok transferred) :
      Act ans .empty state (.ending job' reply) { next with task := .submitReady }
  | execAgain {state next : State} {job job' : Job} {transferred : Transferred}
      (htask : state.task = .executeSync job)
      (hstep : (state.issue job.id job.fd (syncCall job)).stepJob ans transferred job =
        (job', none, next))
      (hdone : ans.transfer = .ok transferred) :
      Act ans .empty state .empty { next with task := .executeSync job' }
  | ended {state : State} {job : Job} {result : Outcome} :
      Act ans (.ending job result) state .empty (state.finish ans job result)
  -- helper threads
  | helperTook {state : State} {index : ℕ} {job : HelperJob} {queue : List HelperJob}
      (hget : state.helpers[index]? = some .idle) (hqueue : state.helperQueue = job :: queue) :
      Act ans .empty state .empty
        { state with
          helperQueue := queue
          helpers := state.helpers.set index (.running job) }
  | helperExited {state : State} {index : ℕ} (hget : state.helpers[index]? = some .idle) :
      Act ans .empty state .empty { state with helpers := state.helpers.set index .exited }
  | helperClosed {state : State} {index : ℕ} {fd : Fd}
      (hget : state.helpers[index]? = some (.running (.close fd))) :
      Act ans .empty state .empty
        (({ state with helpers := state.helpers.set index .idle }).closeRaw fd)
  | helperOpened {state : State} {index : ℕ} {path : Path} {spec : OpenSpec}
      {pending : PendingOpen}
      (hget : state.helpers[index]? = some (.running (.openFile path spec pending)))
      (hfresh : ans.fresh state) :
      Act ans .empty state .empty
        { (state.openFor ans path spec pending).2 with
          helpers := state.helpers.set index
            (.sending ⟨pending, (state.openFor ans path spec pending).1⟩) }
  | helperSent {state : State} {index : ℕ} {message : Opened}
      (hget : state.helpers[index]? = some (.sending message)) :
      Act ans .empty state .empty
        { state with
          helpers := state.helpers.set index .idle
          back := state.back ++ [message] }

/-! ## Every action keeps the ledger -/

section Ledger

variable {state : State}

theorem Hand.Ledger.empty (hcons : Consistent [] [] [] state) : Hand.empty.Ledger state :=
  ⟨hcons, fun _ _ hhand => by cases hhand⟩

theorem Hand.Ledger.ending {job : Job} (result : Outcome) (hcons : Consistent [job] [] [] state) :
    (Hand.ending job result).Ledger state :=
  ⟨hcons, fun _ _ hhand => by cases hhand⟩

theorem Consistent.view (hcons : Consistent [] [] [] state) {next : State}
    (hview : next.view = state.view) : Consistent [] [] [] next := by
  simp only [State.view, View.mk.injEq] at hview
  obtain ⟨hrx, hqueue, hhelpers, hback, hpending, -, hfiles, hnext, hinflight, hjobs, hrunning,
    hlog⟩ := hview
  refine hcons.frame ?_ (fun entry hmem => Or.inl (hinflight ▸ hmem)) ?_
  · rw [State.roles, State.roles, State.liveJobs, State.liveJobs, hrunning, hjobs, hinflight]
  · rw [State.containers, State.containers, hrx, hqueue, hhelpers, hback, hpending, hfiles, hnext,
      hlog]

theorem Consistent.received_submit (hcons : Consistent [] [] [] state) {id : OpId} {op : Op}
    {cb : Callback} {rx : List Msg} (hrx : state.rx = .submit id op cb :: rx) :
    Consistent [] [] [cb] (state.received (.submit id op cb) rx) := by
  have htaken : Consistent [] [] [cb] { state with rx := rx } := by
    refine hcons.move ?_ ?_ hcons.pendingIds rfl rfl rfl rfl rfl
    · intro w
      simp only [State.held, hrx, ofList_cons, Weights.msg]
      omega
    · exact fun msg hmem => hrx ▸ List.mem_cons_of_mem _ hmem
  exact htaken.beginMsg (.submit id op cb)

theorem Consistent.cb_eq_id (hcons : Consistent [] [] [] state) {id : OpId} {op : Op}
    {cb : Callback} {rx : List Msg} (hrx : state.rx = .submit id op cb :: rx) : cb = id :=
  hcons.rxCb id op cb (hrx ▸ List.mem_cons_self)

theorem Consistent.received_cancel (hcons : Consistent [] [] [] state) {id : OpId}
    {rx : List Msg} (hrx : state.rx = .cancel id :: rx) :
    Consistent [] [] [] (state.received (.cancel id) rx) := by
  have htaken : Consistent [] [] [] { state with rx := rx } := by
    refine hcons.move ?_ ?_ hcons.pendingIds rfl rfl rfl rfl rfl
    · intro w
      simp only [State.held, hrx, ofList_cons, Weights.msg]
      omega
    · exact fun msg hmem => hrx ▸ List.mem_cons_of_mem _ hmem
  exact htaken.beginMsg (.cancel id)

theorem Consistent.issues {jobs : List Job} {fds : List Fd} {cbs : List Callback}
    (hcons : Consistent jobs fds cbs state) (id : OpId) {fd : Fd} (hopen : fd ∈ openFds state.log)
    (calls : List Syscall) :
    Consistent jobs fds cbs (calls.foldr (State.issue id fd) state) ∧
      fd ∈ openFds (calls.foldr (State.issue id fd) state).log := by
  induction calls with
  | nil => exact ⟨hcons, hopen⟩
  | cons call calls ih => exact ⟨ih.1.issue id call ih.2, ih.2⟩

/-! ### Jobs that change places -/

theorem roles_takeQueue {job : Job} {queue : List Job} (htask : state.task.jobs = [])
    (hqueue : state.queue = job :: queue) :
    (({ state with queue := queue } : State).roles [job]).Perm (state.roles []) := by
  apply List.Perm.map
  simp only [State.liveJobs, htask, hqueue, List.nil_append, List.cons_append]
  exact List.Perm.refl _

theorem roles_takeFound {job : Job} {id : OpId}
    (hfind : state.queue.find? (fun job => job.id = id) = some job) :
    (({ state with
      queue := state.queue.eraseP fun job => job.id = id } : State).roles [job]).Perm
        (state.roles []) := by
  apply List.Perm.map
  have hperm := perm_eraseP_of_find? hfind
  simp only [State.liveJobs]
  calc
    ([job] ++ (state.task.jobs ++ (state.queue.eraseP fun job => job.id = id) ++
        state.inflight.map (·.job))).Perm
        (state.task.jobs ++ (job :: state.queue.eraseP fun job => job.id = id) ++
          state.inflight.map (·.job)) := by
      simp only [List.append_assoc, List.cons_append, List.nil_append]
      exact List.perm_middle.symm
    List.Perm _ ([] ++ (state.task.jobs ++ state.queue ++ state.inflight.map (·.job))) :=
      (hperm.symm.append_left _).append_right _

theorem roles_takeInflight {index : ℕ} {entry : Inflight}
    (hget : state.inflight[index]? = some entry) :
    (({ state with
      inflight := swapRemove state.inflight index, progress := true } : State).roles
        [entry.job]).Perm (state.roles []) := by
  obtain ⟨hbound, rfl⟩ := List.getElem?_eq_some_iff.mp hget
  have hperm := perm_swapRemove state.inflight hbound
  apply List.Perm.map
  simp only [State.liveJobs, List.nil_append, List.singleton_append]
  have hjobs := (hperm.map (·.job)).append_left (state.task.jobs ++ state.queue)
  exact (hjobs.trans List.perm_middle).symm

theorem roles_pushInflight (aiocb : Aiocb) (job : Job) :
    (({ state with inflight := state.inflight ++ [⟨aiocb, job⟩] } : State).roles []).Perm
      (state.roles [job]) := by
  apply List.Perm.map
  simp only [State.liveJobs, List.map_append, List.map_cons, List.map_nil, ← List.append_assoc]
  exact List.perm_append_singleton _ _

/-- A flag on an entry in flight changes no role. -/
theorem roles_flag (index : ℕ) :
    ({ state with
      inflight := state.inflight.modify index fun entry =>
        { entry with job := { entry.job with cancelled := true } } } : State).roles [] =
      state.roles [] := by
  have hroles := map_modify_of_eq (fun entry : Inflight => entry.job.role)
    (fun entry => { entry with job := { entry.job with cancelled := true } })
    (fun _ => rfl) state.inflight index
  simp only [State.roles, State.liveJobs, List.map_append, List.map_map,
    Function.comp_def, hroles]

/-- A job leaves the queue. -/
theorem Consistent.takeQueue (hcons : Consistent [] [] [] state) {job : Job} {queue : List Job}
    (htask : state.task.jobs = []) (hqueue : state.queue = job :: queue) :
    Consistent [job] [] [] { state with queue := queue } := by
  exact hcons.frame (roles_takeQueue htask hqueue) (fun _ hmem => Or.inl hmem) rfl

theorem Consistent.takeQueue_issue (hcons : Consistent [] [] [] state) {job : Job}
    {queue : List Job} (htask : state.task.jobs = []) (hqueue : state.queue = job :: queue)
    (call : Syscall) :
    Consistent [job] [] [] (({ state with queue := queue }).issue job.id job.fd call) := by
  have htaken := hcons.takeQueue htask hqueue
  exact htaken.issue _ _ (htaken.mem_openFds_of_role (List.mem_cons_self : job.role ∈ _))

/-- A cancelled job leaves the queue. -/
theorem Consistent.takeFound (hcons : Consistent [] [] [] state) {job : Job} {id : OpId}
    (hfind : state.queue.find? (fun job => job.id = id) = some job) :
    Consistent [job] [] [] { state with queue := state.queue.eraseP fun job => job.id = id } := by
  exact hcons.frame (roles_takeFound hfind) (fun _ hmem => Or.inl hmem) rfl

/-- A chunk that completed leaves the in-flight table. -/
theorem Consistent.takeInflight (hcons : Consistent [] [] [] state) {index : ℕ} {entry : Inflight}
    (hget : state.inflight[index]? = some entry) :
    Consistent [entry.job] [] []
      { state with inflight := swapRemove state.inflight index, progress := true } := by
  refine hcons.frame (roles_takeInflight hget) (fun other hmem => ?_) rfl
  obtain ⟨hbound, rfl⟩ := List.getElem?_eq_some_iff.mp hget
  have hperm := perm_swapRemove state.inflight hbound
  exact Or.inl (hperm.mem_iff.mpr (List.mem_cons_of_mem _ hmem))

theorem Consistent.stepped {job job' : Job} {next : State} {ans : Answers}
    {transferred : Transferred} {reply : Option Outcome} (hcons : Consistent [job] [] [] state)
    (hstep : state.stepJob ans transferred job = (job', reply, next)) :
    Consistent [job'] [] [] next := by
  have hkept := hcons.stepJob ans transferred
  rwa [hstep] at hkept

theorem Consistent.flag (hcons : Consistent [] [] [] state) (index : ℕ) :
    Consistent [] [] [] { state with
      inflight := state.inflight.modify index fun entry =>
        { entry with job := { entry.job with cancelled := true } } } := by
  have hfildes := map_modify_of_eq
    (fun entry : Inflight => (entry.aiocb.fildes, entry.job.fd))
    (fun entry => { entry with job := { entry.job with cancelled := true } })
    (fun _ => rfl) state.inflight index
  refine hcons.frame (List.Perm.of_eq (roles_flag index)) ?_ rfl
  · intro entry hmem
    have himage : (entry.aiocb.fildes, entry.job.fd) ∈
        (state.inflight.modify index fun entry =>
          { entry with job := { entry.job with cancelled := true } }).map
          (fun entry : Inflight => (entry.aiocb.fildes, entry.job.fd)) := List.mem_map_of_mem hmem
    rw [hfildes, List.mem_map] at himage
    obtain ⟨old, hold, hsame⟩ := himage
    rw [Prod.mk.injEq] at hsame
    exact Or.inr (hsame.1.symm.trans ((hcons.fildes old hold).trans hsame.2))

/-- The control block of an entry is on an open descriptor. -/
theorem Consistent.mem_openFds_of_inflight (hcons : Consistent [] [] [] state) {index : ℕ}
    {entry : Inflight} (hget : state.inflight[index]? = some entry) :
    entry.aiocb.fildes ∈ openFds state.log := by
  have hentry := List.mem_of_getElem? hget
  have hrole : entry.job.role ∈ state.roles [] :=
    List.mem_map_of_mem (List.mem_append_right _
      (List.mem_append_right _ (List.mem_map_of_mem hentry)))
  rw [hcons.fildes entry hentry]
  exact hcons.mem_openFds_of_role hrole

/-- The op of an open that comes back has no second open at the helpers. -/
theorem Consistent.takeBack (hcons : Consistent [] [] [] state) {message : Opened}
    {back : List Opened} (hback : state.back = message :: back) :
    message.pending.cb = message.pending.id ∧
      Consistent [] (openedFds message.result) [message.pending.cb]
        { state with
          back := back
          progress := true
          pendingOpens := state.pendingOpens.erase message.pending.id } := by
  have hlisted : message.pending ∈ state.pendings := by
    simp [State.pendings, hback]
  have hown := hcons.pendingIds _ hlisted
  have hstill : ∀ pending ∈ ({ state with back := back } : State).pendings,
      pending ∈ state.pendings := by
    intro pending hmem
    simp only [State.pendings, hback, List.map_cons, List.mem_append, List.mem_cons] at hmem ⊢
    tauto
  have htaken : Consistent [] (openedFds message.result) [message.pending.cb]
      { state with back := back } := by
    refine hcons.move ?_ (fun _ hmem => hmem)
      (fun pending hmem => hcons.pendingIds pending (hstill pending hmem)) rfl rfl rfl rfl rfl
    intro w
    simp only [State.held, hback, ofList_cons, ofList_nil, Weights.opened, w.result_eq]
    omega
  refine ⟨hown.1, htaken.move (fun _ => rfl) (fun _ hmem => hmem) ?_ rfl rfl rfl rfl rfl⟩
  intro pending hmem
  have hids := hcons.pendingIds pending (hstill pending hmem)
  have hne := htaken.pending_ne hmem
  rw [hids.1, hown.1] at hne
  exact ⟨hids.1, Finset.mem_erase.mpr ⟨hne, hids.2⟩⟩

/-- An open goes out to the helpers. -/
theorem Consistent.sendOpen {id : OpId} {cb : Callback} (hcons : Consistent [] [] [cb] state)
    (hown : cb = id) (path : Path) (spec : OpenSpec) (after : AfterOpen) :
    Consistent [] [] []
      { state with
        pendingOpens := insert id state.pendingOpens
        helperQueue := state.helperQueue ++ [.openFile path spec ⟨id, after, cb⟩] } := by
  refine hcons.move ?_ (fun _ hmem => hmem) ?_ rfl rfl rfl rfl rfl
  · intro w
    simp only [State.held, ofList_append, ofList_cons, ofList_nil, Weights.helperJob]
    omega
  · intro pending hmem
    have hsplit : pending = ⟨id, after, cb⟩ ∨ pending ∈ state.pendings := by
      simp only [State.pendings, List.flatMap_append, List.mem_append,
        List.flatMap_singleton, HelperJob.pendings, List.mem_singleton] at hmem ⊢
      tauto
    rcases hsplit with rfl | hold
    · exact ⟨hown, Finset.mem_insert_self _ _⟩
    · have hids := hcons.pendingIds pending hold
      exact ⟨hids.1, Finset.mem_insert_of_mem hids.2⟩

theorem Consistent.deferClose {cb : Callback} (hcons : Consistent [] [] [cb] state)
    {handle : Handle} {entry : FileEntry} (hlookup : state.files.lookup handle = some entry)
    (hopen : entry.closing = none) (hbusy : 0 < entry.ops) :
    Consistent [] [] []
      { state with files := state.files.insert handle { entry with closing := some cb } } := by
  refine hcons.update { entry with closing := some cb } hlookup rfl ?_
    (fun _ _ => rfl) (hcons.opsCount handle entry hlookup) (fun _ => hbusy)
    (fun _ hmem => Or.inl hmem) rfl rfl
  intro w
  change w.callback cb + ofList w.role (state.roles []) + _ =
    w.closing entry.closing + ofList w.role (state.roles []) + _
  rw [hopen]
  simp only [Weights.closing, ofList_cons]
  omega

theorem Consistent.dropEntry {cb : Callback} (hcons : Consistent [] [] [cb] state)
    {handle : Handle} {entry : FileEntry} (hlookup : state.files.lookup handle = some entry)
    (hopen : entry.closing = none) (hidle : entry.ops = 0) :
    Consistent [] [entry.fd] [cb] { state with files := state.files.erase handle } := by
  refine hcons.remove hlookup ?_ (fun _ _ => rfl) ?_ (fun _ hmem => hmem) rfl rfl
  · intro w
    change ofList w.role (state.roles []) + _ = _
    rw [hopen, Weights.closing, Nat.zero_add]
  · change rolesOn handle (state.roles []) = 0
    rw [← hcons.opsCount handle entry hlookup, hidle]

/-- A helper that closes a descriptor gives it up. -/
theorem Consistent.freeHelper (hcons : Consistent [] [] [] state) {index : ℕ} {fd : Fd}
    (hget : state.helpers[index]? = some (.running (.close fd))) :
    Consistent [] [fd] [] { state with helpers := state.helpers.set index .idle } := by
  refine Invariant.setHelper hcons hget .idle ?_ (by simp [Helper.pendings])
  intro w
  simp [Weights.helper, Weights.helperJob]

theorem Consistent.sent (hcons : Consistent [] [] [] state) {msg : Msg}
    (hfresh : ∀ id op cb, msg = .submit id op cb → cb = id ∧ id ∉ submittedIds state.log) :
    Consistent [] [] [] (({ state with rx := state.rx ++ [msg] }).emit (.sent msg)) := by
  refine { hcons with balance := ?_, trace := hcons.trace, unique := ?_, ownCb := ?_, rxCb := ?_ }
  · intro w
    have hold := hcons.balance w
    have hmsg : w.entered (.sent msg) = w.msg msg ∧ w.spent (.sent msg) = 0 := by
      cases msg <;> exact ⟨rfl, rfl⟩
    change ofList w.entered (.sent msg :: state.log) =
      ofList w.msg (state.rx ++ [msg]) + ofList w.helperJob state.helperQueue +
        ofList w.helper state.helpers + ofList w.opened state.back +
        Table.tally (fun _ => w.entry) state.files +
        ofList w.role (state.roles []) + ofList w.spent (.sent msg :: state.log) + 0 + 0
    simp only [State.held, ofList_cons, ofList_append, ofList_nil, hmsg] at hold ⊢
    omega
  · cases msg with
    | submit id op cb => exact List.nodup_cons.mpr ⟨(hfresh id op cb rfl).2, hcons.unique⟩
    | cancel id => exact hcons.unique
  · intro id op cb hmem
    rcases List.mem_cons.mp hmem with hhead | hold
    · exact (hfresh id op cb (Event.sent.inj hhead).symm).1
    · exact hcons.ownCb id op cb hold
  · intro id op cb hmem
    rcases List.mem_append.mp hmem with hold | hlast
    · exact hcons.rxCb id op cb hold
    · exact (hfresh id op cb (List.mem_singleton.mp hlast).symm).1

/-- The synchronous fallback has made its call and looked at the answer. -/
theorem Consistent.executed {ans : Answers} {transferred : Transferred} {job job' : Job}
    {reply : Option Outcome} {next : State} (hcons : Consistent [] [] [] state)
    (htask : state.task = .executeSync job)
    (hstep : (state.issue job.id job.fd (syncCall job)).stepJob ans transferred job =
      (job', reply, next)) :
    Consistent [] [] [] next ∧ job'.role = job.role ∧ next.task = .executeSync job := by
  have hmem : job.role ∈ state.roles [] := by simp [State.roles, State.liveJobs, htask]
  have hissued : Consistent [] [] [] (state.issue job.id job.fd (syncCall job)) :=
    hcons.issue job.id (syncCall job) (hcons.mem_openFds_of_role hmem)
  have hasked := hissued.askStep hmem ans transferred
  have hrole := stepJob_role (state.issue job.id job.fd (syncCall job)) ans transferred job
  have hkept := stepJob_task (state.issue job.id job.fd (syncCall job)) ans transferred job
  rw [hstep] at hasked hrole hkept
  exact ⟨hasked, hrole, hkept.trans htask⟩

/-- A helper takes the first job of the queue. -/
theorem Consistent.helperTook (hcons : Consistent [] [] [] state) {index : ℕ} {job : HelperJob}
    {queue : List HelperJob} (hget : state.helpers[index]? = some .idle)
    (hqueue : state.helperQueue = job :: queue) :
    Consistent [] [] [] { state with
      helpers := state.helpers.set index (.running job), helperQueue := queue } := by
  refine hcons.move ?_ (fun _ hmem => hmem) ?_ rfl rfl rfl rfl rfl
  · intro w
    have hset := ofList_set w.helper hget (.running job)
    simp only [State.held, hqueue, ofList_cons, Weights.helper] at hset ⊢
    omega
  · exact fun pending hmem => hcons.pendingIds pending (Invariant.mem_pendings_took hqueue hmem)

/-- A helper holds what its open answered. -/
theorem Consistent.helperOpened {ans : Answers} (hcons : Consistent [] [] [] state) {index : ℕ}
    {path : Path} {spec : OpenSpec} {pending : PendingOpen}
    (hget : state.helpers[index]? = some (.running (.openFile path spec pending)))
    (hfresh : ans.fresh state) :
    Consistent [] [] [] { (state.openFor ans path spec pending).2 with
      helpers := state.helpers.set index
        (.sending ⟨pending, (state.openFor ans path spec pending).1⟩) } := by
  have hopened := hcons.openFor hfresh path spec pending
  have hsnd := openFor_snd state ans path spec pending
  generalize (state.openFor ans path spec pending).1 = result at hopened
  generalize (state.openFor ans path spec pending).2 = next at hopened hsnd
  rw [hsnd] at hopened ⊢
  refine Invariant.setHelper hopened hget _ ?_ ?_
  · intro w
    simp [Weights.helper, Weights.helperJob, Weights.opened, w.result_eq]
  · intro other hmem
    exact Invariant.mem_pendings_of_helper hget
      (by simpa [Helper.pendings, HelperJob.pendings] using hmem)

/-- A helper sends it back. -/
theorem Consistent.helperSent (hcons : Consistent [] [] [] state) {index : ℕ} {message : Opened}
    (hget : state.helpers[index]? = some (.sending message)) :
    Consistent [] [] [] { state with
      helpers := state.helpers.set index .idle, back := state.back ++ [message] } := by
  have hfreed : Consistent [] (openedFds message.result) [message.pending.cb]
      { state with helpers := state.helpers.set index .idle } := by
    refine Invariant.setHelper hcons hget .idle ?_ (by simp [Helper.pendings])
    intro w
    simp [Weights.helper, Weights.opened, w.result_eq, Nat.add_comm]
  refine hfreed.move ?_ (fun _ hmem => hmem) ?_ rfl rfl rfl rfl rfl
  · intro w
    simp only [State.held, ofList_append, ofList_cons, ofList_nil, Weights.opened, w.result_eq]
    omega
  · exact fun pending hmem => hcons.pendingIds pending (Invariant.mem_pendings_sent hget hmem)

theorem Act.ledger {ans : Answers} {hand hand' : Hand} {next : State}
    (hact : Act ans hand state hand' next) (hledger : hand.Ledger state) : hand'.Ledger next := by
  obtain ⟨hcons, hown⟩ := hledger
  cases hact with
  | still hview => exact .empty (hcons.view hview)
  | sent msg hfresh => exact .empty (hcons.sent hfresh)
  | nop hrx => exact .empty ((hcons.received_submit hrx).settle _)
  | refused hrx htarget hbad => exact .empty ((hcons.received_submit hrx).settle _)
  | answered calls hrx htarget hclose hopen hcalls hresult =>
      have htaken := hcons.received_submit hrx
      exact .empty ((htaken.issues _ (htaken.mem_openFds_of_withFd hopen) calls).1.settle _)
  | @enqueued _ id op cb rx handle kind asks hrx htask htarget hclose hopen hhandle howned =>
      have htaken := hcons.received_submit hrx
      have hasked : Consistent [] [] [cb]
          ((state.received (.submit id op cb) rx).asked asks id
            (Job.mk id false kind cb).fd) := by
        cases asks with
        | false => exact htaken
        | true => exact htaken.issue _ _ (htaken.mem_openFds_of_withFd hopen)
      refine .empty (hasked.enqueueOn ?_ hhandle howned (hcons.cb_eq_id hrx) ?_)
      · cases asks <;> exact hopen
      · cases asks <;> exact htask
  | closeDeferred hrx hlookup hopen hbusy =>
      exact .empty ((hcons.received_submit hrx).deferClose hlookup hopen hbusy)
  | closeNow hrx hlookup hopen hidle =>
      exact .empty (((hcons.received_submit hrx).dropEntry hlookup hopen hidle).closeRaw.settle _)
  | @openedHere _ id op cb rx path spec after hrx htarget hfresh =>
      have hopened := (hcons.received_submit hrx).openFor hfresh path spec ⟨id, after, cb⟩
      rw [List.append_nil] at hopened
      refine ⟨hopened, fun pending result hhand => ?_⟩
      obtain ⟨rfl, -⟩ := Hand.opening.inj hhand
      exact hcons.cb_eq_id hrx
  | sentOpen path spec after hrx htarget =>
      exact .empty ((hcons.received_submit hrx).sendOpen (hcons.cb_eq_id hrx) path spec after)
  | cancelQueued hrx hfind => exact .ending _ ((hcons.received_cancel hrx).takeFound hfind)
  | @cancelInflight _ id rx index entry hrx hnone hget hid =>
      have htaken := hcons.received_cancel hrx
      exact .empty ((htaken.flag index).issue _ _ (htaken.mem_openFds_of_inflight hget))
  | cancelOpening hrx hnone hflying hpending =>
      exact .empty ((hcons.received_cancel hrx).frame (List.Perm.refl _)
        (fun _ hmem => Or.inl hmem) rfl)
  | cancelNothing hrx hnone hflying hpending => exact .empty (hcons.received_cancel hrx)
  | openFailed => exact .empty (hcons.settle _)
  | registered => exact .empty ((Consistent.register hcons _).settle _)
  | @enqueuedOwned _ pending fd size kind htask hhandle howned hfd =>
      subst hfd
      exact .empty (Consistent.enqueueOwned hcons hhandle howned (hown _ _ rfl) htask)
  | tookOpened hback hkept =>
      obtain ⟨hsame, htaken⟩ := hcons.takeBack hback
      refine ⟨htaken, fun pending result hhand => ?_⟩
      obtain ⟨rfl, -⟩ := Hand.opening.inj hhand
      exact hsame
  | @openCancelled _ message back hback hcancelled =>
      have htaken := (hcons.takeBack hback).2
      have hforgot : Consistent [] (openedFds message.result ++ []) [message.pending.cb]
          { state with
            back := back
            progress := true
            pendingOpens := state.pendingOpens.erase message.pending.id
            cancelledOpens := state.cancelledOpens.erase message.pending.id } := by
        rw [List.append_nil]
        exact htaken.frame (List.Perm.refl _) (fun _ hmem => Or.inl hmem) rfl
      exact .empty (hforgot.closeOpened.settle _)
  | chunkFailed hpoint hget haio => exact .ending _ (hcons.takeInflight hget)
  | chunkReplied hget hstep => exact .ending _ ((hcons.takeInflight hget).stepped hstep)
  | chunkFlagged hget hstep hflag => exact .ending _ ((hcons.takeInflight hget).stepped hstep)
  | @chunkRequeued _ stepped index entry transferred job htask hget hstep hflag =>
      have hkept : stepped.task = state.task := by
        have htask := stepJob_task { state with
          inflight := swapRemove state.inflight index, progress := true } ans transferred entry.job
        rwa [hstep] at htask
      exact .empty (((hcons.takeInflight hget).stepped hstep).pushFront (hkept ▸ htask) rfl)
  | @submitInflight _ job queue htask hqueue =>
      refine .empty ((hcons.takeQueue_issue htask hqueue _).frame (roles_pushInflight _ _) ?_ rfl)
      · intro entry hmem
        rcases List.mem_append.mp hmem with hold | hnew
        · exact Or.inl hold
        · obtain rfl := List.mem_singleton.mp hnew
          exact Or.inr (prepare_fildes job)
  | submitFull htask hqueue =>
      exact .empty ((hcons.takeQueue_issue htask hqueue _).pushFront htask rfl)
  | @submitSync _ job queue htask hqueue =>
      refine .empty ((hcons.takeQueue_issue htask hqueue _).frame ?_
        (fun _ hmem => Or.inl hmem) rfl)
      apply List.Perm.map
      simp only [State.liveJobs, State.issue, State.emit, htask,
        Task.jobs_executeSync, List.nil_append, List.cons_append]
      exact List.Perm.refl _
  | submitFailed htask hqueue hfails => exact .ending _ (hcons.takeQueue_issue htask hqueue _)
  | @execFailed _ job errno htask hfails =>
      have hissued := hcons.issue job.id (syncCall job)
        (hcons.mem_openFds_of_role (show job.role ∈ state.roles [] by
          simp [State.roles, State.liveJobs, htask]))
      exact .ending _ (hissued.takeTask htask rfl)
  | execReplied htask hstep =>
      obtain ⟨hasked, hrole, hsame⟩ := hcons.executed htask hstep
      exact .ending _ (hasked.takeTask hsame hrole)
  | execAgain htask hstep =>
      obtain ⟨hasked, hrole, hsame⟩ := hcons.executed htask hstep
      refine .empty (hasked.frame ?_ (fun _ hmem => Or.inl hmem) rfl)
      simp only [State.roles, State.liveJobs, hsame, Task.jobs_executeSync,
        List.map_append, List.map_cons, hrole]
      exact List.Perm.refl _
  | ended => exact .empty (Consistent.finish hcons ans _)
  | helperTook hget hqueue => exact .empty (hcons.helperTook hget hqueue)
  | helperExited hget =>
      exact .empty (Invariant.setHelper hcons hget .exited (fun _ => rfl)
        (by simp [Helper.pendings]))
  | @helperClosed _ index fd hget =>
      exact .empty (hcons.freeHelper hget).closeRaw
  | helperOpened hget hfresh => exact .empty (hcons.helperOpened hget hfresh)
  | helperSent hget => exact .empty (hcons.helperSent hget)

/-! ### Live jobs -/

theorem issues_liveJobs (id : OpId) (fd : Fd) (calls : List Syscall) :
    (calls.foldr (State.issue id fd) state).liveJobs = state.liveJobs := by
  induction calls with
  | nil => rfl
  | cons call calls ih => exact ih

theorem mem_roles_enqueue {id : OpId} {kind : JobKind} {handle : Option Handle} {cb : Callback}
    (htask : state.task.jobs = []) {role : Role} (hmem : role ∈ state.roles []) :
    role ∈ (state.enqueue id kind handle cb).roles [] := by
  simp only [State.roles, State.liveJobs, htask, List.nil_append, List.map_append,
    List.mem_append] at hmem
  simp only [State.roles, State.liveJobs, State.enqueue, Task.jobs_submitReady, List.nil_append,
    List.map_append, List.mem_append]
  exact hmem.imp_left Or.inl

theorem finish_liveJobs (ans : Answers) (job : Job) (result : Outcome) :
    (state.finish ans job result).liveJobs = state.liveJobs := by
  have howned : ∀ fd, (state.closeOwned ans fd).liveJobs = state.liveJobs := by
    intro fd
    unfold State.closeOwned
    repeat' split
    all_goals rfl
  unfold State.finish
  cases job.ownedFd with
  | false =>
      simp only [Bool.false_eq_true, if_false]
      repeat' split
      all_goals rfl
  | true =>
      simp only [if_true]
      repeat' split
      all_goals exact howned job.fd

theorem finish_settled (ans : Answers) (job : Job) (result : Outcome) :
    Event.settled job.cb result ∈ (state.finish ans job result).log := by
  unfold State.finish
  simp only
  generalize (if job.ownedFd then state.closeOwned ans job.fd else state) = mid
  have hmem : Event.settled job.cb result ∈ (mid.settle job.cb result).log := List.mem_cons_self
  repeat' split
  all_goals first
    | exact hmem
    | exact List.mem_cons_of_mem _ (List.mem_cons_of_mem _ hmem)

theorem stepJob_roles {job job' : Job} {next : State} {ans : Answers} {transferred : Transferred}
    {reply : Option Outcome} (hstep : state.stepJob ans transferred job = (job', reply, next)) :
    job'.role = job.role ∧ next.liveJobs = state.liveJobs ∧ next.task = state.task := by
  have hrole := stepJob_role state ans transferred job
  have hlog := stepJob_state state ans transferred job
  rw [hstep] at hrole hlog
  refine ⟨hrole, ?_⟩
  rcases hlog with hsame | hstat
  · change next = state at hsame
    subst hsame
    exact ⟨rfl, rfl⟩
  · change next = state.issue job.id job.fd .fstat at hstat
    subst hstat
    exact ⟨rfl, rfl⟩

/-- A job stays live, or in hand, until it is finished. -/
theorem Act.roles_or_ended {ans : Answers} {hand hand' : Hand} {next : State}
    (hact : Act ans hand state hand' next) {role : Role} (hmem : role ∈ state.roles hand.jobs) :
    role ∈ next.roles hand'.jobs ∨ ∃ job result, hand = .ending job result ∧ role = job.role ∧
      next = state.finish ans job result := by
  -- a chunk taken off the in-flight table, after its bookkeeping
  have hchunk : ∀ {index : ℕ} {entry : Inflight} {transferred : Transferred} {job : Job}
      {reply : Option Outcome} {next : State}, state.inflight[index]? = some entry →
      ({ state with
        inflight := swapRemove state.inflight index, progress := true }).stepJob ans transferred
          entry.job = (job, reply, next) →
      role ∈ state.roles [] → role ∈ next.roles [job] := by
    intro index entry transferred job reply next hget hstep hin
    obtain ⟨hrole, hlive, -⟩ := stepJob_roles hstep
    have hold := (roles_takeInflight hget).mem_iff.mpr hin
    rw [State.roles_cons, List.mem_cons] at hold ⊢
    rwa [hrole, State.roles, hlive]
  -- the synchronous job, after its bookkeeping
  have hexec : ∀ {job job' : Job} {transferred : Transferred} {reply : Option Outcome}
      {next : State}, state.task = .executeSync job →
      (state.issue job.id job.fd (syncCall job)).stepJob ans transferred job =
        (job', reply, next) →
      role ∈ state.roles [] →
      role = job'.role ∨ role ∈ (next.queue ++ next.inflight.map (·.job)).map Job.role := by
    intro job job' transferred reply next htask hstep hin
    obtain ⟨hrole, hlive, hkept⟩ := stepJob_roles hstep
    have hsame : next.task = .executeSync job := hkept.trans htask
    have hnow : role ∈ next.roles [] := by
      rw [State.roles, hlive]
      exact hin
    simpa [State.roles, State.liveJobs, hsame, hrole] using hnow
  cases hact with
  | still hview =>
      simp only [State.view, View.mk.injEq] at hview
      obtain ⟨-, -, -, -, -, -, -, -, hinflight, hqueue, hrunning, -⟩ := hview
      left
      rwa [State.roles, State.liveJobs, hrunning, hqueue, hinflight]
  | answered calls hrx htarget hclose hopen hcalls hresult =>
      left
      change role ∈ (calls.foldr (State.issue _ _) _).roles []
      rw [State.roles, issues_liveJobs]
      exact hmem
  | @enqueued _ id op cb rx handle kind asks hrx htask htarget hclose hopen hhandle howned =>
      left
      have hreceived : ∀ asks fd, ((state.received (.submit id op cb) rx).asked asks id
          fd).liveJobs = state.liveJobs ∧
          ((state.received (.submit id op cb) rx).asked asks id fd).task = state.task := by
        intro asks fd
        cases asks
        · exact ⟨rfl, rfl⟩
        · exact ⟨rfl, rfl⟩
      refine mem_roles_enqueue ?_ ?_
      · rw [(hreceived _ _).2]
        exact htask
      · rw [State.roles, (hreceived _ _).1]
        exact hmem
  | openedHere path spec after hrx htarget hfresh =>
      left
      rw [openFor_snd]
      exact hmem
  | cancelQueued hrx hfind => exact Or.inl ((roles_takeFound hfind).mem_iff.mpr hmem)
  | @cancelInflight _ id rx index entry hrx hnone hget hid =>
      left
      change role ∈ State.roles { state with
        inflight := state.inflight.modify index fun entry =>
          { entry with job := { entry.job with cancelled := true } } } []
      rw [roles_flag]
      exact hmem
  | enqueuedOwned htask hhandle howned hfd => exact Or.inl (mem_roles_enqueue htask hmem)
  | openCancelled hback hcancelled =>
      left
      rw [closeOpened_eq]
      exact hmem
  | chunkFailed hpoint hget haio => exact Or.inl ((roles_takeInflight hget).mem_iff.mpr hmem)
  | chunkReplied hget hstep => exact Or.inl (hchunk hget hstep hmem)
  | chunkFlagged hget hstep hflag => exact Or.inl (hchunk hget hstep hmem)
  | @chunkRequeued _ stepped index entry transferred job htask hget hstep hflag =>
      left
      have hheld := hchunk hget hstep hmem
      have hidle : stepped.task.jobs = [] := by
        rw [(stepJob_roles hstep).2.2]
        exact htask
      simpa [State.roles, State.liveJobs, hidle, Hand.jobs] using hheld
  | submitInflight htask hqueue =>
      left
      have hheld := (roles_takeQueue htask hqueue).mem_iff.mpr hmem
      exact (roles_pushInflight _ _).mem_iff.mpr hheld
  | submitFull htask hqueue =>
      left
      simpa [State.roles, State.liveJobs, State.issue, State.emit, htask, hqueue] using hmem
  | submitSync htask hqueue =>
      left
      simpa [State.roles, State.liveJobs, State.issue, State.emit, htask, hqueue] using hmem
  | submitFailed htask hqueue hfails =>
      exact Or.inl ((roles_takeQueue htask hqueue).mem_iff.mpr hmem)
  | execFailed htask hfails =>
      left
      simpa [State.roles, State.liveJobs, State.issue, State.emit, htask, Hand.jobs] using hmem
  | execReplied htask hstep =>
      left
      have hheld := hexec htask hstep hmem
      simpa [State.roles, State.liveJobs, Hand.jobs] using hheld
  | execAgain htask hstep =>
      left
      have hheld := hexec htask hstep hmem
      simpa [State.roles, State.liveJobs, Hand.jobs] using hheld
  | @ended _ job result =>
      rcases List.mem_cons.mp hmem with rfl | hrest
      · exact Or.inr ⟨job, result, rfl, rfl, rfl⟩
      · left
        change role ∈ (state.finish ans job result).roles []
        rw [State.roles, finish_liveJobs]
        exact hrest
  | helperOpened hget hfresh =>
      left
      rw [openFor_snd]
      exact hmem
  | _ => exact Or.inl hmem

/-- A job stays live, or in hand, until its callback. -/
theorem Act.roles {ans : Answers} {hand hand' : Hand} {next : State}
    (hact : Act ans hand state hand' next) (hledger : hand.Ledger state) {role : Role}
    (hmem : role ∈ state.roles hand.jobs) :
    role ∈ next.roles hand'.jobs ∨ ∃ result, Event.settled role.id result ∈ next.log := by
  rcases hact.roles_or_ended hmem with hkept | ⟨job, result, rfl, rfl, rfl⟩
  · exact Or.inl hkept
  · have hown := hledger.cons.roleIds job.role List.mem_cons_self
    exact Or.inr ⟨result, hown ▸ finish_settled ans job result⟩

end Ledger

/-! ## Every step is a chain of actions -/

/-- A chain of actions, until nothing is in hand. -/
inductive Acts (ans : Answers) : Hand → State → State → Prop
  | done (state : State) : Acts ans .empty state state
  | act {hand hand' : Hand} {state mid next : State} (hact : Act ans hand state hand' mid)
      (hrest : Acts ans hand' mid next) : Acts ans hand state next

/-- What every action keeps a chain keeps. -/
theorem Acts.keep {ans : Answers} {property : Hand → State → Prop}
    (hkept : ∀ hand state hand' next, hand.Ledger state → Act ans hand state hand' next →
      property hand state → property hand' next)
    {hand : Hand} {state next : State} (hacts : Acts ans hand state next)
    (hledger : hand.Ledger state) (hprop : property hand state) : property .empty next := by
  induction hacts with
  | done state => exact hprop
  | act hact _ ih => exact ih (hact.ledger hledger) (hkept _ _ _ _ hledger hact hprop)

section Steps

variable {ans : Answers} {state : State}

theorem Act.single {hand : Hand} {next : State} (hact : Act ans hand state .empty next) :
    Acts ans hand state next :=
  .act hact (.done next)

theorem withFd_error {handle : Handle} {error : IoError}
    (hfails : state.withFd handle = .error error) : error = badHandle := by
  unfold State.withFd at hfails
  split at hfails
  · exact (Except.error.inj hfails).symm
  · split at hfails
    · exact (Except.error.inj hfails).symm
    · cases hfails

theorem gives_ok {α : Type} (reply : α) : ans.Gives (.ok reply : Except IoError α) :=
  fun _ herror => by cases herror

theorem gives_map {α β : Type} {result : Except Errno α} (f : α → β)
    (hfails : ∀ errno, result = .error errno → ans.Fails errno) :
    ans.Gives ((osResult result).map f) := by
  intro error herror
  cases result with
  | ok value => cases herror
  | error errno =>
      obtain rfl := Except.error.inj herror
      exact ⟨errno, hfails errno rfl, rfl⟩

theorem ok_reply {property : Reply → Prop} {reply : Reply} (hreply : property reply) :
    ∀ other, (.ok reply : Outcome) = .ok other → property other := by
  intro other hsame
  exact Except.ok.inj hsame ▸ hreply

theorem map_reply {α : Type} {result : Except Errno α} {property : Reply → Prop} (f : α → Reply)
    (hreply : ∀ value, property (f value)) :
    ∀ reply, (osResult result).map f = .ok reply → property reply := by
  intro reply hsame
  cases result with
  | ok value => exact Except.ok.inj hsame ▸ hreply value
  | error errno => cases hsame

theorem stepJob_reply {next : State} {job job' : Job} {transferred : Transferred} {reply : Outcome}
    (hstep : state.stepJob ans transferred job = (job', some reply, next)) :
    ans.Gives reply := by
  obtain ⟨id, cancelled, kind, cb⟩ := job
  have hread : ∀ read, ans.Gives (readReply read) := by
    intro read
    unfold readReply
    split
    · exact gives_ok _
    · exact gives_ok _
  cases kind with
  | read read =>
      simp only [State.stepJob] at hstep
      split at hstep
      · simp only [Prod.mk.injEq, Option.some.injEq] at hstep
        exact hstep.2.1 ▸ hread _
      · split at hstep
        · simp only [Prod.mk.injEq, Option.some.injEq] at hstep
          exact hstep.2.1 ▸ hread _
        · simp at hstep
  | write write =>
      simp only [State.stepJob] at hstep
      split at hstep
      · simp at hstep
      · split at hstep
        · simp only [Prod.mk.injEq, Option.some.injEq] at hstep
          exact hstep.2.1 ▸ gives_map _ fun errno hfails => .stat hfails
        · simp only [Prod.mk.injEq, Option.some.injEq] at hstep
          exact hstep.2.1 ▸ gives_ok _
  | fsync fsync =>
      simp only [State.stepJob, Prod.mk.injEq, Option.some.injEq] at hstep
      exact hstep.2.1 ▸ gives_ok _

theorem Answers.Gives.ne_badHandle {result : Outcome} (hgives : ans.Gives result) :
    result ≠ .error badHandle := by
  rintro rfl
  obtain ⟨errno, -, hsame⟩ := hgives _ rfl
  cases hsame

theorem opened_acts (htask : state.task.jobs = []) (pending : PendingOpen)
    (result : Except IoError (Fd × ℕ)) :
    Acts ans (.opening pending result) state (state.opened ans pending result) := by
  unfold State.opened
  split
  · exact Act.openFailed.single
  · split
    · exact Act.registered.single
    · split
      · exact Act.registered.single
      · next hafter _ =>
          refine Act.single (.enqueuedOwned htask (by rfl) (by rfl) (by rfl) ?_)
          rw [hafter]
          exact ⟨_, _, _, rfl⟩
    · next hafter =>
        refine Act.single (.enqueuedOwned htask (by rfl) (by rfl) (by rfl) ?_)
        rw [hafter]
        exact ⟨_, rfl⟩

section Messages

variable {id : OpId} {cb : Callback} {rx : List Msg}

/-- An op on a handle is refused, or its descriptor is at hand. -/
theorem onHandle_acts {op : Op} {handle : Handle} (hrx : state.rx = .submit id op cb :: rx)
    (htarget : Op.target op = some handle) {run : Fd → State}
    (hrun : ∀ fd, state.withFd handle = .ok fd → Acts ans .empty state (run fd)) :
    Acts ans .empty state
      (match (state.received (.submit id op cb) rx).withFd handle with
        | .error error => (state.received (.submit id op cb) rx).settle cb (.error error)
        | .ok fd => run fd) := by
  change Acts ans .empty state
    (match state.withFd handle with
      | .error error => (state.received (.submit id op cb) rx).settle cb (.error error)
      | .ok fd => run fd)
  cases hfd : state.withFd handle with
  | error error =>
      obtain rfl := withFd_error hfd
      exact (Act.refused hrx htarget hfd).single
  | ok fd => exact hrun fd hfd

theorem close_acts {handle : Handle} (hrx : state.rx = .submit id (.close handle) cb :: rx) :
    Acts ans .empty state
      ((state.received (.submit id (.close handle) cb) rx).close ans handle cb) := by
  unfold State.close
  split
  · next hnone =>
      have hbad : state.withFd handle = .error badHandle := by
        change state.files.lookup handle = none at hnone
        simp only [State.withFd, hnone]
      exact (Act.refused hrx rfl hbad).single
  · next entry hlookup =>
      change state.files.lookup handle = some entry at hlookup
      split
      · next hclosing =>
          have hbad : state.withFd handle = .error badHandle := by
            simp only [State.withFd, hlookup, hclosing, if_true]
          exact (Act.refused hrx rfl hbad).single
      · next hopen =>
          have hnone : entry.closing = none := by simpa using hopen
          split
          · next hbusy => exact (Act.closeDeferred hrx hlookup hnone hbusy).single
          · next hidle => exact (Act.closeNow hrx hlookup hnone (by omega)).single

theorem openThen_acts {op : Op} (hrx : state.rx = .submit id op cb :: rx)
    (htarget : Op.target op = none) (hlive : state.helpersLive = true)
    (hfresh : ans.fresh state = true) (htask : state.task.jobs = []) (path : Path)
    (spec : OpenSpec) (after : AfterOpen) (hafter : Op.after op = some after) :
    Acts ans .empty state
      ((state.received (.submit id op cb) rx).openThen ans id path spec after cb) := by
  have hkept : ((state.received (.submit id op cb) rx).openFor ans path spec
      ⟨id, after, cb⟩).2.task.jobs = [] := by
    rw [openFor_snd]
    exact htask
  have hserved : (state.received (.submit id op cb) rx).helpersLive = true := hlive
  simp only [State.openThen, hserved, if_true]
  split
  · exact .act (.openedHere path spec after hrx htarget hfresh hafter) (opened_acts hkept _ _)
  · exact (Act.sentOpen path spec after hrx htarget hafter).single

theorem handleOp_acts {op : Op} (hrx : state.rx = .submit id op cb :: rx)
    (hlive : state.helpersLive = true) (hfresh : ans.fresh state = true)
    (htask : state.task.jobs = []) :
    Acts ans .empty state ((state.received (.submit id op cb) rx).handleOp ans id op cb) := by
  cases op with
  | nop => exact (Act.nop hrx).single
  | openFile path spec => exact openThen_acts hrx rfl hlive hfresh htask path spec _ rfl
  | readFile path inlineMax => exact openThen_acts hrx rfl hlive hfresh htask path _ _ rfl
  | writeFile path data => exact openThen_acts hrx rfl hlive hfresh htask path _ _ rfl
  | close handle => exact close_acts hrx
  | size handle =>
      refine onHandle_acts hrx rfl fun fd hfd => ?_
      have hreply : ∀ stat : FileStat, Op.answers (.size handle) (.size stat.size) :=
        fun stat => trivial
      exact (Act.answered [.fstat] hrx rfl rfl hfd (by simp [Syscall.transfers])
        (gives_map _ fun errno hfails => .stat hfails) (map_reply _ hreply)).single
  | setLen handle size =>
      refine onHandle_acts hrx rfl fun fd hfd => ?_
      have hreply : Unit → Op.answers (.setLen handle size) .unit := fun done => trivial
      exact (Act.answered [.ftruncate (asOffT size)] hrx rfl rfl hfd (by simp [Syscall.transfers])
        (gives_map _ fun errno hfails => .ftruncate hfails) (map_reply _ hreply)).single
  | sync handle dataOnly =>
      refine onHandle_acts hrx rfl fun fd hfd => ?_
      exact Act.single (.enqueued false hrx htask rfl rfl (by exact hfd) (by rfl) (by rfl)
        ⟨fd, rfl⟩)
  | readAt handle pos dest =>
      refine onHandle_acts hrx rfl fun fd hfd => ?_
      split
      · refine (Act.answered [] hrx rfl rfl hfd (by simp) (gives_ok _) ?_).single
        exact ok_reply rfl
      · refine (Act.answered [] hrx rfl rfl hfd (by simp) (gives_ok _) ?_).single
        exact ok_reply rfl
      · next len hsome =>
          have hpos : 0 < len := Nat.pos_of_ne_zero hsome
          refine Act.single (.enqueued false hrx htask rfl rfl (by exact hfd) (by rfl) (by rfl) ?_)
          exact ⟨hpos, fd, ans.slack, rfl⟩
      · next ptr len hsome =>
          have hpos : 0 < len := Nat.pos_of_ne_zero hsome
          refine Act.single (.enqueued false hrx htask rfl rfl (by exact hfd) (by rfl) (by rfl) ?_)
          exact ⟨hpos, fd, rfl⟩
  | readToEnd handle pos =>
      refine onHandle_acts hrx rfl fun fd hfd => ?_
      exact Act.single (.enqueued true hrx htask rfl rfl (by exact hfd) (by rfl) (by rfl)
        ⟨fd, _, ans.slack, rfl⟩)
  | writeAt handle pos data append =>
      refine onHandle_acts hrx rfl fun fd hfd => ?_
      split
      · next hempty =>
          have hlen : data.len = 0 := beq_iff_eq.mp hempty
          split
          · next happend =>
              have hreply : ∀ stat : FileStat,
                  Op.answers (.writeAt handle pos data append) (.written 0 stat.size) :=
                fun stat => ⟨hlen, rfl, fun hfixed => absurd (hfixed.symm.trans happend) (by simp)⟩
              exact (Act.answered [.fstat] hrx rfl rfl hfd (by simp [Syscall.transfers])
                (gives_map _ fun errno hfails => .stat hfails) (map_reply _ hreply)).single
          · refine (Act.answered [] hrx rfl rfl hfd (by simp) (gives_ok _) ?_).single
            exact ok_reply ⟨hlen, rfl, fun _ => rfl⟩
      · next hsome =>
          have hpos : 0 < data.len := Nat.pos_of_ne_zero fun hzero => hsome (beq_iff_eq.mpr hzero)
          exact Act.single (.enqueued false hrx htask rfl rfl (by exact hfd) (by rfl) (by rfl)
            ⟨hpos, fd, rfl⟩)

theorem cancel_acts (hrx : state.rx = .cancel id :: rx) :
    Acts ans .empty state ((state.received (.cancel id) rx).cancel ans id) := by
  unfold State.cancel
  split
  · next job hfind => exact .act (.cancelQueued hrx hfind) Act.ended.single
  · next hnone =>
      split
      · next hindex =>
          change state.inflight.findIdx? _ = none at hindex
          have hflying : ∀ entry ∈ state.inflight, entry.job.id ≠ id := by
            simpa using List.findIdx?_eq_none_iff.mp hindex
          split
          · next hpending => exact (Act.cancelOpening hrx hnone hflying hpending).single
          · next hpending => exact (Act.cancelNothing hrx hnone hflying hpending).single
      · next index hindex =>
          obtain ⟨hbound, hid, -⟩ := List.findIdx?_eq_some_iff_getElem.mp hindex
          change index < state.inflight.length at hbound
          have hget : state.inflight[index]? = some state.inflight[index] :=
            List.getElem?_eq_getElem hbound
          have hfildes : ((state.received (.cancel id) rx).inflight[index]?.map
              (·.aiocb.fildes)).getD 0 = state.inflight[index].aiocb.fildes := by
            change (state.inflight[index]?.map (·.aiocb.fildes)).getD 0 = _
            rw [hget, Option.map_some, Option.getD_some]
          simp only [hfildes]
          exact (Act.cancelInflight hrx hnone hget (of_decide_eq_true hid)).single

theorem handleMsg_acts {msg : Msg} (hrx : state.rx = msg :: rx)
    (hlive : state.helpersLive = true) (hfresh : ans.fresh state = true)
    (htask : state.task.jobs = []) :
    Acts ans .empty state (({ state with rx := rx }).handleMsg ans msg) := by
  cases msg with
  | submit id op cb => exact handleOp_acts hrx hlive hfresh htask
  | cancel id => exact cancel_acts hrx

end Messages

theorem handleOpened_acts {message : Opened} {back : List Opened}
    (hback : state.back = message :: back) (htask : state.task.jobs = []) :
    Acts ans .empty state (({ state with back := back }).handleOpened ans message) := by
  unfold State.handleOpened
  simp only
  split
  · next hcancelled => exact (Act.openCancelled hback hcancelled).single
  · next hkept =>
      refine .act (.tookOpened hback hkept) (opened_acts ?_ _ _)
      exact htask

theorem reap_acts (htask : state.task.jobs = []) {index : ℕ} (hpoint : state.point = .reap index) :
    Acts ans .empty state (state.reap ans index) := by
  unfold State.reap
  split
  · exact Act.single (.still (by rfl))
  · next entry hget =>
      split
      · exact Act.single (.still (by rfl))
      · next transferred haio =>
          unfold State.advance
          split
          · next hstep => exact .act (.chunkReplied hget hstep haio) Act.ended.single
          · next hstep =>
              split
              · next hflag => exact .act (.chunkFlagged hget hstep hflag haio) Act.ended.single
              · next hflag =>
                  exact Act.single (.chunkRequeued htask hget hstep (by simpa using hflag) haio)
      · next haio => exact .act (.chunkFailed hpoint hget haio) Act.ended.single

theorem submitReady_acts (htask : state.task.jobs = []) :
    Acts ans .empty state (state.submitReady ans) := by
  have hidle : ({ state with task := .none } : State).view = state.view := by
    simp only [State.view, htask, Task.jobs_none]
  unfold State.submitReady
  split
  · split
    · exact Act.single (.still hidle)
    · next job queue hqueue =>
        simp only
        split
        · exact Act.single (.submitInflight htask hqueue)
        · split
          · exact Act.single (.submitSync htask hqueue)
          · exact Act.single (.submitFull htask hqueue)
        · next hfails => exact .act (.submitFailed htask hqueue hfails) Act.ended.single
  · exact Act.single (.still hidle)

theorem executeSync_acts {job : Job} (htask : state.task = .executeSync job) :
    Acts ans .empty state (state.executeSync ans job) := by
  unfold State.executeSync
  simp only
  split
  · next error hfails =>
      cases htransfer : ans.transfer with
      | ok transferred =>
          rw [htransfer] at hfails
          cases hfails
      | error errno =>
          rw [htransfer] at hfails
          obtain rfl := Except.error.inj hfails
          exact .act (.execFailed htask htransfer) Act.ended.single
  · next transferred hok =>
      have hdone : ans.transfer = .ok transferred := by
        cases htransfer : ans.transfer with
        | ok value =>
            rw [htransfer] at hok
            rw [Except.ok.inj hok]
        | error errno =>
            rw [htransfer] at hok
            cases hok
      split
      · next hstep => exact .act (.execReplied htask hstep hdone) Act.ended.single
      · next hstep => exact Act.single (.execAgain htask hstep hdone)

theorem waitIdle_acts (hlive : state.helpersLive = true) (hfresh : ans.fresh state = true)
    (htask : state.task.jobs = []) {next : State} (hstep : state.waitIdle ans = some next) :
    Acts ans .empty state next := by
  unfold State.waitIdle at hstep
  simp only at hstep
  split at hstep
  · split at hstep
    · cases hstep
    · next msg rx hrx =>
        obtain rfl := Option.some.inj hstep
        exact handleMsg_acts hrx hlive hfresh htask
  · split at hstep
    · cases hstep
    · next message back hback =>
        obtain rfl := Option.some.inj hstep
        exact handleOpened_acts hback htask
  · split at hstep
    · obtain rfl := Option.some.inj hstep
      exact Act.single (.still (by rfl))
    · cases hstep
  · simp [hlive] at hstep

theorem drive_acts (hinv : Invariant state) (hfresh : ans.fresh state = true) {next : State}
    (hstep : state.drive ans = some next) : Acts ans .empty state next := by
  unfold State.drive at hstep
  split at hstep
  · next htask =>
      obtain rfl := Option.some.inj hstep
      exact submitReady_acts (by rw [htask, Task.jobs_submitReady])
  · next job htask =>
      obtain rfl := Option.some.inj hstep
      exact executeSync_acts htask
  · next htask =>
      have hjobs : state.task.jobs = [] := by rw [htask, Task.jobs_none]
      have hlive : state.point ≠ .returned → state.helpersLive = true := hinv.life.helpersLive
      split at hstep
      · next hpoint =>
          have hserved := hlive (by simp [hpoint])
          split at hstep
          · split at hstep
            · obtain rfl := Option.some.inj hstep
              exact Act.single (.still (by rfl))
            · refine .act (.still ?_) (waitIdle_acts ?_ ?_ ?_ hstep)
              · rfl
              · exact hserved
              · exact hfresh
              · exact hjobs
          · obtain rfl := Option.some.inj hstep
            exact Act.single (.still (by rfl))
      · split at hstep
        · obtain rfl := Option.some.inj hstep
          exact Act.single (.still (by rfl))
        · obtain rfl := Option.some.inj hstep
          exact Act.single (.still (by rfl))
      · next index hpoint =>
          obtain rfl := Option.some.inj hstep
          exact reap_acts hjobs hpoint
      · next hpoint =>
          have hserved := hlive (by simp [hpoint])
          obtain rfl := Option.some.inj hstep
          unfold State.drainRx
          split
          · next hrx => exact handleMsg_acts hrx hserved hfresh hjobs
          · exact Act.single (.still (by rfl))
      · next hpoint =>
          have hserved := hlive (by simp [hpoint])
          obtain rfl := Option.some.inj hstep
          unfold State.drainBack
          split
          · next hback => exact handleOpened_acts hback hjobs
          · rw [if_pos hserved]
            exact Act.single (.still (by rfl))
      · obtain rfl := Option.some.inj hstep
        exact Act.single (.still (by simp only [State.view, htask, Task.jobs_none,
          Task.jobs_submitReady]))
      · obtain rfl := Option.some.inj hstep
        exact Act.single (.still (by rfl))
      · cases hstep

theorem help_acts (hinv : Invariant state) (hfresh : ans.fresh state = true) {index : ℕ}
    {next : State} (hstep : state.help ans index = some next) : Acts ans .empty state next := by
  unfold State.help at hstep
  split at hstep
  · next hget =>
      split at hstep
      · next hqueue =>
          obtain rfl := Option.some.inj hstep
          exact Act.single (.helperTook hget hqueue)
      · split at hstep
        · obtain rfl := Option.some.inj hstep
          exact Act.single (.helperExited hget)
        · cases hstep
  · next hget =>
      obtain rfl := Option.some.inj hstep
      exact Act.single (.helperClosed hget)
  · next path spec pending hget =>
      have hkept : (state.openFor ans path spec pending).2.helpers = state.helpers :=
        congrArg Control.helpers (State.control_openFor ans path spec pending state)
      have hopened : Acts ans .empty state _ := Act.single (.helperOpened hget hfresh)
      rw [← hkept] at hopened
      simp only at hstep
      obtain rfl := Option.some.inj hstep
      exact hopened
  · next message hget =>
      simp only at hstep
      split at hstep
      · next hreturned =>
          -- no open is out once the loop has returned
          have hlisted : message.pending ∈ state.pendings :=
            Invariant.mem_pendings_of_helper hget (by simp [Helper.pendings])
          have hpending := (hinv.ledger.pendingIds _ hlisted).2
          have hnone : state.pendingOpens = ∅ := (hinv.life.rest hreturned).2.1
          rw [hnone] at hpending
          exact absurd hpending (Finset.notMem_empty _)
      · obtain rfl := Option.some.inj hstep
        exact Act.single (.helperSent hget)
  · cases hstep

/-- The answers a step gets. -/
def Label.answers : Label → Answers
  | .help _ ans | .drive ans => ans
  | .submit _ _ | .requestCancel _ | .dropSubmitters => {}

theorem send_acts {msg : Msg}
    (hown : ∀ id op cb, msg = .submit id op cb → cb = id ∧ id ∉ submittedIds state.log)
    {next : State} (hstep : state.send msg = some next) : Acts ans .empty state next := by
  unfold State.send at hstep
  split at hstep
  · cases hstep
  · obtain rfl := Option.some.inj hstep
    exact Act.single (.sent msg hown)

theorem step_acts (hinv : Invariant state) {label : Label} {next : State}
    (hstep : Darwin.step state label = some next) :
    Acts label.answers .empty state next := by
  cases label with
  | submit id op =>
      simp only [Darwin.step] at hstep
      split at hstep
      · cases hstep
      · next hnew =>
          refine send_acts ?_ hstep
          rintro other op' cb hsame
          obtain ⟨rfl, -, rfl⟩ := Msg.submit.inj hsame
          exact ⟨rfl, hnew⟩
  | requestCancel id =>
      refine send_acts ?_ hstep
      intro other op cb hsame
      cases hsame
  | dropSubmitters =>
      obtain rfl := Option.some.inj hstep
      exact Act.single (.still (by rfl))
  | help index ans =>
      simp only [Darwin.step] at hstep
      split at hstep
      · next hfresh => exact help_acts hinv hfresh hstep
      · cases hstep
  | drive ans =>
      simp only [Darwin.step] at hstep
      split at hstep
      · next hfresh => exact drive_acts hinv hfresh hstep
      · cases hstep

end Steps

end Turbofile.Darwin
