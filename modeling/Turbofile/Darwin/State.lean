import Turbofile.Core.Op
import Turbofile.Library.Tally

/-!
# The state of the POSIX AIO driver

The driver thread's own fields, the channels around it, the helper threads,
and a log of everything observable.  Answers of the kernel are inputs of the
step function, so nothing here is random.

The driver thread is sequential, but one of its calls can go on for any number
of syscalls (`execute_sync`, `submit_ready`).  `Point` says where `run`
continues and `Task` which of these two calls is still going on; everything
else a step does is a bounded piece of straight-line code.
-/

namespace Turbofile.Darwin

open Turbofile.Core
open Turbofile.Tally

/-! ## Jobs -/

inductive AfterOpen
  | handle
  | readFile (inlineMax : ℕ)
  | writeFile (data : Payload)
  deriving DecidableEq

/-- An op between its submission and its open. -/
structure PendingOpen where
  id : OpId
  after : AfterOpen
  cb : Callback
  deriving DecidableEq

structure Opened where
  pending : PendingOpen
  result : Except IoError (Fd × ℕ)

inductive HelperJob
  | openFile (path : Path) (spec : OpenSpec) (pending : PendingOpen)
  | close (fd : Fd)

/-- A helper thread between two of its channel operations. -/
inductive Helper
  | idle
  | running (job : HelperJob)
  | sending (opened : Opened)
  | exited

structure FileEntry where
  fd : Fd
  ops : ℕ
  closing : Option Callback
  deriving DecidableEq

inductive Want
  | exact (len : ℕ)
  | toEnd
  deriving DecidableEq

/-- `mem` is what the kernel has stored so far.  An owned buffer is a `Vec`
whose own length stays 0 until the reply is built. -/
inductive ReadBuf
  | owned (cap : ℕ) (mem : List Byte)
  | external (ptr len : ℕ) (mem : List Byte)
  deriving DecidableEq

/-- Start and length of the part of the buffer the next chunk may fill. -/
def ReadBuf.chunk (buf : ReadBuf) (filled : ℕ) : ℕ × ℕ :=
  match buf with
  | .owned cap _ => (filled, cap - filled)
  | .external _ len _ => (filled, len - filled)

/-- The kernel's `data` lands behind the first `filled` bytes. -/
def ReadBuf.deposit (buf : ReadBuf) (filled : ℕ) (data : List Byte) : ReadBuf :=
  match buf with
  | .owned cap mem => .owned cap (mem.take filled ++ data)
  | .external ptr len mem => .external ptr len (mem.take filled ++ data)

structure ReadJob where
  handle : Option Handle
  fd : Fd
  ownedFd : Bool
  pos : ℕ
  want : Want
  buf : ReadBuf
  filled : ℕ
  deriving DecidableEq

structure WriteJob where
  handle : Option Handle
  fd : Fd
  ownedFd : Bool
  pos : ℕ
  append : Bool
  data : Payload
  filled : ℕ
  deriving DecidableEq

structure FsyncJob where
  handle : Handle
  fd : Fd
  deriving DecidableEq

inductive JobKind
  | read (job : ReadJob)
  | write (job : WriteJob)
  | fsync (job : FsyncJob)
  deriving DecidableEq

structure Job where
  id : OpId
  cancelled : Bool
  kind : JobKind
  cb : Callback
  deriving DecidableEq

def Job.handle (job : Job) : Option Handle :=
  match job.kind with
  | .read read => read.handle
  | .write write => write.handle
  | .fsync fsync => some fsync.handle

def Job.ownedFd (job : Job) : Bool :=
  match job.kind with
  | .read read => read.ownedFd
  | .write write => write.ownedFd
  | .fsync _ => false

def Job.fd (job : Job) : Fd :=
  match job.kind with
  | .read read => read.fd
  | .write write => write.fd
  | .fsync fsync => fsync.fd

/-- `aio_buf` is the job's buffer from `start` on. -/
structure Aiocb where
  fildes : Fd
  offset : ℤ
  start : ℕ
  nbytes : ℕ
  deriving DecidableEq

structure Inflight where
  aiocb : Aiocb
  job : Job
  deriving DecidableEq

/-! ## The observable log -/

inductive Syscall
  | fstat
  | ftruncate (size : ℤ)
  | aioRead (offset : ℤ) (start nbytes : ℕ)
  | aioWrite (offset : ℤ) (start nbytes : ℕ)
  | aioFsync
  | aioCancel
  | pread (offset : ℤ) (start nbytes : ℕ)
  | pwrite (offset : ℤ) (start nbytes : ℕ)
  | write (start nbytes : ℕ)
  | fsync
  deriving DecidableEq

/-- `sent` is a submitter's side of the channel and `handled` the driver's;
`syscall` names the op on whose behalf the call is made; `closed` also records
which ops had a live job carrying the descriptor at that moment. -/
inductive Event
  | sent (msg : Msg)
  | handled (msg : Msg)
  | opened (fd : Fd) (path : Path) (flags : OpenFlags)
  | closed (fd : Fd) (carriers : List OpId)
  | syscall (op : OpId) (fd : Fd) (call : Syscall)
  | registered (handle : Handle) (fd : Fd)
  | settled (cb : Callback) (result : Outcome)

/-! ## Answers of the environment -/

structure Transferred where
  n : ℕ
  data : List Byte := []

inductive AioStatus
  | inProgress
  | done (transferred : Transferred)
  | failed (errno : Errno)

inductive Wake
  | msg
  | opened
  | submittersGone
  | helpersGone
  deriving DecidableEq

/-- What the calls of one step answer; a step makes each call at most once.
`slack` is how much more than asked for an allocation returns. -/
structure Answers where
  wake : Wake := .msg
  openFd : Except Errno Fd := .error (.other 2)
  stat : Except Errno FileStat := .ok ⟨0, true⟩
  ftruncate : Except Errno Unit := .ok ()
  close : Except Errno Unit := .ok ()
  submitted : Except Errno Unit := .ok ()
  aio : AioStatus := .inProgress
  transfer : Except Errno Transferred := .ok ⟨0, []⟩
  slack : ℕ := 0

/-! ## The state -/

/-- Where `run` continues once no call is going on. -/
inductive Point
  | head
  | suspend
  | reap (index : ℕ)
  | drainRx
  | drainBack
  | submit
  | pace
  | returned
  deriving DecidableEq

inductive Task
  | none
  | submitReady
  | executeSync (job : Job)

/-- The job `execute_sync` is running, which is in no container meanwhile. -/
def Task.jobs : Task → List Job
  | .executeSync job => [job]
  | .none | .submitReady => []

@[simp] theorem Task.jobs_none : Task.none.jobs = [] := rfl
@[simp] theorem Task.jobs_submitReady : Task.submitReady.jobs = [] := rfl
@[simp] theorem Task.jobs_executeSync (job : Job) : (Task.executeSync job).jobs = [job] := rfl

def suspendMinNs : ℕ := 20000

def suspendMaxNs : ℕ := 160000

structure State where
  rx : List Msg
  submittersGone : Bool
  helperQueue : List HelperJob
  helpers : List Helper
  back : List Opened
  pendingOpens : Finset OpId
  cancelledOpens : Finset OpId
  helpersGone : Bool
  files : Table Handle FileEntry
  nextId : Handle
  inflight : List Inflight
  queue : List Job
  maxInflight : ℕ
  disconnected : Bool
  suspendNs : ℕ
  progress : Bool
  point : Point
  task : Task
  log : List Event

/-- Jobs on the driver thread, queued, or with the kernel. -/
def State.liveJobs (state : State) : List Job :=
  state.task.jobs ++ state.queue ++ state.inflight.map (·.job)

/-- `helpers_for`: one helper for three hardware threads, within bounds. -/
def helpersFor (hardware : ℕ) : ℕ := max 2 (min (hardware / 3) 4)

/-- `Driver::new` with the helper threads `spawn` starts before it. -/
def State.new (helperCount maxInflight : ℕ) : State where
  rx := []
  submittersGone := false
  helperQueue := []
  helpers := List.replicate helperCount .idle
  back := []
  pendingOpens := ∅
  cancelledOpens := ∅
  helpersGone := false
  files := ∅
  nextId := 1
  inflight := []
  queue := []
  maxInflight := maxInflight
  disconnected := false
  suspendNs := suspendMinNs
  progress := false
  point := .head
  task := .none
  log := []

end Turbofile.Darwin
