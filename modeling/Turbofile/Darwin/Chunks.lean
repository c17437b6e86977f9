import Turbofile.Darwin.Actions

/-!
# The chunks of an op

A read, write or flush moves its data in chunks, and the driver keeps the job
between two of them in the queue, with the kernel, or on its own thread.  Here
the chunks the kernel has completed are recorded along a run, for each op, and
every request and every reply of the driver is traced back to them: the job of
an op is at any time what its chunks have made of the job it started as.
-/

namespace Turbofile.Darwin

open Turbofile.Core
open Turbofile.Tally
open State

/-! ## Requests and chunks -/

namespace Syscall

/-- Where in the file data is moved; `write` goes by the descriptor. -/
def offset : Syscall → Option ℤ
  | .aioRead offset _ _ | .aioWrite offset _ _ | .pread offset _ _ | .pwrite offset _ _ =>
      some offset
  | .fstat | .ftruncate _ | .aioFsync | .aioCancel | .write _ _ | .fsync => none

/-- Where in the job's buffer. -/
def start : Syscall → ℕ
  | .aioRead _ start _ | .aioWrite _ start _ | .pread _ start _ | .pwrite _ start _
  | .write start _ => start
  | .fstat | .ftruncate _ | .aioFsync | .aioCancel | .fsync => 0

/-- How many bytes at most. -/
def nbytes : Syscall → ℕ
  | .aioRead _ _ nbytes | .aioWrite _ _ nbytes | .pread _ _ nbytes | .pwrite _ _ nbytes
  | .write _ nbytes => nbytes
  | .fstat | .ftruncate _ | .aioFsync | .aioCancel | .fsync => 0

end Syscall

/-- The call a control block in flight was submitted with. -/
def Inflight.call (entry : Inflight) : Syscall :=
  match entry.job.kind with
  | .read _ => .aioRead entry.aiocb.offset entry.aiocb.start entry.aiocb.nbytes
  | .write _ => .aioWrite entry.aiocb.offset entry.aiocb.start entry.aiocb.nbytes
  | .fsync _ => .aioFsync

/-- A call the kernel has completed, and what `fstat` and the allocator answer
if the job asks them then. -/
structure Chunk where
  call : Syscall
  transferred : Transferred
  stat : Except Errno FileStat
  slack : ℕ

/-- The chunk a step of the driver takes in. -/
def State.chunk? (state : State) : Label → Option (OpId × Chunk)
  | .drive ans =>
      match state.task, state.point with
      | .executeSync job, _ =>
          match ans.transfer with
          | .ok transferred => some (job.id, ⟨syncCall job, transferred, ans.stat, ans.slack⟩)
          | .error _ => none
      | .none, .reap index =>
          match state.inflight[index]?, ans.aio with
          | some entry, .done transferred =>
              some (entry.job.id, ⟨entry.call, transferred, ans.stat, ans.slack⟩)
          | _, _ => none
      | _, _ => none
  | _ => none

/-- The chunks of an op, newest first. -/
def chunksOf (record : List (OpId × Chunk)) (id : OpId) : List Chunk :=
  (record.filter fun mark => mark.1 = id).map (·.2)

/-- The bytes the kernel has moved for an op. -/
def moved (chunks : List Chunk) : ℕ := (chunks.map (·.transferred.n)).sum

@[simp] theorem moved_nil : moved [] = 0 := rfl

@[simp]
theorem moved_cons (chunk : Chunk) (chunks : List Chunk) :
    moved (chunk :: chunks) = chunk.transferred.n + moved chunks := rfl

@[simp] theorem chunksOf_nil (id : OpId) : chunksOf [] id = [] := rfl

theorem chunksOf_cons_self (id : OpId) (chunk : Chunk) (record : List (OpId × Chunk)) :
    chunksOf ((id, chunk) :: record) id = chunk :: chunksOf record id := by
  simp [chunksOf]

theorem chunksOf_cons_ne {id other : OpId} (hne : other ≠ id) (chunk : Chunk)
    (record : List (OpId × Chunk)) : chunksOf ((id, chunk) :: record) other =
      chunksOf record other := by
  simp [chunksOf, Ne.symm hne]

theorem call_of_prepared {entry : Inflight} (haiocb : entry.aiocb = (prepare entry.job).1) :
    entry.call = (prepare entry.job).2 := by
  obtain ⟨aiocb, id, cancelled, kind, cb⟩ := entry
  simp only at haiocb
  subst haiocb
  cases kind <;> rfl

/-! ## What chunks make of a job -/

/-- The calls that ask for the next chunk of a job. -/
def JobKind.Asks (kind : JobKind) (call : Syscall) : Prop :=
  call = (prepare ⟨0, false, kind, 0⟩).2 ∨ call = syncCall ⟨0, false, kind, 0⟩

/-- `step` on what a job is about. -/
def JobKind.after (chunk : Chunk) (kind : JobKind) : JobKind × Option Outcome :=
  let ans : Answers := { stat := chunk.stat, slack := chunk.slack }
  let (job, reply, _) := (State.new 0 0).stepJob ans chunk.transferred ⟨0, false, kind, 0⟩
  (job.kind, reply)

/-- `complete` asks nothing but the size of the file. -/
theorem complete_fst (state other : State) {ans ans' : Answers} (hstat : ans.stat = ans'.stat)
    (op op' : OpId) (read : ReadJob) :
    (state.complete ans op read).1 = (other.complete ans' op' read).1 := by
  unfold State.complete
  rw [hstat]
  split
  · rfl
  · cases regularFileSize ans'.stat <;> rfl

/-- What `step` makes of a job depends on its kind, the chunk, and what `fstat`
and the allocator answer. -/
theorem after_of_stepJob {state next : State} {ans : Answers} {transferred : Transferred}
    {job job' : Job} {reply : Option Outcome} (call : Syscall)
    (hstep : state.stepJob ans transferred job = (job', reply, next)) :
    job.kind.after ⟨call, transferred, ans.stat, ans.slack⟩ = (job'.kind, reply) ∧
      job' = { job with kind := job'.kind } := by
  obtain ⟨id, cancelled, kind, cb⟩ := job
  cases kind with
  | read read =>
      have hcomplete := @complete_fst state (State.new 0 0) ans
        { stat := ans.stat, slack := ans.slack } rfl id 0
        { read with
          filled := read.filled + transferred.n
          buf := read.buf.deposit read.filled transferred.data }
      simp only [JobKind.after, State.stepJob] at hstep ⊢
      split at hstep
      · next hzero =>
          rw [if_pos hzero]
          simp only [Prod.mk.injEq] at hstep
          obtain ⟨rfl, rfl, -⟩ := hstep
          exact ⟨rfl, rfl⟩
      · next hsome =>
          rw [if_neg hsome]
          generalize State.complete _ id _ state = asked at hstep hcomplete
          generalize State.complete _ 0 _ (State.new 0 0) = other at hcomplete ⊢
          obtain ⟨done, mid⟩ := asked
          obtain ⟨done', mid'⟩ := other
          obtain rfl : done = done' := hcomplete
          cases done <;>
            (simp only [Prod.mk.injEq] at hstep
             obtain ⟨rfl, rfl, -⟩ := hstep
             exact ⟨rfl, rfl⟩)
  | write write =>
      simp only [JobKind.after, State.stepJob] at hstep ⊢
      split at hstep
      · next hmore =>
          rw [if_pos hmore]
          simp only [Prod.mk.injEq] at hstep
          obtain ⟨rfl, rfl, -⟩ := hstep
          exact ⟨rfl, rfl⟩
      · next hlast =>
          rw [if_neg hlast]
          split at hstep
          · next happend =>
              rw [if_pos happend]
              simp only [Prod.mk.injEq] at hstep
              obtain ⟨rfl, rfl, -⟩ := hstep
              exact ⟨rfl, rfl⟩
          · next hfixed =>
              rw [if_neg hfixed]
              simp only [Prod.mk.injEq] at hstep
              obtain ⟨rfl, rfl, -⟩ := hstep
              exact ⟨rfl, rfl⟩
  | fsync fsync =>
      simp only [State.stepJob, Prod.mk.injEq] at hstep
      obtain ⟨rfl, rfl, -⟩ := hstep
      exact ⟨rfl, rfl⟩

/-- `step` does not look at the job the thread runs. -/
theorem stepJob_retask {state next : State} {ans : Answers} {transferred : Transferred}
    {job job' : Job} {reply : Option Outcome} (task : Task)
    (hstep : state.stepJob ans transferred job = (job', reply, next)) :
    ({ state with task := task }).stepJob ans transferred job =
      (job', reply, { next with task := task }) := by
  obtain ⟨id, cancelled, kind, cb⟩ := job
  cases kind with
  | read read =>
      have hcomplete : ∀ read, ({ state with task := task }).complete ans id read =
          ((state.complete ans id read).1,
            { (state.complete ans id read).2 with task := task }) := by
        intro read
        unfold State.complete
        split
        · rfl
        · cases regularFileSize ans.stat <;> rfl
      simp only [State.stepJob, hcomplete] at hstep ⊢
      split at hstep
      · next hzero =>
          rw [if_pos hzero]
          simp only [Prod.mk.injEq] at hstep ⊢
          obtain ⟨rfl, rfl, rfl⟩ := hstep
          exact ⟨rfl, rfl, rfl⟩
      · next hsome =>
          rw [if_neg hsome]
          generalize State.complete _ id _ state = asked at hstep ⊢
          obtain ⟨done, mid⟩ := asked
          cases done <;>
            (simp only [Prod.mk.injEq] at hstep ⊢
             obtain ⟨rfl, rfl, rfl⟩ := hstep
             exact ⟨rfl, rfl, rfl⟩)
  | write write =>
      simp only [State.stepJob] at hstep ⊢
      split at hstep
      · next hmore =>
          rw [if_pos hmore]
          simp only [Prod.mk.injEq] at hstep ⊢
          obtain ⟨rfl, rfl, rfl⟩ := hstep
          exact ⟨rfl, rfl, rfl⟩
      · next hlast =>
          rw [if_neg hlast]
          split at hstep
          · next happend =>
              rw [if_pos happend]
              simp only [Prod.mk.injEq] at hstep ⊢
              obtain ⟨rfl, rfl, rfl⟩ := hstep
              exact ⟨rfl, rfl, rfl⟩
          · next hfixed =>
              rw [if_neg hfixed]
              simp only [Prod.mk.injEq] at hstep ⊢
              obtain ⟨rfl, rfl, rfl⟩ := hstep
              exact ⟨rfl, rfl, rfl⟩
  | fsync fsync =>
      simp only [State.stepJob, Prod.mk.injEq] at hstep ⊢
      obtain ⟨rfl, rfl, rfl⟩ := hstep
      exact ⟨rfl, rfl, rfl⟩

/-- The kinds a job of the op has, and the chunks that led there. -/
inductive JobRun (op : Op) : List Chunk → JobKind → Prop
  | start {kind : JobKind} (hstarts : Op.starts op kind) : JobRun op [] kind
  | more {chunks : List Chunk} {chunk : Chunk} {kind kind' : JobKind}
      (hrun : JobRun op chunks kind) (hasks : kind.Asks chunk.call)
      (hafter : kind.after chunk = (kind', none)) : JobRun op (chunk :: chunks) kind'

/-- The last chunk ended the op's job with this reply. -/
def Replied (op : Op) (chunks : List Chunk) (reply : Reply) : Prop :=
  ∃ chunk earlier kind kind', chunks = chunk :: earlier ∧ JobRun op earlier kind ∧
    kind.Asks chunk.call ∧ kind.after chunk = (kind', some (.ok reply))

/-! ## Every request and every reply comes from a job -/

/-- The op was submitted under the id. -/
def Sent (log : List Event) (id : OpId) (op : Op) : Prop :=
  ∃ cb, Event.sent (.submit id op cb) ∈ log

/-- The replies that say something was read or written. -/
def Reply.moves : Reply → Bool
  | .bytes _ | .read _ | .written .. => true
  | .handle .. | .size _ | .unit => false

/-- A reply about data was due without a job, or ends a job. -/
def Answered (log : List Event) (chunks : OpId → List Chunk) (id : OpId) (result : Outcome) :
    Prop :=
  ∀ reply, result = .ok reply → Reply.moves reply = true →
    ∃ op, Sent log id op ∧
      ((Op.answers op reply ∧ chunks id = []) ∨ Replied op (chunks id) reply)

/-- What an event of a step may be when `asked` are the chunks completed before
the step and `chunks` those completed with it. -/
def Lawful (log : List Event) (asked chunks : OpId → List Chunk) : Event → Prop
  | .syscall id _ call => call.transfers = true →
      ∃ op kind, Sent log id op ∧ JobRun op (asked id) kind ∧ kind.Asks call
  | .settled id result => Answered log chunks id result
  | .sent _ | .handled _ | .opened .. | .closed .. | .registered .. => True

/-- The log has grown by lawful events. -/
def Grows (asked chunks : OpId → List Chunk) (log grown : List Event) : Prop :=
  ∃ events, grown = events ++ log ∧ ∀ event ∈ events, Lawful grown asked chunks event

section Growth

variable {asked chunks : OpId → List Chunk} {log mid grown : List Event} {id : OpId} {op : Op}
  {event : Event} {result : Outcome}

theorem Sent.mono (hsent : Sent log id op) (hsub : log ⊆ grown) : Sent grown id op := by
  obtain ⟨cb, hmem⟩ := hsent
  exact ⟨cb, hsub hmem⟩

theorem Sent.submitted (hsent : Sent log id op) : id ∈ submittedIds log := by
  obtain ⟨cb, hmem⟩ := hsent
  induction log with
  | nil => cases hmem
  | cons event log ih =>
      rcases List.mem_cons.mp hmem with rfl | hold
      · exact List.mem_cons_self
      · cases event with
        | sent msg =>
            cases msg with
            | submit other op cb => exact List.mem_cons_of_mem _ (ih hold)
            | cancel other => exact ih hold
        | handled msg => exact ih hold
        | opened fd path flags => exact ih hold
        | closed fd carriers => exact ih hold
        | syscall other fd call => exact ih hold
        | registered handle fd => exact ih hold
        | settled cb result => exact ih hold

/-- An id is handed out once. -/
theorem Sent.unique {other : Op} (hsent : Sent log id op) (hother : Sent log id other)
    (hnodup : (submittedIds log).Nodup) : op = other := by
  induction log with
  | nil =>
      obtain ⟨cb, hmem⟩ := hsent
      cases hmem
  | cons event log ih =>
      have htail : (submittedIds log).Nodup → Sent log id op → Sent log id other → op = other :=
        fun hrest hleft hright => ih hleft hright hrest
      obtain ⟨cb, hmem⟩ := hsent
      obtain ⟨cb', hmem'⟩ := hother
      rcases List.mem_cons.mp hmem with rfl | hold
      · rcases List.mem_cons.mp hmem' with hsame | hold'
        · exact (Msg.submit.inj (Event.sent.inj hsame)).2.1.symm
        · exact absurd (Sent.submitted ⟨cb', hold'⟩) (List.nodup_cons.mp hnodup).1
      · rcases List.mem_cons.mp hmem' with rfl | hold'
        · exact absurd (Sent.submitted ⟨cb, hold⟩) (List.nodup_cons.mp hnodup).1
        · refine htail ?_ ⟨cb, hold⟩ ⟨cb', hold'⟩
          cases event with
          | sent msg =>
              cases msg with
              | submit fresh op cb => exact (List.nodup_cons.mp hnodup).2
              | cancel fresh => exact hnodup
          | handled msg => exact hnodup
          | opened fd path flags => exact hnodup
          | closed fd carriers => exact hnodup
          | syscall fresh fd call => exact hnodup
          | registered handle fd => exact hnodup
          | settled cb result => exact hnodup

theorem answered_error (error : IoError) : Answered log chunks id (.error error) := by
  intro reply hsame
  cases hsame

theorem answered_other {reply : Reply} (hother : Reply.moves reply = false) :
    Answered log chunks id (.ok reply) := by
  intro other hsame hmoves
  rw [← Except.ok.inj hsame, hother] at hmoves
  cases hmoves

theorem Answered.mono (hanswered : Answered log chunks id result) (hsub : log ⊆ grown) :
    Answered grown chunks id result := by
  intro reply hsame hmoves
  obtain ⟨op, hsent, hcases⟩ := hanswered reply hsame hmoves
  exact ⟨op, hsent.mono hsub, hcases⟩

theorem Lawful.mono (hlawful : Lawful log asked chunks event) (hsub : log ⊆ grown) :
    Lawful grown asked chunks event := by
  cases event with
  | syscall id fd call =>
      intro htransfers
      obtain ⟨op, kind, hsent, hrest⟩ := hlawful htransfers
      exact ⟨op, kind, hsent.mono hsub, hrest⟩
  | settled id result => exact Answered.mono hlawful hsub
  | sent msg => trivial
  | handled msg => trivial
  | opened fd path flags => trivial
  | closed fd carriers => trivial
  | registered handle fd => trivial

theorem lawful_of_chore (hchore : event.chore id) : Lawful log asked chunks event := by
  cases event with
  | syscall other fd call =>
      intro htransfers
      rw [hchore.2] at htransfers
      cases htransfers
  | settled cb result => exact hchore.elim
  | sent msg => trivial
  | handled msg => trivial
  | opened fd path flags => trivial
  | closed fd carriers => trivial
  | registered handle fd => trivial

namespace Grows

theorem refl (asked chunks : OpId → List Chunk) (log : List Event) :
    Grows asked chunks log log := ⟨[], rfl, by simp⟩

theorem subset (hgrows : Grows asked chunks log grown) : log ⊆ grown := by
  obtain ⟨events, rfl, -⟩ := hgrows
  exact List.subset_append_right _ _

theorem trans (hfirst : Grows asked chunks log mid) (hsecond : Grows asked chunks mid grown) :
    Grows asked chunks log grown := by
  have hsub := hsecond.subset
  obtain ⟨front, hmid, hfront⟩ := hfirst
  obtain ⟨back, hgrown, hback⟩ := hsecond
  refine ⟨back ++ front, by rw [hgrown, hmid, List.append_assoc], fun event hmem => ?_⟩
  rcases List.mem_append.mp hmem with hnew | hold
  · exact hback event hnew
  · exact (hfront event hold).mono hsub

theorem cons (hgrows : Grows asked chunks log mid) (hevent : Lawful mid asked chunks event) :
    Grows asked chunks log (event :: mid) := by
  refine hgrows.trans ⟨[event], rfl, fun other hmem => ?_⟩
  obtain rfl := List.mem_singleton.mp hmem
  exact hevent.mono (List.subset_cons_self _ _)

theorem of_chores (hchores : Chores id log grown) : Grows asked chunks log grown := by
  obtain ⟨events, rfl, hevents⟩ := hchores
  exact ⟨events, rfl, fun event hmem => lawful_of_chore (hevents event hmem)⟩

end Grows

end Growth

def Hand.pendings : Hand → List PendingOpen
  | .opening pending _ => [pending]
  | .empty | .ending _ _ => []

/-- Everything the driver holds is where the chunks of its op have brought it,
and only lawful events have been logged since `base`. -/
structure Tracked (asked chunks : OpId → List Chunk) (base : List Event) (hand : Hand)
    (state : State) : Prop where
  rx : ∀ id op cb, Msg.submit id op cb ∈ state.rx → Sent state.log id op ∧ chunks id = []
  pendings : ∀ pending ∈ hand.pendings ++ state.pendings, ∃ op,
    Sent state.log pending.id op ∧ Op.after op = some pending.after ∧ chunks pending.id = []
  jobs : ∀ job ∈ state.liveJobs, ∃ op,
    Sent state.log job.id op ∧ JobRun op (chunks job.id) job.kind
  aiocbs : ∀ entry ∈ state.inflight, entry.aiocb = (prepare entry.job).1
  ending : ∀ job result, hand = .ending job result → Answered state.log chunks job.cb result
  news : Grows asked chunks base state.log

namespace Tracked

variable {asked chunks : OpId → List Chunk} {base : List Event} {hand hand' : Hand}
  {state next : State}

/-- Nothing new comes up; places may change. -/
theorem move (htracked : Tracked asked chunks base hand state)
    (hgrows : Grows asked chunks state.log next.log)
    (hrx : ∀ msg ∈ next.rx, msg ∈ state.rx)
    (hpendings : ∀ pending ∈ hand'.pendings ++ next.pendings,
      pending ∈ hand.pendings ++ state.pendings)
    (hjobs : ∀ job ∈ next.liveJobs, ∃ old ∈ state.liveJobs, old.id = job.id ∧ old.kind = job.kind)
    (hinflight : ∀ entry ∈ next.inflight,
      ∃ old ∈ state.inflight, old.aiocb = entry.aiocb ∧ old.job.kind = entry.job.kind)
    (hending : ∀ job result, hand' = .ending job result →
      Answered next.log chunks job.cb result) :
    Tracked asked chunks base hand' next where
  rx id op cb hmem := by
    obtain ⟨hsent, hnone⟩ := htracked.rx id op cb (hrx _ hmem)
    exact ⟨hsent.mono hgrows.subset, hnone⟩
  pendings pending hmem := by
    obtain ⟨op, hsent, hrest⟩ := htracked.pendings pending (hpendings pending hmem)
    exact ⟨op, hsent.mono hgrows.subset, hrest⟩
  jobs job hmem := by
    obtain ⟨old, hold, hid, hkind⟩ := hjobs job hmem
    obtain ⟨op, hsent, hrun⟩ := htracked.jobs old hold
    rw [hid] at hsent hrun
    rw [hkind] at hrun
    exact ⟨op, hsent.mono hgrows.subset, hrun⟩
  aiocbs entry hmem := by
    obtain ⟨old, hold, haiocb, hkind⟩ := hinflight entry hmem
    have hprepared : (prepare old.job).1 = (prepare entry.job).1 := by
      unfold prepare
      rw [hkind]
    rw [← haiocb, htracked.aiocbs old hold, hprepared]
  ending := hending
  news := htracked.news.trans hgrows

/-- `move` when no job changes. -/
theorem same (htracked : Tracked asked chunks base hand state)
    (hgrows : Grows asked chunks state.log next.log)
    (hrx : ∀ msg ∈ next.rx, msg ∈ state.rx)
    (hpendings : ∀ pending ∈ hand'.pendings ++ next.pendings,
      pending ∈ hand.pendings ++ state.pendings)
    (hjobs : ∀ job ∈ next.liveJobs, job ∈ state.liveJobs)
    (hinflight : ∀ entry ∈ next.inflight, entry ∈ state.inflight)
    (hending : ∀ job result, hand' = .ending job result →
      Answered next.log chunks job.cb result) :
    Tracked asked chunks base hand' next :=
  htracked.move hgrows hrx hpendings (fun job hmem => ⟨job, hjobs job hmem, rfl, rfl⟩)
    (fun entry hmem => ⟨entry, hinflight entry hmem, rfl, rfl⟩) hending

/-- A fresh job of an op joins the queue. -/
theorem enqueue (htracked : Tracked asked chunks base hand state) (htask : state.task.jobs = [])
    {id : OpId} {op : Op} {kind : JobKind} (handle : Option Handle) (cb : Callback)
    (hsent : Sent state.log id op) (hstarts : Op.starts op kind) (hnone : chunks id = []) :
    Tracked asked chunks base .empty (state.enqueue id kind handle cb) where
  rx := htracked.rx
  pendings pending hmem := htracked.pendings pending (List.mem_append_right _ hmem)
  jobs job hmem := by
    have hplaces : job ∈ state.liveJobs ∨ job = ⟨id, false, kind, cb⟩ := by
      simp only [State.liveJobs, State.enqueue, Task.jobs_submitReady, List.nil_append,
        List.mem_append, List.mem_singleton] at hmem
      simp only [State.liveJobs, htask, List.nil_append, List.mem_append]
      tauto
    rcases hplaces with hold | rfl
    · exact htracked.jobs job hold
    · refine ⟨op, hsent, ?_⟩
      rw [hnone]
      exact .start hstarts
  aiocbs := htracked.aiocbs
  ending _ _ hending := by cases hending
  news := htracked.news

theorem closeOwned_kept (ans : Answers) (fd : Fd) :
    (state.closeOwned ans fd).rx = state.rx ∧
      (state.closeOwned ans fd).pendings = state.pendings ∧
      (state.closeOwned ans fd).inflight = state.inflight := by
  unfold State.closeOwned
  split
  · exact ⟨rfl, rfl, rfl⟩
  · split
    · refine ⟨rfl, ?_, rfl⟩
      simp [State.pendings, HelperJob.pendings]
    · exact ⟨rfl, rfl, rfl⟩

theorem finish_kept (ans : Answers) (job : Job) (result : Outcome) :
    (state.finish ans job result).rx = state.rx ∧
      (state.finish ans job result).pendings = state.pendings ∧
      (state.finish ans job result).inflight = state.inflight := by
  obtain ⟨mid, hmid, hkept⟩ : ∃ mid,
      (if job.ownedFd then state.closeOwned ans job.fd else state) = mid ∧
        mid.rx = state.rx ∧ mid.pendings = state.pendings ∧ mid.inflight = state.inflight := by
    refine ⟨_, rfl, ?_⟩
    split
    · exact closeOwned_kept ans job.fd
    · exact ⟨rfl, rfl, rfl⟩
  unfold State.finish
  simp only [hmid]
  repeat' split
  all_goals exact hkept

/-- A job settles. -/
theorem finish {ans : Answers} {job : Job} {result : Outcome}
    (htracked : Tracked asked chunks base (.ending job result) state) :
    Tracked asked chunks base .empty (state.finish ans job result) := by
  obtain ⟨hrx, hpendings, hinflight⟩ := @finish_kept state ans job result
  have hlive := @finish_liveJobs state ans job result
  refine htracked.same ?_ (fun msg hmem => hrx ▸ hmem) ?_ (fun other hmem => hlive ▸ hmem)
    (fun entry hmem => hinflight ▸ hmem) (fun _ _ hending => by cases hending)
  · obtain ⟨grown, hchores, hlog⟩ := Chores.finish ans state job result
    have hgrown : Grows asked chunks state.log grown := .of_chores hchores
    have hsettled : Grows asked chunks state.log (.settled job.cb result :: grown) :=
      hgrown.cons ((htracked.ending job result rfl).mono hgrown.subset)
    rcases hlog with hlog | ⟨handle, entry, cb, carriers, -, -, hlog⟩
    · rw [hlog]
      exact hsettled
    · have hclosed : Grows asked chunks state.log
          (.closed entry.fd carriers :: .settled job.cb result :: grown) := hsettled.cons trivial
      rw [hlog]
      refine hclosed.cons ?_
      cases hclose : ans.close with
      | ok done => exact answered_other rfl
      | error errno => exact answered_error _
  · intro pending hmem
    rw [hpendings] at hmem
    exact hmem

end Tracked

/-! ## Steps that take in no chunk -/

/-- No chunk is reported complete. -/
structure Answers.Silent (ans : Answers) : Prop where
  aio : ∀ transferred, ans.aio ≠ .done transferred
  transfer : ∀ transferred, ans.transfer ≠ .ok transferred

theorem starts_of_after {op : Op} {after : AfterOpen} {kind : JobKind}
    (hafter : Op.after op = some after) (hstarts : after.starts kind) : Op.starts op kind := by
  cases op with
  | openFile path spec => exact ⟨after, hafter, hstarts⟩
  | readFile path inlineMax => exact ⟨after, hafter, hstarts⟩
  | writeFile path data => exact ⟨after, hafter, hstarts⟩
  | readAt handle pos dest => cases hafter
  | readToEnd handle pos => cases hafter
  | writeAt handle pos data append => cases hafter
  | close handle => cases hafter
  | sync handle dataOnly => cases hafter
  | setLen handle size => cases hafter
  | size handle => cases hafter
  | nop => cases hafter

theorem prepare_asks (job : Job) : job.kind.Asks (prepare job).2 := Or.inl rfl

theorem syncCall_asks (job : Job) : job.kind.Asks (syncCall job) := Or.inr rfl

section Quiet

variable {chunks : OpId → List Chunk} {base : List Event} {state : State}

theorem issues_eq (id : OpId) (fd : Fd) (calls : List Syscall) :
    calls.foldr (State.issue id fd) state =
      { state with log := (calls.foldr (State.issue id fd) state).log } := by
  induction calls with
  | nil => rfl
  | cons call calls ih =>
      rw [List.foldr_cons, ih]
      rfl

theorem Tracked.request {job : Job} {call : Syscall}
    (htracked : Tracked chunks chunks base .empty state) (hmem : job ∈ state.liveJobs)
    (hasks : job.kind.Asks call) :
    Lawful state.log chunks chunks (.syscall job.id job.fd call) := by
  intro _
  obtain ⟨op, hsent, hrun⟩ := htracked.jobs job hmem
  exact ⟨op, job.kind, hsent, hrun, hasks⟩

theorem grows_received (msg : Msg) (rx : List Msg) :
    Grows chunks chunks state.log (state.received msg rx).log :=
  (Grows.refl chunks chunks state.log).cons trivial

/-- With nothing in hand no job is about to settle. -/
theorem nothing_ending {log : List Event} (job : Job) (result : Outcome)
    (hsame : Hand.empty = .ending job result) : Answered log chunks job.cb result := by
  cases hsame

theorem mem_rx_of_tail {msg : Msg} {rx : List Msg} (hrx : state.rx = msg :: rx) :
    ∀ other ∈ rx, other ∈ state.rx := by
  intro other hmem
  rw [hrx]
  exact List.mem_cons_of_mem _ hmem

/-! ### Messages -/

theorem Tracked.sent (htracked : Tracked chunks chunks base .empty state)
    (hidle : ∀ id, (∀ op, ¬Sent base id op) → chunks id = []) {msg : Msg}
    (hown : ∀ id op cb, msg = .submit id op cb → cb = id ∧ id ∉ submittedIds state.log) :
    Tracked chunks chunks base .empty
      (({ state with rx := state.rx ++ [msg] }).emit (.sent msg)) := by
  refine { htracked with
    rx := ?_, pendings := ?_, jobs := ?_, ending := nothing_ending, news := ?_ }
  · intro id op cb hmem
    rcases List.mem_append.mp hmem with hold | hlast
    · obtain ⟨hsent, hnone⟩ := htracked.rx id op cb hold
      exact ⟨hsent.mono (List.subset_cons_self _ _), hnone⟩
    · obtain rfl := List.mem_singleton.mp hlast
      refine ⟨⟨cb, List.mem_cons_self⟩, hidle id fun other hsent => ?_⟩
      exact (hown id op cb rfl).2 (hsent.mono htracked.news.subset).submitted
  · intro pending hmem
    obtain ⟨op, hsent, hrest⟩ := htracked.pendings pending hmem
    exact ⟨op, hsent.mono (List.subset_cons_self _ _), hrest⟩
  · intro job hmem
    obtain ⟨op, hsent, hrun⟩ := htracked.jobs job hmem
    exact ⟨op, hsent.mono (List.subset_cons_self _ _), hrun⟩
  · exact htracked.news.cons trivial

/-- A message is taken up, and apart from it only the log changes. -/
theorem Tracked.takes (htracked : Tracked chunks chunks base .empty state) {next : State}
    {msg : Msg} (hrx : state.rx = msg :: next.rx)
    (hgrows : Grows chunks chunks state.log next.log) (hpendings : next.pendings = state.pendings)
    (hjobs : next.liveJobs = state.liveJobs) (hinflight : next.inflight = state.inflight) :
    Tracked chunks chunks base .empty next :=
  htracked.same hgrows (mem_rx_of_tail hrx)
    (fun pending hmem => by rwa [hpendings] at hmem) (fun job hmem => by rwa [hjobs] at hmem)
    (fun entry hmem => by rwa [hinflight] at hmem) nothing_ending

/-- An op that makes no job is answered after the calls it makes. -/
theorem Tracked.answered (htracked : Tracked chunks chunks base .empty state)
    (hledger : Hand.empty.Ledger state) {id : OpId} {op : Op} {cb : Callback} {rx : List Msg}
    {fd : Fd} {result : Outcome} (calls : List Syscall) (hrx : state.rx = .submit id op cb :: rx)
    (hcalls : ∀ call ∈ calls, call.transfers = false)
    (hreply : ∀ reply, result = .ok reply → Op.answers op reply) :
    Tracked chunks chunks base .empty
      ((calls.foldr (State.issue id fd) (state.received (.submit id op cb) rx)).settle
        cb result) := by
  obtain ⟨hsent, hnone⟩ := htracked.rx id op cb (hrx ▸ List.mem_cons_self)
  obtain rfl := hledger.cons.cb_eq_id hrx
  have hcalled : Grows chunks chunks state.log
      (calls.foldr (State.issue cb fd) (state.received (.submit cb op cb) rx)).log :=
    (grows_received _ _).trans (.of_chores (Chores.issues cb fd calls hcalls))
  have hanswered : Answered (calls.foldr (State.issue cb fd)
      (state.received (.submit cb op cb) rx)).log chunks cb result := by
    intro reply hsame _
    exact ⟨op, hsent.mono hcalled.subset, Or.inl ⟨hreply reply hsame, hnone⟩⟩
  rw [issues_eq] at hcalled hanswered ⊢
  exact htracked.takes hrx (hcalled.cons hanswered) rfl rfl rfl

/-- A job for an open file starts with no chunk. -/
theorem Tracked.enqueued (htracked : Tracked chunks chunks base .empty state) {id : OpId} {op : Op}
    {cb : Callback} {rx : List Msg} {kind : JobKind} (handle : Handle) (asks : Bool)
    (hrx : state.rx = .submit id op cb :: rx) (htask : state.task.jobs = [])
    (hstarts : Op.starts op kind) :
    Tracked chunks chunks base .empty
      (((state.received (.submit id op cb) rx).asked asks id
        (Job.mk id false kind cb).fd).enqueue id kind (some handle) cb) := by
  obtain ⟨hsent, hnone⟩ := htracked.rx id op cb (hrx ▸ List.mem_cons_self)
  have hgrows : Grows chunks chunks state.log ((state.received (.submit id op cb) rx).asked
      asks id (Job.mk id false kind cb).fd).log :=
    (grows_received _ _).trans (.of_chores (Chores.asked asks id (Job.mk id false kind cb).fd))
  have hasked : Tracked chunks chunks base .empty
      ((state.received (.submit id op cb) rx).asked asks id (Job.mk id false kind cb).fd) := by
    cases asks with
    | false => exact htracked.takes hrx hgrows rfl rfl rfl
    | true => exact htracked.takes hrx hgrows rfl rfl rfl
  refine hasked.enqueue ?_ (some handle) cb (hsent.mono hgrows.subset) hstarts hnone
  cases asks <;> exact htask

theorem Tracked.closeNow {ans : Answers} (htracked : Tracked chunks chunks base .empty state)
    {id : OpId} {cb : Callback} {rx : List Msg} {handle : Handle} (entry : FileEntry)
    (hrx : state.rx = .submit id (.close handle) cb :: rx) :
    Tracked chunks chunks base .empty
      ((({ state.received (.submit id (.close handle) cb) rx with
        files := state.files.erase handle }).closeRaw entry.fd).settle cb
          ((osResult ans.close).map fun _ => .unit)) := by
  have hclosed : Grows chunks chunks state.log
      (({ state.received (.submit id (.close handle) cb) rx with
        files := state.files.erase handle }).closeRaw entry.fd).log :=
    (grows_received _ _).cons trivial
  refine htracked.takes hrx (hclosed.cons ?_) rfl rfl rfl
  cases hclose : ans.close with
  | ok done => exact answered_other rfl
  | error errno => exact answered_error _

theorem Tracked.openedHere {ans : Answers} (htracked : Tracked chunks chunks base .empty state)
    {id : OpId} {op : Op} {cb : Callback} {rx : List Msg} (path : Path) (spec : OpenSpec)
    {after : AfterOpen} (hrx : state.rx = .submit id op cb :: rx)
    (hafter : Op.after op = some after) :
    Tracked chunks chunks base
      (.opening ⟨id, after, cb⟩
        ((state.received (.submit id op cb) rx).openFor ans path spec ⟨id, after, cb⟩).1)
      ((state.received (.submit id op cb) rx).openFor ans path spec ⟨id, after, cb⟩).2 := by
  obtain ⟨hsent, hnone⟩ := htracked.rx id op cb (hrx ▸ List.mem_cons_self)
  have hgrows : Grows chunks chunks state.log ((state.received (.submit id op cb) rx).openFor
      ans path spec ⟨id, after, cb⟩).2.log :=
    (grows_received _ _).trans (.of_chores (Chores.openFor path spec ⟨id, after, cb⟩))
  rw [openFor_snd] at hgrows ⊢
  have htaken : Tracked chunks chunks base .empty _ := htracked.takes hrx hgrows rfl rfl rfl
  refine { htaken with pendings := fun pending hmem => ?_, ending := ?_ }
  · rcases List.mem_cons.mp hmem with rfl | hold
    · exact ⟨op, hsent.mono hgrows.subset, hafter, hnone⟩
    · exact htaken.pendings pending hold
  · rintro _ _ ⟨⟩

theorem Tracked.sentOpen (htracked : Tracked chunks chunks base .empty state) {id : OpId} {op : Op}
    {cb : Callback} {rx : List Msg} (path : Path) (spec : OpenSpec) {after : AfterOpen}
    (hrx : state.rx = .submit id op cb :: rx) (hafter : Op.after op = some after) :
    Tracked chunks chunks base .empty
      { state.received (.submit id op cb) rx with
        pendingOpens := insert id state.pendingOpens
        helperQueue := state.helperQueue ++ [.openFile path spec ⟨id, after, cb⟩] } := by
  obtain ⟨hsent, hnone⟩ := htracked.rx id op cb (hrx ▸ List.mem_cons_self)
  have hgrows : Grows chunks chunks state.log (state.received (.submit id op cb) rx).log :=
    grows_received _ _
  have htaken : Tracked chunks chunks base .empty (state.received (.submit id op cb) rx) :=
    htracked.takes hrx hgrows rfl rfl rfl
  refine { htaken with pendings := fun pending hmem => ?_ }
  have hplaces : pending = ⟨id, after, cb⟩ ∨ pending ∈ state.pendings := by
    simp only [Hand.pendings, List.nil_append, State.pendings, List.flatMap_append,
      List.mem_append, List.flatMap_singleton, HelperJob.pendings,
      List.mem_singleton] at hmem ⊢
    tauto
  rcases hplaces with rfl | hold
  · exact ⟨op, hsent.mono hgrows.subset, hafter, hnone⟩
  · exact htaken.pendings pending hold

/-! ### Cancels -/

theorem Tracked.cancelQueued (htracked : Tracked chunks chunks base .empty state) {id : OpId}
    {rx : List Msg} (job : Job) (hrx : state.rx = .cancel id :: rx) :
    Tracked chunks chunks base (.ending job (.error cancelledError))
      { state.received (.cancel id) rx with
        queue := state.queue.eraseP fun job => job.id = id } := by
  refine htracked.same (grows_received _ _) (mem_rx_of_tail hrx) (fun _ hmem => hmem) ?_
    (fun _ hmem => hmem) ?_
  · intro other hmem
    simp only [State.liveJobs, List.mem_append] at hmem ⊢
    exact hmem.imp_left (Or.imp_right List.mem_of_mem_eraseP)
  · rintro _ _ ⟨⟩
    exact answered_error _

/-- A flag of a job in flight is set; its chunks stay. -/
theorem mem_inflight_of_flagged {index : ℕ} {flagged : Inflight}
    (hmem : flagged ∈ state.inflight.modify index fun entry =>
      { entry with job := { entry.job with cancelled := true } }) :
    ∃ old ∈ state.inflight, old.aiocb = flagged.aiocb ∧ old.job.id = flagged.job.id ∧
      old.job.kind = flagged.job.kind := by
  rcases mem_modify hmem with hold | ⟨old, hget, rfl⟩
  · exact ⟨flagged, hold, rfl, rfl, rfl⟩
  · exact ⟨old, List.mem_of_getElem? hget, rfl, rfl, rfl⟩

theorem Tracked.cancelInflight (htracked : Tracked chunks chunks base .empty state) {id : OpId}
    {rx : List Msg} (index : ℕ) (fd : Fd) (hrx : state.rx = .cancel id :: rx) :
    Tracked chunks chunks base .empty
      (({ state.received (.cancel id) rx with
        inflight := state.inflight.modify index fun entry =>
          { entry with job := { entry.job with cancelled := true } } }).issue
        id fd .aioCancel) := by
  have hissued : Grows chunks chunks state.log
      ((state.received (.cancel id) rx).issue id fd .aioCancel).log :=
    (grows_received _ _).cons fun htransfers => by cases htransfers
  refine htracked.move hissued (mem_rx_of_tail hrx) (fun _ hmem => hmem) ?_ ?_ nothing_ending
  · intro job hmem
    simp only [State.liveJobs, State.issue, State.emit, List.mem_append, List.mem_map] at hmem
    rcases hmem with hold | ⟨flagged, hflag, rfl⟩
    · refine ⟨job, ?_, rfl, rfl⟩
      simp only [State.liveJobs, List.mem_append]
      exact Or.inl hold
    · obtain ⟨old, hold, -, hid, hkind⟩ := mem_inflight_of_flagged hflag
      exact ⟨old.job, List.mem_append_right _ (List.mem_map_of_mem hold), hid, hkind⟩
  · intro flagged hflag
    obtain ⟨old, hold, haiocb, -, hkind⟩ := mem_inflight_of_flagged hflag
    exact ⟨old, hold, haiocb, hkind⟩

/-! ### Opens -/

theorem Tracked.tookOpened (htracked : Tracked chunks chunks base .empty state)
    {message : Opened} {back : List Opened} (hback : state.back = message :: back) :
    Tracked chunks chunks base (.opening message.pending message.result)
      { state with
        back := back
        progress := true
        pendingOpens := state.pendingOpens.erase message.pending.id } := by
  refine htracked.same (.refl _ _ _) (fun _ hmem => hmem) ?_ (fun _ hmem => hmem)
    (fun _ hmem => hmem) (by rintro _ _ ⟨⟩)
  intro pending hmem
  simp only [Hand.pendings, State.pendings, hback, List.map_cons, List.mem_append,
    List.mem_cons, List.not_mem_nil, or_false] at hmem ⊢
  tauto

theorem Tracked.openCancelled (htracked : Tracked chunks chunks base .empty state)
    {message : Opened} {back : List Opened} (hback : state.back = message :: back) :
    Tracked chunks chunks base .empty
      ((({ state with
        back := back
        progress := true
        pendingOpens := state.pendingOpens.erase message.pending.id
        cancelledOpens := state.cancelledOpens.erase message.pending.id }).closeOpened
          message.result).settle message.pending.cb (.error cancelledError)) := by
  have hclosed : Chores message.pending.id state.log (({ state with
      back := back
      progress := true
      pendingOpens := state.pendingOpens.erase message.pending.id
      cancelledOpens := state.cancelledOpens.erase message.pending.id }).closeOpened
        message.result).log := Chores.closeOpened _ _
  rw [closeOpened_eq] at hclosed ⊢
  refine htracked.same ((Grows.of_chores hclosed).cons (answered_error _))
    (fun _ hmem => hmem) ?_ (fun _ hmem => hmem) (fun _ hmem => hmem) nothing_ending
  intro pending hmem
  simp only [Hand.pendings, State.pendings, State.settle, State.emit, hback, List.map_cons,
    List.mem_append, List.mem_cons, List.not_mem_nil, false_or] at hmem ⊢
  tauto

/-! ### Requests -/

theorem Tracked.chunkFailed (htracked : Tracked chunks chunks base .empty state) {index : ℕ}
    {entry : Inflight} (errno : Errno) (hget : state.inflight[index]? = some entry) :
    Tracked chunks chunks base (.ending entry.job (.error (.os errno)))
      { state with inflight := swapRemove state.inflight index, progress := true } := by
  have hkept : ∀ other ∈ swapRemove state.inflight index, other ∈ state.inflight :=
    fun _ hother => mem_of_mem_swapRemove hget hother
  refine htracked.same (.refl _ _ _) (fun _ hmem => hmem) (fun _ hmem => hmem) ?_ hkept ?_
  · intro job hmem
    simp only [State.liveJobs, List.mem_append, List.mem_map] at hmem ⊢
    rcases hmem with hold | ⟨other, hother, rfl⟩
    · exact Or.inl hold
    · exact Or.inr ⟨other, hkept other hother, rfl⟩
  · rintro _ _ ⟨⟩
    exact answered_error _

section Submitting

variable {job : Job} {queue : List Job}

/-- The job at the head of the queue is asked for its next chunk. -/
theorem Tracked.issued (htracked : Tracked chunks chunks base .empty state)
    (htask : state.task.jobs = []) (hqueue : state.queue = job :: queue) :
    Grows chunks chunks state.log (.syscall job.id job.fd (prepare job).2 :: state.log) := by
  have hmem : job ∈ state.liveJobs := by simp [State.liveJobs, htask, hqueue]
  exact (Grows.refl _ _ _).cons (htracked.request hmem (prepare_asks job))

/-- The job stays where it was. -/
theorem Tracked.submitFull (htracked : Tracked chunks chunks base .empty state)
    (htask : state.task.jobs = []) (hqueue : state.queue = job :: queue) :
    Tracked chunks chunks base .empty
      { ({ state with queue := queue }).issue job.id job.fd (prepare job).2 with
        queue := job :: queue
        task := .none } := by
  refine htracked.same (htracked.issued htask hqueue) (fun _ hmem => hmem) (fun _ hmem => hmem)
    (fun other hmem => ?_) (fun _ hmem => hmem) nothing_ending
  rwa [State.liveJobs, htask, hqueue]

theorem Tracked.submitInflight (htracked : Tracked chunks chunks base .empty state)
    (htask : state.task.jobs = []) (hqueue : state.queue = job :: queue) :
    Tracked chunks chunks base .empty
      { ({ state with queue := queue }).issue job.id job.fd (prepare job).2 with
        inflight := state.inflight ++ [⟨(prepare job).1, job⟩] } := by
  have hmoved := htracked.submitFull htask hqueue
  refine { hmoved with jobs := fun other hmem => hmoved.jobs other ?_, aiocbs := ?_ }
  · simp only [State.liveJobs, State.issue, State.emit, htask, List.nil_append,
      List.map_append, List.map_cons, List.map_nil, List.mem_append, List.mem_cons,
      List.not_mem_nil, or_false] at hmem ⊢
    tauto
  · intro entry hmem
    rcases List.mem_append.mp hmem with hold | hnew
    · exact htracked.aiocbs entry hold
    · obtain rfl := List.mem_singleton.mp hnew
      rfl

theorem Tracked.submitFailed (htracked : Tracked chunks chunks base .empty state)
    (errno : Errno) (htask : state.task.jobs = []) (hqueue : state.queue = job :: queue) :
    Tracked chunks chunks base (.ending job (.error (.os errno)))
      (({ state with queue := queue }).issue job.id job.fd (prepare job).2) := by
  refine htracked.same (htracked.issued htask hqueue) (fun _ hmem => hmem) (fun _ hmem => hmem)
    (fun other hmem => ?_) (fun _ hmem => hmem) ?_
  · simp only [State.liveJobs, State.issue, State.emit, htask, hqueue, List.nil_append,
      List.cons_append, List.mem_cons] at hmem ⊢
    exact Or.inr hmem
  · rintro _ _ ⟨⟩
    exact answered_error _

theorem Tracked.execFailed (htracked : Tracked chunks chunks base .empty state) (errno : Errno)
    (htask : state.task = .executeSync job) :
    Tracked chunks chunks base (.ending job (.error (.os errno)))
      { state.issue job.id job.fd (syncCall job) with task := .submitReady } := by
  have hmem : job ∈ state.liveJobs := by simp [State.liveJobs, htask]
  have hissued : Grows chunks chunks state.log
      (state.issue job.id job.fd (syncCall job)).log :=
    (Grows.refl _ _ _).cons (htracked.request hmem (syncCall_asks job))
  refine htracked.same hissued (fun _ hmem => hmem) (fun _ hmem => hmem)
    (fun other hmem => ?_) (fun _ hmem => hmem) ?_
  · simp only [State.liveJobs, State.issue, State.emit, Task.jobs_submitReady,
      List.nil_append] at hmem
    simp only [State.liveJobs, htask, Task.jobs_executeSync, List.cons_append,
      List.nil_append, List.mem_cons]
    exact Or.inr hmem
  · rintro _ _ ⟨⟩
    exact answered_error _

end Submitting

/-! ### Helpers -/

/-- A helper comes to another stage, and apart from it only the log grows. -/
theorem Tracked.helped (htracked : Tracked chunks chunks base .empty state) {next : State}
    (hgrows : Grows chunks chunks state.log next.log)
    (hpendings : ∀ pending ∈ next.pendings, pending ∈ state.pendings)
    (hrx : next.rx = state.rx) (hjobs : next.liveJobs = state.liveJobs)
    (hinflight : next.inflight = state.inflight) : Tracked chunks chunks base .empty next :=
  htracked.same hgrows (fun msg hmem => by rwa [hrx] at hmem) hpendings
    (fun job hmem => by rwa [hjobs] at hmem) (fun entry hmem => by rwa [hinflight] at hmem)
    nothing_ending

/-- A helper that has nothing to open any more. -/
theorem mem_pendings_of_freed {index : ℕ} {helper : Helper} (hfree : helper.pendings = [])
    {pending : PendingOpen}
    (hmem : pending ∈ ({ state with helpers := state.helpers.set index helper } : State).pendings) :
    pending ∈ state.pendings := by
  rcases Invariant.mem_pendings_setHelper hmem with hnone | hold
  · rw [hfree] at hnone
    cases hnone
  · exact hold

theorem Tracked.helperOpened {ans : Answers} (htracked : Tracked chunks chunks base .empty state)
    {index : ℕ} {path : Path} {spec : OpenSpec} {pending : PendingOpen}
    (hget : state.helpers[index]? = some (.running (.openFile path spec pending))) :
    Tracked chunks chunks base .empty
      { (state.openFor ans path spec pending).2 with
        helpers := state.helpers.set index
          (.sending ⟨pending, (state.openFor ans path spec pending).1⟩) } := by
  have hgrows : Grows chunks chunks state.log (state.openFor ans path spec pending).2.log :=
    .of_chores (Chores.openFor path spec pending)
  generalize (state.openFor ans path spec pending).1 = result
  have hsnd := openFor_snd state ans path spec pending
  generalize (state.openFor ans path spec pending).2 = next at hgrows hsnd
  rw [hsnd] at hgrows ⊢
  refine htracked.helped hgrows (fun other hmem => ?_) rfl rfl rfl
  rcases Invariant.mem_pendings_setHelper hmem with hin | hold
  · exact Invariant.mem_pendings_of_helper hget
      (by simpa [Helper.pendings, HelperJob.pendings] using hin)
  · exact hold

/-! ### Every action -/

theorem Tracked.view (htracked : Tracked chunks chunks base .empty state) {next : State}
    (hview : next.view = state.view) : Tracked chunks chunks base .empty next := by
  simp only [State.view, View.mk.injEq] at hview
  obtain ⟨hrx, hqueue, hhelpers, hback, -, -, -, -, hinflight, hjobs, hrunning, hlog⟩ := hview
  have hpendings : next.pendings = state.pendings := by
    rw [State.pendings, State.pendings, hqueue, hhelpers, hback]
  have hlive : next.liveJobs = state.liveJobs := by
    rw [State.liveJobs, State.liveJobs, hrunning, hjobs, hinflight]
  refine htracked.helped ?_ (fun pending hmem => hpendings ▸ hmem) hrx hlive hinflight
  rw [hlog]
  exact .refl _ _ _

theorem Act.tracked {ans : Answers} (hsilent : ans.Silent) {hand hand' : Hand} {next : State}
    (hact : Act ans hand state hand' next) (hledger : hand.Ledger state)
    (hidle : ∀ id, (∀ op, ¬Sent base id op) → chunks id = [])
    (htracked : Tracked chunks chunks base hand state) :
    Tracked chunks chunks base hand' next := by
  cases hact with
  | still hview => exact htracked.view hview
  | sent msg hown => exact htracked.sent hidle hown
  | nop hrx =>
      exact htracked.takes hrx ((grows_received _ _).cons (answered_other rfl)) rfl rfl rfl
  | refused hrx htarget hbad =>
      exact htracked.takes hrx ((grows_received _ _).cons (answered_error _)) rfl rfl rfl
  | answered calls hrx htarget hclose hopen hcalls hresult hreply =>
      exact htracked.answered hledger calls hrx hcalls hreply
  | enqueued asks hrx htask htarget hclose hopen hhandle howned hstarts =>
      exact htracked.enqueued _ asks hrx htask hstarts
  | closeDeferred hrx hlookup hopen hbusy =>
      exact htracked.takes hrx (grows_received _ _) rfl rfl rfl
  | closeNow hrx hlookup hopen hidle => exact htracked.closeNow _ hrx
  | openedHere path spec after hrx htarget hfresh hafter =>
      exact htracked.openedHere path spec hrx hafter
  | sentOpen path spec after hrx htarget hafter => exact htracked.sentOpen path spec hrx hafter
  | cancelQueued hrx hfind => exact htracked.cancelQueued _ hrx
  | cancelInflight hrx hnone hget hid => exact htracked.cancelInflight _ _ hrx
  | cancelOpening hrx hnone hflying hpending =>
      exact htracked.takes hrx (grows_received _ _) rfl rfl rfl
  | cancelNothing hrx hnone hflying hpending =>
      exact htracked.takes hrx (grows_received _ _) rfl rfl rfl
  | openFailed =>
      exact htracked.same ((Grows.refl _ _ _).cons (answered_error _)) (fun _ hmem => hmem)
        (fun _ hmem => List.mem_cons_of_mem _ hmem) (fun _ hmem => hmem) (fun _ hmem => hmem)
        nothing_ending
  | @registered _ pending fd size =>
      have hgrows : Grows chunks chunks state.log (state.register fd size).2.log :=
        (Grows.refl _ _ _).cons trivial
      exact htracked.same (hgrows.cons (answered_other rfl)) (fun _ hmem => hmem)
        (fun _ hmem => List.mem_cons_of_mem _ hmem) (fun _ hmem => hmem) (fun _ hmem => hmem)
        nothing_ending
  | @enqueuedOwned _ pending fd size kind htask hhandle howned hfd hstarts =>
      obtain ⟨op, hsent, hafter, hnone⟩ := htracked.pendings pending List.mem_cons_self
      exact htracked.enqueue htask none pending.cb hsent (starts_of_after hafter hstarts) hnone
  | tookOpened hback hkept => exact htracked.tookOpened hback
  | openCancelled hback hcancelled => exact htracked.openCancelled hback
  | chunkFailed hpoint hget haio => exact htracked.chunkFailed _ hget
  | chunkReplied hget hstep hdone => exact absurd hdone (hsilent.aio _)
  | chunkFlagged hget hstep hflag hdone => exact absurd hdone (hsilent.aio _)
  | chunkRequeued htask hget hstep hflag hdone => exact absurd hdone (hsilent.aio _)
  | submitInflight htask hqueue => exact htracked.submitInflight htask hqueue
  | submitFull htask hqueue => exact htracked.submitFull htask hqueue
  | submitSync htask hqueue =>
      refine htracked.same (htracked.issued htask hqueue) (fun _ hmem => hmem)
        (fun _ hmem => hmem) (fun other hmem => ?_) (fun _ hmem => hmem) nothing_ending
      simpa [State.liveJobs, State.issue, State.emit, htask, hqueue, or_assoc] using hmem
  | submitFailed htask hqueue hfails => exact htracked.submitFailed _ htask hqueue
  | execFailed htask hfails => exact htracked.execFailed _ htask
  | execReplied htask hstep hdone => exact absurd hdone (hsilent.transfer _)
  | execAgain htask hstep hdone => exact absurd hdone (hsilent.transfer _)
  | ended => exact htracked.finish
  | helperTook hget hqueue =>
      exact htracked.helped (.refl _ _ _) (fun _ hmem => Invariant.mem_pendings_took hqueue hmem)
        rfl rfl rfl
  | helperExited hget =>
      exact htracked.helped (.refl _ _ _) (fun _ hmem => mem_pendings_of_freed rfl hmem)
        rfl rfl rfl
  | helperClosed hget =>
      exact htracked.helped ((Grows.refl _ _ _).cons trivial)
        (fun _ hmem => mem_pendings_of_freed (rfl : Helper.idle.pendings = []) hmem) rfl rfl rfl
  | helperOpened hget hfresh => exact htracked.helperOpened hget
  | helperSent hget =>
      exact htracked.helped (.refl _ _ _) (fun _ hmem => Invariant.mem_pendings_sent hget hmem)
        rfl rfl rfl

end Quiet

/-! ## Steps that take in a chunk -/

/-- A job in hand is all there is of its op. -/
theorem Consistent.alone {state : State} {job : Job} (hcons : Consistent [job] [] [] state) :
    (∀ id op cb, Msg.submit id op cb ∈ state.rx → id ≠ job.id) ∧
      (∀ pending ∈ state.pendings, pending.id ≠ job.id) ∧
      ∀ other ∈ state.liveJobs, other.id ≠ job.id := by
  have hle := hcons.count_callback_le job.id
  have hself : (cbWeights job.id).callback job.id = 1 := by simp [cbWeights]
  have hcb : job.cb = job.id := hcons.roleIds job.role List.mem_cons_self
  have hrole : (cbWeights job.id).role job.role = 1 := by
    simp [Weights.role, Job.role, cbWeights, hcb]
  simp only [State.roles_cons, ofList_cons, hrole, List.count_nil] at hle
  refine ⟨fun id op cb hmem hsame => ?_, fun pending hmem hsame => ?_, fun other hmem hsame => ?_⟩
  · have hmsg := weight_le_ofList (cbWeights job.id).msg hmem
    rw [hcons.rxCb id op cb hmem, hsame] at hmsg
    simp only [Weights.msg, hself] at hmsg
    simp only [State.held] at hle
    omega
  · have hheld := Consistent.one_le_held_of_pending hmem
    rw [(hcons.pendingIds pending hmem).1, hsame] at hheld
    omega
  · have hmemRole : other.role ∈ state.roles [] := List.mem_map_of_mem hmem
    have hother := weight_le_ofList (cbWeights job.id).role hmemRole
    have hown : other.cb = other.id :=
      hcons.roleIds other.role (List.mem_cons_of_mem _ hmemRole)
    simp only [Weights.role, Job.role, hown, hsame, hself] at hother
    omega

section Taking

variable {asked chunks : OpId → List Chunk} {base : List Event} {state : State}

/-- While a job is in hand, nothing else is about the chunks of its op. -/
theorem Tracked.credit {chunks' : OpId → List Chunk} {job : Job} {mid : State}
    (htracked : Tracked asked chunks base .empty mid) (hcons : Consistent [job] [] [] mid)
    (hothers : ∀ id, id ≠ job.id → chunks' id = chunks id)
    (hnews : Grows asked chunks' base mid.log) : Tracked asked chunks' base .empty mid := by
  obtain ⟨hrx, hpendings, hjobs⟩ := hcons.alone
  refine ⟨fun id op cb hmem => ?_, fun pending hmem => ?_, fun other hmem => ?_,
    htracked.aiocbs, fun _ _ hending => (by cases hending), hnews⟩
  · rw [hothers id (hrx id op cb hmem)]
    exact htracked.rx id op cb hmem
  · rw [hothers pending.id (hpendings pending hmem)]
    exact htracked.pendings pending hmem
  · rw [hothers other.id (hjobs other hmem)]
    exact htracked.jobs other hmem

/-- The chunk of a job in hand is accounted for. -/
theorem Tracked.absorb {ans : Answers} {transferred : Transferred} {job job' : Job}
    {reply : Option Outcome} {mid next : State} {call : Syscall} {earlier : List Chunk}
    (htracked : Tracked asked chunks base .empty mid)
    (hjob : ∃ op, Sent mid.log job.id op ∧ JobRun op earlier job.kind)
    (hasks : job.kind.Asks call) (hcb : job.cb = job.id)
    (hchunks : chunks job.id = ⟨call, transferred, ans.stat, ans.slack⟩ :: earlier)
    (hstep : mid.stepJob ans transferred job = (job', reply, next)) :
    Tracked asked chunks base .empty next ∧
      (∀ result, reply = some result → Answered next.log chunks job'.cb result) ∧
      (reply = none → ∃ op, Sent next.log job'.id op ∧ JobRun op (chunks job'.id) job'.kind) := by
  obtain ⟨op, hsent, hrun⟩ := hjob
  obtain ⟨hafter, hsame⟩ := after_of_stepJob call hstep
  have hid : job'.id = job.id := by rw [hsame]
  have hcb' : job'.cb = job.id := by rw [hsame, hcb]
  have hgrows : Grows asked chunks mid.log next.log := .of_chores (Chores.stepJob hstep)
  have hkept : Tracked asked chunks base .empty next := by
    have hstate := stepJob_state mid ans transferred job
    rw [hstep] at hstate
    rcases hstate with rfl | rfl
    · exact htracked
    · exact htracked.same hgrows (fun _ hmem => hmem) (fun _ hmem => hmem) (fun _ hmem => hmem)
        (fun _ hmem => hmem) (fun _ _ hending => by cases hending)
  refine ⟨hkept, ?_, ?_⟩
  · rintro result rfl other rfl _
    rw [hcb']
    exact ⟨op, hsent.mono hgrows.subset, Or.inr ⟨_, _, _, _, hchunks, hrun, hasks, hafter⟩⟩
  · rintro rfl
    rw [hid, hchunks]
    exact ⟨op, hsent.mono hgrows.subset, .more hrun hasks hafter⟩

theorem Tracked.reap {chunks' : OpId → List Chunk} {ans : Answers} {index : ℕ}
    {entry : Inflight} {transferred : Transferred}
    (htracked : Tracked asked chunks state.log .empty state) (hcons : Consistent [] [] [] state)
    (hget : state.inflight[index]? = some entry) (hdone : ans.aio = .done transferred)
    (hself : chunks' entry.job.id =
      ⟨entry.call, transferred, ans.stat, ans.slack⟩ :: chunks entry.job.id)
    (hothers : ∀ id, id ≠ entry.job.id → chunks' id = chunks id) :
    Tracked asked chunks' state.log .empty (state.reap ans index) := by
  have hmem := List.mem_of_getElem? hget
  have htaken : Consistent [entry.job] [] []
      { state with inflight := swapRemove state.inflight index, progress := true } :=
    hcons.takeInflight hget
  have hkept : ∀ other ∈ swapRemove state.inflight index, other ∈ state.inflight :=
    fun _ hother => mem_of_mem_swapRemove hget hother
  have hcredited : Tracked asked chunks' state.log .empty
      { state with inflight := swapRemove state.inflight index, progress := true } := by
    refine Tracked.credit ?_ htaken hothers (.refl _ _ _)
    refine htracked.same (.refl _ _ _) (fun _ hmem => hmem) (fun _ hmem => hmem) ?_ hkept
      (fun _ _ hending => by cases hending)
    intro job hjob
    simp only [State.liveJobs, List.mem_append, List.mem_map] at hjob ⊢
    rcases hjob with hold | ⟨other, hother, rfl⟩
    · exact Or.inl hold
    · exact Or.inr ⟨other, hkept other hother, rfl⟩
  have hjob : ∃ op, Sent state.log entry.job.id op ∧ JobRun op (chunks entry.job.id)
      entry.job.kind := by
    apply htracked.jobs
    simp only [State.liveJobs, List.mem_append, List.mem_map]
    exact Or.inr ⟨entry, hmem, rfl⟩
  have hasks : entry.job.kind.Asks entry.call := by
    rw [call_of_prepared (htracked.aiocbs entry hmem)]
    exact prepare_asks entry.job
  have hcb : entry.job.cb = entry.job.id := htaken.roleIds entry.job.role List.mem_cons_self
  unfold State.reap
  simp only [hget, hdone, State.advance]
  split
  · next hstep =>
      obtain ⟨hnext, hreply, -⟩ := hcredited.absorb hjob hasks hcb hself hstep
      refine Tracked.finish { hnext with ending := ?_ }
      rintro _ _ ⟨⟩
      exact hreply _ rfl
  · next hstep =>
      obtain ⟨hnext, -, hmore⟩ := hcredited.absorb hjob hasks hcb hself hstep
      split
      · refine Tracked.finish { hnext with ending := ?_ }
        rintro _ _ ⟨⟩
        exact answered_error _
      · refine { hnext with jobs := ?_ }
        intro other hother
        simp only [State.liveJobs, Task.jobs_submitReady, List.nil_append, List.cons_append,
          List.mem_cons] at hother
        rcases hother with rfl | hold
        · exact hmore rfl
        · apply hnext.jobs
          simp only [State.liveJobs, List.mem_append] at hold ⊢
          tauto

theorem Tracked.executeSync {chunks' : OpId → List Chunk} {ans : Answers} {job : Job}
    {transferred : Transferred} (htracked : Tracked chunks chunks state.log .empty state)
    (hcons : Consistent [] [] [] state) (htask : state.task = .executeSync job)
    (hdone : ans.transfer = .ok transferred)
    (hself : chunks' job.id =
      ⟨syncCall job, transferred, ans.stat, ans.slack⟩ :: chunks job.id)
    (hothers : ∀ id, id ≠ job.id → chunks' id = chunks id) :
    Tracked chunks chunks' state.log .empty (state.executeSync ans job) := by
  have hmem : job ∈ state.liveJobs := by simp [State.liveJobs, htask]
  have hissued : Grows chunks chunks' state.log (state.issue job.id job.fd (syncCall job)).log :=
    (Grows.refl _ _ _).cons (htracked.request hmem (syncCall_asks job))
  have hrole : job.role ∈ state.roles [] := List.mem_map_of_mem hmem
  have htaken : Consistent [job] [] []
      { state.issue job.id job.fd (syncCall job) with task := .submitReady } :=
    (hcons.issue job.id (syncCall job) (hcons.mem_openFds_of_role hrole)).takeTask htask rfl
  have hcredited : Tracked chunks chunks' state.log .empty
      { state.issue job.id job.fd (syncCall job) with task := .submitReady } := by
    refine Tracked.credit ?_ htaken hothers hissued
    refine htracked.same ((Grows.refl _ _ _).cons (htracked.request hmem (syncCall_asks job)))
      (fun _ hmem => hmem) (fun _ hmem => hmem) (fun other hother => ?_) (fun _ hmem => hmem)
      (fun _ _ hending => by cases hending)
    simp only [State.liveJobs, State.issue, State.emit, Task.jobs_submitReady,
      List.nil_append] at hother
    simp only [State.liveJobs, htask, Task.jobs_executeSync, List.cons_append,
      List.nil_append, List.mem_cons]
    exact Or.inr hother
  have hcb : job.cb = job.id := hcons.roleIds job.role hrole
  obtain ⟨op, hsent, hrun⟩ := htracked.jobs job hmem
  have hjob : ∃ op, Sent (state.issue job.id job.fd (syncCall job)).log job.id op ∧
      JobRun op (chunks job.id) job.kind := ⟨op, hsent.mono hissued.subset, hrun⟩
  unfold State.executeSync
  simp only [hdone]
  split
  · next hfails => cases hfails
  · next hok =>
      cases hok
      split
      · next hstep =>
          obtain ⟨hnext, hreply, -⟩ := hcredited.absorb hjob (syncCall_asks job) hcb hself
            (stepJob_retask .submitReady hstep)
          refine Tracked.finish { hnext with ending := ?_ }
          rintro _ _ ⟨⟩
          exact hreply _ rfl
      · next hstep =>
          obtain ⟨hnext, -, hmore⟩ := hcredited.absorb hjob (syncCall_asks job) hcb hself
            (stepJob_retask .submitReady hstep)
          refine { hnext with jobs := ?_ }
          intro other hother
          simp only [State.liveJobs, Task.jobs_executeSync, List.cons_append, List.nil_append,
            List.mem_cons] at hother
          rcases hother with rfl | hold
          · exact hmore rfl
          · apply hnext.jobs
            simp only [State.liveJobs, List.mem_append] at hold ⊢
            tauto

end Taking

/-! ## Along a run -/

/-- The answers with every completed chunk left out. -/
def Answers.quiet (ans : Answers) : Answers :=
  { ans with
    aio := match ans.aio with
      | .done _ => .inProgress
      | status => status
    transfer := ans.transfer.bind fun _ => .error .eintr }

theorem Answers.quiet_silent (ans : Answers) : ans.quiet.Silent where
  aio transferred := by
    cases haio : ans.aio <;> simp [Answers.quiet, haio]
  transfer transferred := by
    cases htransfer : ans.transfer <;> simp [Answers.quiet, htransfer, Except.bind]

/-- A step that takes in no chunk does not look whether one is complete. -/
theorem drive_quiet {state : State} {ans : Answers} (hnone : state.chunk? (.drive ans) = none) :
    state.drive ans.quiet = state.drive ans := by
  unfold State.drive
  cases htask : state.task with
  | submitReady => rfl
  | executeSync job =>
      cases htransfer : ans.transfer with
      | ok transferred => simp [State.chunk?, htask, htransfer] at hnone
      | error errno =>
          simp only [State.executeSync, Answers.quiet, htransfer]
          rfl
  | none =>
      cases hpoint : state.point with
      | reap index =>
          simp only
          cases hget : state.inflight[index]? with
          | none => simp only [State.reap, hget]
          | some entry =>
              cases haio : ans.aio with
              | done transferred => simp [State.chunk?, htask, hpoint, hget, haio] at hnone
              | inProgress => simp only [State.reap, hget, Answers.quiet, haio]
              | failed errno =>
                  simp only [State.reap, hget, Answers.quiet, haio]
                  rfl
      | head => rfl
      | suspend => rfl
      | drainRx => rfl
      | drainBack => rfl
      | submit => rfl
      | pace => rfl
      | returned => rfl

section Run

variable {state next : State} {label : Label} {record : List (OpId × Chunk)}

/-- A chunk comes from the call the thread makes, or from the entry it reaps. -/
theorem chunk_cases {mark : OpId × Chunk} (hchunk : state.chunk? label = some mark) :
    (∃ ans job transferred, label = .drive ans ∧ state.task = .executeSync job ∧
        ans.transfer = .ok transferred ∧
        mark = (job.id, ⟨syncCall job, transferred, ans.stat, ans.slack⟩)) ∨
      ∃ ans index entry transferred, label = .drive ans ∧ state.task = .none ∧
        state.point = .reap index ∧ state.inflight[index]? = some entry ∧
        ans.aio = .done transferred ∧
        mark = (entry.job.id, ⟨entry.call, transferred, ans.stat, ans.slack⟩) := by
  cases label with
  | submit id op => cases hchunk
  | requestCancel id => cases hchunk
  | dropSubmitters => cases hchunk
  | help index ans => cases hchunk
  | drive ans =>
      cases htask : state.task with
      | submitReady => simp [State.chunk?, htask] at hchunk
      | executeSync job =>
          cases htransfer : ans.transfer with
          | error errno => simp [State.chunk?, htask, htransfer] at hchunk
          | ok transferred =>
              simp only [State.chunk?, htask, htransfer, Option.some.injEq] at hchunk
              exact Or.inl ⟨ans, job, transferred, rfl, rfl, htransfer, hchunk.symm⟩
      | none =>
          cases hpoint : state.point with
          | reap index =>
              cases hget : state.inflight[index]? with
              | none => simp [State.chunk?, htask, hpoint, hget] at hchunk
              | some entry =>
                  cases haio : ans.aio with
                  | inProgress => simp [State.chunk?, htask, hpoint, hget, haio] at hchunk
                  | failed errno => simp [State.chunk?, htask, hpoint, hget, haio] at hchunk
                  | done transferred =>
                      simp only [State.chunk?, htask, hpoint, hget, haio,
                        Option.some.injEq] at hchunk
                      exact Or.inr ⟨ans, index, entry, transferred, rfl, rfl, rfl, hget, haio,
                        hchunk.symm⟩
          | head => simp [State.chunk?, htask, hpoint] at hchunk
          | suspend => simp [State.chunk?, htask, hpoint] at hchunk
          | drainRx => simp [State.chunk?, htask, hpoint] at hchunk
          | drainBack => simp [State.chunk?, htask, hpoint] at hchunk
          | submit => simp [State.chunk?, htask, hpoint] at hchunk
          | pace => simp [State.chunk?, htask, hpoint] at hchunk
          | returned => simp [State.chunk?, htask, hpoint] at hchunk

theorem Tracked.rebase {asked chunks : OpId → List Chunk} {base : List Event}
    (htracked : Tracked asked chunks base .empty state) :
    Tracked chunks chunks state.log .empty state :=
  { htracked with
    ending := fun _ _ hending => by cases hending
    news := .refl _ _ _ }

theorem Tracked.acts {chunks : OpId → List Chunk} {ans : Answers} (hsilent : ans.Silent)
    (hinv : Invariant state) (hacts : Acts ans .empty state next)
    (hidle : ∀ id, (∀ op, ¬Sent state.log id op) → chunks id = [])
    (htracked : Tracked chunks chunks state.log .empty state) :
    Tracked chunks chunks state.log .empty next := by
  have hkept : ∀ hand mid hand' after, hand.Ledger mid → Act ans hand mid hand' after →
      Tracked chunks chunks state.log hand mid → Tracked chunks chunks state.log hand' after :=
    fun hand mid hand' after hledger hact hmid => hact.tracked hsilent hledger hidle hmid
  exact hacts.keep hkept (.empty hinv.ledger) htracked

/-- One step: what is held keeps up with the chunks, and what is logged is lawful. -/
theorem Tracked.step (hinv : Invariant state)
    (hidle : ∀ id, (∀ op, ¬Sent state.log id op) → chunksOf record id = [])
    (htracked : Tracked (chunksOf record) (chunksOf record) state.log .empty state)
    (hstep : Darwin.step state label = some next) :
    Tracked (chunksOf record) (chunksOf ((state.chunk? label).toList ++ record)) state.log
      .empty next := by
  have hsilent := ({} : Answers).quiet_silent
  cases label with
  | submit id op =>
      simp only [Darwin.step] at hstep
      split at hstep
      · cases hstep
      · next hnew =>
          refine htracked.acts hsilent hinv (send_acts ?_ hstep) hidle
          rintro other op' cb hsame
          obtain ⟨rfl, -, rfl⟩ := Msg.submit.inj hsame
          exact ⟨rfl, hnew⟩
  | requestCancel id =>
      refine htracked.acts hsilent hinv (send_acts ?_ hstep) hidle
      rintro _ _ _ ⟨⟩
  | dropSubmitters =>
      obtain rfl := Option.some.inj hstep
      exact htracked.acts hsilent hinv (Act.single (.still (by rfl))) hidle
  | help index ans =>
      have hquiet : Darwin.step state (.help index ans.quiet) = some next := hstep
      exact htracked.acts ans.quiet_silent hinv (step_acts hinv hquiet) hidle
  | drive ans =>
      cases hchunk : state.chunk? (.drive ans) with
      | none =>
          have hquiet : Darwin.step state (.drive ans.quiet) = some next := by
            rw [← hstep]
            simp only [Darwin.step, drive_quiet hchunk]
            rfl
          exact htracked.acts ans.quiet_silent hinv (step_acts hinv hquiet) hidle
      | some mark =>
          have hothers : ∀ id, id ≠ mark.1 →
              chunksOf ((some mark).toList ++ record) id = chunksOf record id :=
            fun id hne => chunksOf_cons_ne hne mark.2 record
          have hself := chunksOf_cons_self mark.1 mark.2 record
          simp only [Darwin.step] at hstep
          split at hstep
          · rcases chunk_cases hchunk with ⟨ans, job, transferred, hlabel, htask, hdone, rfl⟩ |
              ⟨ans, index, entry, transferred, hlabel, htask, hpoint, hget, hdone, rfl⟩
            · obtain rfl := Label.drive.inj hlabel
              simp only [State.drive, htask, Option.some.injEq] at hstep
              subst hstep
              exact htracked.executeSync hinv.ledger htask hdone hself hothers
            · obtain rfl := Label.drive.inj hlabel
              simp only [State.drive, htask, hpoint, Option.some.injEq] at hstep
              subst hstep
              exact htracked.reap hinv.ledger hget hdone hself hothers
          · cases hstep

theorem sent_of_chunk
    (htracked : Tracked (chunksOf record) (chunksOf record) state.log .empty state)
    {mark : OpId × Chunk} (hchunk : state.chunk? label = some mark) :
    ∃ op, Sent state.log mark.1 op := by
  rcases chunk_cases hchunk with ⟨ans, job, transferred, -, htask, -, rfl⟩ |
    ⟨ans, index, entry, transferred, -, -, -, hget, -, rfl⟩
  · obtain ⟨op, hsent, -⟩ := htracked.jobs job (by simp [State.liveJobs, htask])
    exact ⟨op, hsent⟩
  · have hmem : entry.job ∈ state.liveJobs :=
      List.mem_append_right _ (List.mem_map_of_mem (List.mem_of_getElem? hget))
    obtain ⟨op, hsent, -⟩ := htracked.jobs entry.job hmem
    exact ⟨op, hsent⟩

/-- Along a run everything the driver holds keeps up with the chunks of its op. -/
theorem tracked_of_recorded (hrun : driver.Recorded State.chunk? state record) :
    Tracked (chunksOf record) (chunksOf record) state.log .empty state ∧
      ∀ id, (∀ op, ¬Sent state.log id op) → chunksOf record id = [] := by
  induction hrun with
  | init hinit =>
      obtain ⟨hardware, maxInflight, -, rfl⟩ := hinit
      refine ⟨⟨?_, ?_, ?_, ?_, ?_, .refl _ _ _⟩, fun _ _ => rfl⟩
      · rintro _ _ _ ⟨⟩
      · intro pending hmem
        simp [Hand.pendings, State.new, State.pendings, List.mem_flatMap, Helper.pendings] at hmem
      · rintro _ ⟨⟩
      · rintro _ ⟨⟩
      · rintro _ _ ⟨⟩
  | @step state next record label hrun hstep ih =>
      have hinv := Invariant.of_reachable hrun.reachable
      have hnext := Tracked.step hinv ih.2 ih.1 hstep
      refine ⟨hnext.rebase, fun id hnone => ?_⟩
      have hbefore : ∀ op, ¬Sent state.log id op := fun op hsent =>
        hnone op (hsent.mono hnext.news.subset)
      cases hchunk : state.chunk? label with
      | none => exact ih.2 id hbefore
      | some mark =>
          obtain ⟨op, hsent⟩ := sent_of_chunk ih.1 hchunk
          have hne : id ≠ mark.1 := by
            rintro rfl
            exact hbefore op hsent
          change chunksOf (mark :: record) id = []
          rw [chunksOf_cons_ne hne mark.2 record]
          exact ih.2 id hbefore

/-- The chunks of an op once a step is taken. -/
def chunksThen (state : State) (label : Label) (record : List (OpId × Chunk)) (id : OpId) :
    List Chunk :=
  chunksOf ((state.chunk? label).toList ++ record) id

/-- A step takes in one chunk of an op at most. -/
theorem mem_chunksThen {id : OpId} {chunk : Chunk} (hmem : chunk ∈ chunksOf record id) :
    chunk ∈ chunksThen state label record id := by
  obtain ⟨mark, hmark, hchunk⟩ := List.mem_map.mp hmem
  refine List.mem_map.mpr ⟨mark, ?_, hchunk⟩
  rw [List.mem_filter] at hmark ⊢
  exact ⟨List.mem_append_right _ hmark.1, hmark.2⟩

theorem chunksThen_eq_or_cons (state : State) (label : Label) (record : List (OpId × Chunk))
    (id : OpId) : chunksThen state label record id = chunksOf record id ∨
      ∃ chunk, chunksThen state label record id = chunk :: chunksOf record id := by
  unfold chunksThen
  cases state.chunk? label with
  | none => exact Or.inl rfl
  | some mark =>
      by_cases hid : id = mark.1
      · subst hid
        exact Or.inr ⟨mark.2, chunksOf_cons_self mark.1 mark.2 record⟩
      · exact Or.inl (chunksOf_cons_ne hid mark.2 record)

/-- What a step has logged. -/
def newEvents (state next : State) : List Event :=
  next.log.take (next.log.length - state.log.length)

/-- Every event a step logs is lawful. -/
theorem lawful_of_recorded (hrun : driver.Recorded State.chunk? state record)
    (hstep : Darwin.step state label = some next) {event : Event}
    (hevent : event ∈ newEvents state next) :
    Lawful next.log (chunksOf record) (chunksThen state label record) event := by
  obtain ⟨htracked, hidle⟩ := tracked_of_recorded hrun
  have hnext := Tracked.step (Invariant.of_reachable hrun.reachable) hidle htracked hstep
  obtain ⟨events, hlog, hlawful⟩ := hnext.news
  have hnew : newEvents state next = events := by
    rw [newEvents, hlog, List.length_append, Nat.add_sub_cancel]
    exact List.take_left
  exact hlawful event (hnew ▸ hevent)

/-- A request of a step is for the next chunk of the op's job. -/
theorem request_of_recorded (hrun : driver.Recorded State.chunk? state record)
    (hstep : Darwin.step state label = some next) {id : OpId} {op : Op}
    (hsent : Sent next.log id op) {fd : Fd} {call : Syscall}
    (hevent : .syscall id fd call ∈ newEvents state next) (htransfers : call.transfers = true) :
    ∃ kind, JobRun op (chunksOf record id) kind ∧ kind.Asks call := by
  have hinv := Invariant.of_reachable (hrun.reachable.next hstep)
  obtain ⟨other, kind, hother, hrest⟩ := lawful_of_recorded hrun hstep hevent htransfers
  obtain rfl := hsent.unique hother hinv.ledger.unique
  exact ⟨kind, hrest⟩

/-- A reply of a step about data was due without a job, or ends the op's job. -/
theorem reply_of_recorded (hrun : driver.Recorded State.chunk? state record)
    (hstep : Darwin.step state label = some next) {id : OpId} {op : Op}
    (hsent : Sent next.log id op) {reply : Reply}
    (hevent : .settled id (.ok reply) ∈ newEvents state next) (hmoves : Reply.moves reply = true) :
    (Op.answers op reply ∧ chunksThen state label record id = []) ∨
      Replied op (chunksThen state label record id) reply := by
  have hinv := Invariant.of_reachable (hrun.reachable.next hstep)
  obtain ⟨other, hother, hcases⟩ := lawful_of_recorded hrun hstep hevent reply rfl hmoves
  obtain rfl := hsent.unique hother hinv.ledger.unique
  exact hcases

end Run

end Turbofile.Darwin
