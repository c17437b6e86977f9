import Turbofile.Darwin.Yields

/-!
# One op at a time

With one op at a time the driver has at most a message or a job, and never a
backlog: it opens and closes on its own thread, and the helpers stay idle.
Here is what a step makes of the message or of the job.
-/

namespace Turbofile.Darwin

open Turbofile.Core
open Turbofile.Tally
open Turbofile.FileService
open State

/-! ## Open files in the log -/

def Event.calm : Event → Bool
  | .opened .. | .closed .. => false
  | .sent _ | .handled _ | .syscall .. | .registered .. | .settled .. => true

theorem nodeOf_append {events log : List Event} (hcalm : ∀ event ∈ events, event.calm = true)
    (fd : Fd) : nodeOf fd (events ++ log) = nodeOf fd log := by
  induction events with
  | nil => rfl
  | cons event events ih =>
      have hrest := ih fun other hmem => hcalm other (List.mem_cons_of_mem _ hmem)
      have hevent := hcalm event List.mem_cons_self
      rw [← hrest]
      cases event with
      | opened fd' path flags => cases hevent
      | closed fd' carriers => cases hevent
      | _ => rfl

/-- A descriptor with an open file is open. -/
theorem mem_openFds_of_nodeOf {fd : Fd} {log : List Event} {node : Node}
    (hnode : nodeOf fd log = some node) : fd ∈ openFds log := by
  induction log with
  | nil => cases hnode
  | cons event log ih =>
      cases event with
      | opened fd' path flags =>
          by_cases hsame : fd' = fd
          · rw [hsame]
            exact List.mem_cons_self
          · rw [nodeOf, if_neg hsame] at hnode
            exact List.mem_cons_of_mem _ (ih hnode)
      | closed fd' carriers =>
          by_cases hsame : fd' = fd
          · rw [nodeOf, if_pos hsame] at hnode
            cases hnode
          · rw [nodeOf, if_neg hsame] at hnode
            exact (List.mem_erase_of_ne (Ne.symm hsame)).mpr (ih hnode)
      | _ => exact ih hnode

/-! ## The one op -/

/-- The op the driver has: as a message, as a job, or not. -/
inductive Load
  | idle
  | message (id : OpId) (op : Op)
  | working (job : Job)

def Load.rx : Load → List Msg
  | .message id op => [.submit id op id]
  | .idle | .working _ => []

/-- A job is queued, with the kernel, or on the driver thread. -/
def Load.Placed (load : Load) (state : State) : Prop :=
  match load with
  | .idle | .message _ _ => state.queue = [] ∧ state.inflight = [] ∧ state.task.jobs = []
  | .working job =>
      (state.queue = [job] ∧ state.inflight = [] ∧ state.task = .submitReady) ∨
      (state.queue = [] ∧ state.inflight = [⟨(prepare job).1, job⟩] ∧ state.task.jobs = []) ∨
      (state.queue = [] ∧ state.inflight = [] ∧ state.task = .executeSync job)

/-- The driver has this op and no other, and its helpers are idle. -/
structure Alone (load : Load) (state : State) : Prop where
  submitters : state.submittersGone = false
  connected : state.disconnected = false
  helped : state.helpersGone = false
  helperQueue : state.helperQueue = []
  helpers : ∀ helper ∈ state.helpers, helper = .idle
  live : state.helpersLive = true
  back : state.back = []
  pendingOpens : state.pendingOpens = ∅
  room : 0 < state.maxInflight
  running : state.point ≠ .returned
  rx : state.rx = load.rx
  placed : load.Placed state

/-- An event of the calls a job makes. -/
def Event.routine : Event → Bool
  | .syscall .. | .handled _ => true
  | .sent _ | .opened .. | .closed .. | .registered .. | .settled .. => false

/-- No file has been opened or closed, and no callback has run. -/
structure Moved (state next : State) : Prop where
  files : next.files = state.files
  nextId : next.nextId = state.nextId
  log : ∃ events, next.log = events ++ state.log ∧ ∀ event ∈ events, event.routine = true

namespace Moved

variable {state mid next : State}

theorem same (hfiles : next.files = state.files) (hnextId : next.nextId = state.nextId)
    (hlog : next.log = state.log) : Moved state next := ⟨hfiles, hnextId, [], hlog, by simp⟩

theorem trans (hfirst : Moved state mid) (hsecond : Moved mid next) : Moved state next := by
  obtain ⟨events, hlog, hevents⟩ := hfirst.log
  obtain ⟨more, hmore, hroutine⟩ := hsecond.log
  refine ⟨hsecond.files.trans hfirst.files, hsecond.nextId.trans hfirst.nextId, more ++ events, ?_,
    fun event hmem => ?_⟩
  · rw [hmore, hlog, List.append_assoc]
  · rcases List.mem_append.mp hmem with hnew | hold
    · exact hroutine event hnew
    · exact hevents event hold

theorem issue (id : OpId) (fd : Fd) (call : Syscall) : Moved state (state.issue id fd call) :=
  ⟨rfl, rfl, [.syscall id fd call], rfl, fun event hmem => by
    rw [List.mem_singleton.mp hmem]
    rfl⟩

end Moved

namespace Alone

variable {state next : State} {load : Load} {ans : Answers}

theorem hasBacklog (halone : Alone .idle state) : state.hasBacklog = false := by
  simp [State.hasBacklog, halone.rx, Load.rx, halone.placed.1, halone.pendingOpens]

/-- The helpers have nothing to do. -/
theorem help (halone : Alone load state) (index : ℕ) : state.help ans index = none := by
  unfold State.help
  cases hget : state.helpers[index]? with
  | none => rfl
  | some helper =>
      obtain rfl := halone.helpers helper (List.mem_of_getElem? hget)
      simp only [halone.helperQueue, if_neg halone.running]

/-- A wait with nothing in flight ends with a message only. -/
theorem waitIdle (halone : Alone load state) (hwait : state.waitIdle ans = some next) :
    ∃ msg rx, state.rx = msg :: rx ∧ next = ({ state with rx := rx }).handleMsg ans msg := by
  have hlive := halone.live
  have hconnected : ¬state.disconnected = true := by simp [halone.connected]
  have hhelped : ¬state.helpersGone = true := by simp [halone.helped]
  unfold State.waitIdle at hwait
  rw [if_neg hconnected, if_neg hhelped] at hwait
  cases hwake : ans.wake with
  | msg =>
      simp only [hwake] at hwait
      split at hwait
      · cases hwait
      · next msg rx hrx => exact ⟨msg, rx, hrx, (Option.some.inj hwait).symm⟩
  | opened => simp [hwake, halone.back] at hwait
  | submittersGone => simp [hwake, halone.submitters] at hwait
  | helpersGone => simp [hwake, hlive] at hwait

/-- With no message and no request to look at, the thread goes round its loop. -/
theorem drive_round (halone : Alone load state) (htask : state.task = .none)
    (hhead : state.point = .head → (state.inflight.isEmpty && state.queue.isEmpty) = false)
    (hreap : ∀ index, state.point = .reap index → state.inflight[index]? = none)
    (hrx : state.point = .drainRx → state.rx = []) (hdrive : state.drive ans = some next) :
    ∃ task point suspendNs progress, task.jobs = [] ∧ point ≠ .returned ∧ next = { state with
      task := task, point := point, suspendNs := suspendNs, progress := progress } := by
  have hjobs : state.task.jobs = [] := by rw [htask, Task.jobs_none]
  unfold State.drive at hdrive
  simp only [htask] at hdrive
  split at hdrive
  · next hpoint =>
      have hbusy : ¬(state.inflight.isEmpty && state.queue.isEmpty) = true := by simp [hhead hpoint]
      rw [if_neg hbusy] at hdrive
      exact ⟨.none, .suspend, _, _, rfl, (by simp), (Option.some.inj hdrive).symm⟩
  · split at hdrive
    · exact ⟨.none, .drainRx, _, _, rfl, (by simp), (Option.some.inj hdrive).symm⟩
    · exact ⟨.none, .reap 0, _, _, rfl, (by simp), (Option.some.inj hdrive).symm⟩
  · next index hpoint =>
      simp only [State.reap, hreap index hpoint] at hdrive
      exact ⟨state.task, .drainRx, _, _, hjobs, (by simp), (Option.some.inj hdrive).symm⟩
  · next hpoint =>
      have hmore : (state.disconnected || state.submittersGone) = state.disconnected := by
        simp [halone.submitters]
      simp only [State.drainRx, hrx hpoint, hmore] at hdrive
      exact ⟨state.task, .drainBack, _, _, hjobs, (by simp), by
        rw [← Option.some.inj hdrive, hrx hpoint]⟩
  · simp only [State.drainBack, halone.back, halone.live, if_true] at hdrive
    exact ⟨state.task, .submit, _, _, hjobs, (by simp), by
      rw [← Option.some.inj hdrive, halone.back]⟩
  · exact ⟨.submitReady, .pace, _, _, rfl, (by simp), (Option.some.inj hdrive).symm⟩
  · exact ⟨.none, .head, _, false, rfl, (by simp), (Option.some.inj hdrive).symm⟩
  · cases hdrive

/-- With no job the thread goes round its loop, or handles the message. -/
theorem drive_unloaded (halone : Alone load state) (hjob : ∀ job, load ≠ .working job)
    (hdrive : state.drive ans = some next) :
    (Alone load next ∧ Moved state next ∧ (state.task = .none → state.handles = none)) ∨
      ∃ msg rx point, state.rx = msg :: rx ∧ state.task = .none ∧ point ≠ .returned ∧
        (state.point = .head ∨ state.point = .drainRx) ∧
        next = ({ state with rx := rx, point := point }).handleMsg ans msg := by
  have hplaced : state.queue = [] ∧ state.inflight = [] ∧ state.task.jobs = [] := by
    have hsome := halone.placed
    cases load with
    | working job => exact absurd rfl (hjob job)
    | idle => exact hsome
    | message id op => exact hsome
  obtain ⟨hqueue, hinflight, htask⟩ := hplaced
  have hkept : ∀ task point, task.jobs = [] → point ≠ .returned → ∀ suspendNs progress,
      Alone load { state with
        task := task, point := point, suspendNs := suspendNs, progress := progress } := by
    intro task point htask hpoint suspendNs progress
    refine { halone with running := hpoint, placed := ?_ }
    cases load with
    | working job => exact absurd rfl (hjob job)
    | idle => exact ⟨hqueue, hinflight, htask⟩
    | message id op => exact ⟨hqueue, hinflight, htask⟩
  cases htaskIs : state.task with
  | executeSync job =>
      rw [htaskIs] at htask
      cases htask
  | submitReady =>
      have hroom : state.inflight.length < state.maxInflight := by
        rw [hinflight]
        exact halone.room
      simp only [State.drive, htaskIs, State.submitReady, if_pos hroom, hqueue] at hdrive
      left
      rw [← Option.some.inj hdrive, ← hqueue]
      exact ⟨hkept .none state.point rfl halone.running state.suspendNs state.progress,
        .same rfl rfl rfl, fun hnone => by cases hnone⟩
  | none =>
      by_cases hhead : state.point = .head
      · have hempty : (state.inflight.isEmpty && state.queue.isEmpty) = true := by
          simp [hqueue, hinflight]
        have hconnected : ¬(state.disconnected && decide (state.pendingOpens = ∅)) = true := by
          simp [halone.connected]
        unfold State.drive at hdrive
        simp only [htaskIs, hhead] at hdrive
        rw [if_pos hempty, if_neg hconnected] at hdrive
        obtain ⟨msg, rx, hrx, rfl⟩ := (hkept .none .suspend rfl (by simp) state.suspendNs
          state.progress).waitIdle hdrive
        exact .inr ⟨msg, rx, .suspend, hrx, rfl, (by simp), .inl hhead, rfl⟩
      · by_cases hmessage : state.point = .drainRx ∧ state.rx ≠ []
        · obtain ⟨hpoint, hsome⟩ := hmessage
          obtain ⟨msg, rx, hrx⟩ := List.exists_cons_of_ne_nil hsome
          simp only [State.drive, htaskIs, hpoint, State.drainRx, hrx] at hdrive
          exact .inr ⟨msg, rx, .drainRx, hrx, rfl, (by simp), .inr hpoint,
            (Option.some.inj hdrive).symm⟩
        · obtain ⟨task, point, suspendNs, progress, hjobs, hpoint, rfl⟩ :=
            halone.drive_round htaskIs
              (fun hpoint => absurd hpoint hhead) (fun index hpoint => by simp [hinflight])
              (fun hpoint => by_contra fun hsome => hmessage ⟨hpoint, hsome⟩) hdrive
          refine .inl ⟨hkept task point hjobs hpoint suspendNs progress, .same rfl rfl rfl,
            fun _ => ?_⟩
          unfold State.handles
          split
          · next hrx =>
              split
              · next hpoint => exact absurd hpoint hhead
              · next hpoint =>
                  exact absurd ⟨hpoint, by rw [hrx]; exact List.cons_ne_nil _ _⟩ hmessage
              · rfl
          · rfl

/-- What becomes of the op is not in the calls that are made for it. -/
theorem issue (halone : Alone load state) (id : OpId) (fd : Fd) (call : Syscall) :
    Alone load (state.issue id fd call) where
  submitters := halone.submitters
  connected := halone.connected
  helped := halone.helped
  helperQueue := halone.helperQueue
  helpers := halone.helpers
  live := halone.live
  back := halone.back
  pendingOpens := halone.pendingOpens
  room := halone.room
  running := halone.running
  rx := halone.rx
  placed := by cases load <;> exact halone.placed

end Alone

/-! ## A step of the job -/

section Working

variable {kernel : Kernel} {node : Node} {disk disk' after : Disk} {outcome : Outcome}
  {state next : State} {job : Job} {ans : Answers}

/-- The job goes on, or it ends with its outcome. -/
inductive Works (kernel : Kernel) (node : Node) (outcome : Outcome) (after : Disk) (job : Job)
    (disk' : Disk) (state next : State) : Prop
  | goesOn (job' : Job) (hrole : job'.role = job.role) (hcancelled : job'.cancelled = false)
      (halone : Alone (.working job') next) (hmoved : Moved state next)
      (hyields : Yields kernel node disk' job'.kind outcome after)
  | finishes (base : State) (job' : Job) (ans : Answers) (hrole : job'.role = job.role)
      (halone : Alone .idle base) (hmoved : Moved state base) (hdisk : disk' = after)
      (hnext : next = base.finish ans job' outcome)

/-- A chunk from a kernel with the disk. -/
inductive Absorbs (kernel : Kernel) (node : Node) (outcome : Outcome) (after : Disk) (job : Job)
    (disk' : Disk) (ans : Answers) (state : State) : Prop
  | fails (errno : Errno) (haio : ans.aio = .failed errno) (htransfer : ans.transfer = .error errno)
      (houtcome : outcome = .error (.os errno)) (hdisk : disk' = after)
  | ends (transferred : Transferred) (job' : Job) (mid : State) (haio : ans.aio = .done transferred)
      (htransfer : ans.transfer = .ok transferred)
      (hstep : state.stepJob ans transferred job = (job', some outcome, mid))
      (hdisk : disk' = after)
  | goesOn (transferred : Transferred) (job' : Job) (mid : State)
      (haio : ans.aio = .done transferred) (htransfer : ans.transfer = .ok transferred)
      (hstep : state.stepJob ans transferred job = (job', none, mid))
      (hyields : Yields kernel node disk' job'.kind outcome after)

theorem absorbs (hyields : Yields kernel node disk job.kind outcome after) {call : Syscall}
    (hasks : job.kind.Asks call) (hans : chunkAnswers kernel node job.kind call disk = (ans, disk'))
    (state : State) : Absorbs kernel node outcome after job disk' ans state := by
  have hsteps : ∀ transferred, ∃ job' reply mid, state.stepJob ans transferred job =
      (job', reply, mid) ∧
      job.kind.after ⟨call, transferred, ans.stat, ans.slack⟩ = (job'.kind, reply) := by
    intro transferred
    obtain ⟨job', reply, mid, hstep⟩ : ∃ job' reply mid,
        state.stepJob ans transferred job = (job', reply, mid) := ⟨_, _, _, rfl⟩
    exact ⟨job', reply, mid, hstep, (after_of_stepJob call hstep).1⟩
  unfold chunkAnswers at hans
  cases hyields with
  | fails hcall =>
      rw [hcall call hasks] at hans
      obtain ⟨rfl, rfl⟩ := Prod.mk.inj hans
      exact .fails _ rfl rfl rfl rfl
  | ends transferred hcall hafter =>
      rw [hcall call hasks] at hans
      obtain ⟨job', reply, mid, hstep, hkind⟩ := hsteps transferred
      obtain ⟨rfl, rfl⟩ := Prod.mk.inj hans
      obtain rfl : reply = some outcome := (congrArg Prod.snd hkind).symm.trans (hafter call)
      exact .ends transferred job' mid rfl rfl hstep rfl
  | more kind' transferred hcall hafter hrest =>
      rw [hcall call hasks] at hans
      obtain ⟨job', reply, mid, hstep, hkind⟩ := hsteps transferred
      obtain ⟨rfl, rfl⟩ := Prod.mk.inj hans
      obtain ⟨rfl, rfl⟩ := Prod.mk.inj (hkind.symm.trans (hafter call))
      exact .goesOn transferred job' mid rfl rfl hstep hrest

/-- What a step of a job changes of the state and of the job. -/
theorem stepJob_moved {job' : Job} {transferred : Transferred} {reply : Option Outcome}
    (hstep : state.stepJob ans transferred job = (job', reply, next)) :
    job'.role = job.role ∧ job'.cancelled = job.cancelled ∧ Moved state next ∧
      ∀ load, Alone load state → Alone load next := by
  have hrole := stepJob_role state ans transferred job
  have hstate := stepJob_state state ans transferred job
  have hsame := (after_of_stepJob .fstat hstep).2
  rw [hstep] at hrole hstate
  refine ⟨hrole, by rw [hsame], ?_⟩
  rcases hstate with rfl | rfl
  · exact ⟨.same rfl rfl rfl, fun load halone => halone⟩
  · exact ⟨.issue _ _ _, fun load halone => halone.issue _ _ _⟩

/-- Without the job nothing is left to do. -/
theorem Alone.emptied (halone : Alone (.working job) state) {task : Task} (htask : task.jobs = [])
    (progress : Bool) : Alone .idle { state with
      queue := [], inflight := [], task := task, progress := progress } where
  submitters := halone.submitters
  connected := halone.connected
  helped := halone.helped
  helperQueue := halone.helperQueue
  helpers := halone.helpers
  live := halone.live
  back := halone.back
  pendingOpens := halone.pendingOpens
  room := halone.room
  running := halone.running
  rx := halone.rx
  placed := ⟨rfl, rfl, htask⟩

/-- A job put where the thread goes on with it. -/
theorem Alone.resumed (halone : Alone .idle state) (job : Job) :
    Alone (.working job) { state with queue := job :: state.queue, task := .submitReady } ∧
      Alone (.working job) { state with task := .executeSync job } := by
  obtain ⟨hqueue, hinflight, -⟩ := halone.placed
  constructor
  · exact { halone with
      placed := .inl ⟨congrArg (job :: ·) hqueue, hinflight, rfl⟩ }
  · exact { halone with
      placed := .inr (.inr ⟨hqueue, hinflight, rfl⟩) }

/-- One round of `execute_sync`. -/
theorem works_executeSync (halone : Alone (.working job) state) (hqueue : state.queue = [])
    (hinflight : state.inflight = []) (hcancelled : job.cancelled = false)
    (hyields : Yields kernel node disk job.kind outcome after)
    (hans : chunkAnswers kernel node job.kind (syncCall job) disk = (ans, disk')) :
    Works kernel node outcome after job disk' state (state.executeSync ans job) := by
  have hempty : Alone .idle
      { state.issue job.id job.fd (syncCall job) with task := .submitReady } := by
    have hemptied := (halone.issue job.id job.fd (syncCall job)).emptied
      (show Task.submitReady.jobs = [] from rfl) state.progress
    have hsame : (state.issue job.id job.fd (syncCall job)).queue = [] := hqueue
    have hnone : (state.issue job.id job.fd (syncCall job)).inflight = [] := hinflight
    rw [← hsame, ← hnone] at hemptied
    exact hemptied
  have hmoved : Moved state
      { state.issue job.id job.fd (syncCall job) with task := .submitReady } :=
    (Moved.issue job.id job.fd (syncCall job)).trans (.same rfl rfl rfl)
  unfold State.executeSync
  rcases absorbs hyields (syncCall_asks job) hans (state.issue job.id job.fd (syncCall job)) with
    ⟨errno, haio, htransfer, rfl, hdisk⟩ | ⟨transferred, job', mid, haio, htransfer, hstep, hdisk⟩ |
    ⟨transferred, job', mid, haio, htransfer, hstep, hrest⟩
  · simp only [htransfer, osResult, Except.mapError]
    exact .finishes _ job ans rfl hempty hmoved hdisk rfl
  · obtain ⟨hrole, -, hstepped, hkept⟩ := stepJob_moved (stepJob_retask .submitReady hstep)
    simp only [htransfer, osResult, Except.mapError, hstep]
    exact .finishes _ job' ans hrole (hkept _ hempty) (hmoved.trans hstepped) hdisk rfl
  · obtain ⟨hrole, hsame, hstepped, hkept⟩ := stepJob_moved (stepJob_retask .submitReady hstep)
    simp only [htransfer, osResult, Except.mapError, hstep]
    exact .goesOn job' hrole (hsame.trans hcancelled) ((hkept _ hempty).resumed job').2
      ((hmoved.trans hstepped).trans (.same rfl rfl rfl)) hrest

/-- `reap` at a request that is completed, or has failed. -/
theorem works_reap (halone : Alone (.working job) state) (hqueue : state.queue = [])
    (hinflight : state.inflight = [⟨(prepare job).1, job⟩]) (htask : state.task.jobs = [])
    (hcancelled : job.cancelled = false) (hyields : Yields kernel node disk job.kind outcome after)
    (hans : chunkAnswers kernel node job.kind (prepare job).2 disk = (ans, disk')) :
    Works kernel node outcome after job disk' state (state.reap ans 0) := by
  have hentry : state.inflight[0]? = some ⟨(prepare job).1, job⟩ := by rw [hinflight]; rfl
  have hswap : swapRemove state.inflight 0 = [] := by rw [hinflight]; rfl
  have hempty : Alone .idle { state with
      inflight := swapRemove state.inflight 0, progress := true } := by
    have hemptied := halone.emptied htask true
    rw [← hqueue, ← hswap] at hemptied
    exact hemptied
  unfold State.reap
  simp only [hentry]
  rcases absorbs hyields (prepare_asks job) hans { state with
    inflight := swapRemove state.inflight 0, progress := true } with
    ⟨errno, haio, htransfer, rfl, hdisk⟩ | ⟨transferred, job', mid, haio, htransfer, hstep, hdisk⟩ |
    ⟨transferred, job', mid, haio, htransfer, hstep, hrest⟩
  · simp only [haio]
    exact .finishes _ job ans rfl hempty (.same rfl rfl rfl) hdisk rfl
  · obtain ⟨hrole, -, hstepped, hkept⟩ := stepJob_moved hstep
    simp only [haio, State.advance, hstep]
    exact .finishes _ job' ans hrole (hkept _ hempty)
      ⟨hstepped.files, hstepped.nextId, hstepped.log⟩ hdisk rfl
  · obtain ⟨hrole, hsame, hstepped, hkept⟩ := stepJob_moved hstep
    have hgoes : ¬job'.cancelled = true := by simp [hsame, hcancelled]
    simp only [haio, State.advance, hstep, if_neg hgoes]
    exact .goesOn job' hrole (hsame.trans hcancelled) ((hkept _ hempty).resumed job').1
      ⟨hstepped.files, hstepped.nextId, hstepped.log⟩ hrest

/-- A request is refused when it would fail. -/
theorem requestAnswers_error {choice : Choice} {call : Syscall} {errno : Errno}
    (hans : requestAnswers kernel choice node job.kind call disk = ans)
    (hsubmitted : ans.submitted = .error errno) (hother : errno ≠ .eagain) :
    transfer kernel node call job.kind.payload disk = .error errno := by
  rw [← hans, requestAnswers] at hsubmitted
  split at hsubmitted
  · exact absurd (Except.error.inj hsubmitted).symm hother
  · split at hsubmitted
    · next failed hfailed =>
        split at hsubmitted
        · rw [hfailed, Except.error.inj hsubmitted]
        · cases hsubmitted
    · cases hsubmitted

/-- `submit_ready` with the job in the queue. -/
theorem works_submit {choice : Choice} (halone : Alone (.working job) state)
    (hqueue : state.queue = [job]) (hinflight : state.inflight = [])
    (htask : state.task = .submitReady) (hcancelled : job.cancelled = false)
    (hyields : Yields kernel node disk job.kind outcome after)
    (hans : requestAnswers kernel choice node job.kind (prepare job).2 disk = ans) :
    Works kernel node outcome after job disk state (state.submitReady ans) := by
  obtain ⟨base, hbase⟩ : ∃ base, ({ state with queue := [] } : State).issue job.id job.fd
      (prepare job).2 = base := ⟨_, rfl⟩
  have hroom : state.inflight.length < state.maxInflight := by
    rw [hinflight]
    exact halone.room
  have hempty : Alone .idle base := by
    have hemptied := (halone.emptied (show state.task.jobs = [] by rw [htask]; rfl)
      state.progress).issue job.id job.fd (prepare job).2
    rw [← hinflight] at hemptied
    rw [← hbase]
    exact hemptied
  have hmoved : Moved state base := by
    have hissued : Moved state (state.issue job.id job.fd (prepare job).2) := .issue _ _ _
    rw [← hbase]
    exact ⟨hissued.files, hissued.nextId, hissued.log⟩
  have hnone : base.inflight = [] := hempty.placed.2.1
  unfold State.submitReady
  rw [if_pos hroom]
  split
  · next hnil =>
      rw [hqueue] at hnil
      cases hnil
  · next job' queue hcons =>
      obtain ⟨rfl, rfl⟩ := List.cons.inj (hqueue.symm.trans hcons)
      simp only [hbase]
      split
      · refine .goesOn job rfl hcancelled ?_ ⟨hmoved.files, hmoved.nextId, hmoved.log⟩ hyields
        exact { hempty with
          placed := .inr (.inl ⟨hempty.placed.1, congrArg (· ++ [_]) hnone, hempty.placed.2.2⟩) }
      · have hidle : base.inflight.isEmpty = true := by simp [hnone]
        rw [if_pos hidle]
        exact .goesOn job rfl hcancelled (hempty.resumed job).2
          ⟨hmoved.files, hmoved.nextId, hmoved.log⟩ hyields
      · next errno hother hsubmitted =>
          have hfails := requestAnswers_error hans hsubmitted fun hsame => hother hsame
          cases hyields with
          | fails hcall =>
              obtain rfl := Except.error.inj ((hcall _ (prepare_asks job)).symm.trans hfails)
              exact .finishes base job ans rfl hempty hmoved rfl rfl
          | ends transferred hcall hafter =>
              cases (hcall _ (prepare_asks job)).symm.trans hfails
          | more kind' transferred hcall hafter hrest =>
              cases (hcall _ (prepare_asks job)).symm.trans hfails

/-- A step that handles no message and looks at no request leaves the disk. -/
theorem answers_disk (choice : Choice) (hhandles : state.task = .none → state.handles = none)
    (hqueue : state.queue = []) (htask : state.task.jobs = [])
    (hreap : ∀ index, state.task = .none → state.point = .reap index →
      state.inflight[index]? = none) :
    (state.answers kernel choice disk).2 = disk := by
  unfold State.answers
  split
  · next job hsync =>
      rw [hsync] at htask
      cases htask
  · split
    · rfl
    · next hsome =>
        rw [hqueue] at hsome
        cases hsome
  · next hnone =>
      split
      · next index hpoint => simp only [hreap index hnone hpoint]
      · simp only [hhandles hnone]

/-- The calls of a step that handles a message. -/
theorem answers_handles (choice : Choice) {op : Op} (htask : state.task = .none)
    (hhandles : state.handles = some op) :
    state.answers kernel choice disk =
      ({ (opAnswers kernel choice op
          ((named op).bind fun handle => state.nodeFor handle) disk).1 with
        wake := choice.wake },
        (opAnswers kernel choice op
          ((named op).bind fun handle => state.nodeFor handle) disk).2) := by
  unfold State.answers
  simp only [htask]
  split
  · next index hpoint =>
      unfold State.handles at hhandles
      split at hhandles
      · simp only [hpoint] at hhandles
        cases hhandles
      · cases hhandles
  · simp only [hhandles]

/-- A step of the driver thread with a job. -/
theorem Alone.drive_working {choice : Choice} (halone : Alone (.working job) state)
    (hnode : nodeOf job.fd state.log = some node) (hcancelled : job.cancelled = false)
    (hyields : Yields kernel node disk job.kind outcome after)
    (hans : state.answers kernel choice disk = (ans, disk'))
    (hdrive : state.drive ans = some next) :
    Works kernel node outcome after job disk' state next := by
  have hstays : ∀ task point, task.jobs = [] → point ≠ .returned → ∀ suspendNs progress,
      state.queue = [] → state.inflight = [⟨(prepare job).1, job⟩] →
      Works kernel node outcome after job disk state { state with
        task := task, point := point, suspendNs := suspendNs, progress := progress } :=
    fun task point htask hpoint suspendNs progress hqueue hinflight =>
      .goesOn job rfl hcancelled { halone with
        running := hpoint
        placed := .inr (.inl ⟨hqueue, hinflight, htask⟩) } (.same rfl rfl rfl) hyields
  have hrx : state.rx = [] := halone.rx
  have hhandles : state.handles = none := by simp [State.handles, hrx]
  rcases halone.placed with ⟨hqueue, hinflight, htask⟩ | ⟨hqueue, hinflight, htask⟩ |
    ⟨hqueue, hinflight, htask⟩
  · unfold State.drive at hdrive
    unfold State.answers at hans
    simp only [htask, hqueue, hnode] at hans
    simp only [htask] at hdrive
    obtain ⟨hanswers, rfl⟩ := Prod.mk.inj hans
    obtain rfl := Option.some.inj hdrive
    exact works_submit halone hqueue hinflight htask hcancelled hyields hanswers
  · by_cases hreap : state.task = .none ∧ state.point = .reap 0
    · obtain ⟨hnone, hpoint⟩ := hreap
      have hentry : state.inflight[0]? = some ⟨(prepare job).1, job⟩ := by rw [hinflight]; rfl
      have hcall : Inflight.call ⟨(prepare job).1, job⟩ = (prepare job).2 := call_of_prepared rfl
      simp only [State.answers, hnone, hpoint, hentry, hnode, hcall] at hans
      simp only [State.drive, hnone, hpoint] at hdrive
      obtain rfl := Option.some.inj hdrive
      split at hans
      · exact works_reap halone hqueue hinflight htask hcancelled hyields hans
      · obtain ⟨rfl, rfl⟩ := Prod.mk.inj hans
        simp only [State.reap, hentry]
        exact hstays state.task (.reap 1) htask (by simp) state.suspendNs state.progress hqueue
          hinflight
    · have hlater : ∀ index, state.task = .none → state.point = .reap index →
          state.inflight[index]? = none := by
        intro index hnone hpoint
        cases index with
        | zero => exact absurd ⟨hnone, hpoint⟩ hreap
        | succ index =>
            rw [hinflight]
            rfl
      cases htaskIs : state.task with
      | executeSync job' =>
          rw [htaskIs] at htask
          cases htask
      | submitReady =>
          have hsame : disk' = disk := by
            simp only [State.answers, htaskIs, hqueue] at hans
            exact (congrArg Prod.snd hans).symm
          subst hsame
          have hnext : next = { state with task := .none } := by
            simp only [State.drive, htaskIs, State.submitReady, hqueue, ite_self] at hdrive
            rw [← Option.some.inj hdrive, ← hqueue]
          rw [hnext]
          exact hstays .none state.point rfl halone.running state.suspendNs state.progress hqueue
            hinflight
      | none =>
          have hsame : disk' = disk := (congrArg Prod.snd hans).symm.trans
            (answers_disk choice (fun _ => hhandles) hqueue htask hlater)
          subst hsame
          obtain ⟨task, point, suspendNs, progress, hjobs, hpoint, rfl⟩ :=
            halone.drive_round htaskIs (fun _ => by simp [hinflight])
              (fun index => hlater index htaskIs) (fun _ => hrx) hdrive
          exact hstays task point hjobs hpoint suspendNs progress hqueue hinflight
  · unfold State.drive at hdrive
    unfold State.answers at hans
    simp only [htask, hnode] at hans
    simp only [htask] at hdrive
    obtain rfl := Option.some.inj hdrive
    exact works_executeSync halone hqueue hinflight hcancelled hyields hans

end Working

end Turbofile.Darwin
