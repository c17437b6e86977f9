import Turbofile.Darwin.Flags

/-!
# An op that has been cancelled asks for no more

Once the cancel request of an op is handled, no queue holds a job of it, its
entry in flight is flagged and its open is noted.  Every action keeps this and
makes no call for the op that moves data.
-/

namespace Turbofile.Darwin

open Turbofile.Core
open Turbofile.Tally
open Turbofile.Logs
open State

/-- Nothing the driver holds leads to another transfer for the op. -/
structure Stopped (id : OpId) (hand : Hand) (state : State) : Prop where
  submitted : id ∈ submittedIds state.log
  absent : ∀ op cb, Msg.submit id op cb ∉ state.rx
  idle : ∀ job ∈ state.queue ++ state.task.jobs, job.id ≠ id
  flagged : ∀ entry ∈ state.inflight, entry.job.id = id → entry.job.cancelled = true
  noted : ∀ pending ∈ state.pendings, pending.id = id → id ∈ state.cancelledOpens
  opening : ∀ pending result, hand = .opening pending result → pending.id ≠ id

/-- The log has grown without a transfer for the op. -/
def Rests (id : OpId) (log grown : List Event) : Prop :=
  ∃ events, grown = events ++ log ∧
    ∀ fd call, Event.syscall id fd call ∈ events → call.transfers = false

namespace Rests

variable {id other : OpId} {log mid grown : List Event}

theorem refl (id : OpId) (log : List Event) : Rests id log log := ⟨[], rfl, by simp⟩

theorem trans (hfirst : Rests id log mid) (hsecond : Rests id mid grown) : Rests id log grown := by
  obtain ⟨front, rfl, hfront⟩ := hfirst
  obtain ⟨back, rfl, hback⟩ := hsecond
  refine ⟨back ++ front, by rw [List.append_assoc], fun fd call hmem => ?_⟩
  exact (List.mem_append.mp hmem).elim (hback fd call) (hfront fd call)

theorem cons (hrests : Rests id log grown) {event : Event}
    (hevent : ∀ fd call, event = .syscall id fd call → call.transfers = false) :
    Rests id log (event :: grown) := by
  refine hrests.trans ⟨[event], rfl, fun fd call hmem => ?_⟩
  exact hevent fd call (List.mem_singleton.mp hmem).symm

theorem one {event : Event}
    (hevent : ∀ fd call, event = .syscall id fd call → call.transfers = false) :
    Rests id log (event :: log) :=
  (refl id log).cons hevent

theorem foreign (hne : other ≠ id) (fd : Fd) (call : Syscall) :
    Rests id log (.syscall other fd call :: log) :=
  one fun _ _ hsame => absurd (Event.syscall.inj hsame).1 hne

theorem chores (hgrown : Chores other log grown) : Rests id log grown := by
  obtain ⟨events, rfl, hevents⟩ := hgrown
  exact ⟨events, rfl, fun fd call hmem => (hevents _ hmem).2⟩

theorem finish (ans : Answers) (state : State) (job : Job) (result : Outcome) :
    Rests id state.log (state.finish ans job result).log := by
  obtain ⟨grown, hgrown, hlog⟩ := Chores.finish ans state job result
  have hsettled : Rests id state.log (.settled job.cb result :: grown) :=
    (chores hgrown).cons fun _ _ hsame => by cases hsame
  rcases hlog with hlog | ⟨handle, entry, cb, carriers, -, -, hlog⟩
  · rw [hlog]
    exact hsettled
  · rw [hlog]
    have hclosed : Rests id state.log
        (.closed entry.fd carriers :: .settled job.cb result :: grown) :=
      hsettled.cons fun _ _ hsame => by cases hsame
    exact hclosed.cons fun _ _ hsame => by cases hsame

theorem suffix (hrests : Rests id log grown) : log <:+ grown := by
  obtain ⟨events, rfl, -⟩ := hrests
  exact List.suffix_append _ _

theorem submitted (hrests : Rests id log grown) (hmem : other ∈ submittedIds log) :
    other ∈ submittedIds grown := by
  obtain ⟨events, rfl, -⟩ := hrests
  induction events with
  | nil => exact hmem
  | cons event events ih => exact mem_submittedIds_cons event ih

end Rests

namespace Stopped

variable {id : OpId} {hand hand' : Hand} {state next : State}

/-- Nothing new for the op comes in. -/
theorem frame (hstopped : Stopped id hand state) (hlog : Rests id state.log next.log)
    (hrx : ∀ op cb, Msg.submit id op cb ∈ next.rx → Msg.submit id op cb ∈ state.rx)
    (hidle : ∀ job ∈ next.queue ++ next.task.jobs,
      job ∈ state.queue ++ state.task.jobs ∨ job.id ≠ id)
    (hflagged : ∀ entry ∈ next.inflight, entry ∈ state.inflight ∨ entry.job.id ≠ id)
    (hpendings : ∀ pending ∈ next.pendings, pending ∈ state.pendings ∨ pending.id ≠ id)
    (hopens : state.cancelledOpens ⊆ next.cancelledOpens)
    (hopening : ∀ pending result, hand' = .opening pending result → pending.id ≠ id) :
    Stopped id hand' next where
  submitted := hlog.submitted hstopped.submitted
  absent op cb hmem := hstopped.absent op cb (hrx op cb hmem)
  idle job hmem := (hidle job hmem).elim (hstopped.idle job) fun hne => hne
  flagged entry hmem hsame :=
    (hflagged entry hmem).elim (fun hold => hstopped.flagged entry hold hsame)
      (fun hne => absurd hsame hne)
  noted pending hmem hsame :=
    (hpendings pending hmem).elim (fun hold => hopens (hstopped.noted pending hold hsame))
      (fun hne => absurd hsame hne)
  opening := hopening

/-- Only the channel and the log change, and what is in hand. -/
theorem log (hstopped : Stopped id hand state) (hsame : next.holdings = state.holdings)
    (hlog : Rests id state.log next.log)
    (hrx : ∀ op cb, Msg.submit id op cb ∈ next.rx → Msg.submit id op cb ∈ state.rx)
    (hopening : ∀ pending result, hand' = .opening pending result → pending.id ≠ id) :
    Stopped id hand' next := by
  simp only [State.holdings, Holdings.mk.injEq] at hsame
  obtain ⟨hqueue, hrunning, hinflight, hopens, -, hpendings, -⟩ := hsame
  refine hstopped.frame hlog hrx (fun job hmem => .inl ?_)
    (fun entry hmem => .inl (hinflight ▸ hmem))
    (fun pending hmem => .inl (hpendings ▸ hmem)) hopens.ge hopening
  rwa [hqueue, hrunning] at hmem

theorem empty (hstopped : Stopped id hand state) (hsame : next.holdings = state.holdings)
    (hlog : Rests id state.log next.log)
    (hrx : ∀ op cb, Msg.submit id op cb ∈ next.rx → Msg.submit id op cb ∈ state.rx) :
    Stopped id .empty next :=
  hstopped.log hsame hlog hrx fun _ _ hsame => by cases hsame

/-- A new job is of another op. -/
theorem enqueue (hstopped : Stopped id hand state) {other : OpId} (hne : other ≠ id)
    (kind : JobKind) (handle : Option Handle) (cb : Callback) :
    Stopped id .empty (state.enqueue other kind handle cb) := by
  refine hstopped.frame (.refl _ _) (fun _ _ hmem => hmem) (fun job hmem => ?_)
    (fun _ hmem => .inl hmem) (fun _ hmem => .inl hmem) (Finset.Subset.refl _)
    (fun _ _ hsame => by cases hsame)
  simp only [State.enqueue, Task.jobs_submitReady, List.append_nil, List.mem_append,
    List.mem_singleton] at hmem
  rcases hmem with hold | rfl
  · exact .inl (List.mem_append_left _ hold)
  · exact .inr hne

end Stopped

section Actions

variable {ans : Answers} {id : OpId} {hand hand' : Hand} {state next : State}

theorem rests_handled (msg : Msg) : Rests id state.log (.handled msg :: state.log) :=
  .one fun _ _ hsame => by cases hsame

theorem Rests.settled {log grown : List Event} (hrests : Rests id log grown) (cb : Callback)
    (result : Outcome) : Rests id log (.settled cb result :: grown) :=
  hrests.cons fun _ _ hsame => by cases hsame

theorem Rests.closed {log grown : List Event} (hrests : Rests id log grown) (fd : Fd)
    (carriers : List OpId) : Rests id log (.closed fd carriers :: grown) :=
  hrests.cons fun _ _ hsame => by cases hsame

namespace Stopped

/-! ### Messages -/

/-- A message that is handled is not of the op, unless it is a cancel. -/
theorem other_of_head (hstopped : Stopped id .empty state) {other : OpId} {op : Op} {cb : Callback}
    {rx : List Msg} (hrx : state.rx = .submit other op cb :: rx) : other ≠ id := by
  rintro rfl
  exact hstopped.absent op cb (hrx ▸ List.mem_cons_self)

theorem mem_rx_of_head {msg : Msg} {rx : List Msg} (hrx : state.rx = msg :: rx) (op : Op)
    (cb : Callback) (hmem : Msg.submit id op cb ∈ rx) : Msg.submit id op cb ∈ state.rx :=
  hrx ▸ List.mem_cons_of_mem _ hmem

/-- A message is taken up, and apart from it only the log changes. -/
theorem takes (hstopped : Stopped id .empty state) {msg : Msg} (hrx : state.rx = msg :: next.rx)
    (hsame : next.holdings = state.holdings) (hrests : Rests id state.log next.log) :
    Rests id state.log next.log ∧ Stopped id .empty next :=
  ⟨hrests, hstopped.empty hsame hrests (mem_rx_of_head hrx)⟩

theorem sent (hstopped : Stopped id .empty state) {msg : Msg}
    (hown : ∀ id op cb, msg = .submit id op cb → cb = id ∧ id ∉ submittedIds state.log) :
    Rests id state.log (.sent msg :: state.log) ∧
      Stopped id .empty (({ state with rx := state.rx ++ [msg] }).emit (.sent msg)) := by
  have hrests : Rests id state.log (.sent msg :: state.log) :=
    .one fun _ _ hsame => by cases hsame
  refine ⟨hrests, hstopped.empty rfl hrests fun op cb hmem => ?_⟩
  rcases List.mem_append.mp hmem with hold | hnew
  · exact hold
  · exact absurd hstopped.submitted (hown id op cb (List.mem_singleton.mp hnew).symm).2

theorem answered (hstopped : Stopped id .empty state) {other : OpId} {op : Op} {cb : Callback}
    {rx : List Msg} (fd : Fd) (result : Outcome) {calls : List Syscall}
    (hrx : state.rx = .submit other op cb :: rx)
    (hquiet : ∀ call ∈ calls, call.transfers = false) :
    Rests id state.log ((calls.foldr (State.issue other fd)
        (state.received (.submit other op cb) rx)).settle cb result).log ∧
      Stopped id .empty ((calls.foldr (State.issue other fd)
        (state.received (.submit other op cb) rx)).settle cb result) := by
  have hgrown : Rests id (state.received (.submit other op cb) rx).log
      (calls.foldr (State.issue other fd) (state.received (.submit other op cb) rx)).log :=
    .chores (Chores.issues other fd calls hquiet)
  have hrests : Rests id state.log
      (calls.foldr (State.issue other fd) (state.received (.submit other op cb) rx)).log :=
    (rests_handled (.submit other op cb)).trans hgrown
  rw [issues_eq] at hrests ⊢
  exact hstopped.takes hrx rfl (hrests.settled cb result)

theorem enqueued (hstopped : Stopped id .empty state) {other : OpId} {op : Op} {cb : Callback}
    {rx : List Msg} (handle : Handle) (kind : JobKind) (asks : Bool)
    (hrx : state.rx = .submit other op cb :: rx) :
    Rests id state.log (((state.received (.submit other op cb) rx).asked asks other
        (Job.mk other false kind cb).fd).enqueue other kind (some handle) cb).log ∧
      Stopped id .empty (((state.received (.submit other op cb) rx).asked asks other
        (Job.mk other false kind cb).fd).enqueue other kind (some handle) cb) := by
  have hrests : Rests id state.log ((state.received (.submit other op cb) rx).asked asks other
      (Job.mk other false kind cb).fd).log :=
    (rests_handled _).trans (.chores (Chores.asked asks other _))
  have hasked : Stopped id .empty ((state.received (.submit other op cb) rx).asked asks other
      (Job.mk other false kind cb).fd) := by
    cases asks with
    | false => exact hstopped.empty rfl hrests (mem_rx_of_head hrx)
    | true => exact hstopped.empty rfl hrests (mem_rx_of_head hrx)
  exact ⟨hrests, hasked.enqueue (hstopped.other_of_head hrx) kind (some handle) cb⟩

theorem openedHere (hstopped : Stopped id .empty state) {other : OpId} {op : Op} {cb : Callback}
    {rx : List Msg} (path : Path) (spec : OpenSpec) (after : AfterOpen)
    (hrx : state.rx = .submit other op cb :: rx) :
    Rests id state.log ((state.received (.submit other op cb) rx).openFor ans path spec
        ⟨other, after, cb⟩).2.log ∧
      Stopped id (.opening ⟨other, after, cb⟩
          ((state.received (.submit other op cb) rx).openFor ans path spec ⟨other, after, cb⟩).1)
        ((state.received (.submit other op cb) rx).openFor ans path spec
          ⟨other, after, cb⟩).2 := by
  have hopened : Rests id (state.received (.submit other op cb) rx).log
      ((state.received (.submit other op cb) rx).openFor ans path spec ⟨other, after, cb⟩).2.log :=
    .chores (Chores.openFor path spec ⟨other, after, cb⟩)
  have hrests := Rests.trans (rests_handled (.submit other op cb)) hopened
  refine ⟨hrests, hstopped.log (State.holdings_openFor _ _ _ _) hrests ?_ ?_⟩
  · rw [openFor_snd]
    exact mem_rx_of_head hrx
  · intro pending result hhand
    obtain ⟨rfl, -⟩ := Hand.opening.inj hhand
    exact hstopped.other_of_head hrx

theorem sentOpen (hstopped : Stopped id .empty state) {other : OpId} {op : Op} {cb : Callback}
    {rx : List Msg} (path : Path) (spec : OpenSpec) (after : AfterOpen)
    (hrx : state.rx = .submit other op cb :: rx) :
    Stopped id .empty { state.received (.submit other op cb) rx with
      pendingOpens := insert other state.pendingOpens
      helperQueue := state.helperQueue ++ [.openFile path spec ⟨other, after, cb⟩] } := by
  refine hstopped.frame (rests_handled _) (mem_rx_of_head hrx) (fun _ hmem => .inl hmem)
    (fun _ hmem => .inl hmem) (fun pending hmem => ?_) (Finset.Subset.refl _)
    (fun _ _ hsame => by cases hsame)
  simp only [State.pendings, State.received, State.emit, List.flatMap_append,
    List.flatMap_singleton, HelperJob.pendings, List.mem_append, List.mem_singleton] at hmem
  simp only [State.pendings, List.mem_append]
  rcases hmem with ((hold | rfl) | hold) | hold
  · exact .inl (.inl (.inl hold))
  · exact .inr (hstopped.other_of_head hrx)
  · exact .inl (.inl (.inr hold))
  · exact .inl (.inr hold)

theorem cancelInflight (hstopped : Stopped id .empty state) {other : OpId} {rx : List Msg}
    (index : ℕ) (fd : Fd) (hrx : state.rx = .cancel other :: rx) :
    Rests id state.log (.syscall other fd .aioCancel :: .handled (.cancel other) :: state.log) ∧
      Stopped id .empty (({ state.received (.cancel other) rx with
        inflight := state.inflight.modify index fun entry =>
          { entry with job := { entry.job with cancelled := true } } }).issue
        other fd .aioCancel) := by
  have hrests : Rests id state.log
      (.syscall other fd .aioCancel :: .handled (.cancel other) :: state.log) :=
    (rests_handled _).cons fun _ _ hsame => by
      cases hsame
      rfl
  refine ⟨hrests, hrests.submitted hstopped.submitted, fun op cb hmem => ?_, hstopped.idle,
    fun entry hmem hmine => ?_, hstopped.noted, fun _ _ hsame => by cases hsame⟩
  · exact hstopped.absent op cb (mem_rx_of_head hrx op cb hmem)
  · rcases mem_modify hmem with hold | ⟨old, hold, rfl⟩
    · exact hstopped.flagged entry hold hmine
    · rfl

/-! ### Opens that come back -/

theorem tookOpened (hstopped : Stopped id .empty state) {message : Opened} {back : List Opened}
    (hback : state.back = message :: back) (hkept : message.pending.id ∉ state.cancelledOpens) :
    Stopped id (.opening message.pending message.result) { state with
      back := back
      progress := true
      pendingOpens := state.pendingOpens.erase message.pending.id } := by
  have hlisted : message.pending ∈ state.pendings := by simp [State.pendings, hback]
  refine hstopped.frame (.refl _ _) (fun _ _ hmem => hmem) (fun _ hmem => .inl hmem)
    (fun _ hmem => .inl hmem) (fun pending hmem => .inl ?_) (Finset.Subset.refl _)
    fun pending result hhand => ?_
  · simp only [State.pendings, hback, List.map_cons, List.mem_append, List.mem_cons] at hmem ⊢
    tauto
  · obtain ⟨rfl, -⟩ := Hand.opening.inj hhand
    rintro rfl
    exact hkept (hstopped.noted _ hlisted rfl)

theorem openCancelled (hstopped : Stopped id .empty state) (hledger : Hand.empty.Ledger state)
    {message : Opened} {back : List Opened} (hback : state.back = message :: back) :
    Rests id state.log ((({ state with
        back := back
        progress := true
        pendingOpens := state.pendingOpens.erase message.pending.id
        cancelledOpens := state.cancelledOpens.erase message.pending.id } : State).closeOpened
          message.result).settle message.pending.cb (.error cancelledError)).log ∧
      Stopped id .empty ((({ state with
        back := back
        progress := true
        pendingOpens := state.pendingOpens.erase message.pending.id
        cancelledOpens := state.cancelledOpens.erase message.pending.id } : State).closeOpened
          message.result).settle message.pending.cb (.error cancelledError)) := by
  obtain ⟨hown, htaken⟩ := hledger.cons.takeBack hback
  have hrests : Rests id state.log
      (((({ state with
        back := back
        progress := true
        pendingOpens := state.pendingOpens.erase message.pending.id
        cancelledOpens := state.cancelledOpens.erase message.pending.id } : State).closeOpened
          message.result).settle message.pending.cb (.error cancelledError)).log) :=
    Rests.settled (.chores (Chores.closeOpened message.pending.id _)) _ _
  rw [closeOpened_eq] at hrests ⊢
  refine ⟨hrests, hrests.submitted hstopped.submitted, hstopped.absent, hstopped.idle,
    hstopped.flagged, fun pending hmem hmine => ?_, fun _ _ hsame => by cases hsame⟩
  have hold : pending ∈ state.pendings := by
    simp only [State.pendings, State.settle, State.emit, List.mem_append] at hmem
    simp only [State.pendings, hback, List.map_cons, List.mem_append, List.mem_cons]
    tauto
  -- the op of the open that came back has no other open out
  refine Finset.mem_erase.mpr ⟨?_, hstopped.noted pending hold hmine⟩
  have hne := htaken.pending_ne hmem
  rintro rfl
  rw [hown, (hledger.cons.pendingIds pending hold).1] at hne
  exact hne hmine

/-! ### Chunks and requests -/

/-- A chunk leaves the table in flight. -/
theorem unlisted (hstopped : Stopped id .empty state) {index : ℕ} {entry : Inflight}
    (hget : state.inflight[index]? = some entry) :
    Stopped id .empty { state with
      inflight := swapRemove state.inflight index, progress := true } :=
  hstopped.frame (.refl _ _) (fun _ _ hmem => hmem) (fun _ hmem => .inl hmem)
    (fun other hmem => .inl (mem_of_mem_swapRemove hget hmem)) (fun _ hmem => .inl hmem)
    (Finset.Subset.refl _) (fun _ _ hsame => by cases hsame)

/-- A job in flight that is not flagged is of another op. -/
theorem reaped (hstopped : Stopped id .empty state) {index : ℕ} {entry : Inflight}
    {transferred : Transferred} {job : Job} {reply : Option Outcome}
    (hget : state.inflight[index]? = some entry)
    (hstep : ({ state with
      inflight := swapRemove state.inflight index, progress := true }).stepJob ans transferred
        entry.job = (job, reply, next)) :
    Rests id state.log next.log ∧ Stopped id .empty next ∧
      (job.cancelled = false → job.id ≠ id) := by
  obtain ⟨hholdings, hid, hflag⟩ := State.holdings_stepJob hstep
  have hrests : Rests id state.log next.log := by
    have hgrown := @Rests.chores id _ _ _ (Chores.stepJob hstep)
    exact hgrown
  refine ⟨hrests, (hstopped.unlisted hget).empty hholdings hrests ?_, fun hfree hmine => ?_⟩
  · rw [(stepJob_keeps hstep).1]
    exact fun _ _ hmem => hmem
  · have hset := hstopped.flagged entry (List.mem_of_getElem? hget) (hid ▸ hmine)
    rw [hflag, hset] at hfree
    cases hfree

/-- A job that is not the op's goes back to the queue or to the thread. -/
theorem goesOn (hstopped : Stopped id .empty state) {job : Job} (hne : job.id ≠ id)
    (hlog : next.log = state.log) (hrx : next.rx = state.rx)
    (hjobs : ∀ other ∈ next.queue ++ next.task.jobs, other = job ∨ other ∈ state.queue)
    (hinflight : next.inflight = state.inflight) (hpendings : next.pendings = state.pendings)
    (hopens : next.cancelledOpens = state.cancelledOpens) : Stopped id .empty next := by
  refine hstopped.frame (hlog ▸ .refl _ _) (fun _ _ hmem => hrx ▸ hmem) (fun other hmem => ?_)
    (fun _ hmem => .inl (hinflight ▸ hmem)) (fun _ hmem => .inl (hpendings ▸ hmem)) hopens.ge
    (fun _ _ hsame => by cases hsame)
  rcases hjobs other hmem with rfl | hold
  · exact .inr hne
  · exact .inl (List.mem_append_left _ hold)

section Submitting

variable {job : Job} {queue : List Job}

/-- The job at the head of the queue is of another op. -/
theorem head_ne (hstopped : Stopped id .empty state) (hqueue : state.queue = job :: queue) :
    job.id ≠ id :=
  hstopped.idle job (by simp [hqueue])

/-- The request for it is made; the job is then in one of its places. -/
theorem requested (hstopped : Stopped id .empty state) (hqueue : state.queue = job :: queue)
    (hlog : next.log = .syscall job.id job.fd (prepare job).2 :: state.log)
    (hrx : next.rx = state.rx)
    (hjobs : ∀ other ∈ next.queue ++ next.task.jobs,
      other ∈ (job :: queue) ++ state.task.jobs)
    (hinflight : ∀ entry ∈ next.inflight, entry ∈ state.inflight ∨ entry.job = job)
    (hpendings : next.pendings = state.pendings)
    (hopens : next.cancelledOpens = state.cancelledOpens)
    (hopening : ∀ pending result, hand' ≠ .opening pending result) :
    Rests id state.log next.log ∧ Stopped id hand' next := by
  have hne := hstopped.head_ne hqueue
  have hrests : Rests id state.log next.log := by
    rw [hlog]
    exact .foreign hne _ _
  refine ⟨hrests, hstopped.frame hrests (fun _ _ hmem => hrx ▸ hmem) (fun other hmem => .inl ?_)
    (fun entry hmem => ?_) (fun _ hmem => .inl (hpendings ▸ hmem)) hopens.ge
    (fun pending result hsame => absurd hsame (hopening pending result))⟩
  · rw [hqueue]
    exact hjobs other hmem
  · exact (hinflight entry hmem).imp_right fun hjob => by rwa [hjob]

end Submitting

/-- The job of the synchronous fallback is of another op. -/
theorem executed (hstopped : Stopped id .empty state) {job job' : Job} {transferred : Transferred}
    {reply : Option Outcome} (htask : state.task = .executeSync job)
    (hstep : (state.issue job.id job.fd (syncCall job)).stepJob ans transferred job =
      (job', reply, next)) :
    job'.id ≠ id ∧ Rests id state.log next.log ∧ Stopped id .empty next := by
  obtain ⟨hholdings, hid, -⟩ := State.holdings_stepJob hstep
  have hne : job.id ≠ id := hstopped.idle job (by simp [htask])
  have hissued : Rests id state.log (state.issue job.id job.fd (syncCall job)).log :=
    .foreign hne _ _
  have hrests := hissued.trans (.chores (Chores.stepJob hstep))
  refine ⟨hid ▸ hne, hrests, hstopped.empty hholdings hrests ?_⟩
  rw [(stepJob_keeps hstep).1]
  exact fun _ _ hmem => hmem

/-- The thread is done with its job. -/
theorem freed (hstopped : Stopped id .empty state)
    (hopening : ∀ pending result, hand' ≠ .opening pending result) :
    Stopped id hand' { state with task := .submitReady } := by
  refine hstopped.frame (.refl _ _) (fun _ _ hmem => hmem) (fun other hmem => .inl ?_)
    (fun _ hmem => .inl hmem) (fun _ hmem => .inl hmem) (Finset.Subset.refl _)
    (fun pending result hsame => absurd hsame (hopening pending result))
  simp only [Task.jobs_submitReady, List.append_nil] at hmem
  exact List.mem_append_left _ hmem

/-! ### Helpers -/

/-- A helper comes to another stage. -/
theorem helped (hstopped : Stopped id .empty state) (hrests : Rests id state.log next.log)
    (hpendings : ∀ pending ∈ next.pendings, pending ∈ state.pendings)
    (hrx : next.rx = state.rx)
    (hjobs : next.queue ++ next.task.jobs = state.queue ++ state.task.jobs)
    (hinflight : next.inflight = state.inflight)
    (hopens : next.cancelledOpens = state.cancelledOpens) : Stopped id .empty next :=
  hstopped.frame hrests (fun _ _ hmem => hrx ▸ hmem) (fun _ hmem => .inl (hjobs ▸ hmem))
    (fun _ hmem => .inl (hinflight ▸ hmem)) (fun pending hmem => .inl (hpendings pending hmem))
    hopens.ge (fun _ _ hsame => by cases hsame)

theorem helperOpened (hstopped : Stopped id .empty state) {index : ℕ} {path : Path}
    {spec : OpenSpec} {pending : PendingOpen}
    (hget : state.helpers[index]? = some (.running (.openFile path spec pending))) :
    Rests id state.log (state.openFor ans path spec pending).2.log ∧
      Stopped id .empty { (state.openFor ans path spec pending).2 with
        helpers := state.helpers.set index
          (.sending ⟨pending, (state.openFor ans path spec pending).1⟩) } := by
  have hrests : Rests id state.log (state.openFor ans path spec pending).2.log :=
    .chores (Chores.openFor path spec pending)
  have hsnd := openFor_snd state ans path spec pending
  generalize (state.openFor ans path spec pending).1 = result
  generalize (state.openFor ans path spec pending).2 = opened at hrests hsnd
  rw [hsnd] at hrests ⊢
  refine ⟨hrests, hstopped.helped hrests (fun other hmem => ?_) rfl rfl rfl rfl⟩
  rcases Invariant.mem_pendings_setHelper hmem with hin | hold
  · exact Invariant.mem_pendings_of_helper hget
      (by simpa [Helper.pendings, HelperJob.pendings] using hin)
  · exact hold

theorem view (hstopped : Stopped id .empty state) (hview : next.view = state.view) :
    Rests id state.log next.log ∧ Stopped id .empty next := by
  have hholdings := State.holdings_view hview
  simp only [State.view, View.mk.injEq] at hview
  obtain ⟨hrx, -, -, -, -, -, -, -, -, -, -, hlog⟩ := hview
  have hrests : Rests id state.log next.log := by
    rw [hlog]
    exact .refl _ _
  exact ⟨hrests, hstopped.empty hholdings hrests fun _ _ hmem => hrx ▸ hmem⟩

end Stopped

/-- What an action does with a cancelled op. -/
theorem Act.stopped (hact : Act ans hand state hand' next) (hledger : hand.Ledger state)
    (hstopped : Stopped id hand state) :
    Rests id state.log next.log ∧ Stopped id hand' next := by
  cases hact with
  | still hview => exact hstopped.view hview
  | sent msg hown => exact hstopped.sent hown
  | nop hrx => exact hstopped.takes hrx rfl ((rests_handled _).settled _ _)
  | refused hrx htarget hbad => exact hstopped.takes hrx rfl ((rests_handled _).settled _ _)
  | answered calls hrx htarget hclose hopen hquiet hresult =>
      exact hstopped.answered _ _ hrx hquiet
  | enqueued asks hrx htask => exact hstopped.enqueued _ _ asks hrx
  | closeDeferred hrx hlookup hopen hbusy => exact hstopped.takes hrx rfl (rests_handled _)
  | closeNow hrx hlookup hopen hidle =>
      exact hstopped.takes hrx rfl (((rests_handled _).closed _ _).settled _ _)
  | openedHere path spec after hrx => exact hstopped.openedHere path spec after hrx
  | sentOpen path spec after hrx =>
      exact ⟨rests_handled _, hstopped.sentOpen path spec after hrx⟩
  | cancelQueued hrx hfind =>
      refine ⟨rests_handled _, hstopped.frame (rests_handled _) (Stopped.mem_rx_of_head hrx)
        (fun job hmem => .inl ?_) (fun _ hmem => .inl hmem) (fun _ hmem => .inl hmem)
        (Finset.Subset.refl _) (fun _ _ hsame => by cases hsame)⟩
      rcases List.mem_append.mp hmem with hqueue | hrunning
      · exact List.mem_append_left _ (List.mem_of_mem_eraseP hqueue)
      · exact List.mem_append_right _ hrunning
  | cancelInflight hrx hnone hget hid => exact hstopped.cancelInflight _ _ hrx
  | cancelOpening hrx hnone hflying hpending =>
      exact ⟨rests_handled _, hstopped.frame (rests_handled _) (Stopped.mem_rx_of_head hrx)
        (fun _ hmem => .inl hmem) (fun _ hmem => .inl hmem) (fun _ hmem => .inl hmem)
        (Finset.subset_insert _ _) (fun _ _ hsame => by cases hsame)⟩
  | cancelNothing hrx hnone hflying hpending => exact hstopped.takes hrx rfl (rests_handled _)
  | openFailed =>
      exact ⟨(Rests.refl _ _).settled _ _, hstopped.empty rfl ((Rests.refl _ _).settled _ _)
        fun _ _ hmem => hmem⟩
  | @registered _ pending fd size =>
      have hrests : Rests id state.log
          (.settled pending.cb (.ok (state.register fd size).1) ::
            .registered state.nextId fd :: state.log) :=
        Rests.settled (.one fun _ _ hsame => by cases hsame) _ _
      exact ⟨hrests, hstopped.empty rfl hrests fun _ _ hmem => hmem⟩
  | @enqueuedOwned _ pending fd size kind =>
      exact ⟨.refl _ _, hstopped.enqueue (hstopped.opening pending _ rfl) kind none pending.cb⟩
  | chunkFailed hpoint hget haio =>
      exact ⟨.refl _ _, { hstopped.unlisted hget with opening := fun _ _ hsame => by cases hsame }⟩
  | chunkReplied hget hstep hdone =>
      obtain ⟨hrests, hnext, -⟩ := hstopped.reaped hget hstep
      exact ⟨hrests, { hnext with opening := fun _ _ hsame => by cases hsame }⟩
  | chunkFlagged hget hstep hflag hdone =>
      obtain ⟨hrests, hnext, -⟩ := hstopped.reaped hget hstep
      exact ⟨hrests, { hnext with opening := fun _ _ hsame => by cases hsame }⟩
  | chunkRequeued htask hget hstep hflag hdone =>
      obtain ⟨hrests, hnext, hne⟩ := hstopped.reaped hget hstep
      refine ⟨hrests, hnext.goesOn (hne hflag) rfl rfl (fun other hmem => ?_) rfl rfl rfl⟩
      simpa only [Task.jobs_submitReady, List.append_nil, List.mem_cons] using hmem
  | submitInflight htask hqueue =>
      refine hstopped.requested hqueue rfl rfl (fun other hmem => ?_) (fun entry hmem => ?_)
        rfl rfl (fun _ _ hsame => by cases hsame)
      · exact List.mem_cons_of_mem _ hmem
      · exact (List.mem_append.mp hmem).imp_right fun hnew => by rw [List.mem_singleton.mp hnew]
  | submitFull htask hqueue =>
      refine hstopped.requested hqueue rfl rfl (fun other hmem => ?_) (fun _ hmem => .inl hmem)
        rfl rfl (fun _ _ hsame => by cases hsame)
      exact List.mem_append_left _ (by simpa using hmem)
  | submitSync htask hqueue =>
      refine hstopped.requested hqueue rfl rfl (fun other hmem => ?_) (fun _ hmem => .inl hmem)
        rfl rfl (fun _ _ hsame => by cases hsame)
      simp only [State.issue, State.emit, Task.jobs_executeSync, List.mem_append,
        List.mem_singleton] at hmem
      simp only [List.cons_append, List.mem_append, List.mem_cons]
      tauto
  | submitFailed htask hqueue hfails =>
      exact hstopped.requested hqueue rfl rfl (fun _ hmem => List.mem_cons_of_mem _ hmem)
        (fun _ hmem => .inl hmem) rfl rfl (fun _ _ hsame => by cases hsame)
  | @execFailed _ job errno htask hfails =>
      have hrests : Rests id state.log (.syscall job.id job.fd (syncCall job) :: state.log) :=
        .foreign (hstopped.idle job (by simp [htask])) _ _
      exact ⟨hrests, Stopped.freed (hstopped.empty rfl hrests fun _ _ hmem => hmem)
        fun _ _ hsame => by cases hsame⟩
  | execReplied htask hstep hdone =>
      obtain ⟨-, hrests, hnext⟩ := hstopped.executed htask hstep
      exact ⟨hrests, hnext.freed fun _ _ hsame => by cases hsame⟩
  | execAgain htask hstep hdone =>
      obtain ⟨hne, hrests, hnext⟩ := hstopped.executed htask hstep
      refine ⟨hrests, hnext.goesOn hne rfl rfl (fun other hmem => ?_) rfl rfl rfl⟩
      simp only [Task.jobs_executeSync, List.mem_append, List.mem_singleton] at hmem
      exact hmem.symm
  | @ended _ job result =>
      have hrests : Rests id state.log (state.finish ans job result).log :=
        .finish ans state job result
      refine ⟨hrests, hstopped.log (State.holdings_finish job result state) hrests ?_
        fun _ _ hsame => by cases hsame⟩
      have hrx : (state.finish ans job result).rx = state.rx :=
        congrArg Control.rx (control_finish ans job result state)
      rw [hrx]
      exact fun _ _ hmem => hmem
  | tookOpened hback hkept => exact ⟨.refl _ _, hstopped.tookOpened hback hkept⟩
  | openCancelled hback hcancelled => exact hstopped.openCancelled hledger hback
  | helperTook hget hqueue =>
      exact ⟨.refl _ _, hstopped.helped (.refl _ _)
        (fun _ hmem => Invariant.mem_pendings_took hqueue hmem) rfl rfl rfl rfl⟩
  | helperExited hget =>
      exact ⟨.refl _ _, hstopped.helped (.refl _ _)
        (fun _ hmem => mem_pendings_of_freed rfl hmem) rfl rfl rfl rfl⟩
  | helperClosed hget =>
      exact ⟨(Rests.refl _ _).closed _ _, hstopped.helped ((Rests.refl _ _).closed _ _)
        (fun _ hmem => mem_pendings_of_freed (rfl : Helper.idle.pendings = []) hmem)
        rfl rfl rfl rfl⟩
  | helperOpened hget hfresh => exact hstopped.helperOpened hget
  | helperSent hget =>
      exact ⟨.refl _ _, hstopped.helped (.refl _ _)
        (fun _ hmem => Invariant.mem_pendings_sent hget hmem) rfl rfl rfl rfl⟩

end Actions

/-! ## Where a cancel finds its op -/

section Cancel

variable {ans : Answers} {id : OpId} {state next : State}

/-- An op that was handled is not in the channel any more. -/
theorem Accounted.absent (haccounted : Accounted state) (hcons : Consistent [] [] [] state)
    {op : Op} {cb : Callback} (hhandled : Event.handled (.submit id op cb) ∈ state.log) (op' : Op)
    (cb' : Callback) : Msg.submit id op' cb' ∉ state.rx := by
  intro hmem
  have hunique := List.nodup_iff_count_le_one.mp hcons.unique id
  have hsent := (haccounted.order _ hhandled).mem.1
  have hcount := haccounted.balance (.submit id op' cb')
  have hwaits := List.count_pos_iff.mpr hmem
  have hsent' : Event.sent (.submit id op' cb') ∈ state.log := sent_of_times (by omega)
  obtain rfl := Sent.unique ⟨cb, hsent⟩ ⟨cb', hsent'⟩ hcons.unique
  obtain rfl := (hcons.ownCb id op cb hsent).trans (hcons.ownCb id op cb' hsent').symm
  have hle := sentTimes_le id op cb state.log
  have htimes : 0 < handledTimes (.submit id op cb) state.log :=
    List.countP_pos_iff.mpr ⟨_, hhandled, by simp⟩
  omega

/-- A cancel stops an op that was handled, wherever it is. -/
theorem Stopped.of_cancel (hcons : Consistent [] [] [] state) (haccounted : Accounted state)
    (htask : state.task = .none) {op : Op} {cb : Callback} {rx : List Msg}
    (hhandled : Event.handled (.submit id op cb) ∈ state.log)
    (hrx : state.rx = .cancel id :: rx) :
    Rests id state.log ((state.received (.cancel id) rx).cancel ans id).log ∧
      Stopped id .empty ((state.received (.cancel id) rx).cancel ans id) := by
  have hsubmitted : id ∈ submittedIds state.log :=
    Sent.submitted ⟨cb, (haccounted.order _ hhandled).mem.1⟩
  have hjobs : state.task.jobs = [] := by rw [htask, Task.jobs_none]
  have habsent : ∀ op' cb', Msg.submit id op' cb' ∉ rx := fun op' cb' hmem =>
    haccounted.absent hcons hhandled op' cb' (hrx ▸ List.mem_cons_of_mem _ hmem)
  have hone : Rests id state.log (.handled (.cancel id) :: state.log) :=
    .one fun _ _ hsame => by cases hsame
  unfold State.cancel
  split
  · next job hfind =>
      change state.queue.find? _ = some job at hfind
      obtain rfl : job.id = id := by simpa using List.find?_some hfind
      obtain ⟨-, hpendings, hlive⟩ := (hcons.takeFound hfind).alone
      have htaken : Stopped job.id .empty { state.received (.cancel job.id) rx with
          queue := state.queue.eraseP fun other => other.id = job.id } := by
        refine ⟨hone.submitted hsubmitted, habsent, fun other hmem => ?_,
          fun entry hmem hsame => ?_,
          fun pending hmem hsame => absurd hsame (hpendings pending hmem),
          fun _ _ hsame => by cases hsame⟩
        · apply hlive
          simp only [State.received, State.emit, List.mem_append] at hmem
          simp only [State.liveJobs, List.mem_append]
          tauto
        · exact absurd hsame (hlive entry.job (List.mem_append_right _ (List.mem_map_of_mem hmem)))
      have hrests := hone.trans (@Rests.finish job.id ans
        { state.received (.cancel job.id) rx with
          queue := state.queue.eraseP fun other => other.id = job.id } job (.error cancelledError))
      refine ⟨hrests, htaken.empty (State.holdings_finish job _ _) (.finish ans _ job _) ?_⟩
      intro op' cb' hmem
      rw [(Tracked.finish_kept ans job _).1] at hmem
      exact hmem
  · next hnone =>
      change state.queue.find? _ = none at hnone
      have hqueue : ∀ job ∈ state.queue, job.id ≠ id := by
        simpa using List.find?_eq_none.mp hnone
      have hidle : ∀ job ∈ state.queue ++ state.task.jobs, job.id ≠ id := by
        rw [hjobs, List.append_nil]
        exact hqueue
      split
      · next hindex =>
          change state.inflight.findIdx? _ = none at hindex
          have hflying : ∀ entry ∈ state.inflight, entry.job.id ≠ id := by
            simpa using List.findIdx?_eq_none_iff.mp hindex
          split
          · next hpending =>
              exact ⟨hone, hone.submitted hsubmitted, habsent, hidle,
                fun entry hmem hsame => absurd hsame (hflying entry hmem),
                fun _ _ _ => Finset.mem_insert_self _ _, fun _ _ hsame => by cases hsame⟩
          · next hpending =>
              refine ⟨hone, hone.submitted hsubmitted, habsent, hidle,
                fun entry hmem hsame => absurd hsame (hflying entry hmem),
                fun pending hmem hsame => ?_, fun _ _ hsame => by cases hsame⟩
              have hlisted := (hcons.pendingIds pending hmem).2
              rw [hsame] at hlisted
              exact absurd hlisted hpending
      · next index hindex =>
          change state.inflight.findIdx? _ = some index at hindex
          obtain ⟨hbound, hid, -⟩ := List.findIdx?_eq_some_iff_getElem.mp hindex
          have hget : state.inflight[index]? = some state.inflight[index] :=
            List.getElem?_eq_getElem hbound
          obtain hmine : state.inflight[index].job.id = id := of_decide_eq_true hid
          obtain ⟨-, hpendings, hlive⟩ := (hcons.takeInflight hget).alone
          rw [hmine] at hpendings hlive
          refine ⟨hone.cons fun _ _ hsame => ?_,
            mem_submittedIds_cons _ (hone.submitted hsubmitted),
            habsent, hidle, fun entry hmem hsame => ?_,
            fun pending hmem hsame => absurd hsame (hpendings pending hmem),
            fun _ _ hsame => by cases hsame⟩
          · cases hsame
            rfl
          · rcases mem_modify_ne hget hmem with rfl | hrest
            · rfl
            · exact absurd hsame
                (hlive entry.job (List.mem_append_right _ (List.mem_map_of_mem hrest)))

/-- The message a step of the driver thread takes off the channel is handled in it. -/
theorem drive_receives {msg : Msg} {rx : List Msg} (hrx : state.rx = msg :: rx)
    (hstep : state.drive ans = some next) (htaken : next.rx = rx) :
    state.task = .none ∧ ∃ point,
      next = ({ state with rx := rx, point := point } : State).handleMsg ans msg := by
  have hother : next.rx ≠ state.rx := by
    rw [htaken, hrx]
    exact fun hsame => by simpa using congrArg List.length hsame
  have hkept : ∀ {other : State}, some other = some next →
      other.control = state.control → False := by
    rintro other hsame hcontrol
    obtain rfl := Option.some.inj hsame
    exact hother (congrArg Control.rx hcontrol)
  unfold State.drive at hstep
  split at hstep
  · exact (hkept hstep (control_submitReady ans state)).elim
  · next job htask => exact (hkept hstep (control_executeSync ans job state)).elim
  · next htask =>
      refine ⟨htask, ?_⟩
      have hstays : ∀ {other : State}, some other = some next → other.rx = state.rx →
          ∃ point, next = ({ state with rx := rx, point := point } : State).handleMsg ans msg := by
        intro other hsame hrest
        obtain rfl := Option.some.inj hsame
        exact absurd hrest hother
      split at hstep
      · split at hstep
        · split at hstep
          · exact hstays hstep rfl
          · unfold State.waitIdle at hstep
            simp only [hrx] at hstep
            split at hstep
            · exact ⟨.suspend, (Option.some.inj hstep).symm⟩
            · split at hstep
              · cases hstep
              · next message back hback =>
                  refine hstays hstep ?_
                  exact (congrArg Control.rx (control_handleOpened ans message _)).trans hrx.symm
            · split at hstep
              · exact hstays hstep hrx.symm
              · cases hstep
            · split at hstep
              · exact hstays hstep hrx.symm
              · cases hstep
        · exact hstays hstep rfl
      · split at hstep
        · exact hstays hstep rfl
        · exact hstays hstep rfl
      · next index hpoint =>
          refine hstays hstep ?_
          unfold State.reap
          split
          · rfl
          · split
            · rfl
            · exact congrArg Control.rx (control_advance ans _ _ _)
            · exact congrArg Control.rx (control_finish ans _ _ _)
      · unfold State.drainRx at hstep
        simp only [hrx] at hstep
        exact ⟨state.point, (Option.some.inj hstep).symm⟩
      · refine hstays hstep ?_
        unfold State.drainBack
        split
        · exact congrArg Control.rx (control_handleOpened ans _ _)
        · split <;> rfl
      · exact hstays hstep rfl
      · exact hstays hstep rfl
      · cases hstep

end Cancel

namespace Stopped

variable {id : OpId} {state next final : State} {label : Label} {labels : List Label}

theorem step (hinv : Invariant state) (hstopped : Stopped id .empty state)
    (hstep : Darwin.step state label = some next) :
    Rests id state.log next.log ∧ Stopped id .empty next := by
  have hkept : ∀ hand mid hand' after, hand.Ledger mid → Act label.answers hand mid hand' after →
      (Rests id state.log mid.log ∧ Stopped id hand mid) →
      Rests id state.log after.log ∧ Stopped id hand' after := by
    intro hand mid hand' after hledger hact hmid
    obtain ⟨hrests, hafter⟩ := hact.stopped hledger hmid.2
    exact ⟨hmid.1.trans hrests, hafter⟩
  exact (step_acts hinv hstep).keep hkept (.empty hinv.ledger) ⟨.refl _ _, hstopped⟩

/-- Along every run from here. -/
theorem exec (hreach : driver.Reachable state) (hstopped : Stopped id .empty state)
    (hexec : driver.exec state labels = some final) :
    Rests id state.log final.log ∧ Stopped id .empty final := by
  induction labels generalizing state with
  | nil =>
      obtain rfl : state = final := by simpa [System.exec] using hexec
      exact ⟨.refl _ _, hstopped⟩
  | cons label labels ih =>
      simp only [System.exec, Option.bind_eq_some_iff] at hexec
      obtain ⟨next, hstep, hrest⟩ := hexec
      obtain ⟨hfirst, hnext⟩ := hstopped.step (.of_reachable hreach) hstep
      obtain ⟨hsecond, hfinal⟩ := ih (hreach.next hstep) hnext hrest
      exact ⟨hfirst.trans hsecond, hfinal⟩

end Stopped

end Turbofile.Darwin
