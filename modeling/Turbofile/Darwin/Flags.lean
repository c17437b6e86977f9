import Turbofile.Darwin.Channel
import Turbofile.Darwin.Descriptors

/-!
# What a cancel request leaves behind

A cancel finds its op in the queue, in flight, at its open, or nowhere.  In
flight it sets a flag and calls `aio_cancel`, at an open it notes the id; both
are traced back to the request here, and with them every callback that gets
`ECANCELED`, as long as the kernel reports that error only where the driver
asked for it.
-/

namespace Turbofile.Darwin

open Turbofile.Core
open Turbofile.Tally
open Turbofile.Logs
open State

/-! ## The assumption on the kernel -/

/-- `ECANCELED` comes only from a control block that was passed to `aio_cancel`. -/
structure Honest (state : State) (label : Label) : Prop where
  calls : ∀ errno, label.answers.Fails errno → errno ≠ .ecanceled
  aio : ∀ ans index entry, label = .drive ans → state.task = .none → state.point = .reap index →
    state.inflight[index]? = some entry → ans.aio = .failed .ecanceled →
      ∃ fd, Event.syscall entry.job.id fd .aioCancel ∈ state.log

/-- No call answers `ECANCELED`. -/
structure Answers.Uncancelled (ans : Answers) : Prop where
  calls : ∀ errno, ans.Fails errno → errno ≠ .ecanceled
  aio : ans.aio ≠ .failed .ecanceled

section Answers

variable {ans : Answers}

theorem Answers.Gives.ne_cancelled {α : Type} {result : Except IoError α}
    (hgives : ans.Gives result) (hcalls : ∀ errno, ans.Fails errno → errno ≠ .ecanceled) :
    result ≠ .error cancelledError := by
  rintro rfl
  obtain ⟨errno, hfails, hsame⟩ := hgives _ rfl
  exact hcalls errno hfails (IoError.os.inj hsame).symm

theorem close_ne_cancelled (hcalls : ∀ errno, ans.Fails errno → errno ≠ .ecanceled) :
    ((osResult ans.close).map fun _ => Reply.unit) ≠ .error cancelledError :=
  (gives_map _ fun _ hfails => .close hfails).ne_cancelled hcalls

theorem openFor_ne_cancelled (hcalls : ∀ errno, ans.Fails errno → errno ≠ .ecanceled)
    (state : State) (path : Path) (spec : OpenSpec) (pending : PendingOpen) :
    (state.openFor ans path spec pending).1 ≠ .error cancelledError := by
  have hraw : (state.openRaw ans path spec).1 ≠ .error cancelledError := by
    unfold State.openRaw
    split
    · simp [cancelledError]
    · split
      · simp [cancelledError]
      · split
        · next errno hfails =>
            intro hsame
            exact hcalls errno (.openFd hfails) (IoError.os.inj (Except.error.inj hsame))
        · simp
  have hsized : (state.openSized ans pending.id path spec).1 ≠ .error cancelledError := by
    unfold State.openSized
    split
    · next error mid hopen =>
        rw [hopen] at hraw
        simpa using hraw
    · simp only
      split
      · simp
      · next errno hfails =>
          intro hsame
          exact hcalls errno (.stat hfails) (IoError.os.inj (Except.error.inj hsame))
  unfold State.openFor
  split
  · split
    · next error mid hopen =>
        rw [hopen] at hraw
        simpa using hraw
    · simp
  · exact hsized
  · exact hsized

end Answers

/-! ## Requests -/

/-- A cancel of the op was handled, after the op was. -/
def CancelAsked (id : OpId) (log : List Event) : Prop :=
  ∃ op, Precedes (.handled (.submit id op id)) (.handled (.cancel id)) log

theorem CancelAsked.mono {id : OpId} {log grown : List Event} (hasked : CancelAsked id log)
    (hgrown : log <:+ grown) : CancelAsked id grown := by
  obtain ⟨op, hprecedes⟩ := hasked
  exact ⟨op, hprecedes.mono hgrown⟩

/-- Every callback that got `ECANCELED` had its request behind it. -/
def Asked : List Event → Prop
  | [] => True
  | .settled id result :: log =>
      (result = .error cancelledError → CancelAsked id log) ∧ Asked log
  | _ :: log => Asked log

namespace Asked

variable {id : OpId} {log grown : List Event}

theorem cons (hasked : Asked log) {event : Event}
    (hevent : ∀ id result, event ≠ .settled id result) : Asked (event :: log) := by
  cases event with
  | settled id result => exact absurd rfl (hevent id result)
  | sent msg => exact hasked
  | handled msg => exact hasked
  | opened fd path flags => exact hasked
  | closed fd carriers => exact hasked
  | syscall other fd call => exact hasked
  | registered handle fd => exact hasked

theorem settle (hasked : Asked log) {result : Outcome} (hresult : result ≠ .error cancelledError) :
    Asked (.settled id result :: log) :=
  ⟨fun hsame => absurd hsame hresult, hasked⟩

theorem chores (hasked : Asked log) (hgrown : Chores id log grown) : Asked grown := by
  obtain ⟨events, rfl, hevents⟩ := hgrown
  induction events with
  | nil => exact hasked
  | cons event events ih =>
      refine (ih fun other hmem => hevents other (List.mem_cons_of_mem _ hmem)).cons ?_
      rintro other result rfl
      exact hevents _ List.mem_cons_self

theorem split {later earlier : List Event}
    (hasked : Asked (later ++ .settled id (.error cancelledError) :: earlier)) :
    CancelAsked id earlier := by
  induction later with
  | nil => exact hasked.1 rfl
  | cons event later ih =>
      apply ih
      cases event with
      | settled other result => exact hasked.2
      | sent msg => exact hasked
      | handled msg => exact hasked
      | opened fd path flags => exact hasked
      | closed fd carriers => exact hasked
      | syscall other fd call => exact hasked
      | registered handle fd => exact hasked

end Asked

/-! ## What a log may grow by -/

/-- Neither a cancelled callback nor a call of `aio_cancel`. -/
def Event.inert : Event → Prop
  | .settled _ result => result ≠ .error cancelledError
  | .syscall _ _ call => call ≠ .aioCancel
  | .sent _ | .handled _ | .opened .. | .closed .. | .registered .. => True

/-- The log has grown by what needs no request. -/
structure Adds (log grown : List Event) : Prop where
  suffix : log <:+ grown
  asked : Asked log → Asked grown
  calls : ∀ id fd, Event.syscall id fd .aioCancel ∈ grown →
    Event.syscall id fd .aioCancel ∈ log ∨ ∃ result, Event.settled id result ∈ grown

namespace Adds

variable {log grown : List Event} {state : State} {ans : Answers}

theorem refl (log : List Event) : Adds log log :=
  ⟨List.suffix_refl log, id, fun _ _ hmem => .inl hmem⟩

theorem cons (hadds : Adds log grown) {event : Event} (hevent : event.inert) :
    Adds log (event :: grown) where
  suffix := hadds.suffix.trans (List.suffix_cons _ _)
  asked hasked := by
    have hgrown := hadds.asked hasked
    cases event with
    | settled id result => exact hgrown.settle hevent
    | _ => exact hgrown.cons fun _ _ hsame => (by cases hsame)
  calls id fd hmem := by
    rcases List.mem_cons.mp hmem with rfl | hearlier
    · exact absurd rfl hevent
    · rcases hadds.calls id fd hearlier with hold | ⟨result, hsettled⟩
      · exact .inl hold
      · exact .inr ⟨result, List.mem_cons_of_mem _ hsettled⟩

theorem one {event : Event} (hevent : event.inert) : Adds log (event :: log) :=
  (refl log).cons hevent

theorem two (hadds : Adds log grown) {one other : Event} (hone : one.inert)
    (hother : other.inert) : Adds log (other :: one :: grown) :=
  (hadds.cons hone).cons hother

/-- Chores of an op whose callback is the last of them. -/
theorem chores {id : OpId} (hadds : Adds log grown) {last : List Event}
    (hlast : Chores id grown last) {result : Outcome}
    (hresult : result = .error cancelledError → CancelAsked id log) :
    Adds log (.settled id result :: last) where
  suffix := by
    obtain ⟨events, rfl, -⟩ := hlast
    exact hadds.suffix.trans ((List.suffix_append _ _).trans (List.suffix_cons _ _))
  asked hasked := by
    have hold := hadds.asked hasked
    have hsuffix : log <:+ last := by
      obtain ⟨events, rfl, -⟩ := hlast
      exact hadds.suffix.trans (List.suffix_append _ _)
    exact ⟨fun hsame => (hresult hsame).mono hsuffix, hold.chores hlast⟩
  calls other fd hmem := by
    obtain ⟨events, rfl, hevents⟩ := hlast
    rcases List.mem_append.mp ((List.mem_cons.mp hmem).resolve_left fun hsame => by cases hsame)
      with hnew | hold
    · obtain ⟨rfl, -⟩ := hevents _ hnew
      exact .inr ⟨result, List.mem_cons_self⟩
    · rcases hadds.calls other fd hold with hfirst | ⟨result', hsettled⟩
      · exact .inl hfirst
      · exact .inr ⟨result', List.mem_cons_of_mem _ (List.mem_append_right _ hsettled)⟩

theorem openFor (path : Path) (spec : OpenSpec) (pending : PendingOpen) :
    Adds state.log (state.openFor ans path spec pending).2.log := by
  have hraw : Adds state.log (state.openRaw ans path spec).2.log := by
    unfold State.openRaw
    repeat' split
    · exact refl _
    · exact refl _
    · exact refl _
    · exact one trivial
  have hsized : Adds state.log (state.openSized ans pending.id path spec).2.log := by
    unfold State.openSized
    split
    · next hopen =>
        rw [hopen] at hraw
        exact hraw
    · next fd mid hopen =>
        rw [hopen] at hraw
        have hissued : Adds state.log (.syscall pending.id fd .fstat :: mid.log) :=
          hraw.cons (by simp [Event.inert])
        simp only
        split
        · exact hissued
        · exact hissued.cons trivial
  unfold State.openFor
  split
  · split
    · next hopen =>
        rw [hopen] at hraw
        exact hraw
    · next hopen =>
        rw [hopen] at hraw
        exact hraw
  · exact hsized
  · exact hsized

theorem stepJob {job job' : Job} {transferred : Transferred} {reply : Option Outcome}
    {next : State} (hstep : state.stepJob ans transferred job = (job', reply, next)) :
    Adds state.log next.log := by
  have hlog := stepJob_state state ans transferred job
  rw [hstep] at hlog
  rcases hlog with hsame | hstat
  · change next = state at hsame
    rw [hsame]
    exact refl _
  · change next = state.issue job.id job.fd .fstat at hstat
    rw [hstat]
    exact one (by simp [Event.inert])

theorem prepared (job : Job) : Adds log (.syscall job.id job.fd (prepare job).2 :: log) := by
  refine one ?_
  obtain ⟨id, cancelled, kind, cb⟩ := job
  cases kind <;> simp [Event.inert, prepare]

theorem synced (job : Job) : Adds log (.syscall job.id job.fd (syncCall job) :: log) := by
  refine one ?_
  obtain ⟨id, cancelled, kind, cb⟩ := job
  cases kind with
  | read read => simp [Event.inert, syncCall]
  | fsync fsync => simp [Event.inert, syncCall]
  | write write =>
      simp only [Event.inert, syncCall]
      split <;> simp

theorem finish {job : Job} {result : Outcome} (hcb : job.cb = job.id)
    (hcalls : ∀ errno, ans.Fails errno → errno ≠ .ecanceled)
    (hresult : result = .error cancelledError → CancelAsked job.id state.log) :
    Adds state.log (state.finish ans job result).log := by
  obtain ⟨grown, hgrown, hlog⟩ := Chores.finish ans state job result
  have hsettled : Adds state.log (.settled job.cb result :: grown) := by
    rw [hcb]
    exact (refl state.log).chores hgrown hresult
  rcases hlog with hlog | ⟨handle, entry, cb, carriers, -, -, hlog⟩
  · rw [hlog]
    exact hsettled
  · rw [hlog]
    have hclosed : Adds state.log (.closed entry.fd carriers :: .settled job.cb result :: grown) :=
      hsettled.cons trivial
    exact hclosed.cons (close_ne_cancelled hcalls)

end Adds

/-! ## What a cancel can find -/

/-- The jobs and opens of the driver. -/
structure Holdings where
  queue : List Job
  running : List Job
  inflight : List Inflight
  cancelledOpens : Finset OpId
  pendingOpens : Finset OpId
  pendings : List PendingOpen
  messages : List Opened

namespace State

variable {ans : Answers}

def holdings (state : State) : Holdings :=
  ⟨state.queue, state.task.jobs, state.inflight, state.cancelledOpens, state.pendingOpens,
    state.pendings, state.messages⟩

theorem holdings_view {state next : State} (hview : next.view = state.view) :
    next.holdings = state.holdings := by
  simp only [State.view, View.mk.injEq] at hview
  obtain ⟨-, hjobs, hhelpers, hback, hpending, hcancelled, -, -, hinflight, hqueue, hrunning, -⟩ :=
    hview
  simp only [State.holdings, State.pendings, State.messages, hjobs, hhelpers, hback, hpending,
    hcancelled, hinflight, hqueue, hrunning]

theorem holdings_closeOwned (fd : Fd) (state : State) :
    (state.closeOwned ans fd).holdings = state.holdings := by
  unfold State.closeOwned
  split
  · rfl
  · split
    · simp [State.holdings, State.pendings, State.messages, HelperJob.pendings]
    · rfl

theorem holdings_finish (job : Job) (result : Outcome) (state : State) :
    (state.finish ans job result).holdings = state.holdings := by
  obtain ⟨mid, hmid, hkept⟩ : ∃ mid,
      (if job.ownedFd then state.closeOwned ans job.fd else state) = mid ∧
        mid.holdings = state.holdings := by
    refine ⟨_, rfl, ?_⟩
    split
    · exact holdings_closeOwned job.fd state
    · rfl
  unfold State.finish
  simp only [hmid]
  repeat' split
  all_goals exact hkept

theorem holdings_openFor (path : Path) (spec : OpenSpec) (pending : PendingOpen) (state : State) :
    (state.openFor ans path spec pending).2.holdings = state.holdings := by
  rw [openFor_snd]
  rfl

theorem holdings_stepJob {state next : State} {transferred : Transferred} {job job' : Job}
    {reply : Option Outcome} (hstep : state.stepJob ans transferred job = (job', reply, next)) :
    next.holdings = state.holdings ∧ job'.id = job.id ∧ job'.cancelled = job.cancelled := by
  have hlog := stepJob_state state ans transferred job
  have hsame := (after_of_stepJob .fstat hstep).2
  rw [hstep] at hlog
  refine ⟨?_, by rw [hsame], by rw [hsame]⟩
  rcases hlog with hnext | hstat
  · change next = state at hnext
    rw [hnext]
  · change next = state.issue job.id job.fd .fstat at hstat
    rw [hstat]
    rfl

end State

theorem sent_of_submitted {id : OpId} {log : List Event} (hmem : id ∈ submittedIds log) :
    ∃ op cb, Event.sent (.submit id op cb) ∈ log := by
  induction log with
  | nil => cases hmem
  | cons event log ih =>
      have hold : id ∈ submittedIds log →
          ∃ op cb, Event.sent (.submit id op cb) ∈ event :: log := by
        intro hearlier
        obtain ⟨op, cb, hsent⟩ := ih hearlier
        exact ⟨op, cb, List.mem_cons_of_mem _ hsent⟩
      cases event with
      | sent msg =>
          cases msg with
          | cancel other => exact hold hmem
          | submit other op cb =>
              rcases List.mem_cons.mp hmem with rfl | hearlier
              · exact ⟨op, cb, List.mem_cons_self⟩
              · exact hold hearlier
      | handled msg => exact hold hmem
      | opened fd path flags => exact hold hmem
      | closed fd carriers => exact hold hmem
      | syscall other fd call => exact hold hmem
      | registered handle fd => exact hold hmem
      | settled cb result => exact hold hmem

/-- An op the driver has, or had, was handled. -/
theorem handled_of_underway {state : State} {jobs : List Job} {fds : List Fd} {cbs : List Callback}
    (hcons : Consistent jobs fds cbs state) (haccounted : Accounted state) {id : OpId}
    (hunder : Underway id state) : ∃ op, Event.handled (.submit id op id) ∈ state.log := by
  obtain ⟨op, cb, hsent⟩ := sent_of_submitted hunder.submitted
  obtain rfl := hcons.ownCb id op cb hsent
  exact ⟨op, (haccounted.waits hsent).resolve_left (hunder.absent op cb)⟩

/-! ## The invariant -/

/-- Every flag, every noted open and every `ECANCELED` goes back to a request. -/
structure Flags (hand : Hand) (state : State) : Prop where
  asked : Asked state.log
  calls : ∀ id fd, Event.syscall id fd .aioCancel ∈ state.log →
    CancelAsked id state.log ∨ ∃ result, Event.settled id result ∈ state.log
  inflight : ∀ entry ∈ state.inflight, entry.job.cancelled = true →
    CancelAsked entry.job.id state.log
  idle : ∀ job ∈ state.queue ++ state.task.jobs, job.cancelled = false
  opens : ∀ id ∈ state.cancelledOpens, CancelAsked id state.log
  within : state.cancelledOpens ⊆ state.pendingOpens
  pending : ∀ id ∈ state.pendingOpens, ∃ op, Event.handled (.submit id op id) ∈ state.log
  messages : ∀ message ∈ state.messages, message.result ≠ .error cancelledError
  ending : ∀ job, hand = .ending job (.error cancelledError) → CancelAsked job.id state.log
  opening : ∀ pending, hand ≠ .opening pending (.error cancelledError)

namespace Flags

variable {hand hand' : Hand} {state next : State}

/-- The log has grown by what needs no request; no flag and no open is new. -/
theorem frame (hflags : Flags hand state) (hlog : Adds state.log next.log)
    (hinflight : ∀ entry ∈ next.inflight, entry ∈ state.inflight ∨ entry.job.cancelled = false)
    (hidle : ∀ job ∈ next.queue ++ next.task.jobs,
      job ∈ state.queue ++ state.task.jobs ∨ job.cancelled = false)
    (hopens : next.cancelledOpens = state.cancelledOpens)
    (hpending : next.pendingOpens = state.pendingOpens)
    (hmessages : ∀ message ∈ next.messages, message ∈ state.messages)
    (hending : ∀ job, hand' = .ending job (.error cancelledError) → CancelAsked job.id next.log)
    (hopening : ∀ pending, hand' ≠ .opening pending (.error cancelledError)) :
    Flags hand' next where
  asked := hlog.asked hflags.asked
  calls id fd hmem := by
    rcases hlog.calls id fd hmem with hold | hsettled
    · rcases hflags.calls id fd hold with hasked | ⟨result, hsettled⟩
      · exact .inl (hasked.mono hlog.suffix)
      · exact .inr ⟨result, hlog.suffix.subset hsettled⟩
    · exact .inr hsettled
  inflight entry hmem hflag := by
    rcases hinflight entry hmem with hold | hfree
    · exact (hflags.inflight entry hold hflag).mono hlog.suffix
    · rw [hfree] at hflag
      cases hflag
  idle job hmem := (hidle job hmem).elim (hflags.idle job) id
  opens id hmem := (hflags.opens id (hopens ▸ hmem)).mono hlog.suffix
  within := by
    rw [hopens, hpending]
    exact hflags.within
  pending id hmem := by
    obtain ⟨op, hhandled⟩ := hflags.pending id (hpending ▸ hmem)
    exact ⟨op, hlog.suffix.subset hhandled⟩
  messages message hmem := hflags.messages message (hmessages message hmem)
  ending := hending
  opening := hopening

/-- Only the log changes, and what is in hand. -/
theorem log (hflags : Flags hand state) (hsame : next.holdings = state.holdings)
    (hlog : Adds state.log next.log)
    (hending : ∀ job, hand' = .ending job (.error cancelledError) → CancelAsked job.id next.log)
    (hopening : ∀ pending, hand' ≠ .opening pending (.error cancelledError)) :
    Flags hand' next := by
  simp only [State.holdings, Holdings.mk.injEq] at hsame
  obtain ⟨hqueue, hrunning, hinflight, hopens, hpending, -, hmessages⟩ := hsame
  refine hflags.frame hlog (fun entry hmem => .inl (hinflight ▸ hmem)) (fun job hmem => .inl ?_)
    hopens hpending (fun message hmem => hmessages ▸ hmem) hending hopening
  rwa [hqueue, hrunning] at hmem

theorem empty (hflags : Flags hand state) (hsame : next.holdings = state.holdings)
    (hlog : Adds state.log next.log) : Flags .empty next :=
  hflags.log hsame hlog (fun _ hsame => by cases hsame) (fun _ hsame => by cases hsame)

theorem enqueue (hflags : Flags hand state) (id : OpId) (kind : JobKind) (handle : Option Handle)
    (cb : Callback) : Flags .empty (state.enqueue id kind handle cb) := by
  refine hflags.frame (.refl _) (fun _ hmem => .inl hmem) (fun job hmem => ?_) rfl rfl
    (fun _ hmem => hmem) (fun _ hsame => by cases hsame) (fun _ hsame => by cases hsame)
  simp only [State.enqueue, Task.jobs_submitReady, List.append_nil, List.mem_append,
    List.mem_singleton] at hmem
  rcases hmem with hold | rfl
  · exact .inl (List.mem_append_left _ hold)
  · exact .inr rfl

/-- An open comes back; it is not noted any more. -/
theorem takeBack (hflags : Flags hand state) {message : Opened} {back : List Opened}
    (hback : state.back = message :: back) {cancelled : Finset OpId}
    (hsub : cancelled ⊆ state.cancelledOpens) (hgone : message.pending.id ∉ cancelled) :
    Flags .empty { state with
      back := back
      progress := true
      pendingOpens := state.pendingOpens.erase message.pending.id
      cancelledOpens := cancelled } where
  asked := hflags.asked
  calls := hflags.calls
  inflight := hflags.inflight
  idle := hflags.idle
  opens id hmem := hflags.opens id (hsub hmem)
  within := by
    intro id hmem
    refine Finset.mem_erase.mpr ⟨?_, hflags.within (hsub hmem)⟩
    rintro rfl
    exact hgone hmem
  pending id hmem := hflags.pending id (Finset.mem_of_mem_erase hmem)
  messages other hmem := by
    apply hflags.messages
    simp only [State.messages, hback, List.mem_append, List.mem_cons] at hmem ⊢
    tauto
  ending _ hsame := by cases hsame
  opening _ hsame := by cases hsame

end Flags

section Actions

variable {ans : Answers} {hand hand' : Hand} {state next : State}

theorem mem_messages_setHelper {index : ℕ} {new : Helper} {message : Opened}
    (hmem : message ∈
      ({ state with helpers := state.helpers.set index new } : State).messages) :
    message ∈ new.messages ∨ message ∈ state.messages := by
  simp only [State.messages, List.mem_append, List.mem_flatMap] at hmem ⊢
  rcases hmem with ⟨helper, hhelper, hin⟩ | hback
  · rcases List.mem_or_eq_of_mem_set hhelper with hold | rfl
    · exact .inr (.inl ⟨helper, hold, hin⟩)
    · exact .inl hin
  · exact .inr (.inr hback)

theorem mem_messages_of_helper {index : ℕ} {message : Opened}
    (hget : state.helpers[index]? = some (.sending message)) : message ∈ state.messages := by
  simp only [State.messages, List.mem_append, List.mem_flatMap]
  exact .inl ⟨_, List.mem_of_getElem? hget, List.mem_singleton.mpr rfl⟩

/-- The request that finds its op among the jobs. -/
theorem cancelAsked_of_job (hcons : Consistent [] [] [] state) (haccounted : Accounted state)
    {job : Job} (hlive : job ∈ state.liveJobs) :
    CancelAsked job.id (.handled (.cancel job.id) :: state.log) := by
  have hrole : job.role ∈ state.roles [] := List.mem_map_of_mem hlive
  have hunder : Underway job.id state := hcons.underway_of_role hrole
  obtain ⟨op, hhandled⟩ := handled_of_underway hcons haccounted hunder
  exact ⟨op, .head hhandled⟩

theorem adds_handled (msg : Msg) : Adds state.log (.handled msg :: state.log) := .one trivial

namespace Flags

/-! ### Messages -/

theorem answered (hflags : Flags .empty state) (hledger : Hand.empty.Ledger state) {id : OpId}
    {op : Op} {cb : Callback} {rx : List Msg} (fd : Fd) {result : Outcome} {calls : List Syscall}
    (hrx : state.rx = .submit id op cb :: rx)
    (hquiet : ∀ call ∈ calls, call.transfers = false) (hresult : result ≠ .error cancelledError) :
    Flags .empty ((calls.foldr (State.issue id fd) (state.received (.submit id op cb) rx)).settle
      cb result) := by
  obtain rfl := hledger.cons.cb_eq_id hrx
  have hgrown : Chores cb (state.received (.submit cb op cb) rx).log
      (calls.foldr (State.issue cb fd) (state.received (.submit cb op cb) rx)).log :=
    Chores.issues cb fd calls hquiet
  have hlog := @Adds.chores state.log _ cb (adds_handled (.submit cb op cb)) _ hgrown result
    fun hsame => absurd hsame hresult
  refine hflags.empty ?_ hlog
  rw [issues_eq]
  rfl

theorem enqueued (hflags : Flags .empty state) (id : OpId) (op : Op) (cb : Callback)
    (rx : List Msg) (handle : Handle) (kind : JobKind) (asks : Bool) :
    Flags .empty (((state.received (.submit id op cb) rx).asked asks id
      (Job.mk id false kind cb).fd).enqueue id kind (some handle) cb) := by
  have hlog : Adds state.log
      ((state.received (.submit id op cb) rx).asked asks id (Job.mk id false kind cb).fd).log := by
    cases asks with
    | false => exact adds_handled _
    | true => exact (adds_handled _).cons (by simp [Event.inert])
  have hkept : ((state.received (.submit id op cb) rx).asked asks id
      (Job.mk id false kind cb).fd).holdings = state.holdings := by
    cases asks <;> rfl
  have hasked : Flags .empty ((state.received (.submit id op cb) rx).asked asks id
      (Job.mk id false kind cb).fd) := hflags.empty hkept hlog
  exact hasked.enqueue id kind (some handle) cb

theorem openedHere (hflags : Flags .empty state)
    (hcalls : ∀ errno, ans.Fails errno → errno ≠ .ecanceled) (id : OpId) (op : Op) (cb : Callback)
    (rx : List Msg) (path : Path) (spec : OpenSpec) (after : AfterOpen) :
    Flags
      (.opening ⟨id, after, cb⟩
        ((state.received (.submit id op cb) rx).openFor ans path spec ⟨id, after, cb⟩).1)
      ((state.received (.submit id op cb) rx).openFor ans path spec ⟨id, after, cb⟩).2 := by
  have hreceived : Flags .empty (state.received (.submit id op cb) rx) :=
    hflags.empty rfl (adds_handled _)
  refine hreceived.log (State.holdings_openFor _ _ _ _) (Adds.openFor _ _ _)
    (fun _ hsame => by cases hsame) (fun pending hsame => ?_)
  obtain ⟨-, hresult⟩ := Hand.opening.inj hsame
  exact openFor_ne_cancelled hcalls _ _ _ _ hresult

theorem sentOpen (hflags : Flags .empty state) (hledger : Hand.empty.Ledger state) {id : OpId}
    {op : Op} {cb : Callback} {rx : List Msg} (path : Path) (spec : OpenSpec) (after : AfterOpen)
    (hrx : state.rx = .submit id op cb :: rx) :
    Flags .empty { state.received (.submit id op cb) rx with
      pendingOpens := insert id state.pendingOpens
      helperQueue := state.helperQueue ++ [.openFile path spec ⟨id, after, cb⟩] } := by
  obtain rfl := hledger.cons.cb_eq_id hrx
  have hreceived : Flags .empty (state.received (.submit cb op cb) rx) :=
    hflags.empty rfl (adds_handled _)
  refine { hreceived with within := ?_, pending := ?_ }
  · exact fun other hmem => Finset.mem_insert_of_mem (hflags.within hmem)
  · intro other hmem
    rcases Finset.mem_insert.mp hmem with rfl | hold
    · exact ⟨op, List.mem_cons_self⟩
    · exact hreceived.pending other hold

/-! ### Cancels -/

/-- The op is queued. -/
theorem cancelQueued (hflags : Flags .empty state) (hledger : Hand.empty.Ledger state)
    (haccounted : Accounted state) {id : OpId} (rx : List Msg) {job : Job}
    (hfind : state.queue.find? (fun job => job.id = id) = some job) :
    Flags (.ending job (.error cancelledError)) { state.received (.cancel id) rx with
      queue := state.queue.eraseP fun job => job.id = id } := by
  obtain rfl : job.id = id := by simpa using List.find?_some hfind
  have hmem : job ∈ state.queue := List.mem_of_find?_eq_some hfind
  have hlive : job ∈ state.liveJobs := by simp [State.liveJobs, hmem]
  refine hflags.frame (adds_handled _) (fun _ hmem => .inl hmem) (fun other hmem => .inl ?_) rfl
    rfl (fun _ hmem => hmem) (fun other hsame => ?_) (fun _ hsame => by cases hsame)
  · rcases List.mem_append.mp hmem with hqueue | hrunning
    · exact List.mem_append_left _ (List.mem_of_mem_eraseP hqueue)
    · exact List.mem_append_right _ hrunning
  · obtain ⟨rfl, -⟩ := Hand.ending.inj hsame
    exact cancelAsked_of_job hledger.cons haccounted hlive

/-- The op is with the kernel. -/
theorem cancelInflight (hflags : Flags .empty state) (hledger : Hand.empty.Ledger state)
    (haccounted : Accounted state) (rx : List Msg) {index : ℕ} {entry : Inflight}
    (hget : state.inflight[index]? = some entry) :
    Flags .empty (({ state.received (.cancel entry.job.id) rx with
      inflight := state.inflight.modify index fun entry =>
        { entry with job := { entry.job with cancelled := true } } }).issue
      entry.job.id entry.aiocb.fildes .aioCancel) := by
  have hlive : entry.job ∈ state.liveJobs :=
    List.mem_append_right _ (List.mem_map_of_mem (List.mem_of_getElem? hget))
  have hasked := cancelAsked_of_job hledger.cons haccounted hlive
  have hreceived : Flags .empty (state.received (.cancel entry.job.id) rx) :=
    hflags.empty rfl (adds_handled _)
  have hsuffix : ∀ {other : OpId},
      CancelAsked other (.handled (.cancel entry.job.id) :: state.log) →
      CancelAsked other (.syscall entry.job.id entry.aiocb.fildes .aioCancel ::
        .handled (.cancel entry.job.id) :: state.log) :=
    fun hother => hother.mono (List.suffix_cons _ _)
  refine
    { asked := hreceived.asked
      calls := fun other fd hmem => ?_
      inflight := fun other hmem hflag => ?_
      idle := hflags.idle
      opens := fun other hmem => hsuffix (hreceived.opens other hmem)
      within := hflags.within
      pending := fun other hmem => ?_
      messages := hflags.messages
      ending := fun _ hsame => by cases hsame
      opening := fun _ hsame => by cases hsame }
  · rcases List.mem_cons.mp hmem with hnow | hearlier
    · cases hnow
      exact .inl (hsuffix hasked)
    · rcases hreceived.calls other fd hearlier with hold | ⟨result, hsettled⟩
      · exact .inl (hsuffix hold)
      · exact .inr ⟨result, List.mem_cons_of_mem _ hsettled⟩
  · rcases mem_modify hmem with hold | ⟨old, hold, rfl⟩
    · exact hsuffix (hreceived.inflight other hold hflag)
    · rw [hget] at hold
      obtain rfl := Option.some.inj hold
      exact hsuffix hasked
  · obtain ⟨op, hhandled⟩ := hreceived.pending other hmem
    exact ⟨op, List.mem_cons_of_mem _ hhandled⟩

/-- The op is an open that is still out. -/
theorem cancelOpening (hflags : Flags .empty state) {id : OpId} (rx : List Msg)
    (hpending : id ∈ state.pendingOpens) :
    Flags .empty { state.received (.cancel id) rx with
      cancelledOpens := insert id state.cancelledOpens } := by
  obtain ⟨op, hhandled⟩ := hflags.pending id hpending
  have hreceived : Flags .empty (state.received (.cancel id) rx) :=
    hflags.empty rfl (adds_handled _)
  refine { hreceived with opens := ?_, within := ?_ }
  · intro other hmem
    rcases Finset.mem_insert.mp hmem with rfl | hold
    · exact ⟨op, .head hhandled⟩
    · exact hreceived.opens other hold
  · intro other hmem
    rcases Finset.mem_insert.mp hmem with rfl | hold
    · exact hpending
    · exact hflags.within hold

/-! ### Chunks and requests -/

/-- A chunk leaves the table in flight. -/
theorem reaped (hflags : Flags .empty state) {index : ℕ} {entry : Inflight}
    {transferred : Transferred} {job : Job} {reply : Option Outcome} {result : Outcome}
    (hget : state.inflight[index]? = some entry)
    (hstep : ({ state with
      inflight := swapRemove state.inflight index, progress := true }).stepJob ans transferred
        entry.job = (job, reply, next))
    (hresult : result = .error cancelledError → CancelAsked job.id next.log) :
    Flags (.ending job result) next := by
  have hlog : Adds state.log next.log := by
    have hadds := Adds.stepJob hstep
    exact hadds
  have hsame := (State.holdings_stepJob hstep).1
  simp only [State.holdings, Holdings.mk.injEq] at hsame
  obtain ⟨hqueue, hrunning, hinflight, hopens, hpending, -, hmessages⟩ := hsame
  refine hflags.frame hlog (fun other hmem => .inl ?_) (fun other hmem => .inl ?_) hopens
    hpending (fun message hmem => ?_) ?_ (fun _ hsame => by cases hsame)
  · rw [hinflight] at hmem
    exact mem_of_mem_swapRemove hget hmem
  · rwa [hqueue, hrunning] at hmem
  · rw [hmessages] at hmem
    exact hmem
  · intro other hending
    obtain ⟨rfl, rfl⟩ := Hand.ending.inj hending
    exact hresult rfl

/-- The job on the thread takes in a chunk. -/
theorem executed (hflags : Flags .empty state) {job job' : Job} {transferred : Transferred}
    {reply : Option Outcome} (htask : state.task = .executeSync job)
    (hstep : (state.issue job.id job.fd (syncCall job)).stepJob ans transferred job =
      (job', reply, next)) : job'.cancelled = false ∧ Flags .empty next := by
  obtain ⟨hsame, -, hflag⟩ := State.holdings_stepJob hstep
  refine ⟨hflag.trans (hflags.idle job (by simp [htask])), ?_⟩
  have hissued : Flags .empty (state.issue job.id job.fd (syncCall job)) :=
    hflags.empty rfl (.synced job)
  exact hissued.empty hsame (.stepJob hstep)

/-- A job that is not flagged goes back to the queue or to the thread. -/
theorem goesOn (hflags : Flags hand state) {job : Job} (hfree : job.cancelled = false)
    (hlog : next.log = state.log)
    (hjobs : ∀ other ∈ next.queue ++ next.task.jobs, other = job ∨ other ∈ state.queue)
    (hinflight : next.inflight = state.inflight)
    (hopens : next.cancelledOpens = state.cancelledOpens)
    (hpending : next.pendingOpens = state.pendingOpens)
    (hmessages : next.messages = state.messages) : Flags .empty next := by
  refine hflags.frame (hlog ▸ .refl _) (fun _ hmem => .inl (hinflight ▸ hmem))
    (fun other hmem => ?_) hopens hpending (fun _ hmem => hmessages ▸ hmem)
    (fun _ hsame => by cases hsame) (fun _ hsame => by cases hsame)
  rcases hjobs other hmem with rfl | hold
  · exact .inr hfree
  · exact .inl (List.mem_append_left _ hold)

/-- The thread is done with its job. -/
theorem freed (hflags : Flags .empty state) {job : Job} {result : Outcome}
    (hresult : result ≠ .error cancelledError) :
    Flags (.ending job result) { state with task := .submitReady } := by
  refine hflags.frame (.refl _) (fun _ hmem => .inl hmem) (fun other hmem => .inl ?_) rfl rfl
    (fun _ hmem => hmem) (fun _ hsame => ?_) (fun _ hsame => by cases hsame)
  · simp only [Task.jobs_submitReady, List.append_nil] at hmem
    exact List.mem_append_left _ hmem
  · obtain ⟨-, hsame⟩ := Hand.ending.inj hsame
    exact absurd hsame hresult

/-- The request for the job at the head of the queue is made; the job is then in
one of its places. -/
theorem requested (hflags : Flags .empty state) {job : Job} {queue : List Job}
    (hqueue : state.queue = job :: queue)
    (hlog : next.log = .syscall job.id job.fd (prepare job).2 :: state.log)
    (hjobs : ∀ other ∈ next.queue ++ next.task.jobs, other ∈ (job :: queue) ++ state.task.jobs)
    (hinflight : ∀ entry ∈ next.inflight, entry ∈ state.inflight ∨ entry.job = job)
    (hopens : next.cancelledOpens = state.cancelledOpens)
    (hpending : next.pendingOpens = state.pendingOpens)
    (hmessages : next.messages = state.messages) : Flags .empty next := by
  refine hflags.frame (hlog ▸ .prepared job) (fun entry hmem => ?_) (fun other hmem => .inl ?_)
    hopens hpending (fun _ hmem => hmessages ▸ hmem) (fun _ hsame => by cases hsame)
    (fun _ hsame => by cases hsame)
  · refine (hinflight entry hmem).imp_right fun hjob => ?_
    rw [hjob]
    exact hflags.idle job (by simp [hqueue])
  · rw [hqueue]
    exact hjobs other hmem

/-- What is in hand fails, but not as cancelled. -/
theorem fails (hflags : Flags .empty state) (job : Job) {errno : Errno}
    (herrno : errno ≠ .ecanceled) : Flags (.ending job (.error (.os errno))) state :=
  { hflags with
    ending := fun _ hsame => by
      obtain ⟨-, hresult⟩ := Hand.ending.inj hsame
      exact absurd (IoError.os.inj (Except.error.inj hresult)) herrno
    opening := fun _ hsame => by cases hsame }

/-! ### Opens and helpers -/

theorem tookOpened (hflags : Flags .empty state) {message : Opened} {back : List Opened}
    (hback : state.back = message :: back) (hkept : message.pending.id ∉ state.cancelledOpens) :
    Flags (.opening message.pending message.result) { state with
      back := back
      progress := true
      pendingOpens := state.pendingOpens.erase message.pending.id } := by
  have hmessage : message ∈ state.messages := by simp [State.messages, hback]
  refine { hflags.takeBack hback (Finset.Subset.refl _) hkept with
    opening := fun pending hsame => ?_, ending := fun _ hsame => by cases hsame }
  obtain ⟨-, hresult⟩ := Hand.opening.inj hsame
  exact hflags.messages message hmessage hresult

theorem openCancelled (hflags : Flags .empty state) (hledger : Hand.empty.Ledger state)
    {message : Opened} {back : List Opened} (hback : state.back = message :: back)
    (hcancelled : message.pending.id ∈ state.cancelledOpens) :
    Flags .empty ((({ state with
      back := back
      progress := true
      pendingOpens := state.pendingOpens.erase message.pending.id
      cancelledOpens := state.cancelledOpens.erase message.pending.id } : State).closeOpened
        message.result).settle message.pending.cb (.error cancelledError)) := by
  have hown : message.pending.cb = message.pending.id := (hledger.cons.takeBack hback).1
  have htaken := hflags.takeBack hback (Finset.erase_subset message.pending.id _)
    (Finset.notMem_erase _ _)
  refine htaken.empty ?_ ?_
  · rw [closeOpened_eq]
    rfl
  · rw [hown]
    refine (Adds.refl _).chores (Chores.closeOpened message.pending.id _) fun _ => ?_
    exact hflags.opens _ hcancelled

/-- A helper comes to another stage. -/
theorem helped (hflags : Flags .empty state) (hlog : Adds state.log next.log)
    (hmessages : ∀ message ∈ next.messages, message ∈ state.messages)
    (hinflight : next.inflight = state.inflight)
    (hjobs : next.queue ++ next.task.jobs = state.queue ++ state.task.jobs)
    (hopens : next.cancelledOpens = state.cancelledOpens)
    (hpending : next.pendingOpens = state.pendingOpens) : Flags .empty next :=
  hflags.frame hlog (fun _ hmem => .inl (hinflight ▸ hmem)) (fun _ hmem => .inl (hjobs ▸ hmem))
    hopens hpending hmessages (fun _ hsame => by cases hsame) (fun _ hsame => by cases hsame)

/-- A helper that brings nothing back. -/
theorem mem_messages_of_silent {index : ℕ} {helper : Helper} (hsilent : helper.messages = [])
    {message : Opened}
    (hmem : message ∈ ({ state with helpers := state.helpers.set index helper } : State).messages) :
    message ∈ state.messages := by
  refine (mem_messages_setHelper hmem).resolve_left ?_
  rw [hsilent]
  exact List.not_mem_nil

theorem helperOpened (hflags : Flags .empty state)
    (hcalls : ∀ errno, ans.Fails errno → errno ≠ .ecanceled) (index : ℕ) (path : Path)
    (spec : OpenSpec) (pending : PendingOpen) :
    Flags .empty { (state.openFor ans path spec pending).2 with
      helpers := state.helpers.set index
        (.sending ⟨pending, (state.openFor ans path spec pending).1⟩) } := by
  have hopened : Flags .empty (state.openFor ans path spec pending).2 :=
    hflags.empty (State.holdings_openFor _ _ _ _) (Adds.openFor _ _ _)
  have hresult := openFor_ne_cancelled hcalls state path spec pending
  have hsnd := openFor_snd state ans path spec pending
  generalize (state.openFor ans path spec pending).1 = result at hresult
  generalize (state.openFor ans path spec pending).2 = opened at hopened hsnd
  rw [hsnd] at hopened ⊢
  refine { hopened with messages := fun message hmem => ?_ }
  rcases mem_messages_setHelper hmem with hnew | hold
  · rw [List.mem_singleton.mp hnew]
    exact hresult
  · exact hflags.messages message hold

theorem helperSent (hflags : Flags .empty state) {index : ℕ} {message : Opened}
    (hget : state.helpers[index]? = some (.sending message)) :
    Flags .empty { state with
      helpers := state.helpers.set index .idle
      back := state.back ++ [message] } := by
  refine hflags.helped (.refl _) (fun other hmem => ?_) rfl rfl rfl rfl
  have hback : other ∈ ({ state with helpers := state.helpers.set index .idle } : State).messages ∨
      other = message := by
    simp only [State.messages, List.mem_append, List.mem_singleton] at hmem ⊢
    tauto
  rcases hback with hold | rfl
  · exact mem_messages_of_silent (rfl : Helper.idle.messages = []) hold
  · exact mem_messages_of_helper hget

theorem view (hflags : Flags .empty state) (hview : next.view = state.view) :
    Flags .empty next := by
  refine hflags.empty (State.holdings_view hview) ?_
  simp only [State.view, View.mk.injEq] at hview
  obtain ⟨-, -, -, -, -, -, -, -, -, -, -, hlog⟩ := hview
  rw [hlog]
  exact .refl _

end Flags

/-! ### Every action -/

theorem Act.flags (huncancelled : ans.Uncancelled) (hact : Act ans hand state hand' next)
    (hledger : hand.Ledger state) (haccounted : Accounted state) (hflags : Flags hand state) :
    Flags hand' next := by
  have hcalls := huncancelled.calls
  cases hact with
  | still hview => exact hflags.view hview
  | sent msg hown => exact hflags.empty rfl (.one trivial)
  | nop hrx => exact hflags.empty rfl ((adds_handled _).cons (by simp [Event.inert]))
  | refused hrx htarget hbad =>
      exact hflags.empty rfl
        ((adds_handled _).cons (by simp [Event.inert, badHandle, cancelledError]))
  | answered calls hrx htarget hclose hopen hquiet hresult =>
      exact hflags.answered hledger _ hrx hquiet (hresult.ne_cancelled hcalls)
  | enqueued asks hrx htask => exact hflags.enqueued _ _ _ _ _ _ asks
  | closeDeferred hrx hlookup hopen hbusy => exact hflags.empty rfl (adds_handled _)
  | closeNow hrx hlookup hopen hidle =>
      exact hflags.empty rfl ((adds_handled _).two trivial (close_ne_cancelled hcalls))
  | openedHere path spec after hrx => exact hflags.openedHere hcalls _ _ _ _ path spec after
  | sentOpen path spec after hrx => exact hflags.sentOpen hledger path spec after hrx
  | cancelQueued hrx hfind => exact hflags.cancelQueued hledger haccounted _ hfind
  | cancelInflight hrx hnone hget hid =>
      subst hid
      exact hflags.cancelInflight hledger haccounted _ hget
  | cancelOpening hrx hnone hflying hpending => exact hflags.cancelOpening _ hpending
  | cancelNothing hrx hnone hflying hpending => exact hflags.empty rfl (adds_handled _)
  | @openFailed _ pending error =>
      have hne : (.error error : Outcome) ≠ .error cancelledError := by
        intro hsame
        exact hflags.opening pending (by rw [Except.error.inj hsame])
      exact hflags.empty rfl (.one hne)
  | registered =>
      refine hflags.empty rfl ((Adds.refl _).two trivial ?_)
      simp [Event.inert]
  | enqueuedOwned htask hhandle howned hfd hstarts => exact hflags.enqueue _ _ _ _
  | tookOpened hback hkept => exact hflags.tookOpened hback hkept
  | openCancelled hback hcancelled => exact hflags.openCancelled hledger hback hcancelled
  | @chunkFailed _ index entry errno hpoint hget haio =>
      have htaken : Flags .empty { state with
          inflight := swapRemove state.inflight index, progress := true } :=
        hflags.frame (.refl _) (fun other hmem => .inl (mem_of_mem_swapRemove hget hmem))
          (fun _ hmem => .inl hmem) rfl rfl (fun _ hmem => hmem) (fun _ hsame => by cases hsame)
          (fun _ hsame => by cases hsame)
      refine htaken.fails entry.job ?_
      rintro rfl
      exact absurd haio huncancelled.aio
  | chunkReplied hget hstep hdone =>
      exact hflags.reaped hget hstep fun hsame =>
        absurd hsame ((stepJob_reply hstep).ne_cancelled hcalls)
  | @chunkFlagged _ stepped index entry transferred job hget hstep hflag hdone =>
      refine hflags.reaped hget hstep fun _ => ?_
      obtain ⟨-, hid, hsame⟩ := State.holdings_stepJob hstep
      rw [hid]
      have hasked := hflags.inflight entry (List.mem_of_getElem? hget) (hsame ▸ hflag)
      have hadds := Adds.stepJob hstep
      exact hasked.mono hadds.suffix
  | @chunkRequeued _ stepped _ _ _ job htask hget hstep hflag hdone =>
      have hstepped : Flags (.ending job (.ok .unit)) stepped :=
        hflags.reaped hget hstep fun hsame => by cases hsame
      refine hstepped.goesOn hflag rfl (fun other hmem => ?_) rfl rfl rfl rfl
      simpa only [Task.jobs_submitReady, List.append_nil, List.mem_cons] using hmem
  | submitInflight htask hqueue =>
      refine hflags.requested hqueue rfl (fun other hmem => ?_) (fun entry hmem => ?_) rfl rfl rfl
      · exact List.mem_cons_of_mem _ hmem
      · exact (List.mem_append.mp hmem).imp_right fun hnew => by rw [List.mem_singleton.mp hnew]
  | submitFull htask hqueue =>
      refine hflags.requested hqueue rfl (fun other hmem => ?_) (fun _ hmem => .inl hmem)
        rfl rfl rfl
      exact List.mem_append_left _ (by simpa using hmem)
  | submitSync htask hqueue =>
      refine hflags.requested hqueue rfl (fun other hmem => ?_) (fun _ hmem => .inl hmem)
        rfl rfl rfl
      simp only [State.issue, State.emit, Task.jobs_executeSync, List.mem_append,
        List.mem_singleton] at hmem
      simp only [List.cons_append, List.mem_append, List.mem_cons]
      tauto
  | @submitFailed _ job queue errno htask hqueue hfails =>
      have hissued : Flags .empty
          (({ state with queue := queue }).issue job.id job.fd (prepare job).2) :=
        hflags.requested hqueue rfl (fun _ hmem => List.mem_cons_of_mem _ hmem)
          (fun _ hmem => .inl hmem) rfl rfl rfl
      exact hissued.fails job (hcalls errno (.submitted hfails))
  | @execFailed _ job errno htask hfails =>
      have hissued : Flags .empty (state.issue job.id job.fd (syncCall job)) :=
        hflags.empty rfl (.synced job)
      exact hissued.freed fun hsame =>
        hcalls errno (.transfer hfails) (IoError.os.inj (Except.error.inj hsame))
  | execReplied htask hstep hdone =>
      exact (hflags.executed htask hstep).2.freed ((stepJob_reply hstep).ne_cancelled hcalls)
  | execAgain htask hstep hdone =>
      obtain ⟨hfree, hstepped⟩ := hflags.executed htask hstep
      refine hstepped.goesOn hfree rfl (fun other hmem => ?_) rfl rfl rfl rfl
      simp only [Task.jobs_executeSync, List.mem_append, List.mem_singleton] at hmem
      exact hmem.symm
  | @ended _ job result =>
      have hcb : job.cb = job.id := hledger.cons.roleIds job.role List.mem_cons_self
      refine hflags.empty (State.holdings_finish job result state) ?_
      exact .finish hcb hcalls fun hsame => hflags.ending job (by rw [hsame])
  | helperTook hget hqueue =>
      exact hflags.helped (.refl _) (fun _ hmem => Flags.mem_messages_of_silent rfl hmem)
        rfl rfl rfl rfl
  | helperExited hget =>
      exact hflags.helped (.refl _) (fun _ hmem => Flags.mem_messages_of_silent rfl hmem)
        rfl rfl rfl rfl
  | helperClosed hget =>
      exact hflags.helped (.one trivial)
        (fun _ hmem => Flags.mem_messages_of_silent (rfl : Helper.idle.messages = []) hmem)
        rfl rfl rfl rfl
  | helperOpened hget hfresh => exact hflags.helperOpened hcalls _ _ _ _
  | helperSent hget => exact hflags.helperSent hget

end Actions

/-! ## Along a run -/

/-- The answers with no control block reported done. -/
def Answers.pending (ans : Answers) : Answers :=
  { ans with aio := .inProgress }

theorem Honest.uncancelled {state : State} {label : Label} (hhonest : Honest state label) :
    label.answers.pending.Uncancelled where
  calls errno hfails := by
    apply hhonest.calls errno
    cases hfails with
    | openFd hfails => exact .openFd hfails
    | stat hfails => exact .stat hfails
    | ftruncate hfails => exact .ftruncate hfails
    | close hfails => exact .close hfails
    | submitted hfails => exact .submitted hfails
    | transfer hfails => exact .transfer hfails
  aio := by simp [Answers.pending]

/-- Only a check of a control block in flight looks whether one is done. -/
theorem drive_pending {state : State} {ans : Answers}
    (hother : ∀ index entry, state.task = .none → state.point = .reap index →
      state.inflight[index]? ≠ some entry) : state.drive ans.pending = state.drive ans := by
  unfold State.drive
  cases htask : state.task with
  | submitReady => rfl
  | executeSync job => rfl
  | none =>
      cases hpoint : state.point with
      | reap index =>
          have hnone : state.inflight[index]? = none :=
            Option.eq_none_iff_forall_ne_some.mpr fun entry => hother index entry htask hpoint
          simp only [State.reap, hnone]
      | head => rfl
      | suspend => rfl
      | drainRx => rfl
      | drainBack => rfl
      | submit => rfl
      | pace => rfl
      | returned => rfl

namespace Flags

variable {state next : State} {label : Label}

theorem acts {ans : Answers} (huncancelled : ans.Uncancelled) (hinv : Invariant state)
    (haccounted : Accounted state) (hflags : Flags .empty state)
    (hacts : Acts ans .empty state next) : Flags .empty next := by
  have hkept : ∀ hand mid hand' after, hand.Ledger mid → Act ans hand mid hand' after →
      (Accounted mid ∧ Flags hand mid) → Accounted after ∧ Flags hand' after :=
    fun hand mid hand' after hledger hact hmid =>
      ⟨hmid.1.passes hact.passes, hact.flags huncancelled hledger hmid.1 hmid.2⟩
  exact (hacts.keep hkept (.empty hinv.ledger) ⟨haccounted, hflags⟩).2

/-- A control block in flight is reported cancelled. -/
theorem reap {ans : Answers} (huncancelled : ans.pending.Uncancelled) (hinv : Invariant state)
    (hflags : Flags .empty state) {index : ℕ} {entry : Inflight}
    (hget : state.inflight[index]? = some entry) (haio : ans.aio = .failed .ecanceled)
    {fd : Fd} (hcall : Event.syscall entry.job.id fd .aioCancel ∈ state.log) :
    Flags .empty (state.reap ans index) := by
  have hlive : entry.job ∈ state.liveJobs :=
    List.mem_append_right _ (List.mem_map_of_mem (List.mem_of_getElem? hget))
  have hrole : entry.job.role ∈ state.roles [] := List.mem_map_of_mem hlive
  have hunder : Underway entry.job.id state := hinv.ledger.underway_of_role hrole
  have hasked : CancelAsked entry.job.id state.log := by
    refine (hflags.calls _ _ hcall).resolve_right ?_
    rintro ⟨result, hsettled⟩
    exact hunder.unsettled result hsettled
  have hcb : entry.job.cb = entry.job.id := hinv.ledger.roleIds _ hrole
  have htaken : Flags .empty { state with
      inflight := swapRemove state.inflight index, progress := true } :=
    hflags.frame (.refl _) (fun other hmem => .inl (mem_of_mem_swapRemove hget hmem))
      (fun _ hmem => .inl hmem) rfl rfl (fun _ hmem => hmem) (fun _ hsame => by cases hsame)
      (fun _ hsame => by cases hsame)
  have hfinished := htaken.empty (@State.holdings_finish ans.pending entry.job
    (.error (.os .ecanceled)) _) (.finish hcb huncancelled.calls fun _ => hasked)
  unfold State.reap
  simp only [hget, haio]
  exact hfinished

theorem step (hinv : Invariant state) (haccounted : Accounted state) (hflags : Flags .empty state)
    (hhonest : Honest state label) (hstep : Darwin.step state label = some next) :
    Flags .empty next := by
  have huncancelled := hhonest.uncancelled
  have hquiet : ∀ other : Label, other.answers = label.answers.pending →
      Darwin.step state other = some next → Flags .empty next :=
    fun other hsame htaken => hflags.acts (hsame ▸ huncancelled) hinv haccounted
      (step_acts hinv htaken)
  cases label with
  | submit id op => exact hquiet (.submit id op) rfl hstep
  | requestCancel id => exact hquiet (.requestCancel id) rfl hstep
  | dropSubmitters => exact hquiet .dropSubmitters rfl hstep
  | help index ans => exact hquiet (.help index ans.pending) rfl hstep
  | drive ans =>
      by_cases hreap : ∃ index entry, state.task = .none ∧ state.point = .reap index ∧
          state.inflight[index]? = some entry
      · obtain ⟨index, entry, htask, hpoint, hget⟩ := hreap
        by_cases haio : ans.aio = .failed .ecanceled
        · obtain ⟨fd, hcall⟩ := hhonest.aio ans index entry rfl htask hpoint hget haio
          simp only [Darwin.step, State.drive, htask, hpoint] at hstep
          split at hstep
          · obtain rfl := Option.some.inj hstep
            exact hflags.reap huncancelled hinv hget haio hcall
          · cases hstep
        · have hunfailed : (Label.drive ans).answers.Uncancelled := ⟨hhonest.calls, haio⟩
          exact hflags.acts hunfailed hinv haccounted (step_acts hinv hstep)
      · refine hquiet (.drive ans.pending) rfl ?_
        rw [← hstep]
        simp only [Darwin.step]
        rw [drive_pending fun index entry htask hpoint hget =>
          hreap ⟨index, entry, htask, hpoint, hget⟩]
        rfl

theorem of_reachable (hreach : driver.ReachableBy Honest state) : Flags .empty state := by
  refine hreach.invariant ?_ ?_
  · rintro _ ⟨hardware, maxInflight, -, rfl⟩
    refine ⟨trivial, ?_, ?_, ?_, ?_, ?_, ?_, ?_, ?_, ?_⟩
    all_goals simp [State.new, State.messages, Helper.messages]
  · intro state label next hprev hflags hhonest hstep
    exact hflags.step (.of_reachable hprev.reachable) (.of_reachable hprev.reachable) hhonest hstep

end Flags

end Turbofile.Darwin
