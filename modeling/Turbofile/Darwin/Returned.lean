import Turbofile.Darwin.Cancelling

/-!
# A descriptor an op opened comes back

A job that opened the file itself, and an open on its way back, are the only
holders of their descriptor.  Whichever way the op ends, cancelled ones
included, the descriptor is then closed, handed to a helper to close, or
registered and in the reply.
-/

namespace Turbofile.Darwin

open Turbofile.Core
open Turbofile.Tally
open Turbofile.Logs
open State

/-- The op holds the descriptor: in a job of its own, in an open that has a
result, or in hand. -/
inductive Owns (id : OpId) (fd : Fd) (hand : Hand) (state : State) : Prop
  | job {role : Role} (hmem : role ∈ state.roles hand.jobs) (hid : role.id = id)
      (howned : role.ownedFd = true) (hfd : role.fd = fd)
  | message {message : Opened} (hmem : message ∈ state.messages) (hid : message.pending.id = id)
      (hfd : message.fd = some fd)
  | opening {pending : PendingOpen} {size : ℕ} (hhand : hand = .opening pending (.ok (fd, size)))
      (hid : pending.id = id)

/-- Since `log` the descriptor was closed, or given to a helper to close, or
registered as a handle that the op replied. -/
def GivenBack (id : OpId) (fd : Fd) (log : List Event) (state : State) : Prop :=
  ∃ events, state.log = events ++ log ∧
    ((∃ carriers, Event.closed fd carriers ∈ events) ∨ fd ∈ state.closes ∨
      ∃ handle size, Event.registered handle fd ∈ events ∧
        Event.settled id (.ok (.handle handle size fd)) ∈ events)

section Actions

variable {ans : Answers} {hand hand' : Hand} {state next : State} {id : OpId} {fd : Fd}

theorem GivenBack.base {log earlier : List Event} (hback : GivenBack id fd log state)
    (hlog : earlier <:+ log) : GivenBack id fd earlier state := by
  obtain ⟨events, hevents, hback⟩ := hback
  obtain ⟨front, rfl⟩ := hlog
  refine ⟨events ++ front, by rw [hevents, List.append_assoc], ?_⟩
  rcases hback with ⟨carriers, hclosed⟩ | hcloser | ⟨handle, size, hregistered, hsettled⟩
  · exact .inl ⟨carriers, List.mem_append_left _ hclosed⟩
  · exact .inr (.inl hcloser)
  · exact .inr (.inr ⟨handle, size, List.mem_append_left _ hregistered,
      List.mem_append_left _ hsettled⟩)

/-- Only a close that a helper has to make may still change. -/
theorem GivenBack.later {log : List Event} (hback : GivenBack id fd log state)
    (hlog : state.log <:+ next.log) (hcloses : fd ∈ state.closes → GivenBack id fd state.log next) :
    GivenBack id fd log next := by
  obtain ⟨events, hevents, hback⟩ := hback
  have hold : log <:+ state.log := hevents ▸ List.suffix_append events log
  rcases hback with ⟨carriers, hclosed⟩ | hcloser | ⟨handle, size, hregistered, hsettled⟩
  · obtain ⟨front, hfront⟩ := hlog
    refine ⟨front ++ events, ?_, .inl ⟨carriers, List.mem_append_right _ hclosed⟩⟩
    rw [← hfront, hevents, List.append_assoc]
  · exact (hcloses hcloser).base hold
  · obtain ⟨front, hfront⟩ := hlog
    refine ⟨front ++ events, ?_, .inr (.inr ⟨handle, size, List.mem_append_right _ hregistered,
      List.mem_append_right _ hsettled⟩)⟩
    rw [← hfront, hevents, List.append_assoc]

theorem GivenBack.closed {log : List Event} {carriers : List OpId} (events : List Event)
    (hlog : state.log = events ++ .closed fd carriers :: log) : GivenBack id fd log state :=
  ⟨events ++ [.closed fd carriers], by simpa using hlog, .inl ⟨carriers, by simp⟩⟩

theorem GivenBack.closes {log : List Event} (hlog : log <:+ state.log) (hmem : fd ∈ state.closes) :
    GivenBack id fd log state := by
  obtain ⟨events, hevents⟩ := hlog
  exact ⟨events, hevents.symm, .inr (.inl hmem)⟩

theorem closes_closeOwned (fd : Fd) :
    (∃ carriers, (state.closeOwned ans fd).log = .closed fd carriers :: state.log) ∧
        (state.closeOwned ans fd).closes = state.closes ∨
      (state.closeOwned ans fd).log = state.log ∧ fd ∈ (state.closeOwned ans fd).closes ∧
        state.closes ⊆ (state.closeOwned ans fd).closes := by
  unfold State.closeOwned
  split
  · exact .inl ⟨⟨_, rfl⟩, rfl⟩
  · split
    · refine .inr ⟨rfl, ?_, fun other hmem => ?_⟩
      · simp [State.closes, HelperJob.closes]
      · simp only [State.closes, List.flatMap_append, List.mem_append] at hmem ⊢
        tauto
    · exact .inl ⟨⟨_, rfl⟩, rfl⟩

/-- Behind the close of an owned descriptor the end of a job leaves the helpers alone. -/
theorem closes_finish (job : Job) (result : Outcome) :
    ∃ mid, (if job.ownedFd then state.closeOwned ans job.fd else state) = mid ∧
      mid.log <:+ (state.finish ans job result).log ∧
        (state.finish ans job result).closes = mid.closes := by
  refine ⟨_, rfl, ?_⟩
  unfold State.finish
  generalize (if job.ownedFd then state.closeOwned ans job.fd else state) = mid
  have hsettled : ∀ log : List Event, log <:+ .settled job.cb result :: log :=
    fun log => List.suffix_cons _ _
  simp only
  split
  · exact ⟨hsettled _, rfl⟩
  · split
    · exact ⟨hsettled _, rfl⟩
    · split
      · exact ⟨hsettled _, rfl⟩
      · split
        · exact ⟨hsettled _, rfl⟩
        · exact ⟨(hsettled _).trans ((List.suffix_cons _ _).trans (List.suffix_cons _ _)), rfl⟩

/-- The descriptor of a job that owns it is given back when the job ends. -/
theorem GivenBack.finish {job : Job} {result : Outcome} (howned : job.ownedFd = true) :
    GivenBack id job.fd state.log (state.finish ans job result) := by
  obtain ⟨mid, hmid, hlog, hcloses⟩ := @closes_finish ans state job result
  rw [if_pos howned] at hmid
  rcases @closes_closeOwned ans state job.fd with ⟨⟨carriers, hclosed⟩, -⟩ | ⟨hsame, hmem, -⟩
  · rw [hmid] at hclosed
    obtain ⟨events, hevents⟩ := hlog
    exact .closed events (by rw [← hevents, hclosed])
  · rw [hmid] at hsame hmem
    exact .closes (hsame ▸ hlog) (hcloses ▸ hmem)

theorem mem_closes_finish {job : Job} {result : Outcome} (hmem : fd ∈ state.closes) :
    fd ∈ (state.finish ans job result).closes := by
  obtain ⟨mid, hmid, -, hcloses⟩ := @closes_finish ans state job result
  rw [hcloses, ← hmid]
  split
  · rcases @closes_closeOwned ans state job.fd with ⟨-, hsame⟩ | ⟨-, -, hkept⟩
    · exact hsame ▸ hmem
    · exact hkept hmem
  · exact hmem

theorem closes_stepJob {job job' : Job} {transferred : Transferred} {reply : Option Outcome}
    (hstep : state.stepJob ans transferred job = (job', reply, next)) :
    next.closes = state.closes := by
  have hlog := stepJob_state state ans transferred job
  rw [hstep] at hlog
  rcases hlog with hsame | hstat
  · change next = state at hsame
    rw [hsame]
  · change next = state.issue job.id job.fd .fstat at hstat
    rw [hstat]
    rfl

theorem mem_set_of_mem {α : Type*} {entries : List α} {index : ℕ} {old new entry : α}
    (hget : entries[index]? = some old) (hmem : entry ∈ entries) :
    entry = old ∨ entry ∈ entries.set index new := by
  obtain ⟨position, hentry⟩ := List.mem_iff_getElem?.mp hmem
  by_cases hsame : index = position
  · subst hsame
    exact .inl (Option.some.inj (hentry.symm.trans hget))
  · exact .inr (List.mem_iff_getElem?.mpr ⟨position, by rw [List.getElem?_set_ne hsame, hentry]⟩)

theorem self_mem_set {α : Type*} {entries : List α} {index : ℕ} {old : α} (new : α)
    (hget : entries[index]? = some old) : new ∈ entries.set index new := by
  obtain ⟨hbound, -⟩ := List.getElem?_eq_some_iff.mp hget
  exact List.mem_iff_getElem?.mpr ⟨index, by rw [List.getElem?_set_self hbound]⟩

/-- A helper's state changes. -/
theorem mem_closes_setHelper {index : ℕ} {old : Helper} (new : Helper)
    (hget : state.helpers[index]? = some old) (hmem : fd ∈ state.closes) :
    fd ∈ old.closes ∨
      fd ∈ ({ state with helpers := state.helpers.set index new } : State).closes := by
  simp only [State.closes, List.mem_append, List.mem_flatMap] at hmem ⊢
  rcases hmem with hqueue | ⟨helper, hhelper, hin⟩
  · exact .inr (.inl hqueue)
  · rcases mem_set_of_mem hget hhelper with rfl | hkept
    · exact .inl hin
    · exact .inr (.inr ⟨helper, hkept, hin⟩)

/-- What the helpers have to close stays with them until they close it. -/
theorem Act.closes (hact : Act ans hand state hand' next) (hmem : fd ∈ state.closes) :
    GivenBack id fd state.log next := by
  have hsuffix := hact.passes.suffix
  have hstays : fd ∈ next.closes → GivenBack id fd state.log next := .closes hsuffix
  cases hact with
  | still hview =>
      apply hstays
      simp only [State.view, View.mk.injEq] at hview
      obtain ⟨-, hqueue, hhelpers, -⟩ := hview
      rwa [State.closes, hqueue, hhelpers]
  | answered calls hrx htarget hclose hopen hcalls hresult =>
      rw [issues_eq] at hstays ⊢
      exact hstays hmem
  | @enqueued _ other op cb rx handle kind asks hrx =>
      cases asks with
      | false => exact hstays hmem
      | true => exact hstays hmem
  | openedHere path spec after hrx htarget hfresh =>
      rw [openFor_snd] at hstays ⊢
      exact hstays hmem
  | sentOpen path spec after hrx htarget =>
      apply hstays
      simp only [State.closes, List.flatMap_append, List.mem_append] at hmem ⊢
      tauto
  | openCancelled hback hcancelled =>
      rw [closeOpened_eq] at hstays ⊢
      exact hstays hmem
  | chunkReplied hget hstep => exact hstays (closes_stepJob hstep ▸ hmem)
  | chunkFlagged hget hstep hflag => exact hstays (closes_stepJob hstep ▸ hmem)
  | chunkRequeued htask hget hstep hflag =>
      have hsame := closes_stepJob hstep
      exact hstays (hsame ▸ hmem)
  | execReplied htask hstep =>
      have hsame := closes_stepJob hstep
      exact hstays (hsame ▸ hmem)
  | execAgain htask hstep =>
      have hsame := closes_stepJob hstep
      exact hstays (hsame ▸ hmem)
  | ended => exact hstays (mem_closes_finish hmem)
  | @helperTook _ index job queue hget hqueue =>
      apply hstays
      simp only [State.closes, hqueue, List.flatMap_cons, List.mem_append, List.mem_flatMap]
        at hmem ⊢
      rcases hmem with (hjob | hrest) | ⟨helper, hhelper, hin⟩
      · exact .inr ⟨.running job, self_mem_set _ hget, hjob⟩
      · exact .inl hrest
      · rcases mem_set_of_mem hget hhelper with rfl | hkept
        · cases hin
        · exact .inr ⟨helper, hkept, hin⟩
  | helperExited hget =>
      exact hstays ((mem_closes_setHelper _ hget hmem).resolve_left (by simp [Helper.closes]))
  | @helperClosed _ index other hget =>
      rcases mem_closes_setHelper .idle hget hmem with hnow | hkept
      · obtain rfl : fd = other := by simpa [Helper.closes, HelperJob.closes] using hnow
        exact .closed [] rfl
      · exact hstays hkept
  | @helperOpened _ index path spec pending hget hfresh =>
      apply hstays
      have hkept := (mem_closes_setHelper
        (.sending ⟨pending, (state.openFor ans path spec pending).1⟩) hget hmem).resolve_left
        (by simp [Helper.closes, HelperJob.closes])
      rw [openFor_snd]
      exact hkept
  | helperSent hget =>
      have hkept := (mem_closes_setHelper .idle hget hmem).resolve_left (by simp [Helper.closes])
      exact hstays hkept
  | _ => exact hstays hmem

theorem mem_messages_keep {index : ℕ} {old : Helper} {message : Opened} (new : Helper)
    (hget : state.helpers[index]? = some old) (hmem : message ∈ state.messages) :
    message ∈ old.messages ∨
      message ∈ ({ state with helpers := state.helpers.set index new } : State).messages := by
  simp only [State.messages, List.mem_append, List.mem_flatMap] at hmem ⊢
  rcases hmem with ⟨helper, hhelper, hin⟩ | hback
  · rcases mem_set_of_mem hget hhelper with rfl | hkept
    · exact .inl hin
    · exact .inr (.inl ⟨helper, hkept, hin⟩)
  · exact .inr (.inr hback)

theorem messages_holdings (hsame : next.holdings = state.holdings) :
    next.messages = state.messages := by
  simp only [State.holdings, Holdings.mk.injEq] at hsame
  exact hsame.2.2.2.2.2.2

/-- An open that has a result waits for the loop, is taken up or is closed. -/
theorem Act.message (hact : Act ans hand state hand' next) {message : Opened}
    (hmem : message ∈ state.messages) (hfd : message.fd = some fd) :
    message ∈ next.messages ∨ hand' = .opening message.pending message.result ∨
      GivenBack id fd state.log next := by
  cases hact with
  | still hview => exact .inl (messages_holdings (State.holdings_view hview) ▸ hmem)
  | answered calls hrx htarget hclose hopen hcalls hresult =>
      rw [issues_eq]
      exact .inl hmem
  | @enqueued _ other op cb rx handle kind asks hrx =>
      cases asks with
      | false => exact .inl hmem
      | true => exact .inl hmem
  | openedHere path spec after hrx htarget hfresh =>
      rw [openFor_snd]
      exact .inl hmem
  | @tookOpened _ taken back hback hkept =>
      simp only [State.messages, hback, List.mem_append, List.mem_cons] at hmem ⊢
      rcases hmem with hhelper | rfl | hrest
      · exact .inl (.inl hhelper)
      · exact .inr (.inl rfl)
      · exact .inl (.inr hrest)
  | @openCancelled _ taken back hback hcancelled =>
      simp only [State.messages, hback, List.mem_append, List.mem_cons] at hmem
      rcases hmem with hhelper | rfl | hrest
      · left
        rw [closeOpened_eq]
        exact List.mem_append_left _ hhelper
      · right
        right
        obtain ⟨pending, result⟩ := message
        cases result with
        | error error => cases hfd
        | ok opened =>
            obtain ⟨other, size⟩ := opened
            obtain rfl := Option.some.inj hfd
            exact .closed [_] rfl
      · left
        rw [closeOpened_eq]
        exact List.mem_append_right _ hrest
  | chunkReplied hget hstep =>
      exact .inl (messages_holdings (State.holdings_stepJob hstep).1 ▸ hmem)
  | chunkFlagged hget hstep hflag =>
      exact .inl (messages_holdings (State.holdings_stepJob hstep).1 ▸ hmem)
  | chunkRequeued htask hget hstep hflag =>
      have hsame := messages_holdings (State.holdings_stepJob hstep).1
      exact .inl (hsame ▸ hmem)
  | execReplied htask hstep =>
      have hsame := messages_holdings (State.holdings_stepJob hstep).1
      exact .inl (hsame ▸ hmem)
  | execAgain htask hstep =>
      have hsame := messages_holdings (State.holdings_stepJob hstep).1
      exact .inl (hsame ▸ hmem)
  | @ended _ job result =>
      exact .inl (messages_holdings (State.holdings_finish job result state) ▸ hmem)
  | @helperTook _ index job queue hget hqueue =>
      have hkept := (mem_messages_keep (.running job) hget hmem).resolve_left
        (by simp [Helper.messages])
      exact .inl hkept
  | helperExited hget =>
      exact .inl ((mem_messages_keep _ hget hmem).resolve_left (by simp [Helper.messages]))
  | helperClosed hget =>
      have hkept := (mem_messages_keep .idle hget hmem).resolve_left (by simp [Helper.messages])
      exact .inl hkept
  | @helperOpened _ index path spec pending hget hfresh =>
      have hkept := (mem_messages_keep
        (.sending ⟨pending, (state.openFor ans path spec pending).1⟩) hget hmem).resolve_left
        (by simp [Helper.messages])
      rw [openFor_snd]
      exact .inl hkept
  | @helperSent _ index sent hget =>
      left
      rcases mem_messages_keep .idle hget hmem with hnow | hkept
      · obtain rfl := List.mem_singleton.mp hnow
        simp [State.messages]
      · simp only [State.messages, List.mem_append] at hkept ⊢
        tauto
  | _ => exact .inl hmem

/-- What an action does with a descriptor that an op holds. -/
theorem Act.owns (hact : Act ans hand state hand' next) (hledger : hand.Ledger state)
    (howns : Owns id fd hand state) : Owns id fd hand' next ∨ GivenBack id fd state.log next := by
  cases howns with
  | job hmem hid howned hfd =>
      rcases hact.roles_or_ended hmem with hkept | ⟨job, result, rfl, rfl, rfl⟩
      · exact .inl (.job hkept hid howned hfd)
      · exact .inr (hfd ▸ .finish howned)
  | @message message hmem hid hfd =>
      rcases hact.message hmem hfd with hkept | htaken | hback
      · exact .inl (.message hkept hid hfd)
      · obtain ⟨pending, result⟩ := message
        cases result with
        | error error => cases hfd
        | ok opened =>
            obtain ⟨other, size⟩ := opened
            obtain rfl := Option.some.inj hfd
            exact .inl (.opening htaken hid)
      · exact .inr hback
  | @opening pending size hhand hid =>
      cases hact with
      | openFailed => cases hhand
      | @registered _ taken opened sized =>
          obtain ⟨rfl, hresult⟩ := Hand.opening.inj hhand
          obtain ⟨rfl, rfl⟩ := Prod.mk.inj (Except.ok.inj hresult)
          have hown := (hledger.own _ _ rfl).trans hid
          right
          refine ⟨[.settled _ _, .registered _ _], rfl, .inr (.inr ⟨state.nextId, sized, ?_, ?_⟩)⟩
          · exact List.mem_cons_of_mem _ List.mem_cons_self
          · rw [hown]
            exact List.mem_cons_self
      | @enqueuedOwned _ _ _ _ kind htask hhandle howned hfd hstarts =>
          obtain ⟨rfl, hresult⟩ := Hand.opening.inj hhand
          obtain ⟨rfl, rfl⟩ := Prod.mk.inj (Except.ok.inj hresult)
          left
          refine @Owns.job _ _ _ _ (Job.mk _ false kind _).role ?_ hid howned hfd
          apply List.mem_map_of_mem
          simp [State.liveJobs, State.enqueue, Hand.jobs]
      | _ => cases hhand

end Actions

/-! ## Along a run -/

section Runs

variable {state next final : State} {id : OpId} {fd : Fd} {label : Label} {labels : List Label}

/-- The op still holds its descriptor, or it has come back since `log`. -/
def Kept (id : OpId) (fd : Fd) (log : List Event) (hand : Hand) (state : State) : Prop :=
  log <:+ state.log ∧ (Owns id fd hand state ∨ GivenBack id fd log state)

theorem Act.kept {ans : Answers} {hand hand' : Hand} {log : List Event}
    (hact : Act ans hand state hand' next) (hledger : hand.Ledger state)
    (hkept : Kept id fd log hand state) : Kept id fd log hand' next := by
  obtain ⟨hlog, howns | hback⟩ := hkept
  · refine ⟨hlog.trans hact.passes.suffix, ?_⟩
    exact (hact.owns hledger howns).imp_right fun hback => hback.base hlog
  · exact ⟨hlog.trans hact.passes.suffix, .inr (hback.later hact.passes.suffix hact.closes)⟩

theorem Kept.exec {log : List Event} (hreach : driver.Reachable state)
    (hkept : Kept id fd log .empty state) (hexec : driver.exec state labels = some final) :
    Kept id fd log .empty final := by
  induction labels generalizing state with
  | nil =>
      obtain rfl : state = final := by simpa [System.exec] using hexec
      exact hkept
  | cons label labels ih =>
      simp only [System.exec, Option.bind_eq_some_iff] at hexec
      obtain ⟨next, hstep, hrest⟩ := hexec
      have hinv := Invariant.of_reachable hreach
      have hnext : Kept id fd log .empty next :=
        (step_acts hinv hstep).keep (fun _ _ _ _ hledger hact => hact.kept hledger)
          (.empty hinv.ledger) hkept
      exact ih (hreach.next hstep) hnext hrest

/-- An op that holds a descriptor has not settled. -/
theorem Owns.unsettled (hcons : Consistent [] [] [] state) (howns : Owns id fd .empty state)
    (result : Outcome) : Event.settled id result ∉ state.log := by
  cases howns with
  | job hmem hid howned hfd => exact hid ▸ (hcons.underway_of_role hmem).unsettled result
  | @message message hmem hid hfd =>
      have hpending : message.pending ∈ state.pendings := by
        simp only [State.messages, List.mem_append, List.mem_flatMap] at hmem
        simp only [State.pendings, List.mem_append, List.mem_flatMap, List.mem_map]
        rcases hmem with ⟨helper, hhelper, hin⟩ | hback
        · refine .inl (.inr ⟨helper, hhelper, ?_⟩)
          cases helper with
          | sending sent =>
              obtain rfl := List.mem_singleton.mp hin
              exact List.mem_singleton_self _
          | _ => cases hin
        · exact .inr ⟨message, hback, rfl⟩
      exact hid ▸ (hcons.underway_of_pending hpending).unsettled result
  | opening hhand => cases hhand

theorem Owns.of_owners
    (howner : Owner.job id ∈ state.owners fd ∨ Owner.opened id ∈ state.owners fd) :
    Owns id fd .empty state := by
  simp only [State.owners, List.mem_append, List.mem_map, List.mem_filter, reduceCtorEq, and_false,
    exists_false, Owner.job.injEq, Owner.opened.injEq, false_or, or_false, decide_eq_true_eq]
    at howner
  rcases howner with ⟨job, ⟨hlive, howned, hfd⟩, hid⟩ | ⟨message, ⟨hmem, hfd⟩, hid⟩
  · exact .job (List.mem_map_of_mem hlive) hid howned hfd
  · exact .message hmem hid hfd

/-- **An owned descriptor comes back.**  Whenever an op holds a descriptor it
opened for itself, in a job or in an open on its way to the loop, and the op has
settled later on, cancelled or not, then meanwhile that descriptor was closed,
or a helper has it to close, or it was registered and the op replied its handle. -/
theorem owned_returned {result : Outcome} (hreach : driver.Reachable state)
    (howner : Owner.job id ∈ state.owners fd ∨ Owner.opened id ∈ state.owners fd)
    (hexec : driver.exec state labels = some final)
    (hsettled : Event.settled id result ∈ final.log) :
    ∃ events, final.log = events ++ state.log ∧
      ((∃ carriers, Event.closed fd carriers ∈ events) ∨ fd ∈ final.closes ∨
        ∃ handle size, Event.registered handle fd ∈ events ∧
          Event.settled id (.ok (.handle handle size fd)) ∈ events) := by
  have hstart : Kept id fd state.log .empty state := ⟨List.suffix_refl _, .inl (.of_owners howner)⟩
  have hcons := (Invariant.of_reachable (hreach.ofExec hexec)).ledger
  rcases (hstart.exec hreach hexec).2 with howns | hback
  · exact absurd hsettled (howns.unsettled hcons result)
  · exact hback

end Runs

/-- A file opened on the idle driver thread and small enough to be read inline. -/
def ownedRun : List Label :=
  [.submit 1 (.readFile [97] 100), .drive { openFd := .ok 5, stat := .ok ⟨10, true⟩ }]

/-- Its read is cancelled in flight. -/
def ownedCancel : List Label :=
  .requestCancel 1 :: List.replicate 13 (.drive {}) ++ [.drive { aio := .failed .ecanceled }]

theorem owned_returned_cancelled :
    ∃ state final, driver.exec (State.new (helpersFor 8) 16) ownedRun = some state ∧
      driver.exec state ownedCancel = some final ∧
      ∃ events, final.log = events ++ state.log ∧
        ((∃ carriers, Event.closed 5 carriers ∈ events) ∨ 5 ∈ final.closes ∨
          ∃ handle size, Event.registered handle 5 ∈ events ∧
            Event.settled 1 (.ok (.handle handle size 5)) ∈ events) := by
  obtain ⟨state, hstart⟩ : ∃ state,
      driver.exec (State.new (helpersFor 8) 16) ownedRun = some state := ⟨_, rfl⟩
  have hreach : driver.Reachable state := (System.Reachable.ofInit started).ofExec hstart
  obtain ⟨final, hfinal⟩ : ∃ final, driver.exec state ownedCancel = some final := by
    cases hstart
    exact ⟨_, rfl⟩
  have howners : state.owners 5 = [.job 1] := by
    cases hstart
    rfl
  have hlog : ∃ earlier, final.log = .settled 1 (.error cancelledError) :: earlier := by
    cases hstart
    cases hfinal
    exact ⟨_, rfl⟩
  obtain ⟨earlier, hlog⟩ := hlog
  have hsettled : Event.settled 1 (.error cancelledError) ∈ final.log :=
    hlog ▸ List.mem_cons_self
  exact ⟨state, final, hstart, hfinal,
    owned_returned hreach (.inl (howners ▸ List.mem_cons_self)) hfinal hsettled⟩

end Turbofile.Darwin
