import Turbofile.Darwin.OpenTable

/-!
# The driver serves its files

What the driver answers to a script of ops, one at a time, is what the file
service answers to the same script, and the disk is the service's.
-/

namespace Turbofile.Darwin

open Turbofile.Core
open Turbofile.Tally
open Turbofile.FileService
open State

section Steps

variable {kernel : Kernel} {service : Service} {calls : Calls} {id : OpId} {op : Op}
  {disk : Disk} {state mid next : State} {ans : Answers} {handle : Handle}

/-! ## Where the driver stands -/

/-- The driver has the files of the service, and this op or none. -/
structure Ready (kernel : Kernel) (service : Service) (calls : Calls) (load : Load) (disk : Disk)
    (state : State) : Prop where
  alone : Alone load state
  rows : Rows none state
  table : Tabled service.nodes calls (fun handle => state.nodeFor handle) state.nextId
  fits : Fits kernel service.disk
  disk_eq : disk = service.disk

/-- A job is under way that comes to what the service answers. -/
inductive AtWork (kernel : Kernel) (service : Service) (calls : Calls) (id : OpId) (op : Op)
    (disk : Disk) (state : State) : Prop
  | intro (job : Job) (node : Node) (outcome : Outcome) (after : Disk)
      (halone : Alone (.working job) state) (hrows : Rows job.handle state)
      (hunlisted : job.handle = none → job.ownedFd = true ∧ Unlisted job.fd state)
      (hlisted : job.handle ≠ none → job.ownedFd = false)
      (hnode : nodeOf job.fd state.log = some node)
      (hcancelled : job.cancelled = false) (hcb : job.cb = id)
      (htable : Tabled service.nodes calls (fun handle => state.nodeFor handle) state.nextId)
      (hfits : Fits kernel service.disk)
      (hyields : Yields kernel node disk job.kind outcome after)
      (hdue : Due kernel service calls op outcome after)

/-- The events since, newest first, with the op's callback or without. -/
def Since (id : OpId) (outcome : Option Outcome) (state next : State) : Prop :=
  ∃ events, next.log = events ++ state.log ∧ events.findSome? (Event.outcome? id) = outcome

theorem findSome?_routine {events : List Event} (hroutine : ∀ event ∈ events, event.routine = true)
    (id : OpId) : events.findSome? (Event.outcome? id) = none := by
  rw [List.findSome?_eq_none_iff]
  intro event hmem
  have hevent := hroutine event hmem
  cases event with
  | settled cb result => cases hevent
  | _ => rfl

theorem calm_of_routine {event : Event} (hroutine : event.routine = true) : event.calm = true := by
  cases event with
  | syscall id fd call => rfl
  | handled msg => rfl
  | _ => cases hroutine

theorem Moved.since (hmoved : Moved state next) (id : OpId) : Since id none state next := by
  obtain ⟨events, hlog, hroutine⟩ := hmoved.log
  exact ⟨events, hlog, findSome?_routine hroutine id⟩

theorem Since.trans {outcome : Option Outcome} (hfirst : Since id none state mid)
    (hsecond : Since id outcome mid next) : Since id outcome state next := by
  obtain ⟨events, hlog, hnone⟩ := hfirst
  obtain ⟨more, hmore, hfound⟩ := hsecond
  refine ⟨more ++ events, by rw [hmore, hlog, List.append_assoc], ?_⟩
  rw [List.findSome?_append, hfound, hnone, Option.or_none]

theorem Since.quiet (events : List Event) (hlog : next.log = events ++ state.log)
    (hquiet : ∀ event ∈ events, event.outcome? id = none) : Since id none state next :=
  ⟨events, hlog, List.findSome?_eq_none_iff.mpr hquiet⟩

theorem Since.settle (outcome : Outcome) :
    Since id (some outcome) state (state.settle id outcome) :=
  ⟨[.settled id outcome], rfl, by
    rw [List.findSome?_cons, Event.outcome?, if_pos rfl]⟩

/-- What has become of the op. -/
inductive Came (kernel : Kernel) (service : Service) (calls : Calls) (id : OpId) (op : Op)
    (disk : Disk) (state next : State) : Prop
  | replied (outcome : Outcome) (result : Result) (service' : Service)
      (hsince : Since id (some outcome) state next)
      (hperform : service.perform kernel calls.length op = (result, service'))
      (hshows : Shows result outcome)
      (hready : Ready kernel service' (calls ++ [(op, outcome)]) .idle disk next)
  | goesOn (hsince : Since id none state next)
      (hunderway : AtWork kernel service calls id op disk next)

theorem Came.since (hsince : Since id none state mid)
    (hcame : Came kernel service calls id op disk mid next) :
    Came kernel service calls id op disk state next := by
  cases hcame with
  | replied outcome result service' hsettled hperform hshows hready =>
      exact .replied outcome result service' (hsince.trans hsettled) hperform hshows hready
  | goesOn hlater hunderway => exact .goesOn (hsince.trans hlater) hunderway

/-! ## The end of an op -/

theorem Alone.relogged (halone : Alone .idle state) (files : Table Handle FileEntry)
    (nextId : Handle)
    (log : List Event) : Alone .idle { state with files := files, nextId := nextId, log := log } :=
  { halone with placed := halone.placed }

/-- The op has been answered, and opened no file for its caller. -/
theorem Ready.answered {outcome : Outcome} {service' : Service} (halone : Alone .idle next)
    (hrows : Rows none next ∧ ∀ handle, next.nodeFor handle = state.nodeFor handle)
    (hnextId : next.nextId = state.nextId)
    (htable : Tabled service.nodes calls (fun handle => state.nodeFor handle) state.nextId)
    (hfits : Fits kernel service'.disk) (hnodes : service'.nodes = service.nodes)
    (hdisk : disk = service'.disk) (hreturned : returned (op, outcome) = none) :
    Ready kernel service' (calls ++ [(op, outcome)]) .idle disk next where
  alone := halone
  rows := hrows.1
  table := by
    rw [hnodes, hnextId, funext hrows.2]
    exact htable.answered hreturned
  fits := hfits
  disk_eq := hdisk

section Finishing

variable {job : Job} {outcome : Outcome}

theorem finish_owned (halone : Alone .idle state) (hhandle : job.handle = none)
    (howned : job.ownedFd = true) :
    state.finish ans job outcome = (state.closeRaw job.fd).settle job.cb outcome := by
  simp only [State.finish, hhandle, howned, if_true, State.closeOwned, halone.hasBacklog,
    Bool.not_false]

theorem finish_gone (hhandle : job.handle = some handle) (howned : job.ownedFd = false)
    (hlookup : state.files.lookup handle = none) :
    state.finish ans job outcome = state.settle job.cb outcome := by
  have hsettled : (state.settle job.cb outcome).files.lookup handle = none := hlookup
  simp only [State.finish, hhandle, howned, Bool.false_eq_true, if_false, hsettled]

theorem finish_listed {fd : Fd} {ops : ℕ} (hhandle : job.handle = some handle)
    (howned : job.ownedFd = false) (hlookup : state.files.lookup handle = some ⟨fd, ops, none⟩) :
    state.finish ans job outcome = { state.settle job.cb outcome with
      files := state.files.insert handle ⟨fd, ops - 1, none⟩ } := by
  have hsettled : (state.settle job.cb outcome).files.lookup handle = some ⟨fd, ops, none⟩ :=
    hlookup
  simp only [State.finish, hhandle, howned, Bool.false_eq_true, if_false, hsettled]
  rfl

/-- The callback of a job runs. -/
theorem came_finish (halone : Alone .idle state) (hrows : Rows job.handle state)
    (hunlisted : job.handle = none → job.ownedFd = true ∧ Unlisted job.fd state)
    (hlisted : job.handle ≠ none → job.ownedFd = false) (hcb : job.cb = id)
    (htable : Tabled service.nodes calls (fun handle => state.nodeFor handle) state.nextId)
    (hfits : Fits kernel service.disk) (hdue : Due kernel service calls op outcome disk) :
    Came kernel service calls id op disk state (state.finish ans job outcome) := by
  obtain ⟨result, hperform, hshows⟩ := hdue.performs
  have hsettle : Since id (some outcome) state (state.settle job.cb outcome) := by
    rw [hcb]
    exact .settle outcome
  have hreplied : ∀ next, Since id (some outcome) state next → Alone .idle next →
      (Rows none next ∧ ∀ handle, next.nodeFor handle = state.nodeFor handle) →
      next.nextId = state.nextId → Came kernel service calls id op disk state next :=
    fun next hsince halone hrows hnextId => .replied outcome result _ hsince hperform hshows
      (.answered halone hrows hnextId htable (hdue.fits hfits) rfl rfl hdue.returned)
  have hcalm : ∀ event ∈ [Event.settled job.cb outcome], event.calm = true := by simp [Event.calm]
  cases hhandle : job.handle with
  | none =>
      obtain ⟨howned, hunlisted⟩ := hunlisted hhandle
      rw [hhandle] at hrows
      rw [finish_owned halone hhandle howned, hcb]
      have hclosed : Since id none state (state.closeRaw job.fd) :=
        .quiet [_] rfl (by simp [Event.outcome?])
      obtain ⟨hclosedRows, hsame⟩ : Rows none (state.closeRaw job.fd) ∧
          ∀ handle, (state.closeRaw job.fd).nodeFor handle = state.nodeFor handle :=
        hrows.closedOwned hunlisted rfl rfl
      obtain ⟨hsettled, hkept⟩ := hclosedRows.calm
        (show ((state.closeRaw job.fd).settle id outcome).files = _ from rfl) rfl (hcb ▸ hcalm)
      exact hreplied _ (hclosed.trans (.settle outcome)) (halone.relogged _ _ _)
        ⟨hsettled, fun handle => (hkept handle).trans (hsame handle)⟩ rfl
  | some handle =>
      have howned : job.ownedFd = false := hlisted (by simp [hhandle])
      rw [hhandle] at hrows
      cases hlookup : state.files.lookup handle with
      | none =>
          rw [finish_gone hhandle howned hlookup]
          exact hreplied _ hsettle (halone.relogged _ _ _)
            ((hrows.unbusied hlookup).calm rfl rfl hcalm) rfl
      | some entry =>
          have hrow := hrows.row handle entry hlookup
          obtain ⟨next, hnext⟩ : ∃ next, state.finish ans job outcome = next := ⟨_, rfl⟩
          rw [finish_listed hhandle howned (hrow ▸ hlookup), busyOps_self] at hnext
          obtain ⟨hsettled, hsame⟩ := hrows.calm (show (state.settle job.cb outcome).files = _ from
            rfl) rfl hcalm
          obtain ⟨hfreed, hkept⟩ : Rows none next ∧ ∀ other, next.nodeFor other =
              (state.settle job.cb outcome).nodeFor other :=
            hsettled.rebusied hlookup (fun other hne => (busyOps_ne hne).symm)
              (by rw [busyOps_none, ← hnext]; rfl) (by rw [← hnext])
          rw [finish_listed hhandle howned (hrow ▸ hlookup), busyOps_self, hnext]
          refine hreplied next ?_ ?_ ⟨hfreed, fun other => (hkept other).trans (hsame other)⟩ ?_
          · rw [← hnext]
            exact hsettle
          · rw [← hnext]
            exact halone.relogged _ _ _
          · rw [← hnext]
            rfl

end Finishing

/-- A step of a job that is under way. -/
theorem AtWork.drive {choice : Choice} {disk' : Disk}
    (hunderway : AtWork kernel service calls id op disk state)
    (hans : state.answers kernel choice disk = (ans, disk'))
    (hdrive : state.drive ans = some next) :
    Came kernel service calls id op disk' state next := by
  obtain ⟨job, node, outcome, after, halone, hrows, hunlisted, hlisted, hnode, hcancelled, hcb,
    htable, hfits, hyields, hdue⟩ := hunderway
  have hmoves : ∀ mid, Moved state mid →
      (Rows job.handle mid ∧ ∀ handle, mid.nodeFor handle = state.nodeFor handle) ∧
      (∀ fd, Unlisted fd state → Unlisted fd mid) ∧
      (∀ fd, nodeOf fd mid.log = nodeOf fd state.log) ∧
      Tabled service.nodes calls (fun handle => mid.nodeFor handle) mid.nextId := by
    intro mid hmoved
    obtain ⟨events, hlog, hroutine⟩ := hmoved.log
    have hcalm : ∀ event ∈ events, event.calm = true := fun event hmem =>
      calm_of_routine (hroutine event hmem)
    obtain ⟨hrows, hsame⟩ := hrows.calm hmoved.files hlog hcalm
    refine ⟨⟨hrows, hsame⟩, fun fd hnone => ?_, fun fd => by rw [hlog, nodeOf_append hcalm], ?_⟩
    · rw [Unlisted, hmoved.files]
      exact hnone
    · rw [hmoved.nextId, funext hsame]
      exact htable
  cases halone.drive_working hnode hcancelled hyields hans hdrive with
  | goesOn job' hrole hcancelled' halone' hmoved hyields' =>
      obtain ⟨hid, hcb', hhandle, howned, hfd⟩ := Role.mk.inj hrole
      obtain ⟨⟨hrows', -⟩, hunlisted', hnode', htable'⟩ := hmoves next hmoved
      refine .goesOn (hmoved.since id) ⟨job', node, outcome, after, halone', hhandle ▸ hrows',
        fun hnone => ?_, fun hsome => ?_, ?_, hcancelled', hcb'.trans hcb, htable', hfits, hyields',
        hdue⟩
      · obtain ⟨hsame, hother⟩ := hunlisted (hhandle ▸ hnone)
        exact ⟨howned.trans hsame, hfd ▸ hunlisted' job.fd hother⟩
      · exact howned.trans (hlisted (hhandle ▸ hsome))
      · rw [hfd, hnode', hnode]
  | finishes base job' ans' hrole halone' hmoved hdisk hnext =>
      obtain ⟨hid, hcb', hhandle, howned, hfd⟩ := Role.mk.inj hrole
      obtain ⟨⟨hrows', -⟩, hunlisted', -, htable'⟩ := hmoves base hmoved
      rw [hnext, hdisk]
      refine .since (hmoved.since id) (came_finish halone' (hhandle ▸ hrows') (fun hnone => ?_)
        (fun hsome => ?_) (hcb'.trans hcb) htable' hfits hdue)
      · obtain ⟨hsame, hother⟩ := hunlisted (hhandle ▸ hnone)
        exact ⟨howned.trans hsame, hfd ▸ hunlisted' job.fd hother⟩
      · exact howned.trans (hlisted (hhandle ▸ hsome))

/-! ## Ops on a handle -/

section Handles

variable {slot : ℕ} {entry : FileEntry} {node : Node} {outcome : Outcome}

/-- The op is answered here. -/
theorem came_settle (hready : Ready kernel service calls .idle disk state)
    (hmoved : Moved state mid) (halone : Alone .idle mid) {disk' : Disk}
    (hdue : Due kernel service calls op outcome disk') :
    Came kernel service calls id op disk' state (mid.settle id outcome) := by
  obtain ⟨result, hperform, hshows⟩ := hdue.performs
  obtain ⟨events, hlog, hroutine⟩ := hmoved.log
  refine .replied outcome result _ ((hmoved.since id).trans (.settle outcome)) hperform hshows
    (.answered (halone.relogged _ _ _) (hready.rows.calm hmoved.files
      (show _ = (.settled id outcome :: events) ++ state.log from congrArg (_ :: ·) hlog)
      fun event hmem => ?_) hmoved.nextId hready.table (hdue.fits hready.fits) rfl rfl
      hdue.returned)
  rcases List.mem_cons.mp hmem with rfl | hevent
  · rfl
  · exact calm_of_routine (hroutine event hevent)

theorem withFd_listed (hready : Ready kernel service calls .idle disk state)
    (hlookup : state.files.lookup handle = some entry) : state.withFd handle = .ok entry.fd := by
  have hclosing : entry.closing = none := by rw [hready.rows.row handle entry hlookup]
  simp only [State.withFd, hlookup, hclosing]
  rfl

/-- The op goes to the queue. -/
theorem came_enqueue (hready : Ready kernel service calls .idle disk state)
    (hmoved : Moved state mid) (halone : Alone .idle mid)
    (hlookup : state.files.lookup handle = some entry)
    (hnode : nodeOf entry.fd state.log = some node) {kind : JobKind}
    (hjob : (Job.mk id false kind id).role = ⟨id, id, some handle, false, entry.fd⟩) {after : Disk}
    (hyields : Yields kernel node disk kind outcome after)
    (hdue : Due kernel service calls op outcome after) :
    Came kernel service calls id op disk state (mid.enqueue id kind (some handle) id) := by
  obtain ⟨-, -, hhandle, howned, hfd⟩ := Role.mk.inj hjob
  obtain ⟨events, hlog, hroutine⟩ := hmoved.log
  have hcalm : ∀ event ∈ events, event.calm = true := fun event hmem =>
    calm_of_routine (hroutine event hmem)
  obtain ⟨hrows, hsame⟩ := hready.rows.calm hmoved.files hlog hcalm
  have hmid : mid.files.lookup handle = some ⟨entry.fd, 0, none⟩ := by
    rw [hmoved.files, hlookup, hready.rows.row handle entry hlookup, busyOps_none]
  obtain ⟨next, hnext⟩ : ∃ next, mid.enqueue id kind (some handle) id = next := ⟨_, rfl⟩
  have hfiles : next.files = mid.files.insert handle ⟨entry.fd, 1, none⟩ := by
    simp only [← hnext, State.enqueue, hmid]
  have hlater : next.log = mid.log := by rw [← hnext, State.enqueue]
  obtain ⟨hbusy, hkept⟩ : Rows (some handle) next ∧ ∀ other, next.nodeFor other =
      mid.nodeFor other :=
    hrows.rebusied hmid (fun other hne => busyOps_ne hne) (by rw [busyOps_self]; exact hfiles)
      hlater
  have hsince : Since id none mid next :=
    .quiet [] hlater (fun event hmem => by cases hmem)
  obtain ⟨hqueue, hinflight, -⟩ := halone.placed
  have hworking : Alone (.working ⟨id, false, kind, id⟩) next := by
    rw [← hnext]
    exact { halone with
      placed := .inl ⟨congrArg (· ++ [_]) hqueue, hinflight, rfl⟩ }
  rw [hnext]
  refine .goesOn ((hmoved.since id).trans hsince) ⟨⟨id, false, kind, id⟩, node, outcome, after,
    hworking, hhandle ▸ hbusy, fun hnone => ?_, fun _ => howned, ?_, rfl, rfl, ?_, hready.fits,
    hyields, hdue⟩
  · rw [hhandle] at hnone
    cases hnone
  · rw [hfd, hlater, hlog, nodeOf_append hcalm, hnode]
  · rw [show next.nextId = state.nextId by rw [← hnext]; exact hmoved.nextId,
      funext hkept, funext hsame]
    exact hready.table

section Listed

variable (hready : Ready kernel service calls .idle disk state)
  (hlookup : state.files.lookup handle = some entry)
  (hnode : nodeOf entry.fd state.log = some node) (hslot : service.nodes slot = some node)

include hready hlookup hslot

theorem came_size (hstat : ans.stat = .ok (FileService.stat node disk)) :
    Came kernel service calls id (.size slot) disk state
      (state.handleOp ans id (.size handle) id) := by
  obtain rfl := hready.disk_eq
  simp only [State.handleOp, withFd_listed hready hlookup, hstat]
  refine came_settle hready (.issue _ _ _) (hready.alone.issue _ _ _) ?_
  exact due_onNode rfl hslot rfl ⟨_, rfl, rfl⟩ rfl

theorem came_setLen {size : ℕ} {ans' : Answers} {choice : Choice} {disk' : Disk}
    (hans : opAnswers kernel choice (.setLen handle size) (some node) disk = (ans', disk'))
    (htruncate : ans.ftruncate = ans'.ftruncate) :
    Came kernel service calls id (.setLen slot size) disk' state
      (state.handleOp ans id (.setLen handle size) id) := by
  obtain rfl := hready.disk_eq
  simp only [State.handleOp, withFd_listed hready hlookup, htruncate]
  refine came_settle hready (.issue _ _ _) (hready.alone.issue _ _ _) ?_
  cases hcalled : truncate kernel node (asOffT size) service.disk with
  | error errno =>
      simp only [opAnswers, hcalled] at hans
      obtain ⟨rfl, rfl⟩ := Prod.mk.inj hans
      refine due_onNode rfl hslot ?_ ⟨.os errno, rfl, rfl⟩ rfl
      simp only [Service.onNode, hcalled, Service.change]
  | ok after =>
      simp only [opAnswers, hcalled] at hans
      obtain ⟨rfl, rfl⟩ := Prod.mk.inj hans
      refine due_onNode rfl hslot ?_ ⟨_, rfl, rfl⟩ rfl
      simp only [Service.onNode, hcalled, Service.change]

omit hslot in
theorem came_close (hnamed : Names calls slot handle) (hslot : service.nodes slot = some node)
    (hclose : ans.close = .ok ()) :
    Came kernel service calls id (.close slot) disk state
      (state.handleOp ans id (.close handle) id) := by
  obtain rfl := hready.disk_eq
  have hrow := hready.rows.row handle entry hlookup
  have hclosing : ¬entry.closing.isSome = true := by
    rw [hrow]
    exact Bool.false_ne_true
  have hops : ¬0 < entry.ops := by
    rw [hrow, busyOps_none]
    exact Nat.lt_irrefl 0
  have hreturned : handleOf calls slot = some handle := hready.table.slot_of_names hnamed hslot
  obtain ⟨mid, hmid⟩ : ∃ mid, ({ state with files := state.files.erase handle } : State).closeRaw
      entry.fd = mid := ⟨_, rfl⟩
  have hnext : state.handleOp ans id (.close handle) id = mid.settle id (.ok .unit) := by
    simp only [State.handleOp, State.close, hlookup, if_neg hclosing, if_neg hops, hclose, hmid]
    rfl
  obtain ⟨hrows, hsame⟩ : Rows none mid ∧ ∀ other, mid.nodeFor other =
      Function.update (fun handle => state.nodeFor handle) handle none other :=
    hready.rows.closed hlookup (by rw [← hmid]; rfl) (by rw [← hmid]; rfl)
  obtain ⟨hsettled, hkept⟩ := hrows.calm
    (show (mid.settle id (.ok .unit)).files = _ from rfl)
    (show _ = [.settled id (.ok .unit)] ++ mid.log from rfl) (by simp [Event.calm])
  have hsince : Since id none state mid := by
    rw [← hmid]
    exact .quiet [_] rfl (by simp [Event.outcome?])
  rw [hnext]
  refine .replied (.ok .unit) (.ok .unit) { service with
    nodes := Function.update service.nodes slot none } (hsince.trans (.settle _))
    (Service.perform_known rfl hslot _) ⟨_, rfl, rfl⟩ ⟨?_, hsettled, ?_, hready.fits, rfl⟩
  · rw [← hmid]
    exact hready.alone.relogged _ _ _
  · rw [funext hkept, funext hsame]
    rw [show (mid.settle id (.ok .unit)).nextId = state.nextId by rw [← hmid]; rfl]
    exact (hready.table.closed hreturned).answered rfl

include hnode

theorem came_sync {dataOnly : Bool} :
    Came kernel service calls id (.sync slot dataOnly) disk state
      (state.handleOp ans id (.sync handle dataOnly) id) := by
  obtain rfl := hready.disk_eq
  simp only [State.handleOp, withFd_listed hready hlookup]
  exact came_enqueue hready (.same rfl rfl rfl) hready.alone hlookup hnode rfl (yields_fsync _)
    (due_onNode rfl hslot rfl ⟨_, rfl, rfl⟩ rfl)

theorem came_readAt {pos : ℕ} {dest : Dest} (hpos : pos < 2 ^ 64) (hslack : ans.slack = 0) :
    Came kernel service calls id (.readAt slot pos dest) disk state
      (state.handleOp ans id (.readAt handle pos dest) id) := by
  obtain rfl := hready.disk_eq
  have hfile : (content node service.disk).length < 2 ^ 63 :=
    (hready.fits.content_le node).trans_lt kernel.limit_lt
  by_cases hnone : dest.asked = 0
  · have hsettle : state.handleOp ans id (.readAt handle pos dest) id =
        state.settle id (.ok (Dest.replyWith [] dest)) := by
      simp only [State.handleOp, withFd_listed hready hlookup]
      cases dest with
      | alloc len =>
          obtain rfl : len = 0 := hnone
          rfl
      | into ptr len =>
          obtain rfl : len = 0 := hnone
          rfl
    rw [hsettle]
    refine came_settle hready (.same rfl rfl rfl) hready.alone (due_onNode rfl hslot
      (by simp only [Service.onNode, if_pos hnone]; rfl) ⟨delivered [] dest, rfl, ?_⟩ ?_)
    · cases dest <;> rfl
    · cases dest <;> rfl
  · have henqueue : state.handleOp ans id (.readAt handle pos dest) id =
        state.enqueue id (.read ⟨some handle, entry.fd, false, pos, .exact dest.asked,
          Dest.buf dest.asked [] dest, 0⟩) (some handle) id := by
      simp only [State.handleOp, withFd_listed hready hlookup, hslack]
      cases dest with
      | alloc len =>
          obtain ⟨len, rfl⟩ := Nat.exists_eq_succ_of_ne_zero hnone
          rfl
      | into ptr len =>
          obtain ⟨len, rfl⟩ := Nat.exists_eq_succ_of_ne_zero hnone
          rfl
    rw [henqueue]
    cases hread : FileService.read node (asOffT pos) dest.asked service.disk with
    | error errno =>
        refine came_enqueue hready (.same rfl rfl rfl) hready.alone hlookup hnode rfl
          (yields_readAt_error hpos hread) (due_onNode rfl hslot ?_ ⟨.os errno, rfl, rfl⟩ rfl)
        simp only [Service.onNode, if_neg hnone, hread]
        rfl
    | ok data =>
        refine came_enqueue hready (.same rfl rfl rfl) hready.alone hlookup hnode rfl
          (yields_readAt hpos hnone hfile hread) (due_onNode rfl hslot
            (by simp only [Service.onNode, if_neg hnone, hread]; rfl)
            ⟨delivered data dest, rfl, ?_⟩ ?_)
        · cases dest <;> rfl
        · cases dest <;> rfl

theorem came_readToEnd {pos : ℕ} (hpos : pos < 2 ^ 64) (hslack : ans.slack = 0)
    (hstat : ans.stat = .ok (FileService.stat node disk)) :
    Came kernel service calls id (.readToEnd slot pos) disk state
      (state.handleOp ans id (.readToEnd handle pos) id) := by
  obtain rfl := hready.disk_eq
  have hfile : (content node service.disk).length < 2 ^ 63 :=
    (hready.fits.content_le node).trans_lt kernel.limit_lt
  obtain ⟨cap, hcap⟩ : ∃ cap, max ((FileService.stat node service.disk).size - pos) 1 = cap :=
    ⟨_, rfl⟩
  have hroom : (content node service.disk).length - pos ≤ cap := by
    rw [← hcap]
    exact Nat.le_max_left _ _
  have hwhole : FileService.read node (asOffT pos) (FileService.stat node service.disk).size
      service.disk = FileService.read node (asOffT pos) cap service.disk :=
    read_whole hpos (Nat.sub_le _ _) hroom
  simp only [State.handleOp, withFd_listed hready hlookup, hstat, hslack, Nat.add_zero, hcap]
  cases hread : FileService.read node (asOffT pos) cap service.disk with
  | error errno =>
      refine came_enqueue hready (.issue _ _ _) (hready.alone.issue _ _ _) hlookup hnode rfl
        (yields_toEnd_error hpos hread) (due_onNode rfl hslot ?_ ⟨.os errno, rfl, rfl⟩ rfl)
      simp only [Service.onNode, hwhole, hread]
      rfl
  | ok data =>
      refine came_enqueue hready (.issue _ _ _) (hready.alone.issue _ _ _) hlookup hnode rfl
        (yields_toEnd hpos hfile hroom hread) (due_onNode rfl hslot ?_ ⟨.bytes data, rfl, rfl⟩ rfl)
      simp only [Service.onNode, hwhole, hread]
      rfl

theorem came_writeAt {pos : ℕ} {data : Payload} {append : Bool} (hpos : pos < 2 ^ 64)
    (happend : append = node.flags.append)
    (hstat : ans.stat = .ok (FileService.stat node disk)) :
    Came kernel service calls id (.writeAt slot pos data append) disk state
      (state.handleOp ans id (.writeAt handle pos data append) id) := by
  obtain rfl := hready.disk_eq
  by_cases hnone : data.len = 0
  · have hempty : data.isEmpty = true := by simp [Payload.isEmpty, hnone]
    simp only [State.handleOp, withFd_listed hready hlookup, hempty, if_true, hstat]
    cases append with
    | true =>
        simp only [if_true]
        refine came_settle hready (.issue _ _ _) (hready.alone.issue _ _ _)
          (due_onNode rfl hslot ?_ ⟨_, rfl, rfl⟩ rfl)
        simp only [Service.onNode, if_pos hnone, if_true]
        rfl
    | false =>
        simp only [Bool.false_eq_true, if_false]
        refine came_settle hready (.same rfl rfl rfl) hready.alone
          (due_onNode rfl hslot ?_ ⟨_, rfl, rfl⟩ rfl)
        simp only [Service.onNode, if_pos hnone, Bool.false_eq_true, if_false]
        rfl
  · have hsome : ¬data.isEmpty = true := by simp [Payload.isEmpty, hnone]
    simp only [State.handleOp, withFd_listed hready hlookup, if_neg hsome]
    have hon : service.onNode kernel (.writeAt slot pos data append) slot node =
        service.change (put kernel node (asOffT pos) data.asSlice service.disk) fun disk =>
          .written data.len (if append then (FileService.stat node disk).size
            else pos + data.len) := by
      simp only [Service.onNode, if_neg hnone, put, ← happend]
      cases append <;> rfl
    cases hput : put kernel node (asOffT pos) data.asSlice service.disk with
    | error errno =>
        refine came_enqueue hready (.same rfl rfl rfl) hready.alone hlookup hnode rfl
          (yields_write_error hpos happend hput)
          (due_onNode rfl hslot ?_ ⟨.os errno, rfl, rfl⟩ rfl)
        rw [hon, hput]
        rfl
    | ok after =>
        refine came_enqueue hready (.same rfl rfl rfl) hready.alone hlookup hnode rfl
          (yields_write hpos happend hput) (due_onNode rfl hslot (by rw [hon, hput]; rfl)
            ⟨_, rfl, ?_⟩ rfl)
        rw [Answer.Shown, written_end hpos happend hput]

end Listed

end Handles

/-! ## Ops that open -/

theorem openFlags_eq_wanted (spec : OpenSpec) : openFlags spec = wanted spec := by
  simp only [openFlags, wanted, Bool.or_assoc]

/-- `open_raw` on the disk, as the service opens. -/
theorem openRaw_opened {choice : Choice} {path : Path} {spec : OpenSpec} {ans' : Answers}
    {disk' : Disk} (hans : openAnswers kernel choice path spec disk = (ans', disk'))
    (hopenFd : ans.openFd = ans'.openFd) (state : State) :
    (∃ failure error, Service.opened kernel path spec disk = .error failure ∧
      failure.Shown error ∧ state.openRaw ans path spec = (.error error, state) ∧ disk' = disk) ∨
    ∃ fd flags, wanted spec = some flags ∧ ans'.openFd = .ok fd ∧
      Service.opened kernel path spec disk = .ok (⟨path, flags⟩, disk') ∧
      ans'.stat = .ok (FileService.stat ⟨path, flags⟩ disk') ∧
      state.openRaw ans path spec = (.ok fd, state.emit (.opened fd path flags)) := by
  unfold openAnswers at hans
  unfold Service.opened State.openRaw
  rw [openFlags_eq_wanted] at *
  rw [hopenFd]
  by_cases hnul : 0 ∈ path
  · left
    refine ⟨.invalidInput, _, if_pos hnul, ?_, if_pos hnul, ?_⟩
    · rfl
    · cases hwanted : wanted spec with
      | none =>
          rw [hwanted] at hans
          exact (congrArg Prod.snd hans).symm
      | some flags =>
          simp only [hwanted, if_pos hnul] at hans
          exact (congrArg Prod.snd hans).symm
  · rw [if_neg hnul, if_neg hnul]
    cases hwanted : wanted spec with
    | none =>
        rw [hwanted] at hans
        exact .inl ⟨.invalidInput, .custom .invalidInput _, rfl, rfl, rfl,
          (congrArg Prod.snd hans).symm⟩
    | some flags =>
        simp only [hwanted, if_neg hnul] at hans
        cases hopen : openAt kernel ⟨path, flags⟩ disk with
        | error errno =>
            simp only [hopen] at hans
            obtain ⟨rfl, rfl⟩ := Prod.mk.inj hans
            exact .inl ⟨.os errno, .os errno, by simp only [hopen]; rfl, rfl, rfl, rfl⟩
        | ok after =>
            simp only [hopen] at hans
            obtain ⟨rfl, rfl⟩ := Prod.mk.inj hans
            exact .inr ⟨choice.fd, flags, rfl, rfl, by simp only [hopen]; rfl, rfl, rfl⟩

/-- The thread has opened a file that is no handle yet. -/
structure Holds (id : OpId) (fd : Fd) (node : Node) (state mid : State) : Prop where
  alone : Alone .idle mid
  rows : Rows none mid ∧ ∀ handle, mid.nodeFor handle = state.nodeFor handle
  unlisted : Unlisted fd mid
  node : nodeOf fd mid.log = some node
  nextId : mid.nextId = state.nextId
  since : Since id none state mid

section Opening

variable {path : Path} {spec : OpenSpec} {choice : Choice} {ans' : Answers} {disk' : Disk}
  {node : Node} {fd : Fd} {flags : OpenFlags}

theorem Holds.opened (hready : Ready kernel service calls .idle disk state)
    (hfresh : fd ∉ openFds state.log) :
    Holds id fd ⟨path, flags⟩ state (state.emit (.opened fd path flags)) where
  alone := hready.alone.relogged _ _ _
  rows := hready.rows.opened (hready.rows.unlisted hfresh) path flags rfl rfl
  unlisted := hready.rows.unlisted hfresh
  node := nodeOf_opened
  nextId := rfl
  since := .quiet [_] rfl (by simp [Event.outcome?])

theorem Holds.issue (hholds : Holds id fd node state mid) (call : Syscall) :
    Holds id fd node state (mid.issue id fd call) := by
  have hcalm : ∀ event ∈ [Event.syscall id fd call], event.calm = true := by simp [Event.calm]
  obtain ⟨hrows, hsame⟩ := hholds.rows.1.calm
    (show (mid.issue id fd call).files = _ from rfl) rfl hcalm
  exact {
    alone := hholds.alone.relogged _ _ _
    rows := ⟨hrows, fun handle => (hsame handle).trans (hholds.rows.2 handle)⟩
    unlisted := hholds.unlisted
    node := hholds.node
    nextId := hholds.nextId
    since := hholds.since.trans (Moved.since (.issue id fd call) id) }

/-- The file becomes a handle. -/
theorem came_register (hready : Ready kernel service calls .idle disk state)
    (hholds : Holds id fd node state mid) {size : ℕ}
    (hsize : size = (FileService.stat node disk').size)
    (hperform : service.perform kernel calls.length op =
      service.register calls.length node disk') :
    Came kernel service calls id op disk' state
      ((mid.register fd size).2.settle id (.ok (mid.register fd size).1)) := by
  have hfits := Service.perform_fits hready.fits calls.length op
  rw [hperform] at hfits
  have hnew : mid.files.lookup mid.nextId = none := by
    refine hholds.rows.1.lookup_eq_none ?_
    rw [hholds.rows.2, hholds.nextId]
    by_contra hsome
    obtain ⟨slot, hslot⟩ := hready.table.known state.nextId (Option.isSome_iff_ne_none.mpr hsome)
    exact Nat.lt_irrefl _ (hready.table.numbered slot _ hslot)
  obtain ⟨next, hnext⟩ : ∃ next, (mid.register fd size).2.settle id
      (.ok (mid.register fd size).1) = next := ⟨_, rfl⟩
  obtain ⟨hrows, hsame⟩ : Rows none next ∧ ∀ other, next.nodeFor other =
      Function.update (fun handle => mid.nodeFor handle) mid.nextId (some node) other := by
    refine hholds.rows.1.registered hholds.unlisted hnew hholds.node (by rw [← hnext]; rfl)
      (show next.log = [.settled id (.ok (.handle mid.nextId size fd)),
        .registered mid.nextId fd] ++ mid.log by rw [← hnext]; rfl) (by simp [Event.calm])
  have hregister : Since id none mid (mid.register fd size).2 :=
    .quiet [_] rfl (by simp [Event.outcome?])
  have hsince : Since id (some (.ok (.handle mid.nextId size fd))) state next := by
    rw [← hnext]
    exact (hholds.since.trans hregister).trans (.settle _)
  rw [hnext]
  refine .replied (.ok (.handle mid.nextId size fd)) _ _ hsince hperform
    ⟨.handle size, by rw [hsize], rfl⟩ ⟨?_, hrows, ?_, hfits, rfl⟩
  · rw [← hnext]
    exact hholds.alone.relogged _ _ _
  · rw [show next.nextId = mid.nextId + 1 by rw [← hnext]; rfl, funext hsame,
      funext hholds.rows.2, hholds.nextId]
    exact hready.table.registered (Nat.le_refl _) (Nat.lt_succ_self _) rfl

/-- The file is read or written as a whole, and closed. -/
theorem came_enqueueOwned (hready : Ready kernel service calls .idle disk state)
    (hholds : Holds id fd node state mid) {kind : JobKind}
    (hjob : (Job.mk id false kind id).role = ⟨id, id, none, true, fd⟩) {outcome : Outcome}
    {after : Disk} (hyields : Yields kernel node disk' kind outcome after)
    (hdue : Due kernel service calls op outcome after) :
    Came kernel service calls id op disk' state (mid.enqueue id kind none id) := by
  obtain ⟨-, -, hhandle, howned, hfd⟩ := Role.mk.inj hjob
  have hsince : Since id none mid (mid.enqueue id kind none id) :=
    .quiet [] rfl fun event hmem => by cases hmem
  obtain ⟨hqueue, hinflight, -⟩ := hholds.alone.placed
  have hworking : Alone (.working ⟨id, false, kind, id⟩) (mid.enqueue id kind none id) :=
    { hholds.alone with
      placed := .inl ⟨congrArg (· ++ [_]) hqueue, hinflight, rfl⟩ }
  obtain ⟨hrows, hsame⟩ : Rows none (mid.enqueue id kind none id) ∧
      ∀ handle, (mid.enqueue id kind none id).nodeFor handle = mid.nodeFor handle :=
    hholds.rows.1.relog rfl fun _ _ _ => rfl
  refine .goesOn (hholds.since.trans hsince) ⟨⟨id, false, kind, id⟩, node, outcome, after,
    hworking, hhandle ▸ hrows, fun _ => ⟨howned, hfd ▸ hholds.unlisted⟩,
    fun hsome => absurd hhandle hsome, ?_, rfl, rfl, ?_, hready.fits, hyields, hdue⟩
  · rw [hfd]
    exact hholds.node
  · rw [funext hsame, funext hholds.rows.2,
      show (mid.enqueue id kind none id).nextId = state.nextId from hholds.nextId]
    exact hready.table

theorem openThen_here (hready : Ready kernel service calls .idle disk state) (after : AfterOpen) :
    state.openThen ans id path spec after id =
      (state.openFor ans path spec ⟨id, after, id⟩).2.opened ans ⟨id, after, id⟩
        (state.openFor ans path spec ⟨id, after, id⟩).1 := by
  simp only [State.openThen, hready.alone.hasBacklog, Bool.not_false, if_true]

/-- An open that fails is answered here. -/
theorem came_failed (hready : Ready kernel service calls .idle disk state) {failure : Failure}
    {error : IoError}
    (hperform : service.perform kernel calls.length op = (.error failure, service))
    (hshown : failure.Shown error) :
    Came kernel service calls id op disk state (state.settle id (.error error)) := by
  obtain rfl := hready.disk_eq
  exact came_settle hready (.same rfl rfl rfl) hready.alone
    ⟨⟨_, hperform, failure, rfl, hshown⟩, rfl⟩

theorem notMem_openFds (hfresh : ans.fresh state = true) (hfd : ans.openFd = .ok fd) :
    fd ∉ openFds state.log := by
  rw [Answers.fresh, hfd] at hfresh
  exact of_decide_eq_true hfresh

section Opens

variable {data : Payload} {inlineMax : ℕ} (hready : Ready kernel service calls .idle disk state)
  (hopenFd : ans.openFd = ans'.openFd) (hfresh : ans.fresh state = true)

include hready hopenFd hfresh

theorem came_openFile (hans : openAnswers kernel choice path spec disk = (ans', disk'))
    (hstat : ans.stat = ans'.stat) :
    Came kernel service calls id (.openFile path spec) disk' state
      (state.handleOp ans id (.openFile path spec) id) := by
  obtain rfl := hready.disk_eq
  rw [State.handleOp, openThen_here hready]
  simp only [State.openFor, State.openSized]
  rcases openRaw_opened hans hopenFd state with ⟨failure, error, hopened, hshown, hraw, rfl⟩ |
    ⟨fd, flags, hwanted, hfd, hopened, hsize, hraw⟩
  · simp only [hraw, State.opened]
    refine came_failed hready ?_ hshown
    simp only [Service.perform, hopened]
  · have hnew := notMem_openFds hfresh (hopenFd.trans hfd)
    simp only [hraw, hstat, hsize, State.opened]
    refine came_register hready ((Holds.opened hready hnew).issue _) rfl ?_
    simp only [Service.perform, hopened]

theorem came_readFile (hans : openAnswers kernel choice path { read := true } disk = (ans', disk'))
    (hstat : ans.stat = ans'.stat) (hslack : ans.slack = 0) :
    Came kernel service calls id (.readFile path inlineMax) disk' state
      (state.handleOp ans id (.readFile path inlineMax) id) := by
  obtain rfl := hready.disk_eq
  rw [State.handleOp, openThen_here hready]
  simp only [State.openFor, State.openSized]
  rcases openRaw_opened hans hopenFd state with ⟨failure, error, hopened, hshown, hraw, rfl⟩ |
    ⟨fd, flags, hwanted, hfd, hopened, hsize, hraw⟩
  · simp only [hraw, State.opened]
    refine came_failed hready ?_ hshown
    simp only [Service.perform, hopened]
  · have hnew := notMem_openFds hfresh (hopenFd.trans hfd)
    have hholds : Holds id fd ⟨path, flags⟩ state
        ((state.emit (.opened fd path flags)).issue id fd .fstat) :=
      (Holds.opened hready hnew).issue .fstat
    simp only [hraw, hstat, hsize, State.opened, hslack, Nat.add_zero]
    by_cases hlarge : inlineMax < (FileService.stat ⟨path, flags⟩ disk').size
    · rw [if_pos hlarge]
      refine came_register hready hholds rfl ?_
      simp only [Service.perform, hopened, if_pos hlarge]
    · rw [if_neg hlarge]
      have hfile : (content ⟨path, flags⟩ disk').length < 2 ^ 63 :=
        ((Service.opened_fits hready.fits hopened).content_le _).trans_lt kernel.limit_lt
      have hread : FileService.read ⟨path, flags⟩ (asOffT 0)
          (max (FileService.stat ⟨path, flags⟩ disk').size 1) disk' =
          .ok (content ⟨path, flags⟩ disk') := by
        obtain rfl := Option.some.inj hwanted
        exact read_all rfl (Nat.le_max_left _ _)
      refine came_enqueueOwned hready hholds rfl (yields_toEnd (by decide) hfile
        (Nat.le_max_left _ _) hread) ⟨⟨.ok (.bytes (content ⟨path, flags⟩ disk')), ?_, _, rfl, rfl⟩,
          rfl⟩
      simp only [Service.perform, hopened, if_neg hlarge]

theorem came_writeFile (hans : openAnswers kernel choice path
      { write := true, create := true, truncate := true } disk = (ans', disk')) :
    Came kernel service calls id (.writeFile path data) disk' state
      (state.handleOp ans id (.writeFile path data) id) := by
  obtain rfl := hready.disk_eq
  rw [State.handleOp, openThen_here hready]
  simp only [State.openFor]
  rcases openRaw_opened hans hopenFd state with ⟨failure, error, hopened, hshown, hraw, rfl⟩ |
    ⟨fd, flags, hwanted, hfd, hopened, hsize, hraw⟩
  · simp only [hraw, State.opened]
    refine came_failed hready ?_ hshown
    simp only [Service.perform, hopened]
  · have hnew := notMem_openFds hfresh (hopenFd.trans hfd)
    have hholds : Holds id fd ⟨path, flags⟩ state (state.emit (.opened fd path flags)) :=
      .opened hready hnew
    have happend : false = flags.append := congrArg OpenFlags.append (Option.some.inj hwanted)
    have hput : put kernel ⟨path, flags⟩ (asOffT 0) data.asSlice disk' =
        write kernel ⟨path, flags⟩ 0 data.asSlice disk' := by
      simp only [put, ← happend, Bool.false_eq_true, if_false]
      rfl
    simp only [hraw, State.opened]
    cases hwrite : write kernel ⟨path, flags⟩ 0 data.asSlice disk' with
    | error errno =>
        refine came_enqueueOwned hready hholds rfl (yields_write_error (by decide) happend
          (hput.trans hwrite)) ⟨⟨.error (.os errno), ?_, .os errno, rfl, rfl⟩, rfl⟩
        simp only [Service.perform, hopened, Service.change, hwrite]
    | ok after =>
        have hend := written_end (by decide) happend (hput.trans hwrite)
        refine came_enqueueOwned hready hholds rfl (yields_write (by decide) happend
          (hput.trans hwrite)) ⟨⟨.ok (.written data.len data.len), ?_, _, rfl, ?_⟩, rfl⟩
        · simp only [Service.perform, hopened, Service.change, hwrite]
        · exact congrArg (Answer.written data.len) (hend.trans (Nat.zero_add _)).symm

end Opens

end Opening

/-! ## Any op -/

section Messages

variable {choice : Choice} {ans' : Answers} {disk' : Disk}

theorem handleOp_unknown {slot : ℕ} (hnamed : named op = some slot)
    (hlookup : state.files.lookup handle = none) :
    state.handleOp ans id (on handle op) id = state.settle id (.error badHandle) := by
  have hfd : state.withFd handle = .error badHandle := by
    simp only [State.withFd, hlookup]
  cases op with
  | openFile | readFile | writeFile | nop => cases hnamed
  | close slot => simp only [on, State.handleOp, State.close, hlookup]
  | _ => simp only [on, State.handleOp, hfd]

theorem came_unknown (hready : Ready kernel service calls .idle disk state) {slot : ℕ}
    (hnamed : named op = some slot) (hslot : service.nodes slot = none)
    (hlookup : state.files.lookup handle = none) :
    Came kernel service calls id op disk state (state.handleOp ans id (on handle op) id) := by
  rw [handleOp_unknown hnamed hlookup]
  exact came_failed hready (Service.perform_unknown hnamed hslot _) rfl

theorem openAnswers_rest (choice : Choice) (path : Path) (spec : OpenSpec) (disk : Disk) :
    (openAnswers kernel choice path spec disk).1.slack = 0 := by
  unfold openAnswers
  split
  · rfl
  · split
    · rfl
    · split <;> rfl

variable (kernel) in
/-- The kernel closes without errors, and buffers are as large as asked for. -/
theorem opAnswers_rest (choice : Choice) (op : Op) (node : Option Node) (disk : Disk) :
    (opAnswers kernel choice op node disk).1.slack = 0 ∧
      (named op ≠ none → (opAnswers kernel choice op node disk).1.close = .ok ()) := by
  cases op with
  | openFile path spec => exact ⟨openAnswers_rest choice path spec disk, fun hne => absurd rfl hne⟩
  | readFile path inlineMax =>
      exact ⟨openAnswers_rest choice path _ disk, fun hne => absurd rfl hne⟩
  | writeFile path data => exact ⟨openAnswers_rest choice path _ disk, fun hne => absurd rfl hne⟩
  | setLen handle size =>
      simp only [opAnswers]
      split
      · exact ⟨rfl, fun _ => rfl⟩
      · split <;> exact ⟨rfl, fun _ => rfl⟩
  | _ => cases node <;> exact ⟨rfl, fun _ => rfl⟩

/-- The op of a message, with the disk behind the calls. -/
theorem came_op (hready : Ready kernel service calls .idle disk state)
    (hnames : ∀ slot ∈ named op, Names calls slot handle)
    (hsuits : suits (state.nodeFor handle) op = true)
    (hans : opAnswers kernel choice (on handle op)
      ((named (on handle op)).bind fun handle => state.nodeFor handle) disk = (ans', disk'))
    (hsame : ans = { ans' with wake := choice.wake }) (hfresh : ans.fresh state = true) :
    Came kernel service calls id op disk' state (state.handleOp ans id (on handle op) id) := by
  obtain ⟨hopenFd, hstat, htruncate, hclose, hslack⟩ : ans.openFd = ans'.openFd ∧
      ans.stat = ans'.stat ∧ ans.ftruncate = ans'.ftruncate ∧ ans.close = ans'.close ∧
      ans.slack = ans'.slack := by
    rw [hsame]
    exact ⟨rfl, rfl, rfl, rfl, rfl⟩
  obtain ⟨hexact, hcloses⟩ := opAnswers_rest kernel choice (on handle op)
    ((named (on handle op)).bind fun handle => state.nodeFor handle) disk
  rw [hans] at hexact hcloses
  have hnoslack : ans.slack = 0 := hslack.trans hexact
  cases hnamed : named op with
  | none =>
      cases op with
      | nop =>
          obtain rfl := hready.disk_eq
          obtain ⟨-, rfl⟩ := Prod.mk.inj hans
          exact came_settle hready (.same rfl rfl rfl) hready.alone ⟨⟨_, rfl, _, rfl, rfl⟩, rfl⟩
      | openFile path spec => exact came_openFile hready hopenFd hfresh hans hstat
      | readFile path inlineMax => exact came_readFile hready hopenFd hfresh hans hstat hnoslack
      | writeFile path data => exact came_writeFile hready hopenFd hfresh hans
      | _ => cases hnamed
  | some slot =>
      have hnamed' : named (on handle op) = some handle := by
        cases op with
        | openFile | readFile | writeFile | nop => cases hnamed
        | _ => rfl
      have hslot := hready.table.resolves (hnames slot hnamed)
      have hclosed : ans.close = .ok () := hclose.trans (hcloses (by simp [hnamed']))
      rw [hnamed', Option.bind_some] at hans
      cases hlookup : state.files.lookup handle with
      | none =>
          rw [nodeFor_of_unlisted hlookup] at hslot hans
          have hdisk : disk' = disk := by
            cases op with
            | openFile | readFile | writeFile | nop => cases hnamed
            | _ => exact (congrArg Prod.snd hans).symm
          rw [hdisk]
          exact came_unknown hready hnamed hslot hlookup
      | some entry =>
          obtain ⟨node, hnode, hsome⟩ := hready.rows.node hlookup
          rw [hsome] at hslot hans hsuits
          cases op with
          | openFile | readFile | writeFile | nop => cases hnamed
          | setLen slot' size =>
              obtain rfl := Option.some.inj hnamed
              exact came_setLen hready hlookup hslot hans htruncate
          | close slot' =>
              obtain rfl := Option.some.inj hnamed
              obtain ⟨rfl, rfl⟩ := Prod.mk.inj hans
              exact came_close hready hlookup (hnames _ rfl) hslot hclosed
          | size slot' =>
              obtain rfl := Option.some.inj hnamed
              obtain ⟨rfl, rfl⟩ := Prod.mk.inj hans
              exact came_size hready hlookup hslot hstat
          | sync slot' dataOnly =>
              obtain rfl := Option.some.inj hnamed
              obtain ⟨rfl, rfl⟩ := Prod.mk.inj hans
              exact came_sync hready hlookup hnode hslot
          | readAt slot' pos dest =>
              obtain rfl := Option.some.inj hnamed
              obtain ⟨rfl, rfl⟩ := Prod.mk.inj hans
              exact came_readAt hready hlookup hnode hslot (of_decide_eq_true hsuits) hnoslack
          | readToEnd slot' pos =>
              obtain rfl := Option.some.inj hnamed
              obtain ⟨rfl, rfl⟩ := Prod.mk.inj hans
              exact came_readToEnd hready hlookup hnode hslot (of_decide_eq_true hsuits) hnoslack
                hstat
          | writeAt slot' pos data append =>
              obtain rfl := Option.some.inj hnamed
              obtain ⟨rfl, rfl⟩ := Prod.mk.inj hans
              obtain ⟨hpos, happend⟩ := (Bool.and_eq_true _ _).mp hsuits
              exact came_writeAt hready hlookup hnode hslot (of_decide_eq_true hpos)
                (eq_of_beq happend) hstat

end Messages

end Steps

/-! ## The machine -/

/-- Between two ops, at a message, or at a job. -/
inductive Stage (kernel : Kernel) (service : Service) (machine : Machine) : Prop
  | idle (hpending : machine.pending = none)
      (hready : Ready kernel service machine.calls .idle machine.disk machine.state)
  | sent (id : OpId) (op : Op) (handle : Handle) (hpending : machine.pending = some (id, op))
      (hready : Ready kernel service machine.calls (.message id (on handle op)) machine.disk
        machine.state)
      (hnames : ∀ slot ∈ named op, Names machine.calls slot handle)
      (hsuits : suits (machine.state.nodeFor handle) op = true)
  | working (id : OpId) (op : Op) (hpending : machine.pending = some (id, op))
      (hunderway : AtWork kernel service machine.calls id op machine.disk machine.state)

def Serving (kernel : Kernel) (disk : Disk) (machine : Machine) : Prop :=
  ∃ service, Served kernel disk machine.calls service ∧ Stage kernel service machine

section Machine

variable {kernel : Kernel} {disk disk' : Disk} {service : Service} {machine after : Machine}
  {id : OpId} {op : Op} {next : State} {load : Load}

theorem newEvents_eq {state : State} {events : List Event} (hlog : next.log = events ++ state.log) :
    newEvents state next = events := by
  rw [newEvents, hlog, List.length_append, Nat.add_sub_cancel]
  exact List.take_left

/-- A step of the thread that is at an op. -/
theorem serving_came (hserved : Served kernel disk machine.calls service)
    (hpending : machine.pending = some (id, op))
    (hcame : Came kernel service machine.calls id op disk' machine.state next)
    (hafter : machine.after (some next) disk' = some after) : Serving kernel disk after := by
  obtain rfl := Option.some.inj hafter
  cases hcame with
  | replied outcome result service' hsince hperform hshows hready =>
      obtain ⟨events, hlog, hfound⟩ := hsince
      refine ⟨service', ?_⟩
      simp only [Machine.settle, hpending, newEvents_eq hlog, hfound]
      exact ⟨hserved.concat hperform hshows, .idle rfl hready⟩
  | goesOn hsince hunderway =>
      obtain ⟨events, hlog, hnone⟩ := hsince
      refine ⟨service, ?_⟩
      simp only [Machine.settle, hpending, newEvents_eq hlog, hnone]
      exact ⟨hserved, .working id op rfl hunderway⟩

/-- A step of the thread on its way to the message, or with nothing to do. -/
theorem Ready.moved {state : State} {calls : Calls}
    (hready : Ready kernel service calls load disk' state)
    (halone : Alone load next) (hmoved : Moved state next) :
    Ready kernel service calls load disk' next ∧
      ∀ handle, next.nodeFor handle = state.nodeFor handle := by
  obtain ⟨events, hlog, hroutine⟩ := hmoved.log
  obtain ⟨hrows, hsame⟩ := hready.rows.calm hmoved.files hlog fun event hmem =>
    calm_of_routine (hroutine event hmem)
  refine ⟨⟨halone, hrows, ?_, hready.fits, hready.disk_eq⟩, hsame⟩
  rw [hmoved.nextId, funext hsame]
  exact hready.table

/-- The message is handled. -/
theorem came_message {state : State} {calls : Calls} {handle : Handle} {choice : Choice}
    {ans : Answers} {point : Point}
    (hready : Ready kernel service calls (.message id (on handle op)) disk state)
    (hnames : ∀ slot ∈ named op, Names calls slot handle)
    (hsuits : suits (state.nodeFor handle) op = true)
    (htask : state.task = .none) (hstop : point ≠ .returned)
    (hpoint : state.point = .head ∨ state.point = .drainRx)
    (hans : state.answers kernel choice disk = (ans, disk')) (hfresh : ans.fresh state = true) :
    Came kernel service calls id op disk' state
      (({ state with rx := [], point := point }).handleMsg ans (.submit id (on handle op) id)) := by
  obtain ⟨hqueue, hinflight, hjobs⟩ := hready.alone.placed
  have hrx : state.rx = [.submit id (on handle op) id] := hready.alone.rx
  have hhandles : state.handles = some (on handle op) := by
    unfold State.handles
    rw [hrx]
    rcases hpoint with hpoint | hpoint
    · simp [hpoint, hqueue, hinflight]
    · simp [hpoint]
  rw [answers_handles choice htask hhandles] at hans
  obtain ⟨hsame, hdisk⟩ := Prod.mk.inj hans
  obtain ⟨base, hbase⟩ : ∃ base, ({ state with rx := [], point := point, progress := true } :
      State).emit (.handled (.submit id (on handle op) id)) = base := ⟨_, rfl⟩
  have hmoved : Moved state base := by
    rw [← hbase]
    exact ⟨rfl, rfl, [_], rfl, by simp [Event.routine]⟩
  have halone : Alone .idle base := by
    rw [← hbase]
    exact { hready.alone with
      rx := rfl
      running := hstop
      placed := hready.alone.placed }
  obtain ⟨hrows, hnodes⟩ := hready.rows.calm hmoved.files
    (show base.log = [_] ++ state.log by rw [← hbase]; rfl) (by simp [Event.calm])
  have hbaseReady : Ready kernel service calls .idle disk base := by
    refine ⟨halone, hrows, ?_, hready.fits, hready.disk_eq⟩
    rw [hmoved.nextId, funext hnodes]
    exact hready.table
  have hbaseFresh : ans.fresh base = true := by
    rw [← hfresh, ← hbase]
    rfl
  refine .since (hmoved.since id) ?_
  rw [State.handleMsg]
  simp only [hbase]
  have hcalls : opAnswers kernel choice (on handle op)
      ((named (on handle op)).bind fun handle => base.nodeFor handle) disk =
      ((opAnswers kernel choice (on handle op)
        ((named (on handle op)).bind fun handle => state.nodeFor handle) disk).1, disk') := by
    rw [funext hnodes]
    exact Prod.ext rfl hdisk
  exact came_op hbaseReady hnames (by rw [hnodes]; exact hsuits) hcalls hsame.symm hbaseFresh

/-- A step that runs no callback changes nothing but the state and the disk. -/
theorem after_moved (hmoved : Moved machine.state next)
    (hafter : machine.after (some next) disk' = some after) :
    after = { machine with state := next, disk := disk' } := by
  obtain ⟨events, hlog, hroutine⟩ := hmoved.log
  rw [← Option.some.inj hafter]
  cases hpending : machine.pending with
  | none => simp only [Machine.settle]
  | some pending =>
      obtain ⟨id, op⟩ := pending
      simp only [Machine.settle, newEvents_eq hlog, findSome?_routine hroutine id]

/-- An op is sent to the driver. -/
theorem Ready.sent {state : State} {calls : Calls}
    (hready : Ready kernel service calls .idle disk state)
    (hstep : Darwin.step state (.submit id op) = some next) :
    Ready kernel service calls (.message id op) disk next ∧
      ∀ handle, next.nodeFor handle = state.nodeFor handle := by
  have hlive : ¬state.submittersGone = true := by simp [hready.alone.submitters]
  simp only [Darwin.step] at hstep
  split at hstep
  · cases hstep
  · rw [State.send, if_neg hlive] at hstep
    have hrx : next.rx = [.submit id op id] := by
      rw [← Option.some.inj hstep]
      exact congrArg (· ++ [_]) hready.alone.rx
    have halone : Alone (.message id op) next := by
      rw [← Option.some.inj hstep] at hrx ⊢
      exact { hready.alone with
        rx := hrx
        placed := hready.alone.placed }
    obtain ⟨hrows, hsame⟩ := hready.rows.calm (show next.files = _ by
      rw [← Option.some.inj hstep]; rfl) (show next.log = [_] ++ state.log by
      rw [← Option.some.inj hstep]; rfl) (by simp [Event.calm])
    refine ⟨⟨halone, hrows, ?_, hready.fits, hready.disk_eq⟩, hsame⟩
    rw [funext hsame, show next.nextId = state.nextId by rw [← Option.some.inj hstep]; rfl]
    exact hready.table

/-- The disk when no message is handled. -/
theorem Ready.answers_disk {state : State} {calls : Calls} {choice : Choice} {ans : Answers}
    (hready : Ready kernel service calls load disk state)
    (hjob : ∀ job, load ≠ .working job)
    (hhandles : state.task = .none → state.handles = none)
    (hans : state.answers kernel choice disk = (ans, disk')) : disk' = disk := by
  have hplaced : state.queue = [] ∧ state.inflight = [] ∧ state.task.jobs = [] := by
    have hsome := hready.alone.placed
    cases load with
    | working job => exact absurd rfl (hjob job)
    | idle => exact hsome
    | message id op => exact hsome
  obtain ⟨hqueue, hinflight, hjobs⟩ := hplaced
  have hkept : (state.answers kernel choice disk).2 = disk :=
    Darwin.answers_disk choice hhandles hqueue hjobs fun index _ _ => by simp [hinflight]
  rwa [hans] at hkept

theorem Stage.step (hserved : Served kernel disk machine.calls service)
    (hstage : Stage kernel service machine) {turn : Turn}
    (hstep : Machine.step kernel machine turn = some after) : Serving kernel disk after := by
  cases turn with
  | submit id op handle =>
      simp only [Machine.step] at hstep
      split at hstep
      · next hallowed =>
          obtain ⟨hnone, hnames, hsuits⟩ := hallowed
          cases hstage with
          | idle hpending hready =>
              obtain ⟨next, hnext, rfl⟩ := Option.map_eq_some_iff.mp hstep
              obtain ⟨hsent, hsame⟩ := hready.sent hnext
              exact ⟨service, hserved, .sent id op handle rfl hsent hnames (by rwa [hsame])⟩
          | sent id op handle hpending => simp [hpending] at hnone
          | working id op hpending => simp [hpending] at hnone
      · cases hstep
  | help index choice =>
      have halone : ∃ load, Alone load machine.state := by
        cases hstage with
        | idle hpending hready => exact ⟨_, hready.alone⟩
        | sent id op handle hpending hready => exact ⟨_, hready.alone⟩
        | working id op hpending hunderway =>
            obtain ⟨job, node, outcome, after, halone, hrest⟩ := hunderway
            exact ⟨_, halone⟩
      obtain ⟨load, halone⟩ := halone
      simp only [Machine.step, Darwin.step, halone.help, ite_self] at hstep
      cases hstep
  | drive choice =>
      obtain ⟨ans, disk', hans⟩ : ∃ ans disk',
          machine.state.answers kernel choice machine.disk = (ans, disk') := ⟨_, _, rfl⟩
      simp only [Machine.step, hans, Darwin.step] at hstep
      split at hstep
      · next hfresh =>
          cases hdrive : machine.state.drive ans with
          | none =>
              rw [hdrive] at hstep
              cases hstep
          | some next =>
              rw [hdrive] at hstep
              cases hstage with
              | idle hpending hready =>
                  rcases hready.alone.drive_unloaded (by simp) hdrive with
                    ⟨halone, hmoved, hquiet⟩ | ⟨msg, rx, point, hrx, hrest⟩
                  · have hdisk := hready.answers_disk (by simp) hquiet hans
                    rw [after_moved hmoved hstep, hdisk]
                    exact ⟨service, hserved, .idle hpending (hready.moved halone hmoved).1⟩
                  · cases hready.alone.rx.symm.trans hrx
              | sent id op handle hpending hready hnames hsuits =>
                  rcases hready.alone.drive_unloaded (by simp) hdrive with
                    ⟨halone, hmoved, hquiet⟩ | ⟨msg, rx, point, hrx, htask, hstop, hpoint, rfl⟩
                  · have hdisk := hready.answers_disk (by simp) hquiet hans
                    obtain ⟨hready', hsame⟩ := hready.moved halone hmoved
                    rw [after_moved hmoved hstep, hdisk]
                    exact ⟨service, hserved, .sent id op handle hpending hready' hnames
                      (by rwa [hsame])⟩
                  · obtain ⟨rfl, rfl⟩ := List.cons.inj (hready.alone.rx.symm.trans hrx)
                    exact serving_came hserved hpending
                      (came_message hready hnames hsuits htask hstop hpoint hans hfresh) hstep
              | working id op hpending hunderway =>
                  exact serving_came hserved hpending (hunderway.drive hans hdrive) hstep
      · cases hstep

theorem alone_new {hardware maxInflight : ℕ} (hroom : 0 < maxInflight) :
    Alone .idle (State.new (helpersFor hardware) maxInflight) where
  submitters := rfl
  connected := rfl
  helped := rfl
  helperQueue := rfl
  helpers helper hmem := List.eq_of_mem_replicate hmem
  live := by
    have hsome : helpersFor hardware ≠ 0 :=
      Nat.ne_of_gt (Nat.lt_of_lt_of_le Nat.two_pos (Nat.le_max_left _ _))
    exact List.any_eq_true.mpr ⟨.idle, List.mem_replicate.mpr ⟨hsome, rfl⟩, rfl⟩
  back := rfl
  pendingOpens := rfl
  room := hroom
  running := by simp [State.new]
  rx := rfl
  placed := ⟨rfl, rfl, rfl⟩

/-- A driver that has just been started has the files of an unused service. -/
theorem ready_new {hardware maxInflight : ℕ} (hroom : 0 < maxInflight)
    (hfits : Fits kernel disk) :
    Ready kernel ⟨disk, fun _ => none⟩ [] .idle disk
      (State.new (helpersFor hardware) maxInflight) where
  alone := alone_new hroom
  rows := {
    row := fun handle entry hlookup => by cases hlookup
    isOpen := fun handle entry hlookup => by cases hlookup
    distinct := fun handle other entry entry' hlookup => by cases hlookup }
  table := .start 1
  fits := hfits
  disk_eq := rfl

theorem serving_of_reachable (hfits : Fits kernel disk)
    (hreach : (machines kernel disk).Reachable machine) : Serving kernel disk machine := by
  refine hreach.invariant ?_ ?_
  · rintro machine ⟨⟨hardware, maxInflight, hroom, hstate⟩, hdisk, hcalls, hpending⟩
    refine ⟨⟨disk, fun _ => none⟩, ?_, .idle hpending ?_⟩
    · rw [hcalls]
      exact .start kernel disk
    · rw [hstate, hcalls, hdisk]
      exact ready_new hroom hfits
  · rintro machine turn next - ⟨service, hserved, hstage⟩ hstep
    exact hstage.step hserved hstep

/-- The disk between two ops is the service's. -/
theorem Stage.disk_eq (hstage : Stage kernel service machine) (hpending : machine.pending = none) :
    machine.disk = service.disk := by
  cases hstage with
  | idle hnone hready => exact hready.disk_eq
  | sent id op handle hsome => simp [hpending] at hsome
  | working id op hsome => simp [hpending] at hsome

/-- Whatever the kernel chooses, the driver answers a script as the service does,
and leaves the disk that the service leaves. -/
theorem serves_files (hfits : Fits kernel disk)
    (hreach : (machines kernel disk).Reachable machine) :
    ∃ service, Served kernel disk machine.calls service ∧
      (machine.pending = none → machine.disk = service.disk) := by
  obtain ⟨service, hserved, hstage⟩ := serving_of_reachable hfits hreach
  exact ⟨service, hserved, hstage.disk_eq⟩

/-- Requests or plain calls, one driver or another: the same script gets the same
answers and leaves the same disk. -/
theorem scripts_agree {other : Machine} (hfits : Fits kernel disk)
    (hreach : (machines kernel disk).Reachable machine)
    (hother : (machines kernel disk).Reachable other)
    (hscript : machine.calls.map Prod.fst = other.calls.map Prod.fst) :
    List.Forall₂ Alike (machine.calls.map Prod.snd) (other.calls.map Prod.snd) ∧
      (machine.pending = none → other.pending = none → machine.disk = other.disk) := by
  obtain ⟨service, hserved, hstage⟩ := serving_of_reachable hfits hreach
  obtain ⟨service', hserved', hstage'⟩ := serving_of_reachable hfits hother
  obtain ⟨halike, rfl⟩ := hserved.alike hserved' hscript
  exact ⟨halike, fun hpending hpending' =>
    (hstage.disk_eq hpending).trans (hstage'.disk_eq hpending').symm⟩

end Machine

/-! ## A script -/

def unused : Machine := ⟨State.new 2 4, fun _ => none, [], none⟩

/-- Create a file, write behind its end and read it. -/
def scriptTurns (choice : Choice) (writing reading : ℕ) : List Turn :=
  .submit 1 (.openFile [97] { read := true, write := true, create := true }) 0 :: .drive choice ::
    .submit 2 (.writeAt 0 2 (.owned [1, 2, 3]) false) 1 :: List.replicate writing (.drive choice) ++
    .submit 3 (.readAt 0 0 (.alloc 9)) 1 :: List.replicate reading (.drive choice)

def scriptRun (choice : Choice) (writing reading : ℕ) : Machine :=
  ((machines smallKernel fun _ => none).exec unused (scriptTurns choice writing reading)).getD
    unused

/-- Every request finds a slot and is complete when it is looked at. -/
def requestRun : Machine := scriptRun { fd := 3, ready := true } 12 15

/-- No request finds a slot. -/
def plainRun : Machine := scriptRun { fd := 5, full := true } 4 5

theorem reachable_unused : (machines smallKernel fun _ => none).Reachable unused :=
  .ofInit ⟨⟨6, 4, by decide, rfl⟩, rfl, rfl, rfl⟩

theorem reachable_scriptRun {choice : Choice} {writing reading : ℕ}
    (hruns : ((machines smallKernel fun _ => none).exec unused
      (scriptTurns choice writing reading)).isSome = true) :
    (machines smallKernel fun _ => none).Reachable (scriptRun choice writing reading) := by
  obtain ⟨machine, hexec⟩ := Option.isSome_iff_exists.mp hruns
  rw [scriptRun, hexec]
  exact reachable_unused.ofExec hexec

theorem reachable_requestRun : (machines smallKernel fun _ => none).Reachable requestRun :=
  reachable_scriptRun rfl

theorem reachable_plainRun : (machines smallKernel fun _ => none).Reachable plainRun :=
  reachable_scriptRun rfl

theorem serves_files_script :
    requestRun.calls.map Prod.snd =
        [.ok (.handle 1 0 3), .ok (.written 3 5), .ok (.bytes [0, 0, 1, 2, 3])] ∧
      ∃ service, Served smallKernel (fun _ => none) requestRun.calls service ∧
        (requestRun.pending = none → requestRun.disk = service.disk) :=
  ⟨rfl, serves_files fits_none reachable_requestRun⟩

theorem scripts_agree_script :
    requestRun.pending = none ∧ plainRun.pending = none ∧
      List.Forall₂ Alike (requestRun.calls.map Prod.snd) (plainRun.calls.map Prod.snd) ∧
      (requestRun.pending = none → plainRun.pending = none → requestRun.disk = plainRun.disk) :=
  ⟨rfl, rfl, scripts_agree fits_none reachable_requestRun reachable_plainRun rfl⟩

end Turbofile.Darwin
