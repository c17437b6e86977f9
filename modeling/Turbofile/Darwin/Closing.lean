import Turbofile.Darwin.History
import Turbofile.Darwin.Settlement

/-!
# The close protocol

The handle table agrees with the history of every handle, an op accepted on a
handle runs on it until its callback, and a refused op does nothing.  Every
action keeps this and adds events that leave the log orderly, so in every run
an accepted close comes after the last callback on its handle.
-/

namespace Turbofile.Darwin

open Turbofile.Core
open Turbofile.Tally
open State

/-! ## Ops under way -/

/-- The op has been sent and handled, and its callback is still to come. -/
structure Underway (id : OpId) (state : State) : Prop where
  submitted : id ∈ submittedIds state.log
  unsettled : ∀ result, Event.settled id result ∉ state.log
  absent : ∀ op cb, Msg.submit id op cb ∉ state.rx
  noClose : ∀ handle entry, state.files.lookup handle = some entry → entry.closing ≠ some id

section Underway

variable {jobs : List Job} {fds : List Fd} {cbs : List Callback} {state : State}

/-- The callback is held once, and not in the channel or for a close. -/
theorem Consistent.underway (hcons : Consistent jobs fds cbs state) {id : OpId}
    (hheld : 1 ≤ ofList (cbWeights id).helperJob state.helperQueue +
      ofList (cbWeights id).helper state.helpers + ofList (cbWeights id).opened state.back +
      ofList (cbWeights id).role (state.roles jobs) + cbs.count id) : Underway id state := by
  have hle := hcons.count_callback_le id
  have hself : (cbWeights id).callback id = 1 := by simp [cbWeights]
  simp only [State.held] at hle
  refine ⟨?_, fun result hmem => ?_, fun op cb hmem => ?_, fun handle entry hlookup hclosing => ?_⟩
  · have hbalance := hcons.balance (cbWeights id)
    have hcbs : ofList (cbWeights id).callback cbs = cbs.count id := ofList_eq_count id cbs
    rw [count_submittedIds id state.log hcons.ownCb] at hbalance
    simp only [State.held] at hbalance
    exact List.count_pos_iff.mp (by omega)
  · have hspent := weight_le_ofList (cbWeights id).spent hmem
    simp only [Weights.spent, hself] at hspent
    omega
  · obtain rfl := hcons.rxCb id op cb hmem
    have hmsg := weight_le_ofList (cbWeights cb).msg hmem
    simp only [Weights.msg, hself] at hmsg
    omega
  · have hentry := Table.weight_le_tally (fun _ => (cbWeights id).entry) hlookup
    simp only [Weights.entry, hclosing, Weights.closing, hself] at hentry
    omega

theorem Consistent.underway_of_role (hcons : Consistent jobs fds cbs state) {role : Role}
    (hmem : role ∈ state.roles jobs) : Underway role.id state := by
  have hweight := weight_le_ofList (cbWeights role.id).role hmem
  have hown := hcons.roleIds role hmem
  simp only [Weights.role, cbWeights, hown, if_true] at hweight
  refine hcons.underway ?_
  simp only [cbWeights]
  omega

theorem Consistent.underway_of_hand (hcons : Consistent jobs fds cbs state) {cb : Callback}
    (hmem : cb ∈ cbs) : Underway cb state := by
  have hcount := List.count_pos_iff.mpr hmem
  exact hcons.underway (by omega)

theorem Consistent.underway_of_pending (hcons : Consistent jobs fds cbs state)
    {pending : PendingOpen} (hmem : pending ∈ state.pendings) : Underway pending.id state := by
  have hown := (hcons.pendingIds pending hmem).1
  have hself : (cbWeights pending.id).callback pending.cb = 1 := by simp [cbWeights, hown]
  refine hcons.underway ?_
  simp only [State.pendings, List.mem_append, List.mem_flatMap, List.mem_map] at hmem
  rcases hmem with (⟨job, hjob, hin⟩ | ⟨helper, hhelper, hin⟩) | ⟨message, hmessage, rfl⟩
  · have hweight := weight_le_ofList (cbWeights pending.id).helperJob hjob
    cases job with
    | close fd => simp [HelperJob.pendings] at hin
    | openFile path spec other =>
        obtain rfl : pending = other := by simpa [HelperJob.pendings] using hin
        simp only [Weights.helperJob, hself] at hweight
        omega
  · have hweight := weight_le_ofList (cbWeights pending.id).helper hhelper
    cases helper with
    | idle => simp [Helper.pendings] at hin
    | exited => simp [Helper.pendings] at hin
    | sending message =>
        obtain rfl : pending = message.pending := by simpa [Helper.pendings] using hin
        simp only [Weights.helper, Weights.opened, hself] at hweight
        omega
    | running job =>
        cases job with
        | close fd => simp [Helper.pendings, HelperJob.pendings] at hin
        | openFile path spec other =>
            obtain rfl : pending = other := by
              simpa [Helper.pendings, HelperJob.pendings] using hin
            simp only [Weights.helper, Weights.helperJob, hself] at hweight
            omega
  · have hweight := weight_le_ofList (cbWeights message.pending.id).opened hmessage
    simp only [Weights.opened, hself] at hweight
    omega

/-- A descriptor in hand is in no entry of the handle table. -/
theorem Consistent.entry_fd_ne {fd : Fd} (hcons : Consistent jobs (fd :: fds) cbs state)
    {handle : Handle} {entry : FileEntry} (hlookup : state.files.lookup handle = some entry) :
    entry.fd ≠ fd := by
  rintro rfl
  have hcount := hcons.count_openFds entry.fd
  have hle := hcons.count_openFds_le entry.fd
  have hheld := Consistent.one_le_held hlookup
  rw [List.count_cons_self] at hcount
  omega

end Underway

theorem mem_submittedIds_cons {id : OpId} {log : List Event} (event : Event)
    (hmem : id ∈ submittedIds log) : id ∈ submittedIds (event :: log) := by
  cases event with
  | sent msg =>
      cases msg with
      | submit other op cb => exact List.mem_cons_of_mem _ hmem
      | cancel other => exact hmem
  | handled msg => exact hmem
  | opened fd path flags => exact hmem
  | closed fd carriers => exact hmem
  | syscall other fd call => exact hmem
  | registered handle fd => exact hmem
  | settled cb result => exact hmem

namespace Underway

variable {id : OpId} {state : State}

theorem emit (hunder : Underway id state) {event : Event}
    (hother : ∀ result, event ≠ .settled id result) : Underway id (state.emit event) where
  submitted := mem_submittedIds_cons event hunder.submitted
  unsettled result hmem := by
    rcases List.mem_cons.mp hmem with hhead | htail
    · exact hother result hhead.symm
    · exact hunder.unsettled result htail
  absent := hunder.absent
  noClose := hunder.noClose

theorem issue (hunder : Underway id state) (op : OpId) (fd : Fd) (call : Syscall) :
    Underway id (state.issue op fd call) :=
  hunder.emit fun _ hsame => by cases hsame

end Underway

/-! ## The invariant -/

/-- The table entry of a handle that stands so. -/
def Standing.Agrees (standing : Standing) (handle : Handle) (state : State) : Prop :=
  match standing with
  | .unregistered => state.files.lookup handle = none
  | .opened fd => ∃ ops, state.files.lookup handle = some ⟨fd, ops, none⟩
  | .closing fd cb => ∃ ops, state.files.lookup handle = some ⟨fd, ops, some cb⟩
  | .released _ => False
  | .closed => state.files.lookup handle = none ∧ handle < state.nextId

theorem Standing.Agrees.congr {standing : Standing} {handle : Handle} {state next : State}
    (hagrees : standing.Agrees handle state)
    (hlookup : next.files.lookup handle = state.files.lookup handle)
    (hnext : next.nextId = state.nextId) : standing.Agrees handle next := by
  unfold Standing.Agrees at hagrees ⊢
  rwa [hlookup, hnext]

/-- What the close protocol adds to the ledger; `waits` tells the ops that are
still to be settled on a handle. -/
structure Protocol (waits : OpId → Handle → Prop) (state : State) : Prop where
  table : ∀ handle, (standing handle state.log).Agrees handle state
  orderly : ∀ handle, Orderly handle state.log
  running : ∀ handle, ∀ id ∈ acceptedOn handle state.log,
    (∃ result, Event.settled id result ∈ state.log) ∨ waits id handle
  normal : ∀ handle, ∀ id ∈ acceptedOn handle state.log,
    Event.settled id (.error badHandle) ∉ state.log
  refused : ∀ handle, ∀ id ∈ refusedOn handle state.log,
    Event.settled id (.error badHandle) ∈ state.log ∧
      ∀ fd call, Event.syscall id fd call ∉ state.log
  asked : ∀ id fd call, Event.syscall id fd call ∈ state.log →
    id ∈ submittedIds state.log ∧ ∀ op cb, Msg.submit id op cb ∉ state.rx

/-- Events that say nothing of any handle. -/
def Event.quiet : Event → Bool
  | .sent _ | .opened .. | .syscall .. | .handled (.cancel _) => true
  | .handled (.submit _ op _) => (Op.target op).isNone
  | .registered .. | .closed .. | .settled .. => false

section Quiet

variable {event : Event} {handle : Handle} {log : List Event}

theorem standing_quiet (hquiet : event.quiet = true) :
    standing handle (event :: log) = standing handle log := by
  cases event with
  | handled msg =>
      cases msg with
      | submit id op cb =>
          have hnone : Op.target op = none := by simpa [Event.quiet] using hquiet
          simp [standing, hnone]
      | cancel id => rfl
  | sent msg => rfl
  | opened fd path flags => rfl
  | syscall id fd call => rfl
  | registered other fd => cases hquiet
  | closed fd carriers => cases hquiet
  | settled cb result => cases hquiet

theorem handledOn_quiet {holds : Op → Standing → Bool} (hquiet : event.quiet = true) :
    handledOn holds handle (event :: log) = handledOn holds handle log := by
  cases event with
  | handled msg =>
      cases msg with
      | submit id op cb =>
          have hnone : Op.target op = none := by simpa [Event.quiet] using hquiet
          simp [handledOn, hnone]
      | cancel id => rfl
  | sent msg => rfl
  | opened fd path flags => rfl
  | syscall id fd call => rfl
  | registered other fd => cases hquiet
  | closed fd carriers => cases hquiet
  | settled cb result => cases hquiet

theorem Orderly.quiet (horderly : Orderly handle log) (hquiet : event.quiet = true) :
    Orderly handle (event :: log) := by
  cases event with
  | handled msg => exact horderly
  | sent msg => exact horderly
  | opened fd path flags => exact horderly
  | syscall id fd call => exact horderly
  | registered other fd => cases hquiet
  | closed fd carriers => cases hquiet
  | settled cb result => cases hquiet

end Quiet

namespace Protocol

variable {waits waits' : OpId → Handle → Prop} {state next : State}

theorem mono (hprot : Protocol waits state)
    (hwaits : ∀ id handle, waits id handle →
      waits' id handle ∨ ∃ result, Event.settled id result ∈ state.log) :
    Protocol waits' state :=
  { hprot with
    running handle id hmem := by
      rcases hprot.running handle id hmem with hsettled | hwaiting
      · exact Or.inl hsettled
      · exact (hwaits id handle hwaiting).symm }

/-- Only the tables, the log and the channel matter. -/
theorem frame (hprot : Protocol waits state)
    (hfiles : ∀ handle, (standing handle state.log).Agrees handle state →
      (standing handle state.log).Agrees handle next)
    (hrx : ∀ msg ∈ next.rx, msg ∈ state.rx) (hlog : next.log = state.log) :
    Protocol waits next where
  table handle := by
    rw [hlog]
    exact hfiles handle (hprot.table handle)
  orderly := by rw [hlog]; exact hprot.orderly
  running := by rw [hlog]; exact hprot.running
  normal := by rw [hlog]; exact hprot.normal
  refused := by rw [hlog]; exact hprot.refused
  asked id fd call hmem := by
    rw [hlog] at hmem ⊢
    have hold := hprot.asked id fd call hmem
    exact ⟨hold.1, fun op cb hin => hold.2 op cb (hrx _ hin)⟩

/-- A frame that touches no table. -/
theorem same (hprot : Protocol waits state) (hfiles : next.files = state.files)
    (hnext : next.nextId = state.nextId) (hrx : ∀ msg ∈ next.rx, msg ∈ state.rx)
    (hlog : next.log = state.log) : Protocol waits next := by
  refine hprot.frame (fun handle hagrees => hagrees.congr ?_ hnext) hrx hlog
  rw [hfiles]

theorem not_settled_cons {log : List Event} {event : Event} {id : OpId}
    {result : Outcome} (hother : event ≠ .settled id result)
    (hnot : Event.settled id result ∉ log) :
    Event.settled id result ∉ event :: log := by
  intro hmem
  rcases List.mem_cons.mp hmem with hhead | htail
  · exact hother hhead.symm
  · exact hnot htail

/-- One more event, which handles no op on a handle. -/
theorem grow (hprot : Protocol waits state) {event : Event}
    (hhandled : ∀ handle, acceptedOn handle (event :: state.log) = acceptedOn handle state.log ∧
      refusedOn handle (event :: state.log) = refusedOn handle state.log)
    (hresult : ∀ handle id, id ∈ acceptedOn handle state.log →
      event ≠ .settled id (.error badHandle))
    (hsyscall : ∀ id fd call, event = .syscall id fd call → Underway id state)
    (htable : ∀ handle, (standing handle (event :: state.log)).Agrees handle next)
    (horderly : ∀ handle, Orderly handle (event :: state.log))
    (hrx : ∀ id op cb, Msg.submit id op cb ∈ next.rx →
      Msg.submit id op cb ∈ state.rx ∨ id ∉ submittedIds state.log)
    (hlog : next.log = event :: state.log) : Protocol waits next where
  table handle := by rw [hlog]; exact htable handle
  orderly handle := by rw [hlog]; exact horderly handle
  running handle id hmem := by
    rw [hlog, (hhandled handle).1] at hmem
    rw [hlog]
    rcases hprot.running handle id hmem with ⟨result, hsettled⟩ | hwaiting
    · exact Or.inl ⟨result, List.mem_cons_of_mem _ hsettled⟩
    · exact Or.inr hwaiting
  normal handle id hmem := by
    rw [hlog, (hhandled handle).1] at hmem
    rw [hlog]
    exact not_settled_cons (hresult handle id hmem) (hprot.normal handle id hmem)
  refused handle id hmem := by
    rw [hlog, (hhandled handle).2] at hmem
    rw [hlog]
    obtain ⟨hsettled, hnone⟩ := hprot.refused handle id hmem
    refine ⟨List.mem_cons_of_mem _ hsettled, fun fd call hcall => ?_⟩
    rcases List.mem_cons.mp hcall with hhead | htail
    · exact (hsyscall id fd call hhead.symm).unsettled _ hsettled
    · exact hnone fd call htail
  asked id fd call hmem := by
    rw [hlog] at hmem ⊢
    have hold : id ∈ submittedIds state.log ∧ ∀ op cb, Msg.submit id op cb ∉ state.rx := by
      rcases List.mem_cons.mp hmem with hhead | htail
      · have hunder := hsyscall id fd call hhead.symm
        exact ⟨hunder.submitted, hunder.absent⟩
      · exact hprot.asked id fd call htail
    refine ⟨mem_submittedIds_cons event hold.1, fun op cb hin => ?_⟩
    rcases hrx id op cb hin with hwaiting | hnew
    · exact hold.2 op cb hwaiting
    · exact hnew hold.1

/-- An event that says nothing of a handle; a syscall is by an op under way. -/
theorem quiet (hprot : Protocol waits state) {event : Event} (hquiet : event.quiet = true)
    (hsyscall : ∀ id fd call, event = .syscall id fd call → Underway id state) :
    Protocol waits (state.emit event) := by
  refine hprot.grow (fun _ => ⟨handledOn_quiet hquiet, handledOn_quiet hquiet⟩) ?_ hsyscall
    (fun handle => ?_) (fun handle => (hprot.orderly handle).quiet hquiet)
    (fun _ _ _ hin => Or.inl hin) rfl
  · rintro handle id - rfl
    cases hquiet
  · rw [standing_quiet hquiet]
    exact hprot.table handle

theorem issue (hprot : Protocol waits state) {id : OpId} (hunder : Underway id state) (fd : Fd)
    (call : Syscall) : Protocol waits (state.issue id fd call) := by
  refine hprot.quiet rfl fun other fd call hsame => ?_
  cases hsame
  exact hunder

theorem issues (hprot : Protocol waits state) {id : OpId} (hunder : Underway id state) (fd : Fd)
    (calls : List Syscall) :
    Protocol waits (calls.foldr (State.issue id fd) state) ∧
      Underway id (calls.foldr (State.issue id fd) state) := by
  induction calls with
  | nil => exact ⟨hprot, hunder⟩
  | cons call calls ih => exact ⟨ih.1.issue ih.2 fd call, ih.2.issue id fd call⟩

/-- A callback runs that no close waits for. -/
theorem settle (hprot : Protocol waits state) {cb : Callback}
    (hclose : ∀ handle entry, state.files.lookup handle = some entry → entry.closing ≠ some cb)
    {result : Outcome}
    (hresult : result ≠ .error badHandle ∨ ∀ handle, cb ∉ acceptedOn handle state.log) :
    Protocol waits (state.settle cb result) := by
  refine hprot.grow (fun _ => ⟨rfl, rfl⟩) ?_ (fun _ _ _ hsame => by cases hsame)
    (fun handle => ?_) (fun handle => ?_)
    (fun _ _ _ hin => Or.inl hin) rfl
  · rintro handle id hmem ⟨⟩
    rcases hresult with hgood | hfree
    · exact hgood rfl
    · exact hfree handle hmem
  · have hagrees := hprot.table handle
    change ((standing handle state.log).endClose cb).Agrees handle state
    cases hstanding : standing handle state.log <;> rw [hstanding] at hagrees
    case released => exact hagrees.elim
    all_goals exact hagrees
  · refine ⟨fun fd hclosing => ?_, hprot.orderly handle⟩
    have hagrees := hprot.table handle
    rw [hclosing] at hagrees
    obtain ⟨ops, hlookup⟩ := hagrees
    exact hclose handle _ hlookup rfl

/-- A descriptor is closed that no handle has. -/
theorem closeRaw (hprot : Protocol waits state) {fd : Fd}
    (hfree : ∀ handle entry, state.files.lookup handle = some entry → entry.fd ≠ fd) :
    Protocol waits (state.closeRaw fd) := by
  refine hprot.grow (fun _ => ⟨rfl, rfl⟩) (fun _ _ _ hsame => by cases hsame)
    (fun _ _ _ hsame => by cases hsame) (fun handle => ?_) (fun handle => ?_)
    (fun _ _ _ hin => Or.inl hin) rfl
  · have hagrees := hprot.table handle
    change ((standing handle state.log).release fd).Agrees handle state
    cases hstanding : standing handle state.log <;> rw [hstanding] at hagrees
    case closing own cb =>
      obtain ⟨ops, hlookup⟩ := hagrees
      rw [Standing.release, if_neg (hfree handle _ hlookup)]
      exact ⟨ops, hlookup⟩
    all_goals exact hagrees
  · have hagrees := hprot.table handle
    refine ⟨fun hopen => ?_, fun cb hreleased => ?_, fun cb hclosing => ?_,
      hprot.orderly handle⟩
    · rw [hopen] at hagrees
      obtain ⟨ops, hlookup⟩ := hagrees
      exact hfree handle _ hlookup rfl
    · rw [hreleased] at hagrees
      exact hagrees
    · rw [hclosing] at hagrees
      obtain ⟨ops, hlookup⟩ := hagrees
      exact absurd rfl (hfree handle _ hlookup)

/-! ### What the table says of a standing -/

theorem standing_opened (hprot : Protocol waits state) {handle : Handle} {entry : FileEntry}
    (hlookup : state.files.lookup handle = some entry) (hopen : entry.closing = none) :
    standing handle state.log = .opened entry.fd := by
  have hagrees := hprot.table handle
  cases hstanding : standing handle state.log <;> rw [hstanding] at hagrees
  case unregistered => simp [Standing.Agrees, hlookup] at hagrees
  case closed => simp [Standing.Agrees, hlookup] at hagrees
  case released => exact hagrees.elim
  case opened fd =>
    obtain ⟨ops, hsame⟩ := hagrees
    obtain rfl := Option.some.inj (hlookup.symm.trans hsame)
    rfl
  case closing fd cb =>
    obtain ⟨ops, hsame⟩ := hagrees
    obtain rfl := Option.some.inj (hlookup.symm.trans hsame)
    cases hopen

theorem standing_closing (hprot : Protocol waits state) {handle : Handle} {entry : FileEntry}
    {cb : Callback} (hlookup : state.files.lookup handle = some entry)
    (hclosing : entry.closing = some cb) :
    standing handle state.log = .closing entry.fd cb := by
  have hagrees := hprot.table handle
  cases hstanding : standing handle state.log <;> rw [hstanding] at hagrees
  case unregistered => simp [Standing.Agrees, hlookup] at hagrees
  case closed => simp [Standing.Agrees, hlookup] at hagrees
  case released => exact hagrees.elim
  case opened fd =>
    obtain ⟨ops, hsame⟩ := hagrees
    obtain rfl := Option.some.inj (hlookup.symm.trans hsame)
    cases hclosing
  case closing fd other =>
    obtain ⟨ops, hsame⟩ := hagrees
    obtain rfl := Option.some.inj (hlookup.symm.trans hsame)
    obtain rfl := Option.some.inj hclosing
    rfl

theorem standing_of_withFd (hprot : Protocol waits state) {handle : Handle} {fd : Fd}
    (hfd : state.withFd handle = .ok fd) : standing handle state.log = .opened fd := by
  unfold State.withFd at hfd
  split at hfd
  · cases hfd
  · next entry hlookup =>
      split at hfd
      · cases hfd
      · next hopen =>
          obtain rfl := Except.ok.inj hfd
          exact hprot.standing_opened hlookup (by simpa using hopen)

theorem not_open_of_withFd (hprot : Protocol waits state) {handle : Handle} {error : IoError}
    (hfd : state.withFd handle = .error error) :
    (standing handle state.log).isOpen = false := by
  have hagrees := hprot.table handle
  cases hstanding : standing handle state.log <;> rw [hstanding] at hagrees
  case opened fd =>
    obtain ⟨ops, hlookup⟩ := hagrees
    simp [State.withFd, hlookup] at hfd
  all_goals rfl

theorem standing_nextId (hprot : Protocol waits state)
    (hnew : state.files.lookup state.nextId = none) :
    standing state.nextId state.log = .unregistered := by
  have hagrees := hprot.table state.nextId
  cases hstanding : standing state.nextId state.log <;> rw [hstanding] at hagrees
  case opened fd =>
    obtain ⟨ops, hsame⟩ := hagrees
    rw [hnew] at hsame
    cases hsame
  case closing fd cb =>
    obtain ⟨ops, hsame⟩ := hagrees
    rw [hnew] at hsame
    cases hsame
  case released => exact hagrees.elim
  case closed => exact absurd hagrees.2 (Nat.lt_irrefl _)

/-! ### What happens to a handle -/

/-- An op is handled on an open handle. -/
theorem accept (hprot : Protocol waits state) {id : OpId} {op : Op} {cb : Callback}
    {handle : Handle} (htarget : Op.target op = some handle) (hclose : Op.isClose op = false)
    (hopen : (standing handle state.log).isOpen = true)
    (hunsettled : ∀ result, Event.settled id result ∉ state.log) :
    Protocol (fun other on => waits other on ∨ other = id ∧ on = handle)
      (state.emit (.handled (.submit id op cb))) where
  table other := by
    have hkept : standing other (.handled (.submit id op cb) :: state.log) =
        standing other state.log := by simp [standing, hclose]
    change (standing other (.handled (.submit id op cb) :: state.log)).Agrees other state
    rw [hkept]
    exact hprot.table other
  orderly other := hprot.orderly other
  running other ran hmem := by
    have hsplit : other = handle ∧ ran = id ∨ ran ∈ acceptedOn other state.log := by
      change ran ∈ handledOn _ other (.handled (.submit id op cb) :: state.log) at hmem
      simp only [handledOn, htarget, Option.some.injEq] at hmem
      split at hmem
      · next hon =>
          rcases List.mem_cons.mp hmem with hhead | htail
          · exact Or.inl ⟨hon.1.symm, hhead⟩
          · exact Or.inr htail
      · exact Or.inr hmem
    rcases hsplit with ⟨hon, hsame⟩ | hold
    · exact Or.inr (Or.inr ⟨hsame, hon⟩)
    · rcases hprot.running other ran hold with ⟨old, hsettled⟩ | hwaiting
      · exact Or.inl ⟨old, List.mem_cons_of_mem _ hsettled⟩
      · exact Or.inr (Or.inl hwaiting)
  normal other ran hmem := by
    refine not_settled_cons (fun hsame => by cases hsame) ?_
    change ran ∈ handledOn _ other (.handled (.submit id op cb) :: state.log) at hmem
    simp only [handledOn] at hmem
    split at hmem
    · rcases List.mem_cons.mp hmem with rfl | htail
      · exact hunsettled _
      · exact hprot.normal other ran htail
    · exact hprot.normal other ran hmem
  refused other ran hmem := by
    have hold : ran ∈ refusedOn other state.log := by
      change ran ∈ handledOn _ other (.handled (.submit id op cb) :: state.log) at hmem
      simp only [handledOn, htarget, Option.some.injEq] at hmem
      split at hmem
      · next hon =>
          obtain ⟨rfl, hshut⟩ := hon
          simp [hopen] at hshut
      · exact hmem
    obtain ⟨hsettled, hnone⟩ := hprot.refused other ran hold
    refine ⟨List.mem_cons_of_mem _ hsettled, fun fd call hcall => ?_⟩
    rcases List.mem_cons.mp hcall with hhead | htail
    · cases hhead
    · exact hnone fd call htail
  asked other fd call hmem := by
    rcases List.mem_cons.mp hmem with hhead | htail
    · cases hhead
    · exact hprot.asked other fd call htail

/-- An op is handled on a handle that is not open, and refused. -/
theorem refuse (hprot : Protocol waits state) {id : OpId} {op : Op} {handle : Handle}
    (htarget : Op.target op = some handle)
    (hshut : (standing handle state.log).isOpen = false)
    (hfree : ∀ handle, id ∉ acceptedOn handle state.log)
    (hidle : ∀ fd call, Event.syscall id fd call ∉ state.log)
    (hclose : ∀ handle entry, state.files.lookup handle = some entry → entry.closing ≠ some id) :
    Protocol waits
      ((state.emit (.handled (.submit id op id))).settle id (.error badHandle)) := by
  have hstanding : ∀ other, standing other (.handled (.submit id op id) :: state.log) =
      standing other state.log := by
    intro other
    simp only [standing, htarget, Option.some.injEq]
    split
    · next hon =>
        obtain ⟨rfl, -⟩ := hon
        cases hold : standing handle state.log <;> simp_all [Standing.beginClose, Standing.isOpen]
    · rfl
  have haccepted : ∀ other, acceptedOn other (.handled (.submit id op id) :: state.log) =
      acceptedOn other state.log := by
    intro other
    simp only [acceptedOn, handledOn, htarget, Option.some.injEq]
    split
    · next hon =>
        obtain ⟨rfl, hopen⟩ := hon
        simp [hshut] at hopen
    · rfl
  have hgrows : ∀ event ∈ state.log, event ∈ Event.settled id (.error badHandle) ::
      .handled (.submit id op id) :: state.log :=
    fun _ hmem => List.mem_cons_of_mem _ (List.mem_cons_of_mem _ hmem)
  have hcalls : ∀ other fd call, Event.syscall other fd call ∈
      Event.settled id (.error badHandle) :: .handled (.submit id op id) :: state.log →
      Event.syscall other fd call ∈ state.log := by
    intro other fd call hmem
    simpa using hmem
  refine ⟨fun other => ?_, fun other => ⟨fun fd hclosing => ?_, hprot.orderly other⟩,
    fun other ran hmem => ?_, fun other ran hmem => ?_, fun other ran hmem => ?_,
    fun other fd call hmem => ?_⟩
  · have hagrees := hprot.table other
    change ((standing other (.handled (.submit id op id) :: state.log)).endClose id).Agrees
      other state
    rw [hstanding]
    cases hold : standing other state.log <;> rw [hold] at hagrees
    case released => exact hagrees.elim
    all_goals exact hagrees
  · have hagrees := hprot.table other
    rw [← hstanding] at hagrees
    change standing other (.handled (.submit id op id) :: state.log) = _ at hclosing
    rw [hclosing] at hagrees
    obtain ⟨ops, hlookup⟩ := hagrees
    exact hclose other _ hlookup rfl
  · change ran ∈ acceptedOn other (.handled (.submit id op id) :: state.log) at hmem
    rw [haccepted] at hmem
    rcases hprot.running other ran hmem with ⟨result, hsettled⟩ | hwaiting
    · exact Or.inl ⟨result, hgrows _ hsettled⟩
    · exact Or.inr hwaiting
  · change ran ∈ acceptedOn other (.handled (.submit id op id) :: state.log) at hmem
    rw [haccepted] at hmem
    refine not_settled_cons ?_ (not_settled_cons ?_ (hprot.normal other ran hmem))
    · rintro ⟨⟩
      exact hfree other hmem
    · intro hsame
      cases hsame
  · change ran ∈ refusedOn other (.handled (.submit id op id) :: state.log) at hmem
    have hsplit : ran = id ∨ ran ∈ refusedOn other state.log := by
      simp only [refusedOn, handledOn] at hmem
      split at hmem
      · exact List.mem_cons.mp hmem
      · exact Or.inr hmem
    rcases hsplit with rfl | hold
    · exact ⟨List.mem_cons_self, fun fd call hcall => hidle fd call (hcalls _ fd call hcall)⟩
    · obtain ⟨hsettled, hnone⟩ := hprot.refused other ran hold
      exact ⟨hgrows _ hsettled, fun fd call hcall => hnone fd call (hcalls _ fd call hcall)⟩
  · exact hprot.asked other fd call (hcalls other fd call hmem)

/-- A handle is registered under the next id. -/
theorem register (hprot : Protocol waits state)
    (hnew : state.files.lookup state.nextId = none) (fd : Fd) (size : ℕ) :
    Protocol waits (state.register fd size).2 := by
  refine hprot.grow (fun _ => ⟨rfl, rfl⟩) (fun _ _ _ hsame => by cases hsame)
    (fun _ _ _ hsame => by cases hsame) (fun handle => ?_) (fun handle => ?_)
    (fun _ _ _ hin => Or.inl hin) rfl
  · by_cases hsame : state.nextId = handle
    · subst hsame
      have hopened : standing state.nextId (.registered state.nextId fd :: state.log) =
          .opened fd := by simp [standing]
      rw [hopened]
      exact ⟨0, AList.lookup_insert _⟩
    · have hkept : standing handle (.registered state.nextId fd :: state.log) =
          standing handle state.log := by simp [standing, hsame]
      have hlookup : (state.register fd size).2.files.lookup handle =
          state.files.lookup handle := AList.lookup_insert_ne fun h => hsame h.symm
      have hagrees := hprot.table handle
      rw [hkept]
      cases hstanding : standing handle state.log <;> rw [hstanding] at hagrees
      case unregistered => exact hlookup.trans hagrees
      case opened own =>
        obtain ⟨ops, hold⟩ := hagrees
        exact ⟨ops, hlookup.trans hold⟩
      case closing own cb =>
        obtain ⟨ops, hold⟩ := hagrees
        exact ⟨ops, hlookup.trans hold⟩
      case released => exact hagrees
      case closed => exact ⟨hlookup.trans hagrees.1, Nat.lt_succ_of_lt hagrees.2⟩
  · refine ⟨?_, hprot.orderly handle⟩
    rintro rfl
    exact hprot.standing_nextId hnew

/-- The first close of an open handle is handled. -/
theorem beginClose (hprot : Protocol waits state) (id : OpId) (cb : Callback) {handle : Handle}
    {entry : FileEntry} (hlookup : state.files.lookup handle = some entry)
    (hopen : entry.closing = none) :
    Protocol waits
      { state.emit (.handled (.submit id (.close handle) cb)) with
        files := state.files.insert handle { entry with closing := some cb } } := by
  have hstanding := hprot.standing_opened hlookup hopen
  refine hprot.grow (fun other => ⟨?_, ?_⟩) (fun _ _ _ hsame => by cases hsame)
    (fun _ _ _ hsame => by cases hsame) (fun other => ?_) (fun other => ?_)
    (fun _ _ _ hin => Or.inl hin) rfl
  · simp [acceptedOn, handledOn, Op.isClose]
  · simp only [refusedOn, handledOn, Op.target, Option.some.injEq]
    split
    · next hon =>
        obtain ⟨rfl, hshut⟩ := hon
        simp [hstanding, Standing.isOpen] at hshut
    · rfl
  · by_cases hsame : handle = other
    · subst hsame
      rw [standing_close id cb hstanding]
      exact ⟨entry.ops, AList.lookup_insert _⟩
    · have hkept : standing other (.handled (.submit id (.close handle) cb) :: state.log) =
          standing other state.log := by simp [standing, Op.target, hsame]
      rw [hkept]
      exact (hprot.table other).congr (AList.lookup_insert_ne fun h => hsame h.symm) rfl
  · exact hprot.orderly other

/-- The last op of a closing handle has settled: the descriptor is closed and
the callback of the close runs. -/
theorem endClose (hprot : Protocol waits state) {handle : Handle} {entry : FileEntry}
    {cb : Callback} (hlookup : state.files.lookup handle = some entry)
    (hclosing : entry.closing = some cb) (hfresh : handle < state.nextId)
    (hlast : ∀ id, ¬waits id handle)
    (hothers : ∀ other found, (state.files.erase handle).lookup other = some found →
      found.fd ≠ entry.fd ∧ found.closing ≠ some cb)
    {result : Outcome} (hresult : result ≠ .error badHandle) :
    Protocol waits
      ((({ state with files := state.files.erase handle }).closeRaw entry.fd).settle
        cb result) := by
  have hstanding := hprot.standing_closing hlookup hclosing
  obtain ⟨carriers, hlog⟩ : ∃ carriers,
      ((({ state with files := state.files.erase handle } : State).closeRaw entry.fd).settle
        cb result).log = .settled cb result :: .closed entry.fd carriers :: state.log := ⟨_, rfl⟩
  -- the other handles do not see the close
  have hkept : ∀ other, other ≠ handle →
      standing other (.closed entry.fd carriers :: state.log) = standing other state.log := by
    intro other hne
    have hagrees := hprot.table other
    change (standing other state.log).release entry.fd = _
    cases hold : standing other state.log <;> rw [hold] at hagrees
    case closing own waiting =>
      obtain ⟨ops, hfound⟩ := hagrees
      have hfree := hothers other _ ((AList.lookup_erase_ne hne).trans hfound)
      rw [Standing.release, if_neg hfree.1]
    all_goals rfl
  have hreleased : standing handle (.closed entry.fd carriers :: state.log) = .released cb := by
    simp [standing, hstanding, Standing.release]
  have hgrows : ∀ event ∈ state.log,
      event ∈ Event.settled cb result :: .closed entry.fd carriers :: state.log :=
    fun _ hmem => List.mem_cons_of_mem _ (List.mem_cons_of_mem _ hmem)
  have hcalls : ∀ id fd call, Event.syscall id fd call ∈
      Event.settled cb result :: .closed entry.fd carriers :: state.log →
      Event.syscall id fd call ∈ state.log := by
    intro id fd call hmem
    simpa using hmem
  refine ⟨fun other => ?_, fun other => ?_, fun other id hmem => ?_, fun other id hmem => ?_,
    fun other id hmem => ?_, fun id fd call hmem => ?_⟩
  · rw [hlog]
    change ((standing other (.closed entry.fd carriers :: state.log)).endClose cb).Agrees other _
    by_cases hsame : other = handle
    · subst hsame
      rw [hreleased, Standing.endClose, if_pos rfl]
      exact ⟨AList.lookup_erase _ _, hfresh⟩
    · have hagrees := hprot.table other
      rw [hkept other hsame]
      cases hold : standing other state.log <;> rw [hold] at hagrees
      case released => exact hagrees.elim
      all_goals exact hagrees.congr (AList.lookup_erase_ne hsame) rfl
  · rw [hlog]
    refine ⟨fun fd hwaiting => ?_, fun hopened => ?_, fun waiting hgone => ?_,
      fun waiting hown => ?_, hprot.orderly other⟩
    · by_cases hsame : other = handle
      · subst hsame
        rw [hreleased] at hwaiting
        cases hwaiting
      · have hagrees := hprot.table other
        rw [hkept other hsame] at hwaiting
        rw [hwaiting] at hagrees
        obtain ⟨ops, hfound⟩ := hagrees
        exact (hothers other _ ((AList.lookup_erase_ne hsame).trans hfound)).2 rfl
    · by_cases hsame : other = handle
      · subst hsame
        rw [hstanding] at hopened
        cases hopened
      · have hagrees := hprot.table other
        rw [hopened] at hagrees
        obtain ⟨ops, hfound⟩ := hagrees
        exact (hothers other _ ((AList.lookup_erase_ne hsame).trans hfound)).1 rfl
    · have hagrees := hprot.table other
      rw [hgone] at hagrees
      exact hagrees
    · by_cases hsame : other = handle
      · subst hsame
        intro id hmem
        exact (hprot.running other id hmem).resolve_right (hlast id)
      · have hagrees := hprot.table other
        rw [hown] at hagrees
        obtain ⟨ops, hfound⟩ := hagrees
        exact absurd rfl (hothers other _ ((AList.lookup_erase_ne hsame).trans hfound)).1
  · rw [hlog] at hmem ⊢
    rcases hprot.running other id hmem with ⟨old, hsettled⟩ | hwaiting
    · exact Or.inl ⟨old, hgrows _ hsettled⟩
    · exact Or.inr hwaiting
  · rw [hlog] at hmem ⊢
    refine not_settled_cons ?_ (not_settled_cons ?_ (hprot.normal other id hmem))
    · rintro ⟨⟩
      exact hresult rfl
    · rintro ⟨⟩
  · rw [hlog] at hmem ⊢
    obtain ⟨hsettled, hnone⟩ := hprot.refused other id hmem
    exact ⟨hgrows _ hsettled, fun fd call hcall => hnone fd call (hcalls _ fd call hcall)⟩
  · rw [hlog] at hmem ⊢
    exact hprot.asked id fd call (hcalls id fd call hmem)

end Protocol

/-! ## Every action keeps the protocol -/

/-- A job of the op on the handle is live, or in hand. -/
def State.waits (state : State) (jobs : List Job) (id : OpId) (handle : Handle) : Prop :=
  ∃ role ∈ state.roles jobs, role.id = id ∧ role.handle = some handle

/-- No job ends as if its handle had been closed. -/
structure Hand.Protocol (hand : Hand) (state : State) : Prop where
  kept : Turbofile.Darwin.Protocol (state.waits hand.jobs) state
  result : ∀ job result, hand = .ending job result → result ≠ .error badHandle

section Actions

variable {jobs : List Job} {fds : List Fd} {cbs : List Callback} {state next : State}
  {ans : Answers} {hand hand' : Hand}

theorem Consistent.role_ne_hand (hcons : Consistent jobs fds cbs state) {cb : Callback}
    (hheld : cb ∈ cbs) {role : Role} (hmem : role ∈ state.roles jobs) : role.id ≠ cb := by
  rintro rfl
  have hle := hcons.count_callback_le role.id
  have hcount := List.count_pos_iff.mpr hheld
  have hweight := weight_le_ofList (cbWeights role.id).role hmem
  simp only [Weights.role, cbWeights, hcons.roleIds role hmem, if_true] at hweight
  simp only [cbWeights] at hle
  omega

/-- An op in hand has been accepted on no handle. -/
theorem Protocol.not_accepted (hprot : Protocol (state.waits jobs) state)
    (hcons : Consistent jobs fds cbs state) {cb : Callback} (hheld : cb ∈ cbs)
    (handle : Handle) : cb ∉ acceptedOn handle state.log := by
  intro hmem
  rcases hprot.running handle cb hmem with ⟨result, hsettled⟩ | ⟨role, hrole, hid, -⟩
  · exact (hcons.underway_of_hand hheld).unsettled result hsettled
  · exact hcons.role_ne_hand hheld hrole hid

/-- Nor has an op that is still in the channel. -/
theorem Protocol.not_accepted_of_rx (hprot : Protocol (state.waits []) state)
    (hcons : Consistent [] [] [] state) {id : OpId} {op : Op} {cb : Callback} {rx : List Msg}
    (hrx : state.rx = .submit id op cb :: rx) (handle : Handle) :
    cb ∉ acceptedOn handle state.log := by
  intro hmem
  have htaken := hcons.received_submit hrx
  have hunder := htaken.underway_of_hand (List.mem_singleton_self cb)
  rcases hprot.running handle cb hmem with ⟨result, hsettled⟩ | ⟨role, hrole, hid, -⟩
  · exact hunder.unsettled result (List.mem_cons_of_mem _ hsettled)
  · exact htaken.role_ne_hand (List.mem_singleton_self cb) hrole hid

/-- The message is taken off the channel, with the protocol of the state before. -/
theorem Protocol.take (hprot : Protocol (state.waits []) state) {msg : Msg} {rx : List Msg}
    (hrx : state.rx = msg :: rx) :
    Protocol (state.waits []) { state with rx := rx, progress := true } :=
  hprot.same rfl rfl (fun _ hmem => hrx ▸ List.mem_cons_of_mem _ hmem) rfl

theorem Protocol.receive (hprot : Protocol (state.waits []) state) {msg : Msg} {rx : List Msg}
    (hrx : state.rx = msg :: rx) (hquiet : (Event.handled msg).quiet = true) :
    Protocol (state.waits []) (state.received msg rx) :=
  (hprot.take hrx).quiet hquiet fun _ _ _ hsame => by cases hsame

/-- The op is handled on its open handle, and still in hand. -/
theorem Protocol.acceptMsg (hprot : Protocol (state.waits []) state)
    (hcons : Consistent [] [] [] state) {id : OpId} {op : Op} {cb : Callback} {rx : List Msg}
    {handle : Handle} {fd : Fd} (hrx : state.rx = .submit id op cb :: rx)
    (htarget : Op.target op = some handle) (hclose : Op.isClose op = false)
    (hopen : state.withFd handle = .ok fd) :
    Protocol (fun other on => state.waits [] other on ∨ other = id ∧ on = handle)
      (state.received (.submit id op cb) rx) := by
  have hunder := (hcons.received_submit hrx).underway_of_hand (List.mem_singleton_self cb)
  refine (hprot.take hrx).accept htarget hclose ?_ fun result hmem => ?_
  · change (standing handle state.log).isOpen = true
    rw [hprot.standing_of_withFd hopen]
    rfl
  · rw [← hcons.cb_eq_id hrx] at hmem
    exact hunder.unsettled result (List.mem_cons_of_mem _ hmem)

theorem Protocol.asks {waits : OpId → Handle → Prop} (hprot : Protocol waits state) {id : OpId}
    (hunder : Underway id state) (asks : Bool) (fd : Fd) :
    Protocol waits (state.asked asks id fd) := by
  cases asks with
  | false => exact hprot
  | true => exact hprot.issue hunder fd .fstat

theorem Protocol.setOps {waits : OpId → Handle → Prop} (hprot : Protocol waits state)
    {handle : Handle} {entry : FileEntry} (hlookup : state.files.lookup handle = some entry)
    (ops : ℕ) :
    Protocol waits { state with files := state.files.insert handle { entry with ops := ops } } := by
  refine hprot.frame (fun other hagrees => ?_) (fun _ hmem => hmem) rfl
  by_cases hsame : other = handle
  · subst hsame
    cases hstanding : standing other state.log <;> rw [hstanding] at hagrees
    case unregistered => simp [Standing.Agrees, hlookup] at hagrees
    case closed => simp [Standing.Agrees, hlookup] at hagrees
    case released => exact hagrees.elim
    case opened fd =>
      obtain ⟨old, hfound⟩ := hagrees
      obtain rfl := Option.some.inj (hlookup.symm.trans hfound)
      exact ⟨ops, AList.lookup_insert _⟩
    case closing fd cb =>
      obtain ⟨old, hfound⟩ := hagrees
      obtain rfl := Option.some.inj (hlookup.symm.trans hfound)
      exact ⟨ops, AList.lookup_insert _⟩
  · exact hagrees.congr (AList.lookup_insert_ne hsame) rfl

theorem Protocol.enqueue {waits : OpId → Handle → Prop} (hprot : Protocol waits state)
    (id : OpId) (kind : JobKind) (handle : Option Handle) (cb : Callback) :
    Protocol waits (state.enqueue id kind handle cb) := by
  cases handle with
  | none => exact hprot.same rfl rfl (fun _ hmem => hmem) rfl
  | some handle =>
      unfold State.enqueue
      simp only
      cases hlookup : state.files.lookup handle with
      | none => exact hprot.same rfl rfl (fun _ hmem => hmem) rfl
      | some entry =>
          exact (hprot.setOps hlookup (entry.ops + 1)).same rfl rfl (fun _ hmem => hmem) rfl

theorem Protocol.openFor {waits : OpId → Handle → Prop} (hprot : Protocol waits state)
    (hcons : Consistent jobs fds cbs state) (hfresh : ans.fresh state) (path : Path)
    (spec : OpenSpec) {pending : PendingOpen} (hunder : Underway pending.id state) :
    Protocol waits (state.openFor ans path spec pending).2 := by
  have hraw : Protocol waits (state.openRaw ans path spec).2 ∧
      Underway pending.id (state.openRaw ans path spec).2 := by
    unfold State.openRaw
    repeat' split
    · exact ⟨hprot, hunder⟩
    · exact ⟨hprot, hunder⟩
    · exact ⟨hprot, hunder⟩
    · refine ⟨hprot.quiet rfl ?_, hunder.emit ?_⟩
      · rintro _ _ _ ⟨⟩
      · rintro _ ⟨⟩
  have hsized : Protocol waits (state.openSized ans pending.id path spec).2 := by
    have hopened := hcons.openRaw hfresh path spec
    unfold State.openSized
    split
    · next hopen =>
        rw [hopen] at hraw
        exact hraw.1
    · next fd mid hopen =>
        rw [hopen] at hraw hopened
        have hissued := hraw.1.issue hraw.2 fd .fstat
        simp only
        split
        · exact hissued
        · exact hissued.closeRaw fun handle entry hlookup => hopened.entry_fd_ne hlookup
  unfold State.openFor
  split
  · split
    · next hopen =>
        rw [hopen] at hraw
        exact hraw.1
    · next hopen =>
        rw [hopen] at hraw
        exact hraw.1
  · exact hsized
  · exact hsized

theorem closeOwned_files (fd : Fd) : (state.closeOwned ans fd).files = state.files := by
  unfold State.closeOwned
  repeat' split
  all_goals rfl

theorem Protocol.closeOwned {fd : Fd} {waits : OpId → Handle → Prop}
    (hprot : Protocol waits state)
    (hcons : Consistent jobs (fd :: fds) cbs state) :
    Protocol waits (state.closeOwned ans fd) := by
  have hclosed := hprot.closeRaw fun handle entry hlookup => hcons.entry_fd_ne hlookup
  unfold State.closeOwned
  split
  · exact hclosed
  · split
    · exact hprot.same rfl rfl (fun _ hmem => hmem) rfl
    · exact hclosed

/-- A job settles; with the last one on a closing handle goes the handle. -/
theorem Protocol.finish {job : Job} {result : Outcome}
    (hprot : Protocol (state.waits (job :: jobs)) state)
    (hcons : Consistent (job :: jobs) fds cbs state) (hresult : result ≠ .error badHandle) :
    Protocol (state.waits jobs) (state.finish ans job result) := by
  have hown : job.cb = job.id := hcons.roleIds job.role List.mem_cons_self
  have hunder : Underway job.cb state :=
    hown ▸ hcons.underway_of_role (List.mem_cons_self : job.role ∈ state.roles (job :: jobs))
  -- the op of the job has settled, the others wait on
  have hrest : ∀ {mid : State}, Protocol (state.waits (job :: jobs)) (mid.settle job.cb result) →
      Protocol (state.waits jobs) (mid.settle job.cb result) := by
    intro mid hmid
    refine hmid.mono ?_
    rintro id handle ⟨role, hmem, rfl, hhandle⟩
    rcases List.mem_cons.mp hmem with rfl | hrest
    · exact Or.inr ⟨result, hown ▸ List.mem_cons_self⟩
    · exact Or.inl ⟨role, hrest, rfl, hhandle⟩
  unfold State.finish
  cases hhandle : job.handle with
  | none =>
      obtain ⟨howned, hreleased⟩ := hcons.release hhandle
      rw [howned]
      refine hrest ((hprot.closeOwned hreleased).settle ?_ (Or.inl hresult))
      simp only [closeOwned_files]
      exact hunder.noClose
  | some handle =>
      obtain ⟨howned, entry, hlookup, hfd, hops⟩ := hcons.entry_of_job hhandle
      have hsettled := hrest (hprot.settle hunder.noClose (Or.inl hresult))
      have hkept : (state.settle job.cb result).files.lookup handle = some entry := hlookup
      have hless := hsettled.setOps hkept (entry.ops - 1)
      simp only [howned, Bool.false_eq_true, if_false, hkept]
      cases hclosing : entry.closing with
      | none =>
          rw [hclosing] at hless
          exact hless
      | some cb =>
          by_cases hlast : 0 < entry.ops - 1
          · rw [hclosing] at hless
            simp only [hlast, if_true]
            exact hless
          · simp only [hlast, if_false]
            obtain ⟨hnone, hdropped⟩ := hcons.dropLast hhandle hlookup hclosing hlast
            refine hsettled.endClose hkept hclosing (hcons.fresh handle entry hlookup) ?_ ?_ ?_
            · rintro id ⟨role, hmem, -, hon⟩
              have hoff := (ofList_eq_zero_iff _ _).mp hnone role hmem
              simp [hon] at hoff
            · intro other found hfound
              exact ⟨hdropped.entry_fd_ne hfound,
                (hdropped.underway_of_hand (by simp)).noClose other found hfound⟩
            · cases ans.close <;> rintro ⟨⟩

/-- The close that finds its handle idle. -/
theorem Protocol.closeNow {id : OpId} {cb : Callback} {rx : List Msg} {handle : Handle}
    {entry : FileEntry} (hprot : Protocol (state.waits []) state)
    (hcons : Consistent [] [] [] state) (hrx : state.rx = .submit id (.close handle) cb :: rx)
    (hlookup : state.files.lookup handle = some entry) (hopen : entry.closing = none)
    (hidle : entry.ops = 0) :
    Protocol (state.waits [])
      ((({ state.received (.submit id (.close handle) cb) rx with
        files := state.files.erase handle }).closeRaw entry.fd).settle cb
          ((osResult ans.close).map fun _ => .unit)) := by
  have hbegun := (hprot.take hrx).beginClose id cb hlookup hopen
  have hdropped := (hcons.received_submit hrx).dropEntry hlookup hopen hidle
  have hlookups : ∀ other, ((state.files.insert handle
      { entry with closing := some cb }).erase handle).lookup other =
        (state.files.erase handle).lookup other := by
    intro other
    by_cases hsame : other = handle
    · subst hsame
      rw [AList.lookup_erase, AList.lookup_erase]
    · rw [AList.lookup_erase_ne hsame, AList.lookup_erase_ne hsame, AList.lookup_insert_ne hsame]
  have hended := hbegun.endClose (AList.lookup_insert _) rfl (hcons.fresh handle entry hlookup)
    (fun ran hwaits => ?_) (fun other found hfound => ?_)
    (show ((osResult ans.close).map fun _ => Reply.unit) ≠ .error badHandle by
      cases ans.close <;> rintro ⟨⟩)
  · exact hended.frame (fun other hagrees => hagrees.congr (hlookups other).symm rfl)
      (fun _ hmem => hmem) rfl
  · obtain ⟨role, hmem, -, hon⟩ := hwaits
    have hops := hcons.opsCount handle entry hlookup
    have hoff := (ofList_eq_zero_iff _ _).mp (hops.symm.trans hidle) role hmem
    simp [hon] at hoff
  · rw [hlookups] at hfound
    exact ⟨hdropped.entry_fd_ne hfound,
      (hdropped.underway_of_hand (by simp)).noClose other found hfound⟩

/-- The bookkeeping of a chunk keeps the protocol, and its reply is no refusal. -/
theorem Protocol.stepped {waits : OpId → Handle → Prop} {job job' : Job}
    {transferred : Transferred} {reply : Option Outcome} (hprot : Protocol waits state)
    (hunder : Underway job.id state)
    (hstep : state.stepJob ans transferred job = (job', reply, next)) :
    Protocol waits next := by
  have hlog := stepJob_state state ans transferred job
  rw [hstep] at hlog
  rcases hlog with hsame | hstat
  · change next = state at hsame
    subst hsame
    exact hprot
  · change next = state.issue job.id job.fd .fstat at hstat
    subst hstat
    exact hprot.issue hunder _ _

theorem Protocol.takeInflight {waits : OpId → Handle → Prop} (hprot : Protocol waits state)
    (index : ℕ) :
    Protocol waits
      { state with inflight := swapRemove state.inflight index, progress := true } :=
  hprot.same rfl rfl (fun _ hmem => hmem) rfl

theorem Protocol.submit {waits : OpId → Handle → Prop} (hprot : Protocol waits state)
    (hcons : Consistent [] [] [] state) {job : Job} {queue : List Job}
    (htask : state.task.jobs = []) (hqueue : state.queue = job :: queue) :
    Protocol waits (({ state with queue := queue }).issue job.id job.fd (prepare job).2) := by
  have hunder := (hcons.takeQueue htask hqueue).underway_of_role List.mem_cons_self
  have htaken : Protocol waits { state with queue := queue } :=
    hprot.same rfl rfl (fun _ hmem => hmem) rfl
  exact htaken.issue hunder _ _

theorem Consistent.underway_of_task (hcons : Consistent jobs fds cbs state) {job : Job}
    (htask : state.task = .executeSync job) : Underway job.id state := by
  have hlive : job.role ∈ state.roles jobs := by simp [State.roles, State.liveJobs, htask]
  exact hcons.underway_of_role hlive

theorem Protocol.closeOpened {waits : OpId → Handle → Prop} {result : Except IoError (Fd × ℕ)}
    (hprot : Protocol waits state)
    (hfree : ∀ fd, openedFds result = [fd] → ∀ handle entry,
      state.files.lookup handle = some entry → entry.fd ≠ fd) :
    Protocol waits (state.closeOpened result) := by
  cases result with
  | ok opened => exact hprot.closeRaw (hfree opened.1 rfl)
  | error error => exact hprot

/-- With the jobs that stay live, what is kept of the old waits is enough. -/
theorem Act.waits (hact : Act ans hand state hand' next) (hledger : hand.Ledger state)
    (hkept : Protocol (state.waits hand.jobs) next)
    (hresult : ∀ job result, hand' = .ending job result → result ≠ .error badHandle) :
    hand'.Protocol next := by
  refine ⟨hkept.mono ?_, hresult⟩
  rintro id handle ⟨role, hmem, rfl, hon⟩
  rcases hact.roles hledger hmem with hlive | hsettled
  · exact Or.inl ⟨role, hlive, rfl, hon⟩
  · exact Or.inr hsettled

theorem Act.protocol (hact : Act ans hand state hand' next) (hledger : hand.Ledger state)
    (hprot : hand.Protocol state) : hand'.Protocol next := by
  obtain ⟨hkept, hresult⟩ := hprot
  have hcons := hledger.cons
  have hself := hact
  have hfinal := fun hkept hresult => hself.waits hledger hkept hresult
  have hempty : ∀ job result, Hand.empty = .ending job result → result ≠ .error badHandle :=
    fun _ _ hhand => by cases hhand
  cases hact with
  | still hview =>
      simp only [State.view, View.mk.injEq] at hview
      obtain ⟨hrx, -, -, -, -, -, hfiles, hnext, -, -, -, hlog⟩ := hview
      exact hfinal (hkept.same hfiles hnext (fun _ hmem => hrx ▸ hmem) hlog) hempty
  | sent msg hfresh =>
      refine hfinal (hkept.grow (fun _ => ⟨rfl, rfl⟩) ?_ ?_ (fun handle => ?_) (fun handle => ?_)
        (fun id op cb hmem => ?_) rfl) hempty
      · rintro _ _ - ⟨⟩
      · rintro _ _ _ ⟨⟩
      · exact (hkept.table handle).congr rfl rfl
      · exact hkept.orderly handle
      · rcases List.mem_append.mp hmem with hold | hlast
        · exact Or.inl hold
        · exact Or.inr (hfresh id op cb (List.mem_singleton.mp hlast).symm).2
  | nop hrx =>
      have htaken := hcons.received_submit hrx
      have hunder := htaken.underway_of_hand (List.mem_singleton_self _)
      refine hfinal ((hkept.receive hrx rfl).settle hunder.noClose (Or.inl ?_)) hempty
      rintro ⟨⟩
  | @refused _ id op cb rx handle hrx htarget hbad =>
      have htaken := hcons.received_submit hrx
      obtain rfl := hcons.cb_eq_id hrx
      have hunder := htaken.underway_of_hand (List.mem_singleton_self _)
      refine hfinal ((hkept.take hrx).refuse htarget (hkept.not_open_of_withFd hbad)
        (hkept.not_accepted_of_rx hcons hrx) ?_ hunder.noClose) hempty
      intro fd call hmem
      exact (hkept.asked _ fd call hmem).2 op _ (hrx ▸ List.mem_cons_self)
  | @answered _ id op cb rx handle fd result calls hrx htarget hclose hopen hcalls hgives =>
      have htaken := hcons.received_submit hrx
      obtain rfl := hcons.cb_eq_id hrx
      have hunder := htaken.underway_of_hand (List.mem_singleton_self _)
      have haccepted := hkept.acceptMsg hcons hrx htarget hclose hopen
      have hcalled := haccepted.issues hunder fd calls
      have hsettled := hcalled.1.settle hcalled.2.noClose (Or.inl hgives.ne_badHandle)
      refine hfinal (hsettled.mono ?_) hempty
      rintro other on (hwaits | ⟨rfl, rfl⟩)
      · exact Or.inl hwaits
      · exact Or.inr ⟨_, List.mem_cons_self⟩
  | @enqueued _ id op cb rx handle kind asks hrx htask htarget hclose hopen hhandle howned =>
      have htaken := hcons.received_submit hrx
      obtain rfl := hcons.cb_eq_id hrx
      have hunder := htaken.underway_of_hand (List.mem_singleton_self _)
      have haccepted := hkept.acceptMsg hcons hrx htarget hclose hopen
      have hasked := haccepted.asks hunder asks (Job.mk cb false kind cb).fd
      refine ⟨(hasked.enqueue _ kind (some handle) _).mono ?_, hempty⟩
      rintro other on (⟨role, hmem, rfl, hon⟩ | ⟨rfl, rfl⟩)
      · rcases hself.roles hledger hmem with hlive | hsettled
        · exact Or.inl ⟨role, hlive, rfl, hon⟩
        · exact Or.inr hsettled
      · refine Or.inl ⟨(Job.mk other false kind other).role, ?_, rfl, hhandle⟩
        apply List.mem_map_of_mem
        simp [State.liveJobs, State.enqueue]
  | @closeDeferred _ id cb rx handle entry hrx hlookup hopen hbusy =>
      exact hfinal ((hkept.take hrx).beginClose id cb hlookup hopen) hempty
  | closeNow hrx hlookup hopen hidle =>
      exact hfinal (hkept.closeNow hcons hrx hlookup hopen hidle) hempty
  | @openedHere _ id op cb rx path spec after hrx htarget hfresh =>
      have htaken := hcons.received_submit hrx
      have hunder := htaken.underway_of_hand (List.mem_singleton_self _)
      obtain rfl := hcons.cb_eq_id hrx
      refine hfinal ((hkept.receive hrx ?_).openFor htaken hfresh path spec hunder) ?_
      · simp [Event.quiet, htarget]
      · rintro _ _ ⟨⟩
  | sentOpen path spec after hrx htarget =>
      refine hfinal ((hkept.receive hrx ?_).same rfl rfl (fun _ hmem => hmem) rfl) hempty
      simp [Event.quiet, htarget]
  | @cancelQueued _ id rx job hrx hfind =>
      refine hfinal ((hkept.receive hrx rfl).same rfl rfl (fun _ hmem => hmem) rfl) ?_
      rintro other result ⟨⟩
      decide
  | @cancelInflight _ id rx index entry hrx hnone hget hid =>
      have hlive : entry.job.role ∈ (state.received (.cancel id) rx).roles [] :=
        List.mem_map_of_mem (List.mem_append_right _ (List.mem_append_right _
          (List.mem_map_of_mem (List.mem_of_getElem? hget))))
      subst hid
      have hunder : Underway entry.job.id (state.received (.cancel entry.job.id) rx) :=
        (hcons.received_cancel hrx).underway_of_role hlive
      have hcalled := (hkept.receive hrx rfl).issue hunder entry.aiocb.fildes .aioCancel
      exact hfinal (hcalled.same rfl rfl (fun _ hmem => hmem) rfl) hempty
  | cancelOpening hrx hnone hflying hpending =>
      exact hfinal ((hkept.receive hrx rfl).same rfl rfl (fun _ hmem => hmem) rfl) hempty
  | cancelNothing hrx hnone hflying hpending => exact hfinal (hkept.receive hrx rfl) hempty
  | openFailed =>
      have hheld := List.mem_singleton_self (α := Callback)
      exact hfinal (hkept.settle (hcons.underway_of_hand (hheld _)).noClose
        (Or.inr (hkept.not_accepted hcons (hheld _)))) hempty
  | @registered _ pending fd size =>
      have hkeptNow := hkept.register hcons.lookup_nextId fd size
      have hnow := (Consistent.register hcons size).underway_of_hand
        (List.mem_singleton_self pending.cb)
      refine hfinal (hkeptNow.settle hnow.noClose (Or.inl ?_)) hempty
      rintro ⟨⟩
  | enqueuedOwned htask hhandle howned hfd =>
      exact hfinal (hkept.enqueue _ _ none _) hempty
  | tookOpened hback hstill =>
      refine hfinal (hkept.same rfl rfl (fun _ hmem => hmem) rfl) ?_
      rintro _ _ ⟨⟩
  | @openCancelled _ message back hback hcancelled =>
      have htaken := (hcons.takeBack hback).2
      have hunder := htaken.underway_of_hand (List.mem_singleton_self _)
      refine hfinal (Protocol.settle (Protocol.closeOpened ?_ ?_) ?_ (Or.inl ?_)) hempty
      · exact hkept.same rfl rfl (fun _ hmem => hmem) rfl
      · intro fd hfd handle entry hlookup
        rw [hfd] at htaken
        exact htaken.entry_fd_ne hlookup
      · rw [closeOpened_eq]
        exact hunder.noClose
      · decide
  | chunkFailed hpoint hget haio =>
      refine hfinal (hkept.takeInflight _) ?_
      rintro _ _ ⟨⟩
      rintro ⟨⟩
  | @chunkReplied _ _ index entry transferred job reply hget hstep =>
      have hunder := (hcons.takeInflight hget).underway_of_role List.mem_cons_self
      refine hfinal ((hkept.takeInflight index).stepped hunder hstep) ?_
      rintro _ _ ⟨⟩
      exact (stepJob_reply hstep).ne_badHandle
  | @chunkFlagged _ _ index entry transferred job hget hstep hflag =>
      have hunder := (hcons.takeInflight hget).underway_of_role List.mem_cons_self
      refine hfinal ((hkept.takeInflight index).stepped hunder hstep) ?_
      rintro _ _ ⟨⟩
      decide
  | @chunkRequeued _ _ index entry transferred job htask hget hstep hflag =>
      have hunder := (hcons.takeInflight hget).underway_of_role List.mem_cons_self
      have hstepped := (hkept.takeInflight index).stepped hunder hstep
      exact hfinal (hstepped.same rfl rfl (fun _ hmem => hmem) rfl) hempty
  | @submitInflight _ job queue htask hqueue =>
      exact hfinal ((hkept.submit hcons htask hqueue).same rfl rfl (fun _ hmem => hmem) rfl) hempty
  | @submitFull _ job queue htask hqueue =>
      exact hfinal ((hkept.submit hcons htask hqueue).same rfl rfl (fun _ hmem => hmem) rfl) hempty
  | @submitSync _ job queue htask hqueue =>
      exact hfinal ((hkept.submit hcons htask hqueue).same rfl rfl (fun _ hmem => hmem) rfl) hempty
  | @submitFailed _ job queue errno htask hqueue hfails =>
      refine hfinal (hkept.submit hcons htask hqueue) ?_
      rintro _ _ ⟨⟩
      rintro ⟨⟩
  | @execFailed _ job errno htask hfails =>
      have hunder := hcons.underway_of_task htask
      refine hfinal ((hkept.issue hunder job.fd (syncCall job)).same rfl rfl
        (fun _ hmem => hmem) rfl) ?_
      rintro _ _ ⟨⟩
      rintro ⟨⟩
  | @execReplied _ _ job job' transferred reply htask hstep =>
      have hunder := hcons.underway_of_task htask
      have hstepped := (hkept.issue hunder job.fd (syncCall job)).stepped
        (hunder.issue job.id job.fd (syncCall job)) hstep
      refine hfinal (hstepped.same rfl rfl (fun _ hmem => hmem) rfl) ?_
      rintro _ _ ⟨⟩
      exact (stepJob_reply hstep).ne_badHandle
  | @execAgain _ _ job job' transferred htask hstep =>
      have hunder := hcons.underway_of_task htask
      have hstepped := (hkept.issue hunder job.fd (syncCall job)).stepped
        (hunder.issue job.id job.fd (syncCall job)) hstep
      exact hfinal (hstepped.same rfl rfl (fun _ hmem => hmem) rfl) hempty
  | @ended _ job result =>
      refine ⟨(hkept.finish hcons (hresult job result rfl)).mono ?_, hempty⟩
      rintro id handle ⟨role, hmem, hid, hon⟩
      refine Or.inl ⟨role, ?_, hid, hon⟩
      rw [State.roles, finish_liveJobs]
      exact hmem
  | helperTook hget hqueue =>
      exact hfinal (hkept.same rfl rfl (fun _ hmem => hmem) rfl) hempty
  | helperExited hget =>
      exact hfinal (hkept.same rfl rfl (fun _ hmem => hmem) rfl) hempty
  | @helperClosed _ index fd hget =>
      have hfreed := hcons.freeHelper hget
      refine hfinal (Protocol.closeRaw ?_ fun handle entry hlookup => ?_) hempty
      · exact hkept.same rfl rfl (fun _ hmem => hmem) rfl
      · exact hfreed.entry_fd_ne hlookup
  | @helperOpened _ index path spec pending hget hfresh =>
      have hlisted : pending ∈ state.pendings :=
        Invariant.mem_pendings_of_helper hget (by simp [Helper.pendings, HelperJob.pendings])
      have hunder := hcons.underway_of_pending hlisted
      exact hfinal ((hkept.openFor hcons hfresh path spec hunder).same rfl rfl
        (fun _ hmem => hmem) rfl) hempty
  | helperSent hget =>
      exact hfinal (hkept.same rfl rfl (fun _ hmem => hmem) rfl) hempty

/-- An accepted close has settled, or its handle waits for it. -/
theorem Protocol.close_waiting {waits : OpId → Handle → Prop} (hprot : Protocol waits state)
    {cb : Callback} (hmem : cb ∈ closeCallbacks state.log) :
    (∃ result, Event.settled cb result ∈ state.log) ∨
      ∃ handle entry, state.files.lookup handle = some entry ∧ entry.closing = some cb := by
  obtain ⟨later, id, handle, earlier, fd, hopen, hlog⟩ := exists_close_of_mem hmem
  have horderly := hprot.orderly handle
  have hagrees := hprot.table handle
  rw [hlog] at horderly
  rcases horderly.after_close (standing_close id cb hopen) with
    hawaiting | ⟨hstanding, -⟩ | ⟨-, front, back, result, rfl, -⟩
  · rw [hlog, hawaiting.standing] at hagrees
    obtain ⟨ops, hlookup⟩ := hagrees
    exact Or.inr ⟨handle, _, hlookup, rfl⟩
  · rw [hlog, hstanding] at hagrees
    exact hagrees.elim
  · refine Or.inl ⟨result, ?_⟩
    rw [hlog]
    simp

theorem Protocol.not_close {waits : OpId → Handle → Prop} (hprot : Protocol waits state)
    {cb : Callback} (hunsettled : ∀ result, Event.settled cb result ∉ state.log)
    (hclose : ∀ handle entry, state.files.lookup handle = some entry → entry.closing ≠ some cb) :
    cb ∉ closeCallbacks state.log := by
  intro hmem
  rcases hprot.close_waiting hmem with ⟨result, hsettled⟩ | ⟨handle, entry, hlookup, hclosing⟩
  · exact hunsettled result hsettled
  · exact hclose handle entry hlookup hclosing

/-- No close is accepted and no callback runs between two logs. -/
structure Still (log grown : List Event) : Prop where
  closes : closeCallbacks grown = closeCallbacks log
  settled : ∀ cb result, Event.settled cb result ∈ grown → Event.settled cb result ∈ log

namespace Still

variable {log mid grown : List Event}

theorem refl (log : List Event) : Still log log := ⟨rfl, fun _ _ hmem => hmem⟩

theorem cons {event : Event} (hcloses : closeCallbacks (event :: log) = closeCallbacks log)
    (hother : ∀ cb result, event ≠ .settled cb result) : Still log (event :: log) := by
  refine ⟨hcloses, fun cb result hmem => ?_⟩
  rcases List.mem_cons.mp hmem with hhead | htail
  · exact absurd hhead.symm (hother cb result)
  · exact htail

theorem chores (hstill : Still log mid) {id : OpId} (hgrown : Chores id mid grown) :
    Still log grown where
  closes := hgrown.closeCallbacks.trans hstill.closes
  settled cb result hmem :=
    hstill.settled cb result ((hgrown.mem_iff (by simp [Event.chore])).mp hmem)

theorem received {state : State} {id : OpId} {op : Op} {cb : Callback} {rx : List Msg}
    (hclose : Op.isClose op = false) :
    Still state.log (state.received (.submit id op cb) rx).log := by
  refine cons ?_ (fun _ _ hsame => by cases hsame)
  cases op <;> first | rfl | cases hclose

theorem cancelled {state : State} {id : OpId} {rx : List Msg} :
    Still state.log (state.received (.cancel id) rx).log :=
  cons rfl fun _ _ hsame => by cases hsame

end Still

/-- A callback runs that was in hand: it is no accepted close's. -/
theorem Protocol.settled_split {waits : OpId → Handle → Prop} (hprot : Protocol waits state)
    {grown : List Event} (hstill : Still state.log grown) {held : Callback}
    (hunsettled : ∀ result, Event.settled held result ∉ state.log)
    (hclose : ∀ handle entry, state.files.lookup handle = some entry → entry.closing ≠ some held)
    {cb : Callback} {last result : Outcome}
    (hmem : cb ∈ closeCallbacks (.settled held last :: grown))
    (hsettled : Event.settled cb result ∈ Event.settled held last :: grown) :
    cb ∈ closeCallbacks state.log ∧ Event.settled cb result ∈ state.log := by
  have hmem : cb ∈ closeCallbacks state.log := hstill.closes ▸ hmem
  refine ⟨hmem, ?_⟩
  rcases List.mem_cons.mp hsettled with hhead | htail
  · cases hhead
    exact absurd hmem (hprot.not_close hunsettled hclose)
  · exact hstill.settled cb result htail

/-- A close that was just handled has not settled; earlier ones are as they were. -/
theorem Underway.close_settled {id : OpId} {handle : Handle} {held : Callback} {rx : List Msg}
    {cb : Callback} {result : Outcome}
    (hunder : Underway held (state.received (.submit id (.close handle) held) rx))
    (hmem : cb ∈ closeCallbacks (.handled (.submit id (.close handle) held) :: state.log))
    (hsettled : Event.settled cb result ∈
      Event.handled (.submit id (.close handle) held) :: state.log) :
    cb ∈ closeCallbacks state.log ∧ Event.settled cb result ∈ state.log := by
  have hold : Event.settled cb result ∈ state.log := by
    refine (List.mem_cons.mp hsettled).resolve_left ?_
    rintro ⟨⟩
  have hne : cb ≠ held := by
    rintro rfl
    exact hunder.unsettled result hsettled
  refine ⟨?_, hold⟩
  simp only [closeCallbacks] at hmem
  split at hmem
  · exact (List.mem_cons.mp hmem).resolve_left hne
  · exact hmem

/-- A close settles with what closing its descriptor answered. -/
theorem Act.close_result (hact : Act ans hand state hand' next) (hledger : hand.Ledger state)
    (hprot : hand.Protocol state) {cb : Callback} (hmem : cb ∈ closeCallbacks next.log)
    {result : Outcome} (hsettled : Event.settled cb result ∈ next.log) :
    (cb ∈ closeCallbacks state.log ∧ Event.settled cb result ∈ state.log) ∨
      result = (osResult ans.close).map fun _ => .unit := by
  obtain ⟨hkept, -⟩ := hprot
  have hcons := hledger.cons
  -- nothing is accepted or settled
  have hquiet : Still state.log next.log →
      cb ∈ closeCallbacks state.log ∧ Event.settled cb result ∈ state.log :=
    fun hstill => ⟨hstill.closes ▸ hmem, hstill.settled cb result hsettled⟩
  -- an op just received settles
  have htaken : ∀ {id : OpId} {op : Op} {held : Callback} {rx : List Msg}
      {grown : List Event} {last : Outcome}, Consistent [] [] [] state →
      state.rx = .submit id op held :: rx →
      Still state.log grown → next.log = .settled held last :: grown →
      cb ∈ closeCallbacks state.log ∧ Event.settled cb result ∈ state.log := by
    intro id op held rx grown last hcons hrx hstill hlog
    have hunder := (hcons.received_submit hrx).underway_of_hand (List.mem_singleton_self held)
    rw [hlog] at hmem hsettled
    exact hkept.settled_split hstill
      (fun result hin => hunder.unsettled result (List.mem_cons_of_mem _ hin)) hunder.noClose
      hmem hsettled
  have hself := hact
  cases hact with
  | still hview =>
      simp only [State.view, View.mk.injEq] at hview
      obtain ⟨-, -, -, -, -, -, -, -, -, -, -, hlog⟩ := hview
      exact Or.inl (hquiet (hlog ▸ .refl _))
  | sent msg hfresh => exact Or.inl (hquiet (.cons rfl fun _ _ hsame => by cases hsame))
  | nop hrx => exact Or.inl (htaken hcons hrx (.received rfl) rfl)
  | @refused _ id op held rx handle hrx htarget hbad =>
      have hshut := hkept.not_open_of_withFd hbad
      refine Or.inl (htaken hcons hrx (.cons ?_ fun _ _ hsame => by cases hsame) rfl)
      cases op
      case close on =>
        obtain rfl : on = handle := by simpa [Op.target] using htarget
        simp [closeCallbacks, hshut]
      all_goals rfl
  | answered calls hrx htarget hclose hopen hcalls hgives =>
      exact Or.inl (htaken hcons hrx
        ((Still.received hclose).chores (.issues _ _ calls hcalls)) rfl)
  | enqueued asks hrx htask htarget hclose hopen hhandle howned =>
      exact Or.inl (hquiet ((Still.received hclose).chores (.asked asks _ _)))
  | @closeDeferred _ id held rx handle entry hrx hlookup hopen hbusy =>
      have hunder := (hcons.received_submit hrx).underway_of_hand (List.mem_singleton_self held)
      exact Or.inl (hunder.close_settled hmem hsettled)
  | @closeNow _ id held rx handle entry hrx hlookup hopen hidle =>
      have hunder := (hcons.received_submit hrx).underway_of_hand (List.mem_singleton_self held)
      rcases List.mem_cons.mp hsettled with hhead | htail
      · cases hhead
        exact Or.inr rfl
      · refine Or.inl (hunder.close_settled hmem ((List.mem_cons.mp htail).resolve_left ?_))
        rintro ⟨⟩
  | @openedHere _ id op held rx path spec after hrx htarget hfresh =>
      have hclose : Op.isClose op = false := by cases op <;> first | rfl | cases htarget
      exact Or.inl (hquiet ((Still.received hclose).chores (.openFor path spec _)))
  | @sentOpen _ id op held rx path spec after hrx htarget =>
      have hclose : Op.isClose op = false := by cases op <;> first | rfl | cases htarget
      exact Or.inl (hquiet (Still.received hclose))
  | cancelQueued hrx hfind => exact Or.inl (hquiet Still.cancelled)
  | @cancelInflight _ id rx index entry hrx hnone hget hid =>
      have hcall : Event.chore id (.syscall id entry.aiocb.fildes .aioCancel) := ⟨rfl, rfl⟩
      exact Or.inl (hquiet (Still.cancelled.chores (.one hcall)))
  | cancelOpening hrx hnone hflying hpending => exact Or.inl (hquiet Still.cancelled)
  | cancelNothing hrx hnone hflying hpending => exact Or.inl (hquiet Still.cancelled)
  | openFailed =>
      have hunder := hcons.underway_of_hand (List.mem_singleton_self _)
      exact Or.inl (hkept.settled_split (.refl _) hunder.unsettled hunder.noClose hmem hsettled)
  | registered =>
      have hunder := hcons.underway_of_hand (List.mem_singleton_self _)
      exact Or.inl (hkept.settled_split (.cons rfl fun _ _ hsame => by cases hsame)
        hunder.unsettled hunder.noClose hmem hsettled)
  | enqueuedOwned htask hhandle howned hfd => exact Or.inl (hquiet (.refl _))
  | tookOpened hback hstill => exact Or.inl (hquiet (.refl _))
  | @openCancelled _ message back hback hcancelled =>
      have hunder := (hcons.takeBack hback).2.underway_of_hand (List.mem_singleton_self _)
      refine Or.inl (hkept.settled_split ?_ hunder.unsettled hunder.noClose hmem hsettled)
      exact (Still.refl _).chores (.closeOpened 0 message.result)
  | chunkFailed hpoint hget haio => exact Or.inl (hquiet (.refl _))
  | chunkReplied hget hstep =>
      have hgrown := Chores.stepJob hstep
      exact Or.inl (hquiet ((Still.refl _).chores hgrown))
  | chunkFlagged hget hstep hflag =>
      have hgrown := Chores.stepJob hstep
      exact Or.inl (hquiet ((Still.refl _).chores hgrown))
  | chunkRequeued htask hget hstep hflag =>
      have hgrown := Chores.stepJob hstep
      exact Or.inl (hquiet ((Still.refl _).chores hgrown))
  | submitInflight htask hqueue =>
      exact Or.inl (hquiet (.cons rfl fun _ _ hsame => by cases hsame))
  | submitFull htask hqueue =>
      exact Or.inl (hquiet (.cons rfl fun _ _ hsame => by cases hsame))
  | submitSync htask hqueue =>
      exact Or.inl (hquiet (.cons rfl fun _ _ hsame => by cases hsame))
  | submitFailed htask hqueue hfails =>
      exact Or.inl (hquiet (.cons rfl fun _ _ hsame => by cases hsame))
  | execFailed htask hfails =>
      exact Or.inl (hquiet (.cons rfl fun _ _ hsame => by cases hsame))
  | execReplied htask hstep =>
      exact Or.inl (hquiet
        (Still.chores (.cons rfl fun _ _ hsame => by cases hsame) (.stepJob hstep)))
  | execAgain htask hstep =>
      exact Or.inl (hquiet
        (Still.chores (.cons rfl fun _ _ hsame => by cases hsame) (.stepJob hstep)))
  | @ended _ job last =>
      have hown : job.cb = job.id := hcons.roleIds job.role List.mem_cons_self
      have hunder : Underway job.cb state :=
        hown ▸ hcons.underway_of_role (List.mem_cons_self : job.role ∈ state.roles [job])
      obtain ⟨grown, hgrown, hlog | ⟨handle, entry, waiting, carriers, hlookup, hclosing, hlog⟩⟩ :=
        Chores.finish ans state job last
      · rw [hlog] at hmem hsettled
        exact Or.inl (hkept.settled_split ((Still.refl _).chores hgrown) hunder.unsettled
          hunder.noClose hmem hsettled)
      · rw [hlog] at hmem hsettled
        rcases List.mem_cons.mp hsettled with hhead | htail
        · cases hhead
          exact Or.inr rfl
        · left
          refine hkept.settled_split ((Still.refl _).chores hgrown) hunder.unsettled
            hunder.noClose hmem ((List.mem_cons.mp htail).resolve_left ?_)
          rintro ⟨⟩
  | helperTook hget hqueue => exact Or.inl (hquiet (.refl _))
  | helperExited hget => exact Or.inl (hquiet (.refl _))
  | helperClosed hget => exact Or.inl (hquiet (.cons rfl fun _ _ hsame => by cases hsame))
  | helperOpened hget hfresh =>
      exact Or.inl (hquiet ((Still.refl _).chores (.openFor _ _ _)))
  | helperSent hget => exact Or.inl (hquiet (.refl _))

end Actions

theorem Hand.Protocol.new (hardware maxInflight : ℕ) :
    Hand.empty.Protocol (State.new (helpersFor hardware) maxInflight) where
  kept :=
    { table := fun _ => rfl
      orderly := fun _ => trivial
      running := fun _ _ hmem => by cases hmem
      normal := fun _ _ hmem => by cases hmem
      refused := fun _ _ hmem => by cases hmem
      asked := fun _ _ _ hmem => by cases hmem }
  result _ _ hhand := by cases hhand

theorem Hand.Protocol.step {state next : State} {label : Label} (hinv : Invariant state)
    (hprot : Hand.empty.Protocol state) (hstep : Darwin.step state label = some next) :
    Hand.empty.Protocol next :=
  (step_acts hinv hstep).keep
    (fun _ _ _ _ hledger hact hprot => hact.protocol hledger hprot) (.empty hinv.ledger) hprot

theorem Hand.Protocol.of_reachable {state : State} (hreach : driver.Reachable state) :
    Hand.empty.Protocol state := by
  refine hreach.invariant ?_ ?_
  · rintro _ ⟨hardware, maxInflight, -, rfl⟩
    exact .new hardware maxInflight
  · intro _ _ _ hprev hprot hstep
    exact hprot.step (Invariant.of_reachable hprev) hstep

/-! ## Runs -/

section Runs

variable {state next : State} {label : Label}

theorem Consistent.settledTimes_of_mem (hcons : Consistent [] [] [] state) {id : OpId}
    {result : Outcome} (hmem : Event.settled id result ∈ state.log) :
    settledTimes id state.log = 1 := by
  have hle := hcons.count_callback_le id
  have hspent := weight_le_ofList (cbWeights id).spent hmem
  have hself : (cbWeights id).spent (.settled id result) = 1 := by
    simp [Weights.spent, cbWeights]
  rw [settledTimes_eq]
  simp only [hself] at hspent
  omega

/-- In a step a close settles with the answer of that step. -/
theorem close_result_of_step (hreach : driver.Reachable state)
    (hstep : driver.step state label = some next) {cb : Callback}
    (hmem : cb ∈ closeCallbacks next.log) {result : Outcome}
    (hsettled : Event.settled cb result ∈ next.log) :
    Event.settled cb result ∈ state.log ∨
      result = (osResult label.answers.close).map fun _ => .unit := by
  have hinv := Invariant.of_reachable hreach
  refine (@Acts.keep label.answers (fun hand mid => hand.Protocol mid ∧
      ∀ cb ∈ closeCallbacks mid.log, ∀ result, Event.settled cb result ∈ mid.log →
        Event.settled cb result ∈ state.log ∨
          result = (osResult label.answers.close).map fun _ => .unit)
    (fun hand mid hand' after hledger hact hprop => ?_) _ _ _ (step_acts hinv hstep)
    (.empty hinv.ledger) ?_).2 cb hmem result hsettled
  · refine ⟨hact.protocol hledger hprop.1, fun cb hin result hran => ?_⟩
    rcases hact.close_result hledger hprop.1 hin hran with ⟨hold, hearlier⟩ | hnow
    · exact hprop.2 cb hold result hearlier
    · exact Or.inr hnow
  · exact ⟨Hand.Protocol.of_reachable hreach, fun _ _ _ hold => Or.inl hold⟩

/-- An op accepted on a handle is settled once and not refused, or has a live
job on the handle and its descriptor. -/
theorem accepted_settles (hreach : driver.Reachable state) {handle : Handle} {id : OpId}
    (hmem : id ∈ acceptedOn handle state.log) :
    Event.settled id (.error badHandle) ∉ state.log ∧
      (settledTimes id state.log = 1 ∨
        ∃ job entry, job ∈ state.liveJobs ∧ job.id = id ∧ job.handle = some handle ∧
          state.files.lookup handle = some entry ∧ job.fd = entry.fd ∧
            entry.fd ∈ openFds state.log) := by
  have hcons := (Invariant.of_reachable hreach).ledger
  have hprot := (Hand.Protocol.of_reachable hreach).kept
  refine ⟨hprot.normal handle id hmem, ?_⟩
  rcases hprot.running handle id hmem with ⟨result, hsettled⟩ | ⟨role, hrole, hid, hon⟩
  · exact Or.inl (hcons.settledTimes_of_mem hsettled)
  · right
    have hplaced := hcons.placed role hrole
    simp only [Role.placedIn, hon] at hplaced
    obtain ⟨-, entry, hlookup, hfd⟩ := hplaced
    obtain ⟨job, hjob, rfl⟩ := List.mem_map.mp hrole
    exact ⟨job, entry, hjob, hid, hon, hlookup, hfd.symm, hcons.mem_openFds_of_entry hlookup⟩

/-- **The close protocol.**  Take any step of any run and any close handled up
to then on a handle that was open.  The ops handled before it on the handle
settle once, and not with `badHandle`, or are still live on its descriptor; only
one that named the handle before it was registered was refused.  The ops handled
after it, closes included, are refused and make no syscall.  While the close
waits a job on the handle is live; else its descriptor has been closed once,
when all earlier ops had settled, and behind that its callback has run once,
with what the close answered in the step that ran it.  No handle is registered
twice. -/
theorem close_protocol (hreach : driver.Reachable state)
    (hstep : driver.step state label = some next) {later earlier : List Event} {id : OpId}
    {handle : Handle} {cb : Callback} {fd : Fd}
    (hlog : next.log = later ++ .handled (.submit id (.close handle) cb) :: earlier)
    (hopen : standing handle earlier = .opened fd) :
    (∀ ran op other, Event.handled (.submit ran op other) ∈ earlier →
        Op.target op = some handle →
        (ran ∈ refusedOn handle earlier ∧ settledTimes ran next.log = 1) ∨
          (Event.settled ran (.error badHandle) ∉ next.log ∧
            (settledTimes ran next.log = 1 ∨
              ∃ job, job ∈ next.liveJobs ∧ job.id = ran ∧ job.handle = some handle ∧
                job.fd = fd ∧ fd ∈ openFds next.log))) ∧
      (∀ ran op other, Event.handled (.submit ran op other) ∈ later →
        Op.target op = some handle →
        Event.settled ran (.error badHandle) ∈ next.log ∧ settledTimes ran next.log = 1 ∧
          ∀ on call, Event.syscall ran on call ∉ next.log) ∧
      ((Awaiting handle fd cb later next.log ∧
          ∃ job ∈ next.liveJobs, job.handle = some handle) ∨
        (settledTimes cb next.log = 1 ∧
          ∃ front back result, later = front ++ .settled cb result :: back ∧
            Released handle fd cb back
              (.handled (.submit id (.close handle) cb) :: earlier))) ∧
      (∀ result, Event.settled cb result ∈ next.log →
        Event.settled cb result ∈ state.log ∨
          result = (osResult label.answers.close).map fun _ => .unit) ∧
      (registrations next.log).Nodup := by
  have hnext : driver.Reachable next := hreach.next hstep
  have hcons := (Invariant.of_reachable hnext).ledger
  have hprot := (Hand.Protocol.of_reachable hnext).kept
  have hclosing := standing_close id cb hopen
  have horderly : Orderly handle
      (later ++ .handled (.submit id (.close handle) cb) :: earlier) := hlog ▸ hprot.orderly handle
  have hagrees := hprot.table handle
  have hafter := horderly.after_close hclosing
  -- a live job on the handle is on the descriptor of the close
  have hentry : ∀ entry, next.files.lookup handle = some entry →
      Awaiting handle fd cb later next.log ∧ entry.fd = fd ∧ entry.closing = some cb := by
    intro entry hlookup
    rcases hafter with hawaiting | ⟨hstanding, -⟩ | ⟨hstanding, -⟩
    · rw [← hlog] at hawaiting
      rw [hawaiting.standing] at hagrees
      obtain ⟨ops, hfound⟩ := hagrees
      obtain rfl := Option.some.inj (hlookup.symm.trans hfound)
      exact ⟨hawaiting, rfl, rfl⟩
    · rw [hlog, hstanding] at hagrees
      exact hagrees.elim
    · rw [hlog, hstanding] at hagrees
      have hnone := hagrees.1
      rw [hlookup] at hnone
      cases hnone
  refine ⟨fun ran op other hmem htarget => ?_, fun ran op other hmem htarget => ?_, ?_,
    fun result => ?_, registrations_nodup hprot.orderly⟩
  · rcases horderly.suffix.tail.accepted_or_refused hopen hmem htarget with haccepted | hrefused
    · right
      have hin : ran ∈ acceptedOn handle next.log := by
        rw [hlog]
        exact mem_handledOn_append later (mem_handledOn_append [_] haccepted)
      obtain ⟨hnormal, hsettled | hlive⟩ := accepted_settles hnext hin
      · exact ⟨hnormal, Or.inl hsettled⟩
      · obtain ⟨job, entry, hjob, hid, hon, hlookup, hfd, hopened⟩ := hlive
        obtain ⟨-, hsame, -⟩ := hentry entry hlookup
        exact ⟨hnormal, Or.inr ⟨job, hjob, hid, hon, hfd.trans hsame, hsame ▸ hopened⟩⟩
    · left
      have hin : ran ∈ refusedOn handle next.log := by
        rw [hlog]
        exact mem_handledOn_append later (mem_handledOn_append [_] hrefused)
      exact ⟨hrefused, hcons.settledTimes_of_mem (hprot.refused handle ran hin).1⟩
  · have hin : ran ∈ refusedOn handle next.log := by
      rw [hlog]
      exact horderly.refused_after_close hclosing hmem htarget
    obtain ⟨hsettled, hnone⟩ := hprot.refused handle ran hin
    exact ⟨hsettled, hcons.settledTimes_of_mem hsettled, hnone⟩
  · rcases hafter with hawaiting | ⟨hstanding, -⟩ | ⟨-, front, back, result, hlater, hreleased⟩
    · left
      rw [← hlog] at hawaiting
      rw [hawaiting.standing] at hagrees
      obtain ⟨ops, hlookup⟩ := hagrees
      refine ⟨hawaiting, ?_⟩
      have hbusy := hcons.closingBusy handle _ hlookup rfl
      have hops := hcons.opsCount handle _ hlookup
      by_contra hidle
      have hnone : rolesOn handle (next.roles []) = 0 := by
        rw [rolesOn, ofList_eq_zero_iff]
        intro role hrole
        obtain ⟨job, hjob, rfl⟩ := List.mem_map.mp hrole
        exact if_neg fun hon => hidle ⟨job, hjob, hon⟩
      change ops = rolesOn handle (next.roles []) at hops
      change 0 < ops at hbusy
      omega
    · rw [hlog, hstanding] at hagrees
      exact hagrees.elim
    · right
      have hran : Event.settled cb result ∈ next.log := by
        rw [hlog, hlater]
        simp
      exact ⟨hcons.settledTimes_of_mem hran, front, back, result, hlater, hreleased⟩
  · refine close_result_of_step hreach hstep ?_
    rw [hlog]
    exact mem_closeCallbacks later hopen

end Runs

/-- A file is closed while a read of it is with the kernel, and its size asked for
after that. -/
def closeRun : List Label :=
  [.submit 1 (.openFile [97] { read := true }), .drive { openFd := .ok 5 },
    .submit 2 (.readAt 1 0 (.alloc 3)), .submit 3 (.close 1), .submit 4 (.size 1)] ++
    List.replicate 13 (.drive {})

/-- The read ends, and with it the close. -/
theorem close_protocol_busy :
    ∃ state next later earlier,
      driver.exec (State.new (helpersFor 8) 16) closeRun = some state ∧
      settledTimes 2 state.log = 0 ∧ settledTimes 3 state.log = 0 ∧
      driver.step state (.drive { aio := .done ⟨3, [1, 2, 3]⟩ }) = some next ∧
      next.log = later ++ .handled (.submit 3 (.close 1) 3) :: earlier ∧
      standing 1 earlier = .opened 5 ∧ settledTimes 2 next.log = 1 ∧
      Event.settled 4 (.error badHandle) ∈ next.log ∧
      (∀ on call, Event.syscall 4 on call ∉ next.log) ∧ settledTimes 3 next.log = 1 := by
  obtain ⟨state, hexec⟩ : ∃ state,
      driver.exec (State.new (helpersFor 8) 16) closeRun = some state := ⟨_, rfl⟩
  have hstart : driver.init (State.new (helpersFor 8) 16) := ⟨8, 16, by decide, rfl⟩
  have hreach : driver.Reachable state := (System.Reachable.ofInit hstart).ofExec hexec
  obtain ⟨hread, hclose, next, hstep, hidle, earlier, hopen, hbefore, hlog⟩ :
      settledTimes 2 state.log = 0 ∧ settledTimes 3 state.log = 0 ∧
        ∃ next, driver.step state (.drive { aio := .done ⟨3, [1, 2, 3]⟩ }) = some next ∧
          next.liveJobs = [] ∧ ∃ earlier, standing 1 earlier = .opened 5 ∧
            Event.handled (.submit 2 (.readAt 1 0 (.alloc 3)) 2) ∈ earlier ∧
            next.log = [.settled 3 (.ok .unit), .closed 5 [], .settled 2 (.ok (.bytes [1, 2, 3])),
              .settled 4 (.error badHandle), .handled (.submit 4 (.size 1) 4)] ++
                .handled (.submit 3 (.close 1) 3) :: earlier := by
    cases hexec
    exact ⟨rfl, rfl, _, rfl, rfl, _, rfl, .tail _ (.head _), rfl⟩
  obtain ⟨hbehind, hafter, hends, -, -⟩ := close_protocol hreach hstep hlog hopen
  obtain ⟨hrefused, -, hquiet⟩ := hafter 4 (.size 1) 4 (by simp) rfl
  refine ⟨state, next, _, earlier, hexec, hread, hclose, hstep, hlog, hopen, ?_, hrefused, hquiet,
    ?_⟩
  · rcases hbehind 2 (.readAt 1 0 (.alloc 3)) 2 hbefore rfl with hsettled | ⟨-, hsettled | hlive⟩
    · exact hsettled.2
    · exact hsettled
    · obtain ⟨job, hjob, -⟩ := hlive
      rw [hidle] at hjob
      cases hjob
  · rcases hends with ⟨-, job, hjob, -⟩ | hsettled
    · rw [hidle] at hjob
      cases hjob
    · exact hsettled.1

end Turbofile.Darwin
