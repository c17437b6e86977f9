import Turbofile.Darwin.PendingOpens
import Turbofile.Darwin.Scheduling
import Turbofile.Darwin.Stopped

/-!
# What a cancel request does and what it leaves alone

A callback gets `ECANCELED` only behind its own request, a request that is
handled ends the transfers of its op for good, and everything of the other ops
stays as it was.
-/

namespace Turbofile.Darwin

open Turbofile.Core
open Turbofile.Tally
open Turbofile.Logs
open State

variable {state next : State} {ans : Answers} {id : OpId}

/-- **Cancelled on request only.**  With a kernel that reports `ECANCELED` only
for control blocks passed to `aio_cancel`, an op settles with it only after its
own cancel request was handled, and that after the op; a flag in flight and a
noted open have such a request too, no job waits or runs flagged, and every
noted open is still out. -/
theorem cancelled_only_if_asked (hreach : driver.ReachableBy Honest state) :
    (∀ later id earlier, state.log = later ++ .settled id (.error cancelledError) :: earlier →
        CancelAsked id earlier) ∧
      (∀ entry ∈ state.inflight, entry.job.cancelled = true →
        CancelAsked entry.job.id state.log) ∧
      (∀ job ∈ state.queue ++ state.task.jobs, job.cancelled = false) ∧
      (∀ id ∈ state.cancelledOpens, id ∈ state.pendingOpens ∧ Place.helper ∈ state.places id ∧
        CancelAsked id state.log) := by
  have hflags := Flags.of_reachable hreach
  refine ⟨fun later id earlier hlog => ?_, hflags.inflight, hflags.idle, fun id hmem => ?_⟩
  case refine_2 =>
    have hwaits := hflags.within hmem
    exact ⟨hwaits, (mem_pendingOpens_iff hreach.reachable).mp hwaits, hflags.opens id hmem⟩
  have hasked := hflags.asked
  rw [hlog] at hasked
  exact hasked.split

/-! ### A read cancelled in flight -/

/-- An answer that is not `ECANCELED`. -/
def uncancelled {α : Type} : Except Errno α → Bool
  | .error errno => decide (errno ≠ .ecanceled)
  | .ok _ => true

theorem ne_of_uncancelled {α : Type} {result : Except Errno α} {errno : Errno}
    (htest : uncancelled result = true) (hfails : result = .error errno) : errno ≠ .ecanceled := by
  subst hfails
  exact of_decide_eq_true htest

def Answers.honest (ans : Answers) : Bool :=
  uncancelled ans.openFd && uncancelled ans.stat && uncancelled ans.ftruncate &&
    uncancelled ans.close && uncancelled ans.submitted && uncancelled ans.transfer

def Event.cancels (id : OpId) : Event → Bool
  | .syscall other _ .aioCancel => decide (other = id)
  | _ => false

def AioStatus.cancelled : AioStatus → Bool
  | .failed .ecanceled => true
  | .failed _ | .inProgress | .done _ => false

/-- A test for `Honest`. -/
def honest (state : State) : Label → Bool
  | .drive ans =>
      ans.honest && (!ans.aio.cancelled ||
        state.inflight.all fun entry => state.log.any (Event.cancels entry.job.id))
  | .help _ ans => ans.honest
  | .submit .. | .requestCancel _ | .dropSubmitters => true

theorem honest_calls (htest : ans.honest = true) {errno : Errno} (hfails : ans.Fails errno) :
    errno ≠ .ecanceled := by
  simp only [Answers.honest, Bool.and_eq_true] at htest
  obtain ⟨⟨⟨⟨⟨hopen, hstat⟩, htruncate⟩, hclose⟩, hsubmitted⟩, htransfer⟩ := htest
  cases hfails with
  | openFd hfails => exact ne_of_uncancelled hopen hfails
  | stat hfails => exact ne_of_uncancelled hstat hfails
  | ftruncate hfails => exact ne_of_uncancelled htruncate hfails
  | close hfails => exact ne_of_uncancelled hclose hfails
  | submitted hfails => exact ne_of_uncancelled hsubmitted hfails
  | transfer hfails => exact ne_of_uncancelled htransfer hfails

theorem exists_of_cancels {log : List Event} (hany : log.any (Event.cancels id) = true) :
    ∃ fd, Event.syscall id fd .aioCancel ∈ log := by
  obtain ⟨event, hmem, hcancels⟩ := List.any_eq_true.mp hany
  unfold Event.cancels at hcancels
  split at hcancels
  · obtain rfl := of_decide_eq_true hcancels
    exact ⟨_, hmem⟩
  · cases hcancels

theorem honest_of_test (state : State) (label : Label) (htest : honest state label = true) :
    Honest state label := by
  have hquiet : ∀ errno, (Label.answers .dropSubmitters).Fails errno → errno ≠ .ecanceled := by
    intro errno hfails
    exact honest_calls (by decide) hfails
  cases label with
  | submit other op => exact ⟨hquiet, fun _ _ _ hsame => by cases hsame⟩
  | requestCancel other => exact ⟨hquiet, fun _ _ _ hsame => by cases hsame⟩
  | dropSubmitters => exact ⟨hquiet, fun _ _ _ hsame => by cases hsame⟩
  | help index ans =>
      exact ⟨fun _ hfails => honest_calls htest hfails, fun _ _ _ hsame => by cases hsame⟩
  | drive ans =>
      simp only [honest, Bool.and_eq_true, Bool.or_eq_true, List.all_eq_true] at htest
      refine ⟨fun _ hfails => honest_calls htest.1 hfails, ?_⟩
      intro other index entry hsame htask hpoint hget haio
      obtain rfl := Label.drive.inj hsame
      rcases htest.2 with hfree | hasked
      · rw [haio] at hfree
        cases hfree
      · exact exists_of_cancels (hasked entry (List.mem_of_getElem? hget))

/-- A read in flight whose cancel request waits in the channel. -/
def readRun : List Label :=
  [.submit 1 (.openFile [97] { read := true }), .drive { openFd := .ok 5 },
    .submit 2 (.readAt 1 0 (.alloc 10)), .drive {}, .drive {}, .drive {}, .drive {},
    .requestCancel 2]

/-- The request is handled and the kernel gives the read up. -/
def cancelRun : List Label :=
  readRun ++ List.replicate 8 (.drive {}) ++ [.drive { aio := .failed .ecanceled }]

theorem started : driver.init (State.new (helpersFor 8) 16) := ⟨8, 16, by decide, rfl⟩

theorem cancelled_only_if_asked_read :
    ∃ final earlier, driver.exec (State.new (helpersFor 8) 16) cancelRun = some final ∧
      final.log = .settled 2 (.error cancelledError) :: earlier ∧ CancelAsked 2 earlier := by
  obtain ⟨final, hexec⟩ : ∃ final,
      driver.exec (State.new (helpersFor 8) 16) cancelRun = some final := ⟨_, rfl⟩
  have hreach : driver.ReachableBy Honest final :=
    System.ReachableBy.ofExec honest_of_test (.init started) hexec rfl
  have hlog : ∃ earlier, final.log = .settled 2 (.error cancelledError) :: earlier := by
    cases hexec
    exact ⟨_, rfl⟩
  obtain ⟨earlier, hlog⟩ := hlog
  exact ⟨final, earlier, hexec, hlog, (cancelled_only_if_asked hreach).1 [] 2 earlier hlog⟩

/-! ## No transfer after a cancel -/

theorem drive_of_step (hstep : driver.step state (.drive ans) = some next) :
    state.drive ans = some next := by
  simp only [driver, Darwin.step] at hstep
  split at hstep
  · exact hstep
  · cases hstep

/-- **A cancel is final.**  From the step on that handles the cancel request of
an op the driver has handled, wherever the op is then (queued, in flight, at its
open or settled), no further call that moves or flushes data is made for it,
along every continuation of the run. -/
theorem cancel_stops {mid final : State} {op : Op} {cb : Callback} {rx : List Msg}
    {labels : List Label} (hreach : driver.Reachable state)
    (hhandled : Event.handled (.submit id op cb) ∈ state.log) (hrx : state.rx = .cancel id :: rx)
    (hstep : driver.step state (.drive ans) = some mid) (htaken : mid.rx = rx)
    (hexec : driver.exec mid labels = some final) :
    ∃ events, final.log = events ++ state.log ∧
      ∀ fd call, Event.syscall id fd call ∈ events → call.transfers = false := by
  have hinv := Invariant.of_reachable hreach
  obtain ⟨htask, point, rfl⟩ := drive_receives hrx (drive_of_step hstep) htaken
  have hmoved : Consistent [] [] [] { state with point := point } := hinv.ledger.view rfl
  have haccounted : Accounted { state with point := point } :=
    { Accounted.of_reachable hreach with }
  obtain ⟨hrests, hstopped⟩ := @Stopped.of_cancel ans id { state with point := point } hmoved
    haccounted htask op cb rx hhandled hrx
  exact (hrests.trans (hstopped.exec (hreach.next hstep) hexec).1)

theorem cancel_stops_read :
    ∃ state mid final, driver.exec (State.new (helpersFor 8) 16) readRun = some state ∧
      driver.step state (.drive {}) = some mid ∧
      driver.exec mid (List.replicate 7 (.drive {}) ++
        [.drive { aio := .done ⟨3, [1, 2, 3]⟩ }]) = some final ∧
      ∃ events, final.log = events ++ state.log ∧
        ∀ fd call, Event.syscall 2 fd call ∈ events → call.transfers = false := by
  obtain ⟨state, hstart⟩ : ∃ state,
      driver.exec (State.new (helpersFor 8) 16) readRun = some state := ⟨_, rfl⟩
  have hreach : driver.Reachable state := (System.Reachable.ofInit started).ofExec hstart
  obtain ⟨mid, hmid⟩ : ∃ mid, driver.step state (.drive {}) = some mid := by
    cases hstart
    exact ⟨_, rfl⟩
  obtain ⟨final, hfinal⟩ : ∃ final, driver.exec mid (List.replicate 7 (.drive {}) ++
      [.drive { aio := .done ⟨3, [1, 2, 3]⟩ }]) = some final := by
    cases hstart
    cases hmid
    exact ⟨_, rfl⟩
  have htimes : handledTimes (.submit 2 (.readAt 1 0 (.alloc 10)) 2) state.log = 1 := by
    cases hstart
    rfl
  have hhandled := handled_of_times (htimes ▸ Nat.zero_lt_one)
  have hrx : state.rx = [.cancel 2] := by
    cases hstart
    rfl
  have htaken : mid.rx = [] := by
    cases hstart
    cases hmid
    rfl
  exact ⟨state, mid, final, hstart, hmid, hfinal,
    cancel_stops hreach hhandled hrx hmid htaken hfinal⟩

/-! ## The other ops -/

/-- A close of the handle waits, and only jobs of the op keep it waiting. -/
structure LastOn (id : OpId) (handle : Handle) (entry : FileEntry) (cb : Callback)
    (state : State) : Prop where
  lookup : state.files.lookup handle = some entry
  closing : entry.closing = some cb
  alone : ∀ job ∈ state.liveJobs, job.handle = some handle → job.id = id

/-- What handling the cancel of the op may log. -/
def Event.cancelled (ans : Answers) (id : OpId) (state : State) : Event → Prop
  | .settled cb result =>
      (cb = id ∧ result = .error cancelledError) ∨ ∃ handle entry, LastOn id handle entry cb state ∧
        result = (osResult ans.close).map fun _ => .unit
  | .closed fd _ => ∃ job ∈ state.liveJobs, job.id = id ∧ job.fd = fd
  | .syscall other _ call => other = id ∧ call = .aioCancel
  | .handled msg => msg = .cancel id
  | .sent _ | .opened .. | .registered .. => False

/-- The table keeps every entry, up to its count of ops, but those whose close
waited for the op alone. -/
structure KeepsFiles (id : OpId) (state next : State) : Prop where
  entries : ∀ handle entry, state.files.lookup handle = some entry →
    (∃ ops, next.files.lookup handle = some { entry with ops := ops }) ∨
      next.files.lookup handle = none ∧ ∃ cb, LastOn id handle entry cb state
  unopened : ∀ handle, state.files.lookup handle = none → next.files.lookup handle = none

/-- The entry, flagged when it is of the op. -/
def Inflight.flag (id : OpId) (entry : Inflight) : Inflight :=
  if entry.job.id = id then { entry with job := { entry.job with cancelled := true } } else entry

theorem map_flag {entries : List Inflight} (hnone : ∀ entry ∈ entries, entry.job.id ≠ id) :
    entries.map (Inflight.flag id) = entries := by
  have hflag : ∀ entry ∈ entries, entry.flag id = entry :=
    fun entry hmem => if_neg (hnone entry hmem)
  rw [List.map_congr_left hflag, List.map_id']

/-- The op is out of the queue, flagged in flight and noted among the opens the
loop waits for; everything else is as before. -/
structure Spares (ans : Answers) (id : OpId) (state next : State) : Prop where
  queue : next.queue = state.queue.filter fun job => job.id ≠ id
  inflight : next.inflight = state.inflight.map (Inflight.flag id)
  task : next.task = state.task
  opens : next.pendings = state.pendings ∧ next.messages = state.messages ∧
    next.pendingOpens = state.pendingOpens
  noted : ∀ other, other ∈ next.cancelledOpens ↔
    other ∈ state.cancelledOpens ∨ other = id ∧ id ∈ state.pendingOpens
  files : KeepsFiles id state next
  log : ∃ events, next.log = events ++ state.log ∧ ∀ event ∈ events, event.cancelled ans id state

theorem KeepsFiles.same (hfiles : next.files = state.files) : KeepsFiles id state next where
  entries handle entry hlookup := .inl ⟨entry.ops, by rw [hfiles]; exact hlookup⟩
  unopened handle hlookup := by
    rw [hfiles]
    exact hlookup

/-- A job taken out of the queue settles. -/
theorem finish_spares {mid : State} {job : Job} {log : List Event}
    (hcons : Consistent [job] [] [] mid)
    (hjobs : ∀ other, other ∈ state.liveJobs ↔ other = job ∨ other ∈ mid.liveJobs)
    (hfiles : mid.files = state.files)
    (hlog : ∃ events, mid.log = events ++ log ∧ ∀ event ∈ events,
      event.cancelled ans job.id state) :
    KeepsFiles job.id state (mid.finish ans job (.error cancelledError)) ∧
      ∃ events, (mid.finish ans job (.error cancelledError)).log = events ++ log ∧
        ∀ event ∈ events, event.cancelled ans job.id state := by
  have hown : job.cb = job.id := hcons.roleIds job.role List.mem_cons_self
  have hlive : job ∈ state.liveJobs := (hjobs job).mpr (.inl rfl)
  have hsettled : (Event.settled job.cb (.error cancelledError)).cancelled ans job.id state :=
    .inl ⟨hown, rfl⟩
  have hclosed : ∀ fd carriers, fd = job.fd →
      (Event.closed fd carriers).cancelled ans job.id state :=
    fun fd carriers hsame => ⟨job, hlive, rfl, hsame.symm⟩
  have hcons' : ∀ {grown : List Event} {event : Event},
      (∃ events, grown = events ++ log ∧ ∀ event ∈ events, event.cancelled ans job.id state) →
      event.cancelled ans job.id state →
      ∃ events, event :: grown = events ++ log ∧
        ∀ event ∈ events, event.cancelled ans job.id state := by
    rintro grown event ⟨events, rfl, hevents⟩ hevent
    exact ⟨event :: events, rfl, List.forall_mem_cons.mpr ⟨hevent, hevents⟩⟩
  unfold State.finish
  cases hhandle : job.handle with
  | none =>
      obtain ⟨howned, -⟩ := hcons.release hhandle
      rw [howned]
      refine ⟨.same ((closeOwned_files job.fd).trans hfiles), hcons' ?_ hsettled⟩
      simp only [if_true, State.closeOwned]
      split
      · exact hcons' hlog (hclosed _ _ rfl)
      · split
        · exact hlog
        · exact hcons' hlog (hclosed _ _ rfl)
  | some handle =>
      obtain ⟨howned, entry, hlookup, hfd, hops⟩ := hcons.entry_of_job hhandle
      have hfound : state.files.lookup handle = some entry := hfiles ▸ hlookup
      have hkept : (mid.settle job.cb (.error cancelledError)).files.lookup handle = some entry :=
        hlookup
      have hinsert : ∀ (after : State) ops, after.files = mid.files.insert handle
          { entry with ops := ops } → KeepsFiles job.id state after := by
        intro after ops hafter
        constructor
        · intro other found hother
          left
          by_cases hsame : other = handle
          · subst hsame
            obtain rfl := Option.some.inj (hfound.symm.trans hother)
            exact ⟨ops, by rw [hafter]; exact AList.lookup_insert _⟩
          · refine ⟨found.ops, ?_⟩
            rw [hafter, AList.lookup_insert_ne hsame, hfiles]
            exact hother
        · intro other hnone
          have hne : other ≠ handle := by
            rintro rfl
            rw [hfound] at hnone
            cases hnone
          rw [hafter, AList.lookup_insert_ne hne, hfiles]
          exact hnone
      simp only [howned, Bool.false_eq_true, if_false, hkept]
      cases hclosing : entry.closing with
      | none =>
          refine ⟨hinsert _ (entry.ops - 1) ?_, hcons' hlog hsettled⟩
          rw [hclosing]
          rfl
      | some cb =>
          by_cases hmore : 0 < entry.ops - 1
          · simp only [hmore, if_true]
            refine ⟨hinsert _ (entry.ops - 1) ?_, hcons' hlog hsettled⟩
            rw [hclosing]
            rfl
          · obtain ⟨hidle, -⟩ := hcons.dropLast hhandle hlookup hclosing hmore
            have hlast : LastOn job.id handle entry cb state := by
              refine ⟨hfound, hclosing, fun other hmem hon => ?_⟩
              rcases (hjobs other).mp hmem with rfl | hrest
              · rfl
              · have hrole : other.role ∈ mid.roles [] := List.mem_map_of_mem hrest
                have hoff := (ofList_eq_zero_iff _ _).mp hidle other.role hrole
                simp [Job.role, hon] at hoff
            simp only [hmore, if_false]
            refine ⟨⟨fun other found hother => ?_, fun other hnone => ?_⟩, ?_⟩
            · by_cases hsame : other = handle
              · subst hsame
                obtain rfl := Option.some.inj (hfound.symm.trans hother)
                exact .inr ⟨AList.lookup_erase _ _, cb, hlast⟩
              · refine .inl ⟨found.ops, (AList.lookup_erase_ne hsame).trans ?_⟩
                exact (congrArg (AList.lookup other) hfiles).trans hother
            · by_cases hsame : other = handle
              · subst hsame
                exact AList.lookup_erase _ _
              · exact (AList.lookup_erase_ne hsame).trans
                  ((congrArg (AList.lookup other) hfiles).trans hnone)
            · exact hcons' (hcons' (hcons' hlog hsettled) (hclosed _ _ hfd))
                (.inr ⟨handle, entry, hlast, rfl⟩)

theorem eraseP_eq_filter {α : Type*} {holds : α → Bool} {entries : List α}
    (hnone : ∀ entry ∈ entries.eraseP holds, holds entry = false) :
    entries.eraseP holds = entries.filter fun entry => !holds entry := by
  induction entries with
  | nil => rfl
  | cons entry entries ih =>
      cases hhead : holds entry with
      | true =>
          rw [List.eraseP_cons_of_pos hhead] at hnone ⊢
          rw [List.filter_cons_of_neg (by simp [hhead]), eq_comm, List.filter_eq_self]
          exact fun other hmem => by simp [hnone other hmem]
      | false =>
          rw [List.eraseP_cons_of_neg (by simp [hhead])] at hnone ⊢
          rw [List.filter_cons_of_pos (by simp [hhead]),
            ih fun other hmem => hnone other (List.mem_cons_of_mem _ hmem)]

/-- The entry of the op is the only one of it in flight. -/
theorem modify_eq_map (hcons : Consistent [] [] [] state) {index : ℕ} {entry : Inflight}
    (hget : state.inflight[index]? = some entry) (hid : entry.job.id = id) :
    (state.inflight.modify index fun entry =>
        { entry with job := { entry.job with cancelled := true } }) =
      state.inflight.map (Inflight.flag id) := by
  obtain ⟨hbound, rfl⟩ := List.getElem?_eq_some_iff.mp hget
  obtain ⟨-, -, hlive⟩ := (hcons.takeInflight hget).alone
  rw [hid] at hlive
  ext position other
  rw [List.getElem?_modify, List.getElem?_map]
  by_cases hsame : index = position
  · subst hsame
    simp [hget, Inflight.flag, hid]
  · cases hother : state.inflight[position]? with
    | none => simp
    | some found =>
        have herased : found ∈ state.inflight.eraseIdx index :=
          List.mem_eraseIdx_iff_getElem?.mpr ⟨position, Ne.symm hsame, hother⟩
        have hperm := (List.getElem_cons_eraseIdx_perm hbound).trans
          (perm_swapRemove state.inflight hbound)
        have hrest : found ∈ swapRemove state.inflight index :=
          ((List.perm_cons _).mp hperm).mem_iff.mp herased
        have hne : found.job.id ≠ id :=
          hlive found.job (List.mem_append_right _ (List.mem_map_of_mem hrest))
        simp [hsame, Inflight.flag, hne]

/-- What handling a cancel request does. -/
theorem Spares.of_cancel (hcons : Consistent [] [] [] state) (hout : OpensOut state)
    {rx : List Msg} {point : Point} (hrx : state.rx = .cancel id :: rx) :
    Spares ans id state
      ((({ state with point := point } : State).received (.cancel id) rx).cancel ans id) := by
  have hmoved : Consistent [] [] [] { state with point := point } := hcons.view rfl
  have hhandled : ∃ events,
      (({ state with point := point } : State).received (.cancel id) rx).log = events ++ state.log ∧
        ∀ event ∈ events, event.cancelled ans id state :=
    ⟨[.handled (.cancel id)], rfl, fun event hmem => by rw [List.mem_singleton.mp hmem]; rfl⟩
  -- an op that is no open of the loop's is not noted
  have hunnoted : id ∉ state.pendingOpens → ∀ other, other ∈ state.cancelledOpens ↔
      other ∈ state.cancelledOpens ∨ other = id ∧ id ∈ state.pendingOpens :=
    fun hnone other => (or_iff_left fun hnoted => hnone hnoted.2).symm
  unfold State.cancel
  split
  · next job hfind =>
      change state.queue.find? _ = some job at hfind
      obtain rfl : job.id = id := by simpa using List.find?_some hfind
      have htaken := (hmoved.received_cancel hrx).takeFound hfind
      obtain ⟨-, hpendings, hlive⟩ := htaken.alone
      have hnone : job.id ∉ state.pendingOpens := hout.unlisted hpendings
      have hjobs : ∀ other, other ∈ state.liveJobs ↔ other = job ∨
          other ∈ ({ state with
            queue := state.queue.eraseP fun other => other.id = job.id } : State).liveJobs := by
        intro other
        have hmem : other ∈ state.queue ↔ other ∈ job :: state.queue.eraseP _ :=
          (perm_eraseP_of_find? hfind).mem_iff
        rw [List.mem_cons] at hmem
        simp only [State.liveJobs, List.mem_append, hmem]
        tauto
      obtain ⟨hfiles, hlog⟩ := @finish_spares state ans _ job state.log htaken hjobs rfl hhandled
      have hholdings := @State.holdings_finish ans job (.error cancelledError)
        { ({ state with point := point } : State).received (.cancel job.id) rx with
          queue := state.queue.eraseP fun other => other.id = job.id }
      have htask := (@State.finish_slots
        { ({ state with point := point } : State).received (.cancel job.id) rx with
          queue := state.queue.eraseP fun other => other.id = job.id }
        ans job (.error cancelledError)).2
      simp only [State.holdings, Holdings.mk.injEq] at hholdings
      obtain ⟨hqueue, -, hinflight, hopens, hpending, hsame, hmessages⟩ := hholdings
      refine ⟨hqueue.trans ?_, hinflight.trans (map_flag fun entry hmem => ?_).symm, htask,
        ⟨hsame, hmessages, hpending⟩, fun other => ?_, hfiles, hlog⟩
      · refine (eraseP_eq_filter fun other hmem => ?_).trans (by simp)
        have hne := hlive other (List.mem_append_left _ (List.mem_append_right _ hmem))
        simpa using hne
      · exact hlive entry.job (List.mem_append_right _ (List.mem_map_of_mem hmem))
      · exact (iff_of_eq (congrArg (other ∈ ·) hopens)).trans (hunnoted hnone other)
  · next hnone =>
      change state.queue.find? _ = none at hnone
      have hidle : ∀ job ∈ state.queue, job.id ≠ id := by
        simpa using List.find?_eq_none.mp hnone
      have hqueue : state.queue = state.queue.filter fun job => job.id ≠ id :=
        (List.filter_eq_self.mpr fun job hmem => by simpa using hidle job hmem).symm
      split
      · next hindex =>
          change state.inflight.findIdx? _ = none at hindex
          have hflying : ∀ entry ∈ state.inflight, entry.job.id ≠ id := by
            simpa using List.findIdx?_eq_none_iff.mp hindex
          split
          · next hwaits =>
              change id ∈ state.pendingOpens at hwaits
              refine ⟨hqueue, (map_flag hflying).symm, rfl, ⟨rfl, rfl, rfl⟩, fun other => ?_,
                .same rfl, hhandled⟩
              rw [and_iff_left hwaits]
              exact Finset.mem_insert.trans or_comm
          · next hnone => exact ⟨hqueue, (map_flag hflying).symm, rfl, ⟨rfl, rfl, rfl⟩,
              hunnoted hnone, .same rfl, hhandled⟩
      · next index hindex =>
          change state.inflight.findIdx? _ = some index at hindex
          obtain ⟨hbound, hid, -⟩ := List.findIdx?_eq_some_iff_getElem.mp hindex
          have hget : state.inflight[index]? = some state.inflight[index] :=
            List.getElem?_eq_getElem hbound
          obtain ⟨-, hpendings, -⟩ := (hcons.takeInflight hget).alone
          rw [of_decide_eq_true hid] at hpendings
          refine ⟨hqueue, modify_eq_map hcons hget (of_decide_eq_true hid), rfl, ⟨rfl, rfl, rfl⟩,
            hunnoted (hout.unlisted hpendings), .same rfl, ?_⟩
          obtain ⟨events, hlog, hevents⟩ := hhandled
          exact ⟨_ :: events, congrArg _ hlog, List.forall_mem_cons.mpr ⟨⟨rfl, rfl⟩, hevents⟩⟩

/-- **A cancel spares the others.**  The step that handles a cancel request
takes the op out of the queue or flags it in flight or notes its open, if the
loop waits for one; every other job, open and flag stays where it was, no other handle is lost, and
nothing else settles or is closed but a close that waited for this op alone. -/
theorem cancel_spares (hreach : driver.Reachable state) {rx : List Msg}
    (hrx : state.rx = .cancel id :: rx) (hstep : driver.step state (.drive ans) = some next)
    (htaken : next.rx = rx) : Spares ans id state next := by
  have hinv := Invariant.of_reachable hreach
  obtain ⟨-, point, rfl⟩ := drive_receives hrx (drive_of_step hstep) htaken
  exact .of_cancel hinv.ledger (.of_reachable hreach) hrx

theorem cancel_spares_read :
    ∃ state next, driver.exec (State.new (helpersFor 8) 16) readRun = some state ∧
      driver.step state (.drive {}) = some next ∧ Spares {} 2 state next := by
  obtain ⟨state, hstart⟩ : ∃ state,
      driver.exec (State.new (helpersFor 8) 16) readRun = some state := ⟨_, rfl⟩
  have hreach : driver.Reachable state := (System.Reachable.ofInit started).ofExec hstart
  obtain ⟨next, hnext⟩ : ∃ next, driver.step state (.drive {}) = some next := by
    cases hstart
    exact ⟨_, rfl⟩
  have hrx : state.rx = [.cancel 2] := by
    cases hstart
    rfl
  have htaken : next.rx = [] := by
    cases hstart
    cases hnext
    rfl
  exact ⟨state, next, hstart, hnext, cancel_spares hreach hrx hnext htaken⟩

end Turbofile.Darwin
