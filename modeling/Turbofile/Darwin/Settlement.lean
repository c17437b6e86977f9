import Turbofile.Darwin.Runs

/-!
# Every op settles exactly once

A callback is in one place until it has run.  The places are read off the
state; the ledger says how many there are.
-/

namespace Turbofile.Darwin

open Turbofile.Core
open Turbofile.Tally
open State

/-- Where an accepted op is while it is not settled.  `helper` is a job for a
helper thread or the `Opened` message made of it, `onThread` the job that
`execute_sync` is running. -/
inductive Place
  | channel
  | helper
  | queue
  | inflight
  | onThread
  | closing (handle : Handle)
  deriving DecidableEq

def Msg.submits (id : OpId) : Msg → Bool
  | .submit other _ _ => decide (other = id)
  | .cancel _ => false

/-- All places of an op, one entry for each occurrence. -/
def State.places (state : State) (id : OpId) : List Place :=
  (state.rx.filter (Msg.submits id)).map (fun _ => .channel) ++
    (state.pendings.filter fun pending => pending.id = id).map (fun _ => .helper) ++
    (state.task.jobs.filter fun job => job.id = id).map (fun _ => .onThread) ++
    (state.queue.filter fun job => job.id = id).map (fun _ => .queue) ++
    (state.inflight.filter fun entry => entry.job.id = id).map (fun _ => .inflight) ++
    (state.files.entries.filter fun row => row.2.closing = some id).map
      (fun row => .closing row.1)

/-- How often the callback of an op has run. -/
def settledTimes (id : OpId) (log : List Event) : ℕ :=
  log.countP fun event =>
    match event with
    | .settled cb _ => cb = id
    | _ => false

theorem settledTimes_eq (id : OpId) (log : List Event) :
    settledTimes id log = ofList (cbWeights id).spent log := by
  induction log with
  | nil => rfl
  | cons event log ih =>
      rw [ofList_cons, ← ih]
      cases event with
      | settled cb result =>
          by_cases hsame : cb = id
          · simp [settledTimes, Weights.spent, cbWeights, hsame, Nat.add_comm]
          · simp [settledTimes, Weights.spent, cbWeights, hsame]
      | sent msg => simp [settledTimes, Weights.spent]
      | handled msg => simp [settledTimes, Weights.spent]
      | opened fd path flags => simp [settledTimes, Weights.spent]
      | closed fd carriers => simp [settledTimes, Weights.spent, cbWeights]
      | syscall op fd call => simp [settledTimes, Weights.spent]
      | registered handle fd => simp [settledTimes, Weights.spent]

namespace Consistent

variable {state : State}

theorem length_channel (hcons : Consistent [] [] [] state) (id : OpId) :
    (state.rx.filter (Msg.submits id)).length = ofList (cbWeights id).msg state.rx := by
  have hcount := ofList_indicator (fun msg => Msg.submits id msg = true) state.rx
  simp only [Bool.decide_eq_true] at hcount
  rw [← List.countP_eq_length_filter, ← hcount]
  apply ofList_congr
  intro msg hmem
  cases msg with
  | cancel other => rfl
  | submit other op cb =>
      have hown := hcons.rxCb other op cb hmem
      simp [Msg.submits, Weights.msg, cbWeights, hown]

theorem length_pendings (hcons : Consistent [] [] [] state) (id : OpId) :
    (state.pendings.filter fun pending => pending.id = id).length =
      ofList (cbWeights id).helperJob state.helperQueue +
        ofList (cbWeights id).helper state.helpers +
        ofList (cbWeights id).opened state.back := by
  have hjob : ∀ job : HelperJob, (cbWeights id).helperJob job =
      ofList (fun pending => if pending.cb = id then 1 else 0) job.pendings := by
    intro job
    cases job <;> simp [Weights.helperJob, HelperJob.pendings, cbWeights]
  have hopened : ∀ message : Opened, (cbWeights id).opened message =
      if message.pending.cb = id then 1 else 0 := by
    rintro ⟨pending, result⟩
    cases result <;> simp [Weights.opened, Weights.result, cbWeights]
  have hhelper : ∀ helper : Helper, (cbWeights id).helper helper =
      ofList (fun pending => if pending.cb = id then 1 else 0) helper.pendings := by
    intro helper
    cases helper with
    | idle => rfl
    | exited => rfl
    | running job => exact hjob job
    | sending message => simp [Weights.helper, Helper.pendings, hopened]
  rw [← List.countP_eq_length_filter, ← ofList_indicator]
  calc
    ofList (fun pending => if pending.id = id then 1 else 0) state.pendings =
        ofList (fun pending => if pending.cb = id then 1 else 0) state.pendings := by
      apply ofList_congr
      intro pending hmem
      rw [(hcons.pendingIds pending hmem).1]
    _ = _ := by
      rw [State.pendings, ofList_append, ofList_append,
        ofList_flatMap _ _ hjob, ofList_flatMap _ _ hhelper, ofList_map,
        ← ofList_congr fun message _ => hopened message]

theorem length_jobs {jobs : List Job} (id : OpId)
    (hown : ∀ job ∈ jobs, job.cb = job.id) :
    (jobs.filter fun job => job.id = id).length =
      ofList (cbWeights id).role (jobs.map Job.role) := by
  rw [← List.countP_eq_length_filter, ← ofList_indicator, ofList_map]
  apply ofList_congr
  intro job hmem
  simp [Weights.role, Job.role, cbWeights, hown job hmem]

theorem length_closing (state : State) (id : OpId) :
    (state.files.entries.filter fun row => row.2.closing = some id).length =
      Table.tally (fun _ => (cbWeights id).entry) state.files := by
  rw [← List.countP_eq_length_filter, ← ofList_indicator, Table.tally]
  apply ofList_congr
  rintro ⟨handle, fd, ops, closing⟩ -
  cases closing <;> simp [Weights.entry, Weights.closing, cbWeights]

theorem length_places (hcons : Consistent [] [] [] state) (id : OpId) :
    (state.places id).length =
      state.held (cbWeights id) + ofList (cbWeights id).role (state.roles []) := by
  have hown : ∀ job ∈ state.liveJobs, job.cb = job.id := fun job hmem =>
    hcons.roleIds job.role (List.mem_map_of_mem hmem)
  have hjobs : (state.task.jobs.filter fun job => job.id = id).length +
      (state.queue.filter fun job => job.id = id).length +
      (state.inflight.filter fun entry => entry.job.id = id).length =
        ofList (cbWeights id).role (state.roles []) := by
    have hlive := length_jobs id hown
    simp only [State.liveJobs, List.filter_append, List.length_append, List.filter_map,
      List.length_map, Function.comp_def] at hlive
    exact hlive
  simp only [State.places, List.length_append, List.length_map, hcons.length_channel,
    hcons.length_pendings, length_closing, State.held]
  omega

/-- An accepted op is in one place, or its callback has run once. -/
theorem places_add_settled (hcons : Consistent [] [] [] state) {id : OpId}
    (hsent : id ∈ submittedIds state.log) :
    (state.places id).length + settledTimes id state.log = 1 := by
  have hbalance := hcons.balance (cbWeights id)
  have hcount := count_submittedIds id state.log hcons.ownCb
  rw [List.count_eq_one_of_mem hcons.unique hsent] at hcount
  simp only [ofList_nil] at hbalance
  rw [hcons.length_places, settledTimes_eq]
  omega

theorem mem_pendingOpens (hcons : Consistent [] [] [] state) {id : OpId}
    (hplace : Place.helper ∈ state.places id) : id ∈ state.pendingOpens := by
  have hfound : ∃ pending ∈ state.pendings, pending.id = id := by
    simpa [State.places] using hplace
  obtain ⟨pending, hmem, rfl⟩ := hfound
  exact (hcons.pendingIds pending hmem).2

theorem closing_busy (hcons : Consistent [] [] [] state) {id : OpId} {handle : Handle}
    (hplace : Place.closing handle ∈ state.places id) :
    ∃ entry, state.files.lookup handle = some entry ∧ entry.closing = some id ∧
      0 < entry.ops := by
  have hfound : ∃ entry, (⟨handle, entry⟩ : Sigma fun _ : Handle => FileEntry) ∈
      state.files.entries ∧ entry.closing = some id := by
    simpa [State.places] using hplace
  obtain ⟨entry, hmem, hclosing⟩ := hfound
  have hlookup : state.files.lookup handle = some entry := AList.mem_lookup_iff.mpr hmem
  exact ⟨entry, hlookup, hclosing, hcons.closingBusy handle entry hlookup (by simp [hclosing])⟩

end Consistent

theorem State.executing_of_onThread {state : State} {id : OpId}
    (hplace : Place.onThread ∈ state.places id) :
    ∃ job, state.task = .executeSync job ∧ job.id = id := by
  have hfound : ∃ job ∈ state.task.jobs, job.id = id := by
    simpa [State.places] using hplace
  obtain ⟨job, hmem, hid⟩ := hfound
  cases htask : state.task with
  | none => simp [htask] at hmem
  | submitReady => simp [htask] at hmem
  | executeSync other =>
      rw [htask, Task.jobs_executeSync, List.mem_singleton] at hmem
      exact ⟨other, rfl, hmem ▸ hid⟩

/-! ## At the end of `run` -/

namespace Invariant

variable {state : State}

/-- Without messages, jobs and opens no op is anywhere: a deferred close would
need a job on its handle. -/
theorem places_idle (hinv : Invariant state) (hrx : state.rx = [])
    (hpendings : state.pendings = []) (htask : state.task.jobs = [])
    (hqueue : state.queue = []) (hinflight : state.inflight = []) (id : OpId) :
    state.places id = [] := by
  have hclosing : state.files.entries.filter (fun row => row.2.closing = some id) = [] := by
    rw [List.filter_eq_nil_iff]
    rintro ⟨handle, entry⟩ hmem hclosing
    have hlookup : state.files.lookup handle = some entry := AList.mem_lookup_iff.mpr hmem
    have hsome : entry.closing = some id := by simpa using hclosing
    have hbusy := hinv.ledger.closingBusy handle entry hlookup (by simp [hsome])
    have hops := hinv.ledger.opsCount handle entry hlookup
    have hnone : state.roles [] = [] := by
      simp [State.roles, State.liveJobs, htask, hqueue, hinflight]
    rw [hnone] at hops
    simp only [rolesOn, ofList_nil] at hops
    omega
  simp [State.places, hrx, hpendings, htask, hqueue, hinflight, hclosing]

/-- A loop that has returned has left no op anywhere. -/
theorem places_returned (hinv : Invariant state) (hreturned : state.point = .returned)
    (id : OpId) : state.places id = [] := by
  obtain ⟨hdisconnected, hpending, htask, hqueue, hinflight⟩ := hinv.life.rest hreturned
  have hrx : state.rx = [] := (hinv.life.closed hdisconnected).2
  have hpendings : state.pendings = [] := by
    rw [List.eq_nil_iff_forall_not_mem]
    intro pending hmem
    have hids := (hinv.ledger.pendingIds pending hmem).2
    simp [hpending] at hids
  exact hinv.places_idle hrx hpendings (by rw [htask, Task.jobs_none]) hqueue hinflight id

/-- `run` returns only with every op settled. -/
theorem settledTimes_returned (hinv : Invariant state) (hreturned : state.point = .returned)
    {id : OpId} (hsent : id ∈ submittedIds state.log) : settledTimes id state.log = 1 := by
  have hone := hinv.ledger.places_add_settled hsent
  rw [hinv.places_returned hreturned] at hone
  simpa using hone

/-! ## No op is left waiting -/

/-- A helper thread with something to do can do it. -/
theorem help_enabled (hinv : Invariant state) (hpoint : state.point ≠ .returned)
    (hwork : state.helperQueue ≠ [] ∨ ∃ helper ∈ state.helpers, helper ≠ .idle) :
    ∃ index next, driver.step state (.help index {}) = some next := by
  have hfresh : Answers.fresh {} state = true := rfl
  simp only [driver, Darwin.step, hfresh, if_true]
  by_cases hbusy : ∃ helper ∈ state.helpers, helper ≠ .idle
  · obtain ⟨helper, hmem, hne⟩ := hbusy
    obtain ⟨index, hget⟩ := List.mem_iff_getElem?.mp hmem
    have hserving := hinv.life.serving hpoint helper hmem
    refine ⟨index, ?_⟩
    unfold State.help
    cases helper with
    | idle => exact absurd rfl hne
    | exited => exact absurd rfl hserving
    | sending message => simp [hget, hpoint]
    | running job => cases job <;> simp [hget]
  · obtain ⟨helper, hmem⟩ := List.exists_mem_of_ne_nil _ hinv.life.staffed
    obtain ⟨index, hget⟩ := List.mem_iff_getElem?.mp hmem
    have hidle : helper = .idle := by
      by_contra hne
      exact hbusy ⟨helper, hmem, hne⟩
    have hqueue : state.helperQueue ≠ [] := hwork.resolve_right hbusy
    obtain ⟨job, queue, hcons⟩ := List.exists_cons_of_ne_nil hqueue
    refine ⟨index, ?_⟩
    simp [State.help, hget, hidle, hcons]

theorem drive_enabled_of_busy (ans : Answers)
    (hbusy : state.task ≠ .none ∨ state.point ≠ .head ∧ state.point ≠ .returned ∨
      state.point = .head ∧ (state.queue ≠ [] ∨ state.inflight ≠ [])) :
    ∃ next, state.drive ans = some next := by
  unfold State.drive
  cases htask : state.task with
  | submitReady => exact ⟨_, rfl⟩
  | executeSync job => exact ⟨_, rfl⟩
  | none =>
      cases hpoint : state.point with
      | head =>
          have hjobs : (state.inflight.isEmpty && state.queue.isEmpty) = false := by
            simp only [htask, hpoint] at hbusy
            rcases hbusy with hfalse | hfalse | ⟨-, hqueue | hinflight⟩
            · exact absurd rfl hfalse
            · exact absurd rfl hfalse.1
            · simp [hqueue]
            · simp [hinflight]
          exact ⟨_, by simp only [hjobs]; rfl⟩
      | returned => simp [htask, hpoint] at hbusy
      | suspend =>
          by_cases hempty : state.inflight.isEmpty <;> exact ⟨_, by simp only [hempty]; rfl⟩
      | reap index => exact ⟨_, rfl⟩
      | drainRx => exact ⟨_, rfl⟩
      | drainBack => exact ⟨_, rfl⟩
      | submit => exact ⟨_, rfl⟩
      | pace => exact ⟨_, rfl⟩

theorem step_drive {ans : Answers} (hfresh : ans.fresh state = true) {next : State}
    (hdrive : state.drive ans = some next) : driver.step state (.drive ans) = some next := by
  simp only [driver, Darwin.step, hfresh, if_true, hdrive]

/-- An idle loop that may not return yet waits for a message. -/
theorem drive_idle {ans : Answers} (htask : state.task = .none)
    (hpoint : state.point = .head) (hqueue : state.queue = []) (hinflight : state.inflight = [])
    (hunfinished : state.disconnected = false ∨ state.pendingOpens ≠ ∅) :
    state.drive ans = ({ state with point := .suspend }).waitIdle ans := by
  have hgoing : (state.disconnected && decide (state.pendingOpens = ∅)) = false := by
    rcases hunfinished with hconnected | hpending
    · simp [hconnected]
    · simp [hpending]
  simp only [State.drive, htask, hpoint, hqueue, hinflight, List.isEmpty_nil,
    Bool.and_self, if_true, hgoing, Bool.false_eq_true, if_false]

theorem waitIdle_msg (state : State) (hconnected : state.disconnected = false)
    (hhelpers : state.helpersGone = false) {msg : Msg} {rx : List Msg}
    (hrx : state.rx = msg :: rx) : ∃ next, state.waitIdle { wake := .msg } = some next :=
  ⟨({ state with rx := rx }).handleMsg { wake := .msg } msg, by
    simp only [State.waitIdle, hconnected, hhelpers, Bool.false_eq_true, if_false, hrx]⟩

theorem waitIdle_opened (state : State) (hhelpers : state.helpersGone = false) {message : Opened}
    {back : List Opened} (hback : state.back = message :: back) :
    ∃ next, state.waitIdle { wake := .opened } = some next := by
  refine ⟨({ state with back := back }).handleOpened { wake := .opened } message, ?_⟩
  cases hdisconnected : state.disconnected <;>
    simp [State.waitIdle, hdisconnected, hhelpers, hback]

/-- While an op is unsettled the driver or a helper thread can take a step. -/
theorem work_enabled (hinv : Invariant state) {id : OpId} (hplace : state.places id ≠ []) :
    ∃ ans next, driver.step state (.drive ans) = some next ∨
      ∃ index, driver.step state (.help index ans) = some next := by
  by_cases hbusy : state.task ≠ .none ∨ state.point ≠ .head ∧ state.point ≠ .returned ∨
      state.point = .head ∧ (state.queue ≠ [] ∨ state.inflight ≠ [])
  · obtain ⟨next, hdrive⟩ := drive_enabled_of_busy {} hbusy
    exact ⟨{}, next, Or.inl (step_drive rfl hdrive)⟩
  have htask : state.task = .none := by
    by_contra hne
    exact hbusy (Or.inl hne)
  have hreturned : state.point ≠ .returned := fun hreturned =>
    hplace (hinv.places_returned hreturned id)
  have hpoint : state.point = .head := by
    by_contra hne
    exact hbusy (Or.inr (Or.inl ⟨hne, hreturned⟩))
  have hqueue : state.queue = [] := by
    by_contra hne
    exact hbusy (Or.inr (Or.inr ⟨hpoint, Or.inl hne⟩))
  have hinflight : state.inflight = [] := by
    by_contra hne
    exact hbusy (Or.inr (Or.inr ⟨hpoint, Or.inr hne⟩))
  by_cases hwork : state.helperQueue ≠ [] ∨ ∃ helper ∈ state.helpers, helper ≠ .idle
  · obtain ⟨index, next, hhelp⟩ := hinv.help_enabled hreturned hwork
    exact ⟨{}, next, Or.inr ⟨index, hhelp⟩⟩
  -- the helpers have nothing, so a channel of the driver holds a message
  cases hrx : state.rx with
  | cons msg rx =>
      have hconnected : state.disconnected = false := by
        by_contra hdisconnected
        rw [(hinv.life.closed (by simpa using hdisconnected)).2] at hrx
        cases hrx
      obtain ⟨next, hwait⟩ := waitIdle_msg { state with point := .suspend }
        hconnected hinv.life.helpersGone hrx
      rw [← drive_idle htask hpoint hqueue hinflight (Or.inl hconnected)] at hwait
      exact ⟨_, next, Or.inl (step_drive rfl hwait)⟩
  | nil =>
      cases hback : state.back with
      | cons message back =>
          have hlisted : message.pending ∈ state.pendings := by
            simp [State.pendings, hback]
          have hpending : state.pendingOpens ≠ ∅ :=
            Finset.ne_empty_of_mem (hinv.ledger.pendingIds _ hlisted).2
          obtain ⟨next, hwait⟩ := waitIdle_opened { state with point := .suspend }
            hinv.life.helpersGone hback
          rw [← drive_idle htask hpoint hqueue hinflight (Or.inr hpending)] at hwait
          exact ⟨_, next, Or.inl (step_drive rfl hwait)⟩
      | nil =>
          have hpendings : state.pendings = [] := by
            rw [not_or, not_not] at hwork
            have hhelpers : state.helpers.flatMap Helper.pendings = [] := by
              rw [List.flatMap_eq_nil_iff]
              intro helper hmem
              have hidle : helper = .idle := by
                by_contra hne
                exact hwork.2 ⟨helper, hmem, hne⟩
              rw [hidle]
              rfl
            simp [State.pendings, hwork.1, hhelpers, hback]
          exact absurd (hinv.places_idle hrx hpendings (by rw [htask, Task.jobs_none]) hqueue
            hinflight id) hplace

end Invariant

/-- **Exactly-once settlement.**  In every reachable state an accepted op is in
exactly one place or its callback has run, and then once; an op out at the
helpers is among the pending opens, a deferred close waits for a busy handle,
and the only job outside the containers is the one `execute_sync` runs.  While
an op is unsettled the threads are not stuck, and `run` returns only with every
op settled. -/
theorem settled_exactly_once {state : State} (hreach : driver.Reachable state)
    {id : OpId} (hsent : id ∈ submittedIds state.log) :
    (state.places id).length + settledTimes id state.log = 1 ∧
      (Place.helper ∈ state.places id → id ∈ state.pendingOpens) ∧
      (∀ handle, Place.closing handle ∈ state.places id →
        ∃ entry, state.files.lookup handle = some entry ∧ entry.closing = some id ∧
          0 < entry.ops) ∧
      (Place.onThread ∈ state.places id →
        ∃ job, state.task = .executeSync job ∧ job.id = id) ∧
      (settledTimes id state.log = 0 →
        ∃ ans next, driver.step state (.drive ans) = some next ∨
          ∃ index, driver.step state (.help index ans) = some next) ∧
      (state.point = .returned → settledTimes id state.log = 1) := by
  have hinv := Invariant.of_reachable hreach
  have hone := hinv.ledger.places_add_settled hsent
  refine ⟨hone, hinv.ledger.mem_pendingOpens, fun _ => hinv.ledger.closing_busy,
    State.executing_of_onThread, ?_, ?_⟩
  · intro hunsettled
    have hplace : state.places id ≠ [] := by
      intro hnowhere
      simp [hnowhere, hunsettled] at hone
    exact hinv.work_enabled hplace
  · exact fun hreturned => hinv.settledTimes_returned hreturned hsent

/-- A file is opened by a helper while another op waits in the channel. -/
def helpRun : List Label :=
  [.submit 1 (.readFile [97] 64), .submit 2 .nop, .dropSubmitters, .drive {}, .help 0 {},
    .help 0 { openFd := .ok 5, stat := .ok ⟨3, true⟩ }, .help 0 {}]

/-- The kernel gives its three bytes, and the driver returns. -/
def doneRun : List Label :=
  List.replicate 7 (.drive {}) ++
    List.replicate 8 (.drive { aio := .done ⟨3, [1, 2, 3]⟩, stat := .ok ⟨3, true⟩ })

/-- A file is read: its op is out at a helper, then with the kernel, then settled. -/
theorem settled_exactly_once_file :
    ∃ helping flying final,
      driver.exec (State.new (helpersFor 8) 16) helpRun = some helping ∧
      helping.places 1 = [.helper] ∧ 1 ∈ helping.pendingOpens ∧
      driver.exec helping (List.replicate 5 (.drive {})) = some flying ∧
      flying.places 1 = [.inflight] ∧ settledTimes 1 flying.log = 0 ∧
      driver.exec flying doneRun = some final ∧
      final.point = .returned ∧ settledTimes 1 final.log = 1 := by
  have hstart : driver.init (State.new (helpersFor 8) 16) := ⟨8, 16, by decide, rfl⟩
  have hhelping : driver.Reachable _ := (System.Reachable.ofInit hstart).ofExec
    (rfl : driver.exec (State.new (helpersFor 8) 16) helpRun = some _)
  have hflying := hhelping.ofExec
    (rfl : driver.exec _ (List.replicate 5 (.drive {})) = some _)
  have hfinal := hflying.ofExec (rfl : driver.exec _ doneRun = some _)
  refine ⟨_, _, _, rfl, rfl, ?_, rfl, rfl, ?_, rfl, rfl, ?_⟩
  · exact (@settled_exactly_once _ hhelping 1 (by decide)).2.1 (by decide)
  · exact Nat.succ.inj ((Nat.add_comm _ _).trans (@settled_exactly_once _ hflying 1 (by decide)).1)
  · exact (@settled_exactly_once _ hfinal 1 (by decide)).2.2.2.2.2 rfl

end Turbofile.Darwin
