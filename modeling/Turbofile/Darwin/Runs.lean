import Turbofile.Darwin.Preservation

/-!
# Runs of the driver

What only the loop itself changes (channels, helper threads, its own program
point) is `Control`; no method the loop calls touches it.  The ledger and the
life cycle of the loop together are the invariant of every run.
-/

namespace Turbofile.Darwin

open Turbofile.Core
open Turbofile.Tally
open State

/-! ## The loop's own part of the state -/

structure Control where
  rx : List Msg
  submittersGone : Bool
  helpers : List Helper
  back : List Opened
  helpersGone : Bool
  maxInflight : ℕ
  disconnected : Bool
  point : Point

namespace State

def control (state : State) : Control :=
  ⟨state.rx, state.submittersGone, state.helpers, state.back, state.helpersGone,
    state.maxInflight, state.disconnected, state.point⟩

@[simp]
theorem control_emit (event : Event) (state : State) :
    (state.emit event).control = state.control := rfl

@[simp]
theorem control_issue (op : OpId) (fd : Fd) (call : Syscall) (state : State) :
    (state.issue op fd call).control = state.control := rfl

@[simp]
theorem control_settle (cb : Callback) (result : Outcome) (state : State) :
    (state.settle cb result).control = state.control := rfl

@[simp]
theorem control_closeRaw (fd : Fd) (state : State) :
    (state.closeRaw fd).control = state.control := rfl

@[simp]
theorem control_closeOwned (ans : Answers) (fd : Fd) (state : State) :
    (state.closeOwned ans fd).control = state.control := by
  unfold closeOwned
  repeat' split
  all_goals rfl

@[simp]
theorem control_finish (ans : Answers) (job : Job) (result : Outcome) (state : State) :
    (state.finish ans job result).control = state.control := by
  have hclosed : (if job.ownedFd then state.closeOwned ans job.fd else state).control =
      state.control := by
    split
    · exact control_closeOwned ans job.fd state
    · rfl
  unfold finish
  generalize (if job.ownedFd then state.closeOwned ans job.fd else state) = next at hclosed ⊢
  simp only
  repeat' split
  all_goals exact hclosed

@[simp]
theorem control_enqueue (id : OpId) (kind : JobKind) (handle : Option Handle)
    (cb : Callback) (state : State) :
    (state.enqueue id kind handle cb).control = state.control := rfl

@[simp]
theorem control_openFor (ans : Answers) (path : Path) (spec : OpenSpec)
    (pending : PendingOpen) (state : State) :
    (state.openFor ans path spec pending).2.control = state.control := by
  rw [openFor_snd]
  rfl

@[simp]
theorem control_opened (ans : Answers) (pending : PendingOpen)
    (result : Except IoError (Fd × ℕ)) (state : State) :
    (state.opened ans pending result).control = state.control := by
  unfold opened
  split
  · rfl
  · split
    · rfl
    · split
      · rfl
      · rfl
    · rfl

@[simp]
theorem control_openThen (ans : Answers) (id : OpId) (path : Path) (spec : OpenSpec)
    (after : AfterOpen) (cb : Callback) (state : State) :
    (state.openThen ans id path spec after cb).control = state.control := by
  unfold openThen
  simp only
  split
  · simp
  · split
    · rfl
    · simp only [runHere, control_opened, control_openFor]
      rfl

@[simp]
theorem control_close (ans : Answers) (handle : Handle) (cb : Callback) (state : State) :
    (state.close ans handle cb).control = state.control := by
  unfold close
  repeat' split
  all_goals rfl

@[simp]
theorem control_stepJob (ans : Answers) (transferred : Transferred) (job : Job)
    (state : State) :
    (state.stepJob ans transferred job).2.2.control = state.control := by
  rcases stepJob_state state ans transferred job with hsame | hstat
  · rw [hsame]
  · rw [hstat, control_issue]

@[simp]
theorem control_advance (ans : Answers) (transferred : Transferred) (job : Job)
    (state : State) : (state.advance ans transferred job).control = state.control := by
  have hstep := control_stepJob ans transferred job state
  unfold advance
  split
  · next heq =>
      rw [heq] at hstep
      rw [control_finish, ← hstep]
  · next heq =>
      rw [heq] at hstep
      split
      · rw [control_finish, ← hstep]
      · exact hstep

@[simp]
theorem control_submitReady (ans : Answers) (state : State) :
    (state.submitReady ans).control = state.control := by
  unfold submitReady
  split
  · split
    · rfl
    · simp only
      split
      · rfl
      · split
        · rfl
        · rfl
      · rw [control_finish]
        rfl
  · rfl

@[simp]
theorem control_executeSync (ans : Answers) (job : Job) (state : State) :
    (state.executeSync ans job).control = state.control := by
  unfold executeSync
  simp only
  split
  · rw [control_finish]
    rfl
  · next transferred _ =>
      have hstep := control_stepJob ans transferred job
        (state.issue job.id job.fd (syncCall job))
      split
      · next heq =>
          rw [heq] at hstep
          rw [control_finish]
          exact hstep
      · next heq =>
          rw [heq] at hstep
          exact hstep

@[simp]
theorem control_cancel (ans : Answers) (id : OpId) (state : State) :
    (state.cancel ans id).control = state.control := by
  unfold cancel
  split
  · rw [control_finish]
    rfl
  · repeat' split
    all_goals rfl

@[simp]
theorem control_handleOp (ans : Answers) (id : OpId) (op : Op) (cb : Callback)
    (state : State) : (state.handleOp ans id op cb).control = state.control := by
  cases op with
  | nop => rfl
  | openFile path spec => exact control_openThen ..
  | close handle => exact control_close ..
  | readFile path inlineMax => exact control_openThen ..
  | writeFile path data => exact control_openThen ..
  | size _ | setLen _ _ | sync _ _ | readAt _ _ _ | readToEnd _ _ | writeAt _ _ _ _ =>
      simp only [handleOp]
      repeat' split
      all_goals rfl

@[simp]
theorem control_handleMsg (ans : Answers) (msg : Msg) (state : State) :
    (state.handleMsg ans msg).control = state.control := by
  cases msg with
  | submit id op cb => exact control_handleOp ..
  | cancel id => exact control_cancel ..

@[simp]
theorem control_handleOpened (ans : Answers) (message : Opened) (state : State) :
    (state.handleOpened ans message).control = state.control := by
  unfold handleOpened
  simp only
  split
  · unfold closeOpened
    split
    · rfl
    · rfl
  · rw [control_opened]
    rfl

end State

/-! ## The life cycle of the loop -/

/-- The helpers outlive the loop, and the loop returns only at rest. -/
structure Lifecycle (state : State) : Prop where
  staffed : state.helpers ≠ []
  serving : state.point ≠ .returned → ∀ helper ∈ state.helpers, helper ≠ .exited
  helpersGone : state.helpersGone = false
  slots : 0 < state.maxInflight
  closed : state.disconnected → state.submittersGone ∧ state.rx = []
  rest : state.point = .returned → state.disconnected ∧ state.pendingOpens = ∅ ∧
    state.task = .none ∧ state.queue = [] ∧ state.inflight = []

namespace Lifecycle

variable {state : State}

theorem helpersLive (hlife : Lifecycle state) (hpoint : state.point ≠ .returned) :
    state.helpersLive = true := by
  obtain ⟨helper, hmem⟩ := List.exists_mem_of_ne_nil _ hlife.staffed
  have hserving := hlife.serving hpoint helper hmem
  rw [State.helpersLive, List.any_eq_true]
  exact ⟨helper, hmem, by cases helper <;> simp_all⟩

/-- A loop that has not returned may change anything but its control. -/
theorem frame (hlife : Lifecycle state) {next : State}
    (hpoint : state.point ≠ .returned) (hcontrol : next.control = state.control) :
    Lifecycle next := by
  simp only [State.control, Control.mk.injEq] at hcontrol
  obtain ⟨hrx, hgone, hhelpers, -, hlost, hslots, hdisconnected, hsame⟩ := hcontrol
  exact
    { staffed := by rw [hhelpers]; exact hlife.staffed
      serving := by rw [hhelpers]; exact fun _ => hlife.serving hpoint
      helpersGone := by rw [hlost]; exact hlife.helpersGone
      slots := by rw [hslots]; exact hlife.slots
      closed := by rw [hdisconnected, hgone, hrx]; exact hlife.closed
      rest := fun hreturned => absurd (hsame ▸ hreturned) hpoint }

/-- The loop moves on to another point, still serving. -/
theorem goto (hlife : Lifecycle state) {next : State} (hpoint : state.point ≠ .returned)
    (hnext : next.point ≠ .returned)
    (hhelpers : next.helpers = state.helpers)
    (hlost : next.helpersGone = state.helpersGone)
    (hslots : next.maxInflight = state.maxInflight)
    (hclosed : next.disconnected → next.submittersGone ∧ next.rx = []) :
    Lifecycle next where
  staffed := by rw [hhelpers]; exact hlife.staffed
  serving := by rw [hhelpers]; exact fun _ => hlife.serving hpoint
  helpersGone := by rw [hlost]; exact hlife.helpersGone
  slots := by rw [hslots]; exact hlife.slots
  closed := hclosed
  rest hreturned := absurd hreturned hnext

end Lifecycle

/-! ## The invariant of every run -/

structure Invariant (state : State) : Prop where
  ledger : Consistent [] [] [] state
  life : Lifecycle state

namespace Invariant

variable {state : State}

theorem new (hardware : ℕ) {maxInflight : ℕ} (hslots : 0 < maxInflight) :
    Invariant (State.new (helpersFor hardware) maxInflight) where
  ledger :=
    { balance := by
        intro w
        have hidle : ofList w.helper (List.replicate (helpersFor hardware) .idle) = 0 := by
          rw [ofList_eq_zero_iff]
          intro helper hmem
          rw [List.eq_of_mem_replicate hmem]
          rfl
        simpa [State.new, State.held, State.roles, State.liveJobs] using hidle.symm
      fresh := by simp [State.new]
      opsCount := by simp [State.new]
      closingBusy := by simp [State.new]
      placed := by simp [State.new, State.roles, State.liveJobs]
      roleIds := by simp [State.new, State.roles, State.liveJobs]
      trace := trivial
      unique := List.nodup_nil
      ownCb := by simp [State.new]
      rxCb := by simp [State.new]
      pendingIds := by
        intro pending hmem
        simp [State.new, State.pendings, List.mem_flatMap, Helper.pendings] at hmem
      fildes := by simp [State.new] }
  life :=
    { staffed := by
        have hmany : helpersFor hardware ≠ 0 := by
          unfold helpersFor
          omega
        simpa [State.new] using hmany
      serving := by
        intro _ helper hmem
        rw [List.eq_of_mem_replicate hmem]
        simp
      helpersGone := rfl
      slots := hslots
      closed := by simp [State.new]
      rest := by simp [State.new] }

/-- A method ran in a loop that has not returned. -/
theorem ran (hinv : Invariant state) {next : State} (hpoint : state.point ≠ .returned)
    (hledger : Consistent [] [] [] next) (hcontrol : next.control = state.control) :
    Invariant next :=
  ⟨hledger, hinv.life.frame hpoint hcontrol⟩

theorem receiveMsg (hinv : Invariant state) {ans : Answers} (hfresh : ans.fresh state)
    (htask : state.task.jobs = []) (hpoint : state.point ≠ .returned)
    {msg : Msg} {rx : List Msg} (hrx : state.rx = msg :: rx) :
    Invariant (({ state with rx := rx }).handleMsg ans msg) := by
  have htaken : Lifecycle { state with rx := rx } := by
    refine hinv.life.goto hpoint hpoint rfl rfl rfl ?_
    intro hdisconnected
    rw [(hinv.life.closed hdisconnected).2] at hrx
    cases hrx
  exact ⟨hinv.ledger.receiveMsg hfresh htask hrx,
    htaken.frame hpoint (State.control_handleMsg ..)⟩

theorem receiveOpened (hinv : Invariant state) (ans : Answers)
    (htask : state.task.jobs = []) (hpoint : state.point ≠ .returned)
    {message : Opened} {back : List Opened} (hback : state.back = message :: back) :
    Invariant (({ state with back := back }).handleOpened ans message) := by
  have htaken : Lifecycle { state with back := back } :=
    hinv.life.goto hpoint hpoint rfl rfl rfl hinv.life.closed
  exact ⟨hinv.ledger.receiveOpened ans htask hback,
    htaken.frame hpoint (State.control_handleOpened ..)⟩

/-- Only the program point, the pacing and the disconnection flag move. -/
theorem park (hinv : Invariant state) {next : State} (hpoint : state.point ≠ .returned)
    (hnext : next.point ≠ .returned)
    (hclosed : next.disconnected → next.submittersGone ∧ next.rx = [])
    (hsame : next = { state with
      disconnected := next.disconnected
      suspendNs := next.suspendNs
      progress := next.progress
      point := next.point }) : Invariant next := by
  rw [hsame] at hclosed hnext ⊢
  exact ⟨hinv.ledger.frame (List.Perm.refl _) (fun _ hmem => Or.inl hmem) rfl,
    hinv.life.goto hpoint hnext rfl rfl rfl hclosed⟩

theorem waitIdle (hinv : Invariant state) {ans : Answers} (hfresh : ans.fresh state)
    (htask : state.task.jobs = []) (hpoint : state.point ≠ .returned) {next : State}
    (hstep : state.waitIdle ans = some next) : Invariant next := by
  unfold State.waitIdle at hstep
  simp only at hstep
  split at hstep
  · split at hstep
    · cases hstep
    · next msg rx hrx =>
        obtain rfl := Option.some.inj hstep
        exact hinv.receiveMsg hfresh htask hpoint hrx
  · split at hstep
    · cases hstep
    · next message back hback =>
        obtain rfl := Option.some.inj hstep
        exact hinv.receiveOpened ans htask hpoint hback
  · split at hstep
    · next hgone =>
        obtain rfl := Option.some.inj hstep
        refine hinv.park hpoint hpoint ?_ rfl
        intro _
        simpa [Bool.and_comm, and_comm] using hgone
    · cases hstep
  · simp [hinv.life.helpersLive hpoint] at hstep

theorem reap (hinv : Invariant state) (htask : state.task.jobs = [])
    (hpoint : state.point ≠ .returned) (ans : Answers) (index : ℕ) :
    Invariant (state.reap ans index) := by
  unfold State.reap
  split
  · exact hinv.park hpoint (by simp) hinv.life.closed rfl
  · next entry hget =>
      obtain ⟨hbound, rfl⟩ := List.getElem?_eq_some_iff.mp hget
      have hperm := perm_swapRemove state.inflight hbound
      have htaken : Consistent [state.inflight[index].job] [] []
          { state with
            inflight := swapRemove state.inflight index
            progress := true } := by
        refine hinv.ledger.frame ?_ ?_ rfl
        · apply List.Perm.map
          simp only [State.liveJobs, List.nil_append, List.singleton_append]
          have hjobs := (hperm.map (·.job)).append_left (state.task.jobs ++ state.queue)
          exact (hjobs.trans List.perm_middle).symm
        · intro other hmem
          exact Or.inl (hperm.mem_iff.mpr (List.mem_cons_of_mem _ hmem))
      split
      · exact hinv.park hpoint (by simp) hinv.life.closed rfl
      · exact hinv.ran hpoint (htaken.advance htask ans _) (State.control_advance ..)
      · exact hinv.ran hpoint (htaken.finish ans _) (State.control_finish ..)

theorem drainRx (hinv : Invariant state) {ans : Answers} (hfresh : ans.fresh state)
    (htask : state.task.jobs = []) (hpoint : state.point ≠ .returned) :
    Invariant (state.drainRx ans) := by
  unfold State.drainRx
  split
  · next hrx => exact hinv.receiveMsg hfresh htask hpoint hrx
  · next hrx =>
      refine hinv.park hpoint (by simp) ?_ rfl
      intro hdisconnected
      refine ⟨?_, hrx⟩
      rcases Bool.or_eq_true_iff.mp hdisconnected with hold | hgone
      · exact (hinv.life.closed hold).1
      · exact hgone

theorem drainBack (hinv : Invariant state) (htask : state.task.jobs = [])
    (hpoint : state.point ≠ .returned) (ans : Answers) :
    Invariant (state.drainBack ans) := by
  unfold State.drainBack
  split
  · next hback => exact hinv.receiveOpened ans htask hpoint hback
  · rw [if_pos (hinv.life.helpersLive hpoint)]
    exact hinv.park hpoint (by simp) hinv.life.closed rfl

theorem drive (hinv : Invariant state) {ans : Answers} (hfresh : ans.fresh state)
    {next : State} (hstep : state.drive ans = some next) : Invariant next := by
  unfold State.drive at hstep
  split at hstep
  · next htask =>
      obtain rfl := Option.some.inj hstep
      have hpoint : state.point ≠ .returned := by
        intro hreturned
        have hrest := (hinv.life.rest hreturned).2.2.1
        rw [htask] at hrest
        cases hrest
      have hjobs : state.task.jobs = [] := by rw [htask, Task.jobs_submitReady]
      exact hinv.ran hpoint (hinv.ledger.submitReady hjobs ans) (State.control_submitReady ..)
  · next job htask =>
      obtain rfl := Option.some.inj hstep
      have hpoint : state.point ≠ .returned := by
        intro hreturned
        have hrest := (hinv.life.rest hreturned).2.2.1
        rw [htask] at hrest
        cases hrest
      exact hinv.ran hpoint (hinv.ledger.executeSync htask ans) (State.control_executeSync ..)
  · next htask =>
      have hjobs : state.task.jobs = [] := by rw [htask, Task.jobs_none]
      split at hstep
      · next hpoint =>
          have hserving : state.point ≠ .returned := by simp [hpoint]
          split at hstep
          · next hidle =>
              obtain ⟨hinflight, hqueue⟩ : state.inflight = [] ∧ state.queue = [] := by
                simpa using hidle
              split at hstep
              · next hdone =>
                  obtain ⟨hdisconnected, hpending⟩ :
                      state.disconnected = true ∧ state.pendingOpens = ∅ := by
                    simpa using hdone
                  obtain rfl := Option.some.inj hstep
                  exact ⟨hinv.ledger.frame (List.Perm.refl _) (fun _ hmem => Or.inl hmem) rfl,
                    { hinv.life with
                      serving := fun _ => hinv.life.serving hserving
                      rest := fun _ => ⟨hdisconnected, hpending, htask, hqueue, hinflight⟩ }⟩
              · have hwaiting : Invariant { state with point := .suspend } :=
                  hinv.park hserving (by simp) hinv.life.closed rfl
                exact hwaiting.waitIdle hfresh hjobs (by simp) hstep
          · obtain rfl := Option.some.inj hstep
            exact hinv.park hserving (by simp) hinv.life.closed rfl
      · next hpoint =>
          have hserving : state.point ≠ .returned := by simp [hpoint]
          split at hstep
          · obtain rfl := Option.some.inj hstep
            exact hinv.park hserving (by simp) hinv.life.closed rfl
          · obtain rfl := Option.some.inj hstep
            exact hinv.park hserving (by simp) hinv.life.closed rfl
      · next index hpoint =>
          obtain rfl := Option.some.inj hstep
          exact hinv.reap hjobs (by simp [hpoint]) ans index
      · next hpoint =>
          obtain rfl := Option.some.inj hstep
          exact hinv.drainRx hfresh hjobs (by simp [hpoint])
      · next hpoint =>
          obtain rfl := Option.some.inj hstep
          exact hinv.drainBack hjobs (by simp [hpoint]) ans
      · next hpoint =>
          obtain rfl := Option.some.inj hstep
          have hserving : state.point ≠ .returned := by simp [hpoint]
          refine ⟨hinv.ledger.frame ?_ (fun _ hmem => Or.inl hmem) rfl,
            hinv.life.goto hserving (by simp) rfl rfl rfl hinv.life.closed⟩
          simp only [State.roles, State.liveJobs, htask, Task.jobs_none,
            Task.jobs_submitReady]
          exact List.Perm.refl _
      · next hpoint =>
          obtain rfl := Option.some.inj hstep
          exact hinv.park (by simp [hpoint]) (by simp) hinv.life.closed rfl
      · cases hstep

/-! ### Helper threads -/

theorem setHelper_life (hinv : Invariant state) {next : State} {index : ℕ} {new : Helper}
    (hcontrol : next.control =
      { state.control with helpers := state.helpers.set index new, back := next.back })
    (hexit : state.point ≠ .returned → new ≠ .exited)
    (hpending : next.pendingOpens = state.pendingOpens) (htask : next.task = state.task)
    (hqueue : next.queue = state.queue) (hinflight : next.inflight = state.inflight) :
    Lifecycle next := by
  simp only [State.control, Control.mk.injEq] at hcontrol
  obtain ⟨hrx, hgone, hhelpers, -, hlost, hslots, hdisconnected, hpoint⟩ := hcontrol
  exact
    { staffed := by
        have hstaffed := hinv.life.staffed
        rw [hhelpers]
        simpa using hstaffed
      serving hserving helper hmem := by
        rw [hpoint] at hserving
        rw [hhelpers] at hmem
        rcases List.mem_or_eq_of_mem_set hmem with hold | rfl
        · exact hinv.life.serving hserving helper hold
        · exact hexit hserving
      helpersGone := by rw [hlost]; exact hinv.life.helpersGone
      slots := by rw [hslots]; exact hinv.life.slots
      closed := by rw [hdisconnected, hgone, hrx]; exact hinv.life.closed
      rest := by
        rw [hpoint, hdisconnected, hpending, htask, hqueue, hinflight]
        exact hinv.life.rest }

theorem mem_pendings_setHelper {index : ℕ} {new : Helper} {pending : PendingOpen}
    (hmem : pending ∈
      ({ state with helpers := state.helpers.set index new } : State).pendings) :
    pending ∈ new.pendings ∨ pending ∈ state.pendings := by
  simp only [State.pendings, List.mem_append, List.mem_flatMap] at hmem ⊢
  rcases hmem with (hqueue | ⟨helper, hhelper, hin⟩) | hback
  · exact Or.inr (Or.inl (Or.inl hqueue))
  · rcases List.mem_or_eq_of_mem_set hhelper with hold | rfl
    · exact Or.inr (Or.inl (Or.inr ⟨helper, hold, hin⟩))
    · exact Or.inl hin
  · exact Or.inr (Or.inr hback)

theorem mem_pendings_of_helper {index : ℕ} {helper : Helper} {pending : PendingOpen}
    (hget : state.helpers[index]? = some helper) (hin : pending ∈ helper.pendings) :
    pending ∈ state.pendings := by
  simp only [State.pendings, List.mem_append, List.mem_flatMap]
  exact Or.inl (Or.inr ⟨helper, List.mem_of_getElem? hget, hin⟩)

/-- A helper takes a job. -/
theorem mem_pendings_took {index : ℕ} {job : HelperJob} {queue : List HelperJob}
    (hqueue : state.helperQueue = job :: queue) {pending : PendingOpen}
    (hmem : pending ∈ ({ state with
      helperQueue := queue
      helpers := state.helpers.set index (.running job) } : State).pendings) :
    pending ∈ state.pendings := by
  simp only [State.pendings, hqueue, List.flatMap_cons, List.mem_append,
    List.mem_flatMap] at hmem ⊢
  rcases hmem with (hrest | ⟨helper, hhelper, hin⟩) | hback
  · exact Or.inl (Or.inl (Or.inr hrest))
  · rcases List.mem_or_eq_of_mem_set hhelper with hold | rfl
    · exact Or.inl (Or.inr ⟨helper, hold, hin⟩)
    · exact Or.inl (Or.inl (Or.inl hin))
  · exact Or.inr hback

/-- A helper hands an open back. -/
theorem mem_pendings_sent {index : ℕ} {message : Opened}
    (hget : state.helpers[index]? = some (.sending message)) {pending : PendingOpen}
    (hmem : pending ∈ ({ state with
      helpers := state.helpers.set index .idle
      back := state.back ++ [message] } : State).pendings) : pending ∈ state.pendings := by
  simp only [State.pendings, List.map_append, List.map_cons, List.map_nil,
    List.mem_append, List.mem_singleton] at hmem
  rcases hmem with hold | hback | rfl
  · have hin : pending ∈
        ({ state with helpers := state.helpers.set index .idle } : State).pendings := by
      simp only [State.pendings, List.mem_append]
      exact Or.inl hold
    rcases mem_pendings_setHelper hin with hnone | hold
    · simp [Helper.pendings] at hnone
    · exact hold
  · simp only [State.pendings, List.mem_append]
    exact Or.inr hback
  · exact mem_pendings_of_helper hget (by simp [Helper.pendings])

/-- A helper's state changes, what it gives up or takes being in hand. -/
theorem setHelper {fds fds' : List Fd} {cbs cbs' : List Callback}
    (hcons : Consistent [] fds cbs state) {index : ℕ} {old : Helper}
    (hget : state.helpers[index]? = some old) (new : Helper)
    (hbalance : ∀ w : Weights,
      w.helper new + ofList w.fd fds' + ofList w.callback cbs' =
        w.helper old + ofList w.fd fds + ofList w.callback cbs)
    (hpending : ∀ pending ∈ new.pendings, pending ∈ state.pendings) :
    Consistent [] fds' cbs' { state with helpers := state.helpers.set index new } := by
  refine hcons.move ?_ (fun _ hmem => hmem) ?_ rfl rfl rfl rfl rfl
  · intro w
    have hset := ofList_set w.helper hget new
    have hmove := hbalance w
    simp only [State.held]
    omega
  · intro pending hmem
    rcases mem_pendings_setHelper hmem with hnew | hold
    · exact hcons.pendingIds pending (hpending pending hnew)
    · exact hcons.pendingIds pending hold

theorem help (hinv : Invariant state) {ans : Answers} (hfresh : ans.fresh state)
    {index : ℕ} {next : State} (hstep : state.help ans index = some next) :
    Invariant next := by
  unfold State.help at hstep
  split at hstep
  · next hget =>
      split at hstep
      · next job queue hqueue =>
          obtain rfl := Option.some.inj hstep
          refine ⟨hinv.ledger.move ?_ (fun _ hmem => hmem) ?_ rfl rfl rfl rfl rfl,
            hinv.setHelper_life rfl (by simp) rfl rfl rfl rfl⟩
          · intro w
            have hset := ofList_set w.helper hget (.running job)
            simp only [State.held, hqueue, ofList_cons, Weights.helper] at hset ⊢
            omega
          · exact fun pending hmem => hinv.ledger.pendingIds pending (mem_pendings_took hqueue hmem)
      · split at hstep
        · next hreturned =>
            obtain rfl := Option.some.inj hstep
            exact ⟨setHelper hinv.ledger hget .exited (fun _ => rfl) (by simp [Helper.pendings]),
              hinv.setHelper_life rfl (fun hserving => absurd hreturned hserving) rfl rfl rfl rfl⟩
        · cases hstep
  · next fd hget =>
      obtain rfl := Option.some.inj hstep
      have hfreed : Consistent [] [fd] []
          { state with helpers := state.helpers.set index .idle } := by
        refine setHelper hinv.ledger hget .idle ?_ (by simp [Helper.pendings])
        intro w
        simp [Weights.helper, Weights.helperJob]
      exact ⟨hfreed.closeRaw, hinv.setHelper_life rfl (by simp) rfl rfl rfl rfl⟩
  · next path spec pending hget =>
      simp only at hstep
      obtain rfl := Option.some.inj hstep
      have hopened := hinv.ledger.openFor hfresh path spec pending
      have hsnd := openFor_snd state ans path spec pending
      generalize (state.openFor ans path spec pending).1 = result at hopened
      generalize (state.openFor ans path spec pending).2 = next at hopened hsnd
      rw [hsnd] at hopened ⊢
      refine ⟨setHelper hopened hget _ ?_ ?_, hinv.setHelper_life rfl (by simp) rfl rfl rfl rfl⟩
      · intro w
        simp [Weights.helper, Weights.helperJob, Weights.opened, w.result_eq]
      · intro other hmem
        exact mem_pendings_of_helper hget
          (by simpa [Helper.pendings, HelperJob.pendings] using hmem)
  · next message hget =>
      have hfreed : Consistent [] (openedFds message.result) [message.pending.cb]
          { state with helpers := state.helpers.set index .idle } := by
        refine setHelper hinv.ledger hget .idle ?_ (by simp [Helper.pendings])
        intro w
        simp [Weights.helper, Weights.opened, w.result_eq, Nat.add_comm]
      simp only at hstep
      split at hstep
      · obtain rfl := Option.some.inj hstep
        rw [← List.append_nil (openedFds message.result)] at hfreed
        refine ⟨hfreed.closeOpened.settle _, ?_⟩
        rw [closeOpened_eq]
        exact hinv.setHelper_life rfl (by simp) rfl rfl rfl rfl
      · obtain rfl := Option.some.inj hstep
        refine ⟨hfreed.move ?_ (fun _ hmem => hmem) ?_ rfl rfl rfl rfl rfl,
          hinv.setHelper_life rfl (by simp) rfl rfl rfl rfl⟩
        · intro w
          simp only [State.held, ofList_append, ofList_cons, ofList_nil, Weights.opened,
            w.result_eq]
          omega
        · exact fun pending hmem => hinv.ledger.pendingIds pending (mem_pendings_sent hget hmem)
  · cases hstep

/-! ### Submitters -/

theorem send (hinv : Invariant state) {msg : Msg}
    (hown : ∀ id op cb, msg = .submit id op cb →
      cb = id ∧ id ∉ submittedIds state.log)
    {next : State} (hstep : state.send msg = some next) : Invariant next := by
  unfold State.send at hstep
  split at hstep
  · cases hstep
  · next hopen =>
      obtain rfl := Option.some.inj hstep
      have hnew : ∀ id op cb, Msg.submit id op cb ∈ state.rx ++ [msg] → cb = id := by
        intro id op cb hmem
        rcases List.mem_append.mp hmem with hold | hlast
        · exact hinv.ledger.rxCb id op cb hold
        · exact (hown id op cb (List.mem_singleton.mp hlast).symm).1
      refine ⟨{ hinv.ledger with
        balance := ?_, trace := hinv.ledger.trace, unique := ?_, ownCb := ?_, rxCb := hnew }, ?_⟩
      · intro w
        have hold := hinv.ledger.balance w
        have hmsg : w.entered (.sent msg) = w.msg msg ∧ w.spent (.sent msg) = 0 := by
          cases msg <;> exact ⟨rfl, rfl⟩
        change ofList w.entered (.sent msg :: state.log) =
          ofList w.msg (state.rx ++ [msg]) + ofList w.helperJob state.helperQueue +
            ofList w.helper state.helpers + ofList w.opened state.back +
            Table.tally (fun _ => w.entry) state.files +
            ofList w.role (state.roles []) + ofList w.spent (.sent msg :: state.log) + 0 + 0
        simp only [State.held, ofList_cons, ofList_append, ofList_nil, hmsg] at hold ⊢
        omega
      · cases msg with
        | submit id op cb =>
            exact List.nodup_cons.mpr ⟨(hown id op cb rfl).2, hinv.ledger.unique⟩
        | cancel id => exact hinv.ledger.unique
      · intro id op cb hmem
        rcases List.mem_cons.mp hmem with hhead | hold
        · exact (hown id op cb (Event.sent.inj hhead).symm).1
        · exact hinv.ledger.ownCb id op cb hold
      · exact { hinv.life with
          closed := fun hdisconnected =>
            absurd (hinv.life.closed hdisconnected).1 (by simpa using hopen) }

theorem step (hinv : Invariant state) {label : Label} {next : State}
    (hstep : Darwin.step state label = some next) : Invariant next := by
  cases label with
  | submit id op =>
      simp only [Darwin.step] at hstep
      split at hstep
      · cases hstep
      · next hnew =>
          refine hinv.send ?_ hstep
          rintro other op' cb hsame
          obtain ⟨rfl, -, rfl⟩ := Msg.submit.inj hsame
          exact ⟨rfl, hnew⟩
  | requestCancel id =>
      refine hinv.send ?_ hstep
      intro other op cb hsame
      cases hsame
  | dropSubmitters =>
      obtain rfl := Option.some.inj hstep
      exact ⟨hinv.ledger.frame (List.Perm.refl _) (fun _ hmem => Or.inl hmem) rfl,
        { hinv.life with
          closed := fun hdisconnected => ⟨rfl, (hinv.life.closed hdisconnected).2⟩ }⟩
  | help index ans =>
      simp only [Darwin.step] at hstep
      split at hstep
      · next hfresh => exact hinv.help hfresh hstep
      · cases hstep
  | drive ans =>
      simp only [Darwin.step] at hstep
      split at hstep
      · next hfresh => exact hinv.drive hfresh hstep
      · cases hstep

/-- The ledger balances and the life cycle holds in every reachable state. -/
theorem of_reachable (hreach : driver.Reachable state) : Invariant state := by
  refine hreach.invariant ?_ ?_
  · rintro _ ⟨hardware, maxInflight, hslots, rfl⟩
    exact new hardware hslots
  · intro _ _ _ _ hinv hstep
    exact hinv.step hstep

end Invariant

end Turbofile.Darwin
