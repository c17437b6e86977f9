import Turbofile.Darwin.Runs

/-!
# Slots and the queue

The driver keeps at most `max_inflight` jobs with the kernel.  `submit_ready`
stops early only while one of them is there, and runs once more right before
the loop starts over: at the head of the loop a queued job always has one in
flight to wait for.
-/

namespace Turbofile.Darwin

open Turbofile.Core
open Turbofile.Tally
open State

/-! ## What the methods do to the jobs in flight -/

namespace State

variable {state : State} {ans : Answers}

theorem closeOwned_slots (fd : Fd) : (state.closeOwned ans fd).inflight = state.inflight ∧
    (state.closeOwned ans fd).task = state.task := by
  unfold closeOwned
  repeat' split
  all_goals exact ⟨rfl, rfl⟩

theorem finish_slots (job : Job) (result : Outcome) :
    (state.finish ans job result).inflight = state.inflight ∧
      (state.finish ans job result).task = state.task := by
  have hclosed : (if job.ownedFd then state.closeOwned ans job.fd else state).inflight =
      state.inflight ∧
        (if job.ownedFd then state.closeOwned ans job.fd else state).task = state.task := by
    split
    · exact closeOwned_slots job.fd
    · exact ⟨rfl, rfl⟩
  unfold finish
  generalize (if job.ownedFd then state.closeOwned ans job.fd else state) = next at hclosed ⊢
  simp only
  repeat' split
  all_goals exact hclosed

theorem inflight_openFor (path : Path) (spec : OpenSpec) (pending : PendingOpen) :
    (state.openFor ans path spec pending).2.inflight = state.inflight := by
  rw [openFor_snd]

theorem inflight_opened (pending : PendingOpen) (result : Except IoError (Fd × ℕ)) :
    (state.opened ans pending result).inflight = state.inflight := by
  unfold opened
  split
  · rfl
  · split
    · rfl
    · split
      · rfl
      · rfl
    · rfl

theorem inflight_openThen (id : OpId) (path : Path) (spec : OpenSpec) (after : AfterOpen)
    (cb : Callback) : (state.openThen ans id path spec after cb).inflight = state.inflight := by
  unfold openThen
  simp only
  split
  · rw [inflight_opened, inflight_openFor]
  · split
    · rfl
    · simp only [runHere, inflight_opened, inflight_openFor]

theorem inflight_close (handle : Handle) (cb : Callback) :
    (state.close ans handle cb).inflight = state.inflight := by
  unfold close
  repeat' split
  all_goals rfl

theorem inflight_handleOp (id : OpId) (op : Op) (cb : Callback) :
    (state.handleOp ans id op cb).inflight = state.inflight := by
  cases op with
  | nop => rfl
  | openFile path spec => exact inflight_openThen ..
  | close handle => exact inflight_close ..
  | readFile path inlineMax => exact inflight_openThen ..
  | writeFile path data => exact inflight_openThen ..
  | size _ | setLen _ _ | sync _ _ | readAt _ _ _ | readToEnd _ _ | writeAt _ _ _ _ =>
      simp only [handleOp]
      repeat' split
      all_goals rfl

/-- A cancel request only marks a job in flight. -/
theorem length_cancel (id : OpId) :
    (state.cancel ans id).inflight.length = state.inflight.length := by
  unfold cancel
  split
  · rw [(finish_slots _ _).1]
  · split
    · split
      · rfl
      · rfl
    · exact List.length_modify ..

theorem length_handleMsg (msg : Msg) :
    (state.handleMsg ans msg).inflight.length = state.inflight.length := by
  cases msg with
  | submit id op cb => exact congrArg List.length (inflight_handleOp id op cb)
  | cancel id => exact length_cancel id

theorem inflight_handleOpened (message : Opened) :
    (state.handleOpened ans message).inflight = state.inflight := by
  unfold handleOpened
  simp only
  split
  · unfold closeOpened
    split
    · rfl
    · rfl
  · rw [inflight_opened]

theorem inflight_stepJob (transferred : Transferred) (job : Job) :
    (state.stepJob ans transferred job).2.2.inflight = state.inflight := by
  rcases stepJob_state state ans transferred job with hsame | hstat
  · rw [hsame]
  · rw [hstat]
    rfl

theorem inflight_advance (transferred : Transferred) (job : Job) :
    (state.advance ans transferred job).inflight = state.inflight := by
  have hstep := @inflight_stepJob state ans transferred job
  unfold advance
  split
  · next heq =>
      rw [heq] at hstep
      rw [(finish_slots _ _).1]
      exact hstep
  · next heq =>
      rw [heq] at hstep
      split
      · rw [(finish_slots _ _).1]
        exact hstep
      · exact hstep

end State

/-! ## The scheduling invariant -/

/-- Between the last `submit_ready` of a pass and the head of the loop a queued
job has one in flight to wait for. -/
structure Scheduled (state : State) : Prop where
  slots : 0 < state.maxInflight
  within : state.inflight.length ≤ state.maxInflight
  idle : state.point = .head → state.task = .none
  waits : state.point = .pace ∨ state.point = .head → state.task = .none →
    state.queue ≠ [] → state.inflight ≠ []

namespace Scheduled

variable {state next : State} {ans : Answers}

/-- Whatever is not about slots. -/
theorem frame (hsched : Scheduled state) (hslots : next.maxInflight = state.maxInflight)
    (hinflight : next.inflight = state.inflight) (hqueue : next.queue = state.queue)
    (htask : next.task = state.task) (hpoint : next.point = state.point) : Scheduled next where
  slots := hslots ▸ hsched.slots
  within := hinflight ▸ hslots ▸ hsched.within
  idle := by
    rw [hpoint, htask]
    exact hsched.idle
  waits := by
    rw [hpoint, htask, hqueue, hinflight]
    exact hsched.waits

/-- A step that ends in the middle of a pass. -/
theorem within_pass (hsched : Scheduled state) (hslots : next.maxInflight = state.maxInflight)
    (hlength : next.inflight.length ≤ state.inflight.length) (hhead : next.point ≠ .head)
    (hpace : next.point ≠ .pace) : Scheduled next where
  slots := hslots ▸ hsched.slots
  within := hslots ▸ hlength.trans hsched.within
  idle hpoint := absurd hpoint hhead
  waits hpoint := absurd hpoint (not_or.mpr ⟨hpace, hhead⟩)

/-- One round of `submit_ready`. -/
theorem submitReady (hsched : Scheduled state) (htask : state.task = .submitReady) :
    Scheduled (state.submitReady ans) := by
  have hhead : state.point ≠ .head := by
    intro hpoint
    rw [hsched.idle hpoint] at htask
    cases htask
  have hcontrol := control_submitReady ans state
  have hslots : (state.submitReady ans).maxInflight = state.maxInflight :=
    congrArg Control.maxInflight hcontrol
  have hpoint : (state.submitReady ans).point = state.point := congrArg Control.point hcontrol
  refine ⟨hslots ▸ hsched.slots, ?_, fun hnext => absurd (hpoint ▸ hnext) hhead, fun _ => ?_⟩
  · rw [hslots]
    unfold State.submitReady
    split
    · next hfree =>
        split
        · exact hsched.within
        · simp only
          split
          · change (state.inflight ++ _).length ≤ state.maxInflight
            rw [List.length_append]
            exact hfree
          · split
            · exact hsched.within
            · exact hsched.within
          · rw [(finish_slots _ _).1]
            exact hsched.within
    · exact hsched.within
  · unfold State.submitReady
    split
    · split
      · next hempty => exact fun _ hqueue => absurd hempty hqueue
      · simp only
        split
        · intro hnone
          change state.task = .none at hnone
          rw [htask] at hnone
          cases hnone
        · split
          · intro hnone
            cases hnone
          · next hbusy =>
              intro _ _ hempty
              change state.inflight = [] at hempty
              change ¬state.inflight.isEmpty = true at hbusy
              rw [hempty] at hbusy
              exact hbusy rfl
        · intro hnone
          rw [(finish_slots _ _).2] at hnone
          change state.task = .none at hnone
          rw [htask] at hnone
          cases hnone
    · next hfull =>
        intro _ _ hempty
        change state.inflight = [] at hempty
        rw [hempty] at hfull
        exact hfull hsched.slots

theorem executeSync {job : Job} (hsched : Scheduled state) (htask : state.task = .executeSync job) :
    Scheduled (state.executeSync ans job) := by
  have hhead : state.point ≠ .head := by
    intro hpoint
    rw [hsched.idle hpoint] at htask
    cases htask
  have hcontrol := control_executeSync ans job state
  have hslots : (state.executeSync ans job).maxInflight = state.maxInflight :=
    congrArg Control.maxInflight hcontrol
  have hpoint : (state.executeSync ans job).point = state.point := congrArg Control.point hcontrol
  have hrest : (state.executeSync ans job).inflight = state.inflight ∧
      (state.executeSync ans job).task ≠ .none := by
    unfold State.executeSync
    simp only
    split
    · rw [(finish_slots _ _).1, (finish_slots _ _).2]
      exact ⟨rfl, by simp⟩
    · next transferred _ =>
        have hstep := @inflight_stepJob (state.issue job.id job.fd (syncCall job)) ans
          transferred job
        split
        · next heq =>
            rw [heq] at hstep
            rw [(finish_slots _ _).1, (finish_slots _ _).2]
            exact ⟨hstep, by simp⟩
        · next heq =>
            rw [heq] at hstep
            exact ⟨hstep, by simp⟩
  refine ⟨hslots ▸ hsched.slots, ?_, fun hnext => absurd (hpoint ▸ hnext) hhead, ?_⟩
  · rw [hslots, hrest.1]
    exact hsched.within
  · exact fun _ hnone => absurd hnone hrest.2

theorem waitIdle (hsched : Scheduled state) (hpoint : state.point = .suspend)
    (hstep : state.waitIdle ans = some next) : Scheduled next := by
  unfold State.waitIdle at hstep
  simp only at hstep
  split at hstep
  · split at hstep
    · cases hstep
    · next msg rx hrx =>
        obtain rfl := Option.some.inj hstep
        have hcontrol := control_handleMsg ans msg { state with rx := rx }
        have hnext : (({ state with rx := rx }).handleMsg ans msg).point = .suspend :=
          (congrArg Control.point hcontrol).trans hpoint
        refine hsched.within_pass (congrArg Control.maxInflight hcontrol) ?_ ?_ ?_
        · exact (length_handleMsg msg).le
        · simp [hnext]
        · simp [hnext]
  · split at hstep
    · cases hstep
    · next message back hback =>
        obtain rfl := Option.some.inj hstep
        have hcontrol := control_handleOpened ans message { state with back := back }
        have hnext : (({ state with back := back }).handleOpened ans message).point = .suspend :=
          (congrArg Control.point hcontrol).trans hpoint
        refine hsched.within_pass (congrArg Control.maxInflight hcontrol) ?_ ?_ ?_
        · exact (congrArg List.length (inflight_handleOpened message)).le
        · simp [hnext]
        · simp [hnext]
  · split at hstep
    · obtain rfl := Option.some.inj hstep
      exact hsched.frame rfl rfl rfl rfl rfl
    · cases hstep
  · split at hstep
    · obtain rfl := Option.some.inj hstep
      exact hsched.frame rfl rfl rfl rfl rfl
    · cases hstep

theorem reap (hsched : Scheduled state) {index : ℕ} (hpoint : state.point = .reap index) :
    Scheduled (state.reap ans index) := by
  unfold State.reap
  split
  · exact hsched.within_pass rfl le_rfl (by simp) (by simp)
  · next entry hget =>
      have hindex : index < state.inflight.length := (List.getElem?_eq_some_iff.mp hget).1
      have hremoved := length_swapRemove state.inflight hindex
      split
      · exact hsched.within_pass rfl le_rfl (by simp) (by simp)
      · next transferred _ =>
          have hcontrol := control_advance ans transferred entry.job
            { state with
              inflight := swapRemove state.inflight index
              progress := true }
          have hnext := (congrArg Control.point hcontrol).trans hpoint
          change (State.advance ans transferred entry.job _).point = .reap index at hnext
          refine hsched.within_pass (congrArg Control.maxInflight hcontrol) ?_ ?_ ?_
          · rw [inflight_advance]
            exact Nat.le_of_succ_le hremoved.le
          · simp [hnext]
          · simp [hnext]
      · next errno _ =>
          have hcontrol := control_finish ans entry.job (.error (.os errno))
            { state with
              inflight := swapRemove state.inflight index
              progress := true }
          have hnext := (congrArg Control.point hcontrol).trans hpoint
          change (State.finish ans entry.job _ _).point = .reap index at hnext
          refine hsched.within_pass (congrArg Control.maxInflight hcontrol) ?_ ?_ ?_
          · rw [(finish_slots _ _).1]
            exact Nat.le_of_succ_le hremoved.le
          · simp [hnext]
          · simp [hnext]

theorem drainRx (hsched : Scheduled state) (hpoint : state.point = .drainRx) :
    Scheduled (state.drainRx ans) := by
  unfold State.drainRx
  split
  · next msg rx hrx =>
      have hcontrol := control_handleMsg ans msg { state with rx := rx }
      have hnext : (({ state with rx := rx }).handleMsg ans msg).point = .drainRx :=
        (congrArg Control.point hcontrol).trans hpoint
      refine hsched.within_pass (congrArg Control.maxInflight hcontrol) ?_ ?_ ?_
      · exact (length_handleMsg msg).le
      · simp [hnext]
      · simp [hnext]
  · exact hsched.within_pass rfl le_rfl (by simp) (by simp)

theorem drainBack (hsched : Scheduled state) (hpoint : state.point = .drainBack) :
    Scheduled (state.drainBack ans) := by
  unfold State.drainBack
  split
  · next message back hback =>
      have hcontrol := control_handleOpened ans message { state with back := back }
      have hnext : (({ state with back := back }).handleOpened ans message).point = .drainBack :=
        (congrArg Control.point hcontrol).trans hpoint
      refine hsched.within_pass (congrArg Control.maxInflight hcontrol) ?_ ?_ ?_
      · exact (congrArg List.length (inflight_handleOpened message)).le
      · simp [hnext]
      · simp [hnext]
  · split
    · exact hsched.within_pass rfl le_rfl (by simp) (by simp)
    · exact hsched.within_pass rfl le_rfl (by simp) (by simp)

/-- One step of the driver thread. -/
theorem drive (hsched : Scheduled state) (hstep : state.drive ans = some next) :
    Scheduled next := by
  unfold State.drive at hstep
  split at hstep
  · next htask =>
      obtain rfl := Option.some.inj hstep
      exact hsched.submitReady htask
  · next job htask =>
      obtain rfl := Option.some.inj hstep
      exact hsched.executeSync htask
  · next htask =>
      split at hstep
      · split at hstep
        · split at hstep
          · obtain rfl := Option.some.inj hstep
            exact hsched.within_pass rfl le_rfl (by simp) (by simp)
          · have hparked : Scheduled { state with point := .suspend } :=
              hsched.within_pass rfl le_rfl (by simp) (by simp)
            exact hparked.waitIdle rfl hstep
        · obtain rfl := Option.some.inj hstep
          exact hsched.within_pass rfl le_rfl (by simp) (by simp)
      · split at hstep
        · obtain rfl := Option.some.inj hstep
          exact hsched.within_pass rfl le_rfl (by simp) (by simp)
        · obtain rfl := Option.some.inj hstep
          exact hsched.within_pass rfl le_rfl (by simp) (by simp)
      · next index hpoint =>
          obtain rfl := Option.some.inj hstep
          exact hsched.reap hpoint
      · next hpoint =>
          obtain rfl := Option.some.inj hstep
          exact hsched.drainRx hpoint
      · next hpoint =>
          obtain rfl := Option.some.inj hstep
          exact hsched.drainBack hpoint
      · obtain rfl := Option.some.inj hstep
        exact ⟨hsched.slots, hsched.within, fun hhead => (by cases hhead),
          fun _ hnone => (by cases hnone)⟩
      · next hpoint =>
          -- Nothing happens between the last `submit_ready` and the head.
          obtain rfl := Option.some.inj hstep
          exact ⟨hsched.slots, hsched.within, fun _ => htask, fun _ => hsched.waits (Or.inl hpoint)⟩
      · cases hstep

/-- The helper threads leave the jobs alone. -/
theorem help (hsched : Scheduled state) {index : ℕ} (hstep : state.help ans index = some next) :
    Scheduled next := by
  unfold State.help at hstep
  split at hstep
  · split at hstep
    · obtain rfl := Option.some.inj hstep
      exact hsched.frame rfl rfl rfl rfl rfl
    · split at hstep
      · obtain rfl := Option.some.inj hstep
        exact hsched.frame rfl rfl rfl rfl rfl
      · cases hstep
  · obtain rfl := Option.some.inj hstep
    exact hsched.frame rfl rfl rfl rfl rfl
  · next path spec pending _ =>
      simp only at hstep
      obtain rfl := Option.some.inj hstep
      have hsnd := openFor_snd state ans path spec pending
      generalize (state.openFor ans path spec pending).2 = opened at hsnd ⊢
      rw [hsnd]
      exact hsched.frame rfl rfl rfl rfl rfl
  · simp only at hstep
    split at hstep
    · obtain rfl := Option.some.inj hstep
      rw [closeOpened_eq]
      exact hsched.frame rfl rfl rfl rfl rfl
    · obtain rfl := Option.some.inj hstep
      exact hsched.frame rfl rfl rfl rfl rfl
  · cases hstep

theorem send (hsched : Scheduled state) {msg : Msg} (hstep : state.send msg = some next) :
    Scheduled next := by
  unfold State.send at hstep
  split at hstep
  · cases hstep
  · obtain rfl := Option.some.inj hstep
    exact hsched.frame rfl rfl rfl rfl rfl

theorem step (hsched : Scheduled state) {label : Label}
    (hstep : Darwin.step state label = some next) : Scheduled next := by
  cases label with
  | submit id op =>
      simp only [Darwin.step] at hstep
      split at hstep
      · cases hstep
      · exact hsched.send hstep
  | requestCancel id => exact hsched.send hstep
  | dropSubmitters =>
      obtain rfl := Option.some.inj hstep
      exact hsched.frame rfl rfl rfl rfl rfl
  | help index ans =>
      simp only [Darwin.step] at hstep
      split at hstep
      · exact hsched.help hstep
      · cases hstep
  | drive ans =>
      simp only [Darwin.step] at hstep
      split at hstep
      · exact hsched.drive hstep
      · cases hstep

theorem of_reachable (hreach : driver.Reachable state) : Scheduled state := by
  refine hreach.invariant ?_ ?_
  · rintro _ ⟨hardware, maxInflight, hslots, rfl⟩
    exact ⟨hslots, Nat.zero_le _, fun _ => rfl, fun _ _ hqueue => absurd rfl hqueue⟩
  · exact fun _ _ _ _ hsched hstep => hsched.step hstep

end Scheduled

/-! ## The head of the loop -/

/-- At the head of the loop the thread blocks only with nothing queued, and a
pass it begins without waiting there has a job in flight to wait for. -/
structure Waits (state : State) : Prop where
  idle : state.task = .none
  busy : state.queue ≠ [] → state.inflight ≠ []
  blocks : ∀ ans, state.drive ans = none → state.queue = [] ∧ state.inflight = []
  passes : ∀ ans next, state.drive ans = some next →
    (state.queue = [] ∧ state.inflight = []) ∨ (next.point = .suspend ∧ next.inflight ≠ [])

/-- In every reachable state the slots suffice, and at the head of the loop the
driver has something to wait for. -/
theorem queued_waits {state : State} (hreach : driver.Reachable state) :
    state.inflight.length ≤ state.maxInflight ∧ (state.point = .head → Waits state) := by
  have hsched := Scheduled.of_reachable hreach
  refine ⟨hsched.within, fun hpoint => ?_⟩
  have hidle := hsched.idle hpoint
  have hbusy := hsched.waits (Or.inr hpoint) hidle
  have hempty : (state.inflight.isEmpty && state.queue.isEmpty) = true →
      state.queue = [] ∧ state.inflight = [] := by
    intro hboth
    rw [Bool.and_eq_true, List.isEmpty_iff, List.isEmpty_iff] at hboth
    exact hboth.symm
  refine ⟨hidle, hbusy, fun ans hstep => ?_, fun ans next hstep => ?_⟩
  · unfold State.drive at hstep
    rw [hidle, hpoint] at hstep
    simp only at hstep
    split at hstep
    · next hboth => exact hempty hboth
    · cases hstep
  · unfold State.drive at hstep
    rw [hidle, hpoint] at hstep
    simp only at hstep
    split at hstep
    · next hboth => exact Or.inl (hempty hboth)
    · next hsome =>
        obtain rfl := Option.some.inj hstep
        refine Or.inr ⟨rfl, fun hnone => hsome ?_⟩
        change state.inflight = [] at hnone
        have hqueue : state.queue = [] := by
          by_contra hqueued
          exact hbusy hqueued hnone
        rw [hnone, hqueue]
        rfl

/-- One slot and two reads: the second is queued behind the first. -/
def queuedRun : List Label :=
  [.submit 1 (.openFile [97] { read := true }), .drive { openFd := .ok 5 },
    .submit 2 (.readAt 1 0 (.alloc 4)), .submit 3 (.readAt 1 4 (.alloc 4))] ++
    List.replicate 11 (.drive {})

theorem queued_waits_second : ∃ state, driver.exec (State.new (helpersFor 8) 1) queuedRun =
    some state ∧ state.queue.length = 1 ∧ Waits state := by
  obtain ⟨state, hexec⟩ : ∃ state,
      driver.exec (State.new (helpersFor 8) 1) queuedRun = some state := ⟨_, rfl⟩
  have hstart : driver.init (State.new (helpersFor 8) 1) := ⟨8, 1, by decide, rfl⟩
  have hreach : driver.Reachable state := (System.Reachable.ofInit hstart).ofExec hexec
  obtain ⟨hqueue, hpoint⟩ : state.queue.length = 1 ∧ state.point = .head := by
    cases hexec
    exact ⟨rfl, rfl⟩
  exact ⟨state, hexec, hqueue, (queued_waits hreach).2 hpoint⟩

end Turbofile.Darwin
