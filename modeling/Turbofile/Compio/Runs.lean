import Turbofile.Compio.Polls

/-!
# Runs of the compio driver

An accepted op is in the channel, or in a spawned task, or settled, as long as
the runtime is there to poll its task.  A handle is promised to one task, which
is the one that registers it.
-/

namespace Turbofile.Compio

open Turbofile.Core
open Turbofile.Tally

/-! ## Counting -/

/-- How often the callback of an op has run. -/
def settledTimes (id : OpId) (log : List Event) : ℕ :=
  log.countP fun event =>
    match event with
    | .settled cb _ => cb = id
    | _ => false

def waitingIds : List Msg → List OpId
  | [] => []
  | .submit id _ _ :: rx => id :: waitingIds rx
  | .cancel _ :: rx => waitingIds rx

def registeredHandles : List Event → List Handle
  | [] => []
  | .registered handle _ :: log => handle :: registeredHandles log
  | _ :: log => registeredHandles log

/-- How often a handle is promised to a task or registered. -/
def State.claims (handle : Handle) (state : State) : ℕ :=
  (state.tasks.map (·.openId)).count (some handle) +
    (registeredHandles state.log).count handle

/-- Where an accepted op is while it is not settled. -/
def State.pendingTimes (id : OpId) (state : State) : ℕ :=
  (waitingIds state.rx).count id + (state.tasks.map (·.id)).count id

theorem waitingIds_append (front back : List Msg) :
    waitingIds (front ++ back) = waitingIds front ++ waitingIds back := by
  induction front with
  | nil => rfl
  | cons msg front ih => cases msg <;> simp [waitingIds, ih]

theorem file_append {events : List Event} (hevents : ∀ event ∈ events, event.isFile)
    (log : List Event) :
    State.submittedIds (events ++ log) = State.submittedIds log ∧
      registeredHandles (events ++ log) = registeredHandles log ∧
      ∀ id, settledTimes id (events ++ log) = settledTimes id log := by
  induction events with
  | nil => exact ⟨rfl, rfl, fun _ => rfl⟩
  | cons event events ih =>
      have htail := ih fun event hmem => hevents event (List.mem_cons_of_mem _ hmem)
      have hhead := hevents event List.mem_cons_self
      cases event with
      | opened fd path spec => exact htail
      | closed fd => exact htail
      | _ => exact hhead.elim

theorem settledTimes_settled (id : OpId) (cb : Callback) (result : Outcome)
    (log : List Event) :
    settledTimes id (.settled cb result :: log) =
      settledTimes id log + if cb = id then 1 else 0 := by
  simp [settledTimes, List.countP_cons]

/-! ## Polls -/

namespace Polled

variable {state next : State} {index : ℕ} {task : Task}

theorem perm_erase (hget : state.tasks[index]? = some task) :
    state.tasks.Perm (task :: state.tasks.eraseIdx index) := by
  obtain ⟨hindex, rfl⟩ := List.getElem?_eq_some_iff.mp hget
  exact (List.getElem_cons_eraseIdx_perm hindex).symm

theorem perm_set (hget : state.tasks[index]? = some task) (task' : Task) :
    (state.tasks.set index task').Perm (task' :: state.tasks.eraseIdx index) := by
  obtain ⟨hindex, -⟩ := List.getElem?_eq_some_iff.mp hget
  exact List.set_perm_cons_eraseIdx hindex task'

/-- Another await changes neither a task's id nor the handle promised to it. -/
theorem count_set {β : Type*} [BEq β] [LawfulBEq β] (f : Task → β)
    (hget : state.tasks[index]? = some task) (task' : Task) (hsame : f task' = f task)
    (value : β) :
    ((state.tasks.set index task').map f).count value = (state.tasks.map f).count value := by
  rw [((perm_set hget task').map f).count_eq, ((perm_erase hget).map f).count_eq,
    List.map_cons, List.map_cons, hsame]

theorem count_erase {β : Type*} [BEq β] [LawfulBEq β] (f : Task → β)
    (hget : state.tasks[index]? = some task) (value : β) :
    (state.tasks.map f).count value =
      ((state.tasks.eraseIdx index).map f).count value +
        if f task == value then 1 else 0 := by
  rw [((perm_erase hget).map f).count_eq, List.map_cons, List.count_cons]

/-- A poll settles the op of a task it drops, and no other. -/
theorem pending_add_settled (hpolled : Polled state index task next)
    (hget : state.tasks[index]? = some task) (hown : task.cb = task.id) (id : OpId) :
    next.pendingTimes id + settledTimes id next.log =
      state.pendingTimes id + settledTimes id state.log := by
  have herase := count_erase (·.id) hget id
  simp only [beq_iff_eq] at herase
  cases hpolled with
  | waits stage events hfits hopen hevents =>
      have hset := count_set (·.id) hget { task with stage := stage } rfl id
      simp only [State.pendingTimes, hset, (file_append hevents state.log).2.2]
  | closes handle fd hop hlookup =>
      have hset := count_set (·.id) hget { task with stage := .closing fd .unit } rfl id
      simp only [State.pendingTimes, hset]
  | settles events result hevents hclose =>
      simp only [State.pendingTimes, settledTimes_settled, hown,
        (file_append hevents state.log).2.2]
      omega
  | registers handle fd size hopenId =>
      have hquiet : settledTimes id (.registered handle fd :: state.log) =
          settledTimes id state.log := rfl
      simp only [State.pendingTimes, List.cons_append, List.nil_append, settledTimes_settled,
        hown, hquiet]
      omega

theorem submittedIds_eq (hpolled : Polled state index task next) :
    State.submittedIds next.log = State.submittedIds state.log := by
  cases hpolled with
  | waits stage events hfits hopen hevents => exact (file_append hevents state.log).1
  | closes handle fd hop hlookup => rfl
  | settles events result hevents hclose => exact (file_append hevents state.log).1
  | registers handle fd size hopenId => rfl

/-- The task that registers the handle promised to it is done. -/
theorem claims_le (hpolled : Polled state index task next)
    (hget : state.tasks[index]? = some task) (handle : Handle) :
    next.claims handle ≤ state.claims handle := by
  have herase := count_erase (·.openId) hget (some handle)
  simp only [beq_iff_eq] at herase
  cases hpolled with
  | waits stage events hfits hopen hevents =>
      have hset := count_set (·.openId) hget { task with stage := stage } rfl (some handle)
      simp only [State.claims, hset, (file_append hevents state.log).2.1, le_refl]
  | closes other fd hop hlookup =>
      have hset := count_set (·.openId) hget { task with stage := .closing fd .unit } rfl
        (some handle)
      simp only [State.claims, hset, le_refl]
  | settles events result hevents hclose =>
      have hquiet : registeredHandles (.settled task.cb result :: (events ++ state.log)) =
          registeredHandles state.log := (file_append hevents state.log).2.1
      simp only [State.claims, hquiet]
      omega
  | registers other fd size hopenId =>
      simp only [State.claims, List.cons_append, List.nil_append, registeredHandles,
        List.count_cons, beq_iff_eq]
      rw [hopenId] at herase
      simp only [Option.some.injEq] at herase
      omega

theorem frame (hpolled : Polled state index task next) :
    next.rx = state.rx ∧ next.nextId = state.nextId ∧ next.returned = state.returned := by
  cases hpolled <;> exact ⟨rfl, rfl, rfl⟩

theorem wellFormed (hpolled : Polled state index task next)
    (hget : state.tasks[index]? = some task)
    (hwell : ∀ task ∈ state.tasks, task.WellFormed) :
    ∀ task ∈ next.tasks, task.WellFormed := by
  have hself := hwell task (List.mem_of_getElem? hget)
  intro other hmem
  cases hpolled with
  | waits stage events hfits hopen hevents =>
      rcases List.mem_or_eq_of_mem_set hmem with hold | rfl
      · exact hwell other hold
      · exact ⟨hfits, hself.openId, hself.own⟩
  | closes handle fd hop hlookup =>
      rcases List.mem_or_eq_of_mem_set hmem with hold | rfl
      · exact hwell other hold
      · exact ⟨Or.inl ⟨handle, hop, rfl⟩, hself.openId, hself.own⟩
  | settles events result hevents hclose => exact hwell other (List.mem_of_mem_eraseIdx hmem)
  | registers handle fd size hopenId => exact hwell other (List.mem_of_mem_eraseIdx hmem)

end Polled

theorem State.handleMsg_returned (state : State) (msg : Msg) :
    (state.handleMsg msg).returned = state.returned := by
  cases msg with
  | submit id op cb => rfl
  | cancel id =>
      simp only [State.handleMsg]
      split <;> rfl

/-! ## The invariant -/

structure Invariant (state : State) : Prop where
  wellFormed : ∀ task ∈ state.tasks, task.WellFormed
  unique : (State.submittedIds state.log).Nodup
  rxOwn : ∀ id op cb, Msg.submit id op cb ∈ state.rx → cb = id
  claimedOnce : ∀ handle, state.claims handle ≤ 1
  claimedFresh : ∀ handle, 0 < state.claims handle → handle < state.nextId
  ended : state.returned → state.rx = [] ∧ state.submittersGone ∧ state.tasks = []
  /-- Until the runtime is dropped no op is lost. -/
  balance : state.returned = false → ∀ id,
    (State.submittedIds state.log).count id =
      state.pendingTimes id + settledTimes id state.log

namespace Invariant

variable {state next : State}

theorem new : Invariant State.new where
  wellFormed := by simp [State.new]
  unique := List.nodup_nil
  rxOwn := by simp [State.new]
  claimedOnce handle := by simp [State.claims, State.new, registeredHandles]
  claimedFresh handle := by simp [State.claims, State.new, registeredHandles]
  ended := by simp [State.new]
  balance _ id := by
    simp [State.new, State.submittedIds, State.pendingTimes, waitingIds, settledTimes]

theorem polled (hinv : Invariant state) {index : ℕ} {ans : Answers}
    (hpoll : state.poll ans index = some next) :
    ∃ task, state.tasks[index]? = some task ∧ task.WellFormed ∧
      Polled state index task next := by
  cases hget : state.tasks[index]? with
  | none => simp [State.poll, hget] at hpoll
  | some task =>
      have hwell := hinv.wellFormed task (List.mem_of_getElem? hget)
      exact ⟨task, rfl, hwell, State.polled_poll hget hwell hpoll⟩

/-- Only a runtime that is still there polls. -/
theorem going_of_poll (hinv : Invariant state) {index : ℕ} {ans : Answers}
    (hpoll : state.poll ans index = some next) : state.returned = false := by
  by_contra hreturned
  obtain ⟨task, hget, -, -⟩ := hinv.polled hpoll
  rw [(hinv.ended (by simpa using hreturned)).2.2] at hget
  simp at hget

theorem poll (hinv : Invariant state) {index : ℕ} {ans : Answers}
    (hpoll : state.poll ans index = some next) : Invariant next := by
  obtain ⟨task, hget, hwell, hpolled⟩ := hinv.polled hpoll
  have hgoing := hinv.going_of_poll hpoll
  obtain ⟨hrx, hnext, hreturned⟩ := hpolled.frame
  exact
    { wellFormed := hpolled.wellFormed hget hinv.wellFormed
      unique := hpolled.submittedIds_eq ▸ hinv.unique
      rxOwn := hrx ▸ hinv.rxOwn
      claimedOnce := fun handle =>
        (hpolled.claims_le hget handle).trans (hinv.claimedOnce handle)
      claimedFresh := fun handle hpos =>
        hnext ▸ hinv.claimedFresh handle (hpos.trans_le (hpolled.claims_le hget handle))
      ended := by
        intro hended
        rw [hreturned, hgoing] at hended
        cases hended
      balance := by
        intro _ id
        rw [hpolled.submittedIds_eq, hpolled.pending_add_settled hget hwell.own]
        exact hinv.balance hgoing id }

theorem openId_isSome (op : Op) (nextId : Handle) :
    (State.openIdFor op nextId).isSome = (State.openIdFor op 0).isSome := by
  cases op <;> rfl

theorem openIdFor_eq {op : Op} {nextId handle : Handle}
    (hsome : State.openIdFor op nextId = some handle) : nextId = handle := by
  cases op <;> simp_all [State.openIdFor]

theorem claims_spawn (state : State) (task : Task) (handle : Handle) :
    ({ state with tasks := state.tasks ++ [task] } : State).claims handle =
      state.claims handle + if task.openId = some handle then 1 else 0 := by
  simp only [State.claims, List.map_append, List.map_cons, List.map_nil, List.count_append,
    List.count_singleton, beq_iff_eq]
  omega

/-- A submission is spawned as a task. -/
theorem spawn (hinv : Invariant state) {id : OpId} {op : Op} {cb : Callback} {rx : List Msg}
    (hrx : state.rx = .submit id op cb :: rx) (hgoing : state.returned = false) :
    Invariant (({ state with rx := rx }).handleMsg (.submit id op cb)) := by
  let task : Task := ⟨id, op, State.openIdFor op state.nextId, cb, .spawned⟩
  have hclaims : ∀ handle,
      (({ state with rx := rx }).handleMsg (.submit id op cb)).claims handle =
        state.claims handle + if task.openId = some handle then 1 else 0 :=
    fun handle => claims_spawn state task handle
  exact
    { wellFormed := by
        intro other hmem
        rcases List.mem_append.mp hmem with hold | hnew
        · exact hinv.wellFormed other hold
        · rw [List.mem_singleton.mp hnew]
          exact ⟨trivial, openId_isSome op state.nextId,
            hinv.rxOwn id op cb (hrx ▸ List.mem_cons_self)⟩
      unique := hinv.unique
      rxOwn := fun other op' cb' hmem =>
        hinv.rxOwn other op' cb' (hrx ▸ List.mem_cons_of_mem _ hmem)
      claimedOnce := by
        intro handle
        rw [hclaims]
        split
        · next hnew =>
            have hsame : state.nextId = handle := openIdFor_eq hnew
            have hnone : state.claims handle = 0 := by
              by_contra hsome
              have hlt := hinv.claimedFresh handle (Nat.pos_of_ne_zero hsome)
              exact absurd hlt (hsame ▸ Nat.lt_irrefl _)
            rw [hnone]
        · exact hinv.claimedOnce handle
      claimedFresh := by
        intro handle hpos
        rw [hclaims] at hpos
        change handle < if (State.openIdFor op state.nextId).isSome then state.nextId + 1
          else state.nextId
        by_cases hnew : task.openId = some handle
        · have hsame : state.nextId = handle := openIdFor_eq hnew
          have hsome : (State.openIdFor op state.nextId).isSome :=
            Option.isSome_iff_exists.mpr ⟨handle, hnew⟩
          rw [if_pos hsome, hsame]
          exact Nat.lt_succ_self handle
        · rw [if_neg hnew, Nat.add_zero] at hpos
          have hlt := hinv.claimedFresh handle hpos
          split
          · exact Nat.lt_succ_of_lt hlt
          · exact hlt
      ended := by
        intro hended
        change state.returned = true at hended
        rw [hgoing] at hended
        cases hended
      balance := by
        intro _ other
        have hbalance := hinv.balance hgoing other
        simp only [State.pendingTimes, hrx, waitingIds, List.count_cons] at hbalance
        change (State.submittedIds state.log).count other =
          (waitingIds rx).count other + ((state.tasks ++ [task]).map (·.id)).count other +
            settledTimes other state.log
        simp only [task, List.map_append, List.map_cons, List.map_nil, List.count_append,
          List.count_singleton]
        omega }

/-- A cancel request changes flags only. -/
theorem flag (hinv : Invariant state) {id : OpId} {rx : List Msg}
    (hrx : state.rx = .cancel id :: rx) (hgoing : state.returned = false) :
    Invariant (({ state with rx := rx }).handleMsg (.cancel id)) := by
  have hflags : ∃ flags, ({ state with rx := rx }).handleMsg (.cancel id) =
      { state with
        rx := rx
        cancelFlags := flags
        log := .handled (.cancel id) :: state.log } := by
    simp only [State.handleMsg]
    split
    · exact ⟨_, rfl⟩
    · exact ⟨_, rfl⟩
  obtain ⟨flags, hnext⟩ := hflags
  rw [hnext]
  exact
    { wellFormed := hinv.wellFormed
      unique := hinv.unique
      rxOwn := fun other op cb hmem =>
        hinv.rxOwn other op cb (hrx ▸ List.mem_cons_of_mem _ hmem)
      claimedOnce := hinv.claimedOnce
      claimedFresh := hinv.claimedFresh
      ended := by
        intro hended
        change state.returned = true at hended
        rw [hgoing] at hended
        cases hended
      balance := by
        intro _ other
        have hbalance := hinv.balance hgoing other
        simp only [State.pendingTimes, hrx, waitingIds] at hbalance
        exact hbalance }

/-- The end of the runtime: the tasks are gone, settled or not. -/
theorem dropped (hinv : Invariant state) (hrx : state.rx = [])
    (hgone : state.submittersGone = true) : Invariant state.dropped := by
  have hfile : ∀ event ∈ state.heldFds.map Event.closed, event.isFile := by
    intro event hmem
    obtain ⟨fd, -, rfl⟩ := List.mem_map.mp hmem
    trivial
  obtain ⟨hids, hhandles, -⟩ := file_append hfile state.log
  have hclaims : ∀ handle, (registeredHandles state.log).count handle ≤ state.claims handle :=
    fun handle => Nat.le_add_left _ _
  exact
    { wellFormed := by simp [State.dropped]
      unique := by
        change (State.submittedIds (_ ++ _)).Nodup
        rw [hids]
        exact hinv.unique
      rxOwn := hinv.rxOwn
      claimedOnce := by
        intro handle
        change 0 + (registeredHandles (_ ++ _)).count handle ≤ 1
        rw [hhandles, Nat.zero_add]
        exact (hclaims handle).trans (hinv.claimedOnce handle)
      claimedFresh := by
        intro handle hpos
        change 0 < 0 + (registeredHandles (_ ++ _)).count handle at hpos
        rw [hhandles, Nat.zero_add] at hpos
        exact hinv.claimedFresh handle (hpos.trans_le (hclaims handle))
      ended := fun _ => ⟨hrx, hgone, rfl⟩
      balance := by simp [State.dropped] }

theorem recv (hinv : Invariant state) (hrecv : state.recv = some next) : Invariant next := by
  unfold State.recv at hrecv
  split at hrecv
  · cases hrecv
  · next hreturned =>
      have hgoing : state.returned = false := by simpa using hreturned
      split at hrecv
      · next msg rx hrx =>
          obtain rfl := Option.some.inj hrecv
          cases msg with
          | submit id op cb => exact hinv.spawn hrx hgoing
          | cancel id => exact hinv.flag hrx hgoing
      · cases hrecv

theorem dropRuntime (hinv : Invariant state) (hdrop : state.dropRuntime = some next) :
    Invariant next := by
  obtain ⟨-, hrx, hgone, rfl⟩ := State.dropRuntime_eq hdrop
  exact hinv.dropped hrx hgone

theorem send (hinv : Invariant state) {msg : Msg}
    (hown : ∀ id op cb, msg = .submit id op cb →
      cb = id ∧ id ∉ State.submittedIds state.log)
    (hsend : state.send msg = some next) : Invariant next := by
  unfold State.send at hsend
  split at hsend
  · cases hsend
  · next hopen =>
      obtain rfl := Option.some.inj hsend
      exact
        { wellFormed := hinv.wellFormed
          unique := by
            cases msg with
            | submit id op cb =>
                exact List.nodup_cons.mpr ⟨(hown id op cb rfl).2, hinv.unique⟩
            | cancel id => exact hinv.unique
          rxOwn := by
            intro id op cb hmem
            rcases List.mem_append.mp hmem with hold | hlast
            · exact hinv.rxOwn id op cb hold
            · exact (hown id op cb (List.mem_singleton.mp hlast).symm).1
          claimedOnce := hinv.claimedOnce
          claimedFresh := hinv.claimedFresh
          ended := fun hended => absurd (hinv.ended hended).2.1 hopen
          balance := by
            intro hgoing other
            have hbalance := hinv.balance hgoing other
            cases msg with
            | submit id op cb =>
                change (id :: State.submittedIds state.log).count other =
                  (waitingIds (state.rx ++ [.submit id op cb])).count other +
                    (state.tasks.map (·.id)).count other + settledTimes other state.log
                simp only [State.pendingTimes] at hbalance
                simp only [waitingIds_append, waitingIds, List.count_append, List.count_cons,
                  List.count_nil]
                omega
            | cancel id =>
                change (State.submittedIds state.log).count other =
                  (waitingIds (state.rx ++ [.cancel id])).count other +
                    (state.tasks.map (·.id)).count other + settledTimes other state.log
                simp only [waitingIds_append, waitingIds, List.append_nil]
                exact hbalance }

theorem step (hinv : Invariant state) {label : Label}
    (hstep : Compio.step state label = some next) : Invariant next := by
  cases label with
  | submit id op =>
      simp only [Compio.step] at hstep
      split at hstep
      · cases hstep
      · next hnew =>
          refine hinv.send ?_ hstep
          rintro other op' cb hsame
          obtain ⟨rfl, -, rfl⟩ := Msg.submit.inj hsame
          exact ⟨rfl, hnew⟩
  | requestCancel id =>
      refine hinv.send ?_ hstep
      intro other op cb hsame
      cases hsame
  | dropSubmitters =>
      obtain rfl := Option.some.inj hstep
      exact { hinv with ended := fun hended =>
        ⟨(hinv.ended hended).1, rfl, (hinv.ended hended).2.2⟩ }
  | recv => exact hinv.recv hstep
  | dropRuntime => exact hinv.dropRuntime hstep
  | poll index ans => exact hinv.poll hstep

theorem of_reachable (hreach : driver.Reachable state) : Invariant state := by
  refine hreach.invariant ?_ ?_
  · rintro _ rfl
    exact new
  · intro _ _ _ _ hinv hstep
    exact hinv.step hstep

end Invariant

end Turbofile.Compio
