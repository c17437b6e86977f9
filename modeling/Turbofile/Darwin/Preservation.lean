import Turbofile.Darwin.Ledger

/-!
# The driver's methods keep the ledger

One lemma for each method: whatever the running call holds in its local
variables, the ledger is consistent again once the method has disposed of it.
The driver as a whole then keeps the ledger with empty hands.
-/

namespace Turbofile.Darwin

open Turbofile.Core
open Turbofile.Tally
open State

/-- The descriptor an open came back with. -/
def openedFds : Except IoError (Fd × ℕ) → List Fd
  | .ok (fd, _) => [fd]
  | .error _ => []

theorem Weights.result_eq (w : Weights) (result : Except IoError (Fd × ℕ)) :
    w.result result = ofList w.fd (openedFds result) := by
  cases result with
  | error error => rfl
  | ok opened => simp [Weights.result, openedFds]

/-- Opening changes nothing but the log. -/
theorem openRaw_snd (state : State) (ans : Answers) (path : Path) (spec : OpenSpec) :
    (state.openRaw ans path spec).2 =
      { state with log := (state.openRaw ans path spec).2.log } := by
  unfold State.openRaw
  repeat' split
  all_goals rfl

theorem openSized_snd (state : State) (ans : Answers) (op : OpId) (path : Path)
    (spec : OpenSpec) :
    (state.openSized ans op path spec).2 =
      { state with log := (state.openSized ans op path spec).2.log } := by
  have hraw := openRaw_snd state ans path spec
  unfold State.openSized
  split
  · next hopen =>
      rw [hopen] at hraw
      exact hraw
  · next hopen =>
      rw [hopen] at hraw
      simp only at hraw ⊢
      split
      · rw [hraw]
        rfl
      · rw [hraw]
        rfl

theorem openFor_snd (state : State) (ans : Answers) (path : Path) (spec : OpenSpec)
    (pending : PendingOpen) :
    (state.openFor ans path spec pending).2 =
      { state with log := (state.openFor ans path spec pending).2.log } := by
  have hraw := openRaw_snd state ans path spec
  unfold State.openFor
  split
  · split
    · next hopen =>
        rw [hopen] at hraw
        exact hraw
    · next hopen =>
        rw [hopen] at hraw
        exact hraw
  · exact openSized_snd state ans _ path spec
  · exact openSized_snd state ans _ path spec

theorem closeOpened_eq (state : State) (result : Except IoError (Fd × ℕ)) :
    state.closeOpened result =
      { state with log := (state.closeOpened result).log } := by
  cases result <;> rfl

theorem stepJob_role (state : State) (ans : Answers) (transferred : Transferred)
    (job : Job) : (state.stepJob ans transferred job).1.role = job.role := by
  obtain ⟨id, cancelled, kind, cb⟩ := job
  cases kind with
  | read read =>
      simp only [State.stepJob]
      repeat' split
      all_goals rfl
  | write write =>
      simp only [State.stepJob]
      repeat' split
      all_goals rfl
  | fsync fsync => rfl

theorem complete_state (state : State) (ans : Answers) (op : OpId) (read : ReadJob) :
    (state.complete ans op read).2 = state ∨
      (state.complete ans op read).2 = state.issue op read.fd .fstat := by
  unfold State.complete
  split
  · exact Or.inl rfl
  · simp only
    split
    · exact Or.inr rfl
    · exact Or.inr rfl

theorem stepJob_state (state : State) (ans : Answers) (transferred : Transferred)
    (job : Job) :
    (state.stepJob ans transferred job).2.2 = state ∨
      (state.stepJob ans transferred job).2.2 = state.issue job.id job.fd .fstat := by
  obtain ⟨id, cancelled, kind, cb⟩ := job
  cases kind with
  | read read =>
      simp only [State.stepJob]
      split
      · exact Or.inl rfl
      · have hasked := complete_state state ans id { read with
          filled := read.filled + transferred.n
          buf := read.buf.deposit read.filled transferred.data }
        split
        · next heq => rwa [heq] at hasked
        · next heq => rwa [heq] at hasked
  | write write =>
      simp only [State.stepJob]
      repeat' split
      · exact Or.inl rfl
      · exact Or.inr rfl
      · exact Or.inl rfl
  | fsync fsync => exact Or.inl rfl

theorem stepJob_task (state : State) (ans : Answers) (transferred : Transferred)
    (job : Job) : (state.stepJob ans transferred job).2.2.task = state.task := by
  rcases stepJob_state state ans transferred job with hsame | hstat
  · rw [hsame]
  · rw [hstat]
    rfl

theorem prepare_fildes (job : Job) : (prepare job).1.fildes = job.fd := by
  obtain ⟨id, cancelled, kind, cb⟩ := job
  cases kind <;> rfl

namespace Consistent

variable {jobs : List Job} {fds : List Fd} {cbs : List Callback} {state : State}

/-! ### Moves between the channels -/

/-- Messages and helper jobs change places; tables and jobs stay. -/
theorem move (hcons : Consistent jobs fds cbs state) {next : State}
    {fds' : List Fd} {cbs' : List Callback}
    (hbalance : ∀ w : Weights,
      next.held w + ofList w.fd fds' + ofList w.callback cbs' =
        state.held w + ofList w.fd fds + ofList w.callback cbs)
    (hrx : ∀ msg ∈ next.rx, msg ∈ state.rx)
    (hpending : ∀ pending ∈ next.pendings,
      pending.cb = pending.id ∧ pending.id ∈ next.pendingOpens)
    (hfiles : next.files = state.files)
    (hnext : next.nextId = state.nextId)
    (hlive : next.liveJobs = state.liveJobs)
    (hinflight : next.inflight = state.inflight)
    (hlog : next.log = state.log) :
    Consistent jobs fds' cbs' next where
  balance w := by
    have hold := hcons.balance w
    have hmove := hbalance w
    simp only [State.roles, hlive, hlog] at hold ⊢
    omega
  fresh := by rw [hfiles, hnext]; exact hcons.fresh
  opsCount := by rw [hfiles, State.roles, hlive]; exact hcons.opsCount
  closingBusy := by rw [hfiles]; exact hcons.closingBusy
  placed := by rw [hfiles, State.roles, hlive]; exact hcons.placed
  roleIds := by rw [State.roles, hlive]; exact hcons.roleIds
  trace := by rw [hlog]; exact hcons.trace
  unique := by rw [hlog]; exact hcons.unique
  ownCb := by rw [hlog]; exact hcons.ownCb
  rxCb id op cb hmem := hcons.rxCb id op cb (hrx _ hmem)
  pendingIds := hpending
  fildes := by rw [hinflight]; exact hcons.fildes

theorem one_le_held_of_pending {pending : PendingOpen}
    (hmem : pending ∈ state.pendings) :
    1 ≤ state.held (cbWeights pending.cb) := by
  have hself : (cbWeights pending.cb).callback pending.cb = 1 := by simp [cbWeights]
  simp only [State.pendings, List.mem_append, List.mem_flatMap, List.mem_map] at hmem
  rcases hmem with (⟨job, hjob, hin⟩ | ⟨helper, hhelper, hin⟩) | ⟨message, hmessage, rfl⟩
  · have hweight := weight_le_ofList (cbWeights pending.cb).helperJob hjob
    cases job with
    | close fd => simp [HelperJob.pendings] at hin
    | openFile path spec other =>
        obtain rfl : pending = other := by simpa [HelperJob.pendings] using hin
        simp only [Weights.helperJob, hself] at hweight
        simp only [State.held]
        omega
  · have hweight := weight_le_ofList (cbWeights pending.cb).helper hhelper
    cases helper with
    | idle => simp [Helper.pendings] at hin
    | exited => simp [Helper.pendings] at hin
    | sending message =>
        obtain rfl : pending = message.pending := by simpa [Helper.pendings] using hin
        simp only [Weights.helper, Weights.opened, hself] at hweight
        simp only [State.held]
        omega
    | running job =>
        cases job with
        | close fd => simp [Helper.pendings, HelperJob.pendings] at hin
        | openFile path spec other =>
            obtain rfl : pending = other := by
              simpa [Helper.pendings, HelperJob.pendings] using hin
            simp only [Weights.helper, Weights.helperJob, hself] at hweight
            simp only [State.held]
            omega
  · have hweight := weight_le_ofList (cbWeights message.pending.cb).opened hmessage
    simp only [Weights.opened, hself] at hweight
    simp only [State.held]
    omega

/-- The op in hand has no second open out at the helpers. -/
theorem pending_ne {cb : Callback} (hcons : Consistent jobs fds (cb :: cbs) state)
    {pending : PendingOpen} (hmem : pending ∈ state.pendings) : pending.cb ≠ cb := by
  intro hsame
  have hheld := one_le_held_of_pending hmem
  have hle := hcons.count_callback_le cb
  rw [hsame] at hheld
  simp only [List.count_cons_self] at hle
  omega

/-! ### Owned descriptors -/

/-- A job that owns its descriptor gives it up together with its callback. -/
theorem release {job : Job} (hcons : Consistent (job :: jobs) fds cbs state)
    (hhandle : job.handle = none) :
    job.ownedFd = true ∧ Consistent jobs (job.fd :: fds) (job.cb :: cbs) state := by
  have hself : job.role ∈ state.roles (job :: jobs) := List.mem_cons_self
  have howned : job.ownedFd = true := by
    have hplaced := hcons.placed job.role hself
    simpa [Role.placedIn, Job.role, hhandle] using hplaced
  refine ⟨howned, { hcons with
    balance := ?_, opsCount := ?_, placed := ?_, roleIds := ?_ }⟩
  · intro w
    have hbalance := hcons.balance w
    simp only [State.roles_cons, ofList_cons, Weights.role, Job.role, howned, if_true] at hbalance ⊢
    omega
  · intro handle entry hlookup
    have hops := hcons.opsCount handle entry hlookup
    simpa [Job.role, hhandle] using hops
  · intro role hmem
    exact hcons.placed role (List.mem_cons_of_mem _ hmem)
  · intro role hmem
    exact hcons.roleIds role (List.mem_cons_of_mem _ hmem)

/-- The way back: a job takes over the descriptor and the callback in hand. -/
theorem adopt {job : Job}
    (hcons : Consistent jobs (job.fd :: fds) (job.cb :: cbs) state)
    (hhandle : job.handle = none) (howned : job.ownedFd = true) (hown : job.cb = job.id) :
    Consistent (job :: jobs) fds cbs state where
  balance w := by
    have hbalance := hcons.balance w
    simp only [State.roles_cons, ofList_cons, Weights.role, Job.role, howned, if_true] at hbalance ⊢
    omega
  fresh := hcons.fresh
  opsCount handle entry hlookup := by
    have hops := hcons.opsCount handle entry hlookup
    simpa [Job.role, hhandle] using hops
  closingBusy := hcons.closingBusy
  placed role hmem := by
    rcases List.mem_cons.mp hmem with rfl | htail
    · simpa [Role.placedIn, Job.role, hhandle] using howned
    · exact hcons.placed role htail
  roleIds role hmem := by
    rcases List.mem_cons.mp hmem with rfl | htail
    · exact hown
    · exact hcons.roleIds role htail
  trace := hcons.trace
  unique := hcons.unique
  ownCb := hcons.ownCb
  rxCb := hcons.rxCb
  pendingIds := hcons.pendingIds
  fildes := hcons.fildes

theorem sendClose {fd : Fd} (hcons : Consistent jobs (fd :: fds) cbs state) :
    Consistent jobs fds cbs
      { state with helperQueue := state.helperQueue ++ [.close fd] } := by
  refine hcons.move ?_ ?_ ?_ rfl rfl rfl rfl rfl
  · intro w
    simp only [State.held, ofList_append, ofList_cons, ofList_nil, Weights.helperJob]
    omega
  · exact fun _ hmem => hmem
  · intro pending hmem
    apply hcons.pendingIds
    simpa [State.pendings, HelperJob.pendings] using hmem

theorem closeOwned {fd : Fd} (hcons : Consistent jobs (fd :: fds) cbs state)
    (ans : Answers) : Consistent jobs fds cbs (state.closeOwned ans fd) := by
  unfold State.closeOwned
  split
  · exact hcons.closeRaw
  · split
    · exact hcons.sendClose
    · exact hcons.closeRaw

/-! ### Jobs on a handle -/

/-- The entry a job on a handle is counted in. -/
theorem entry_of_job {job : Job} (hcons : Consistent (job :: jobs) fds cbs state)
    {handle : Handle} (hhandle : job.handle = some handle) :
    job.ownedFd = false ∧ ∃ entry, state.files.lookup handle = some entry ∧
      entry.fd = job.fd ∧ entry.ops = 1 + rolesOn handle (state.roles jobs) := by
  have hself : job.role ∈ state.roles (job :: jobs) := List.mem_cons_self
  have hplaced := hcons.placed job.role hself
  simp only [Role.placedIn, Job.role, hhandle] at hplaced
  obtain ⟨howned, entry, hlookup, hfd⟩ := hplaced
  refine ⟨howned, entry, hlookup, hfd, ?_⟩
  have hops := hcons.opsCount handle entry hlookup
  simpa [Job.role, hhandle] using hops

/-- A new job on an open handle is counted in its entry. -/
theorem attach {job : Job} (hcons : Consistent jobs fds (job.cb :: cbs) state)
    {handle : Handle} {entry : FileEntry}
    (hlookup : state.files.lookup handle = some entry)
    (hopen : ¬entry.closing.isSome) (hfd : entry.fd = job.fd)
    (hhandle : job.handle = some handle) (howned : job.ownedFd = false)
    (hown : job.cb = job.id) :
    Consistent (job :: jobs) fds cbs
      { state with
        files := state.files.insert handle { entry with ops := entry.ops + 1 } } := by
  refine hcons.update { entry with ops := entry.ops + 1 } hlookup rfl ?_ ?_ ?_
    (fun hclosing => absurd hclosing hopen) ?_ rfl rfl
  · intro w
    change _ + ofList w.role (job.role :: state.roles jobs) + _ =
      _ + ofList w.role (state.roles jobs) + _
    simp only [ofList_cons, Weights.role, Job.role, howned, Bool.false_eq_true, if_false]
    omega
  · intro other hne
    change rolesOn other (job.role :: state.roles jobs) = _
    have hoff : job.role.handle ≠ some other := by
      rw [Job.role, hhandle]
      simpa using hne.symm
    rw [rolesOn_cons, if_neg hoff, Nat.zero_add]
  · change entry.ops + 1 = rolesOn handle (job.role :: state.roles jobs)
    have hon : job.role.handle = some handle := hhandle
    rw [rolesOn_cons, if_pos hon, hcons.opsCount handle entry hlookup, Nat.add_comm]
  · intro role hmem
    rcases List.mem_cons.mp hmem with rfl | htail
    · exact Or.inr ⟨hhandle, howned, hfd.symm, hown⟩
    · exact Or.inl htail

/-- The last job on a closing handle takes its entry along. -/
theorem dropLast {job : Job} (hcons : Consistent (job :: jobs) fds cbs state) {handle : Handle}
    {entry : FileEntry} {cb : Callback} (hhandle : job.handle = some handle)
    (hlookup : state.files.lookup handle = some entry) (hclosing : entry.closing = some cb)
    (hlast : ¬0 < entry.ops - 1) :
    rolesOn handle (state.roles jobs) = 0 ∧
      Consistent jobs (entry.fd :: fds) (job.cb :: cb :: cbs)
        { state with files := state.files.erase handle } := by
  obtain ⟨howned, found, hfound, -, hops⟩ := hcons.entry_of_job hhandle
  obtain rfl := Option.some.inj (hlookup.symm.trans hfound)
  have hnone : rolesOn handle (state.roles jobs) = 0 := by omega
  refine ⟨hnone, hcons.remove hlookup ?_ ?_ hnone
    (fun role hmem => List.mem_cons_of_mem _ hmem) rfl rfl⟩
  · intro w
    have hroles : ofList w.role (state.roles (job :: jobs)) =
        w.callback job.cb + ofList w.role (state.roles jobs) := by
      simp [Weights.role, Job.role, howned]
    simp only [ofList_cons, hclosing, Weights.closing, State.roles, State.liveJobs] at hroles ⊢
    omega
  · intro other hne
    change rolesOn other (state.roles jobs) = rolesOn other (state.roles (job :: jobs))
    simp [Job.role, hhandle, hne.symm]

theorem finish {job : Job} (hcons : Consistent (job :: jobs) fds cbs state)
    (ans : Answers) (result : Outcome) :
    Consistent jobs fds cbs (state.finish ans job result) := by
  unfold State.finish
  cases hhandle : job.handle with
  | none =>
      obtain ⟨howned, hrest⟩ := hcons.release hhandle
      rw [howned]
      exact (hrest.closeOwned ans).settle result
  | some handle =>
      obtain ⟨howned, entry, hlookup, hfd, hops⟩ := hcons.entry_of_job hhandle
      have hweight : ∀ w : Weights,
          ofList w.role (state.roles (job :: jobs)) =
            w.callback job.cb + ofList w.role (state.roles jobs) := by
        intro w
        simp [Weights.role, Job.role, howned]
      have hothers : ∀ other, other ≠ handle →
          rolesOn other (state.roles jobs) = rolesOn other (state.roles (job :: jobs)) := by
        intro other hne
        simp [Job.role, hhandle, hne.symm]
      have hstill : ∀ role ∈ state.roles jobs, role ∈ state.roles (job :: jobs) :=
        fun role hmem => List.mem_cons_of_mem _ hmem
      have hkept : (state.settle job.cb result).files.lookup handle = some entry := hlookup
      simp only [howned, Bool.false_eq_true, if_false, hkept]
      -- the entry loses one job either way; only the last one runs a close
      have hless : ∀ closing, entry.closing = closing →
          (closing.isSome → 0 < entry.ops - 1) →
          Consistent jobs fds (job.cb :: cbs)
            { state with
              files := state.files.insert handle ⟨entry.fd, entry.ops - 1, closing⟩ } := by
        intro closing hclosing hbusy
        refine hcons.update ⟨entry.fd, entry.ops - 1, closing⟩ hlookup rfl ?_ hothers ?_ hbusy
          (fun role hmem => Or.inl (hstill role hmem)) rfl rfl
        · intro w
          have hroles := hweight w
          simp only [ofList_cons, hclosing, State.roles, State.liveJobs] at hroles ⊢
          omega
        · change entry.ops - 1 = rolesOn handle (state.roles jobs)
          omega
      cases hclosing : entry.closing with
      | none => exact (hless none hclosing (by simp)).settle result
      | some cb =>
          by_cases hlast : 0 < entry.ops - 1
          · simp only [hlast, if_true]
            exact (hless (some cb) hclosing fun _ => hlast).settle result
          · simp only [hlast, if_false]
            have hremoved := (hcons.dropLast hhandle hlookup hclosing hlast).2
            exact ((hremoved.settle result).closeRaw).settle _

/-! ### Putting jobs on the queue -/

theorem pushQueue {job : Job} (hcons : Consistent (job :: jobs) fds cbs state)
    (htask : state.task.jobs = []) :
    Consistent jobs fds cbs
      { state with queue := state.queue ++ [job], task := .submitReady } := by
  refine hcons.frame ?_ (fun _ hmem => Or.inl hmem) rfl
  apply List.Perm.map
  have hold : state.liveJobs = state.queue ++ state.inflight.map (·.job) := by
    rw [State.liveJobs, htask, List.nil_append]
  rw [hold]
  simp only [State.liveJobs, Task.jobs_submitReady, List.nil_append, List.append_assoc,
    List.cons_append]
  rw [← List.append_assoc, ← List.append_assoc]
  exact List.perm_middle

theorem pushFront {job : Job} (hcons : Consistent (job :: jobs) fds cbs state)
    {task : Task} (htask : state.task.jobs = []) (hnone : task.jobs = []) :
    Consistent jobs fds cbs
      { state with queue := job :: state.queue, task := task } := by
  refine hcons.frame ?_ (fun _ hmem => Or.inl hmem) rfl
  apply List.Perm.map
  simp only [State.liveJobs, htask, hnone, List.nil_append, List.cons_append]
  exact List.perm_middle

theorem enqueueOwned {id : OpId} {kind : JobKind} {cb : Callback}
    (hcons : Consistent jobs ((Job.mk id false kind cb).fd :: fds) (cb :: cbs) state)
    (hhandle : (Job.mk id false kind cb).handle = none)
    (howned : (Job.mk id false kind cb).ownedFd = true) (hown : cb = id)
    (htask : state.task.jobs = []) :
    Consistent jobs fds cbs (state.enqueue id kind none cb) :=
  (hcons.adopt hhandle howned hown).pushQueue htask

theorem enqueueOn {id : OpId} {kind : JobKind} {cb : Callback} {handle : Handle}
    (hcons : Consistent jobs fds (cb :: cbs) state)
    (hfd : state.withFd handle = .ok (Job.mk id false kind cb).fd)
    (hhandle : (Job.mk id false kind cb).handle = some handle)
    (howned : (Job.mk id false kind cb).ownedFd = false) (hown : cb = id)
    (htask : state.task.jobs = []) :
    Consistent jobs fds cbs (state.enqueue id kind (some handle) cb) := by
  unfold State.withFd at hfd
  cases hlookup : state.files.lookup handle with
  | none => simp [hlookup] at hfd
  | some entry =>
      simp only [hlookup] at hfd
      split at hfd
      · cases hfd
      · next hopen =>
          have hentry : entry.fd = (Job.mk id false kind cb).fd := by simpa using hfd
          simp only [State.enqueue, hlookup]
          exact (hcons.attach hlookup hopen hentry hhandle howned hown).pushQueue htask

/-! ### Opening -/

theorem openRaw (hcons : Consistent jobs fds cbs state) {ans : Answers}
    (hfresh : ans.fresh state) (path : Path) (spec : OpenSpec) :
    Consistent jobs
      (openedFds ((state.openRaw ans path spec).1.map fun fd => (fd, 0)) ++ fds) cbs
      (state.openRaw ans path spec).2 := by
  unfold State.openRaw
  split
  · exact hcons
  · split
    · exact hcons
    · split
      · exact hcons
      · next fd hopen =>
          have hnew : fd ∉ openFds state.log := by
            simpa [Answers.fresh, hopen] using hfresh
          exact hcons.gainFd path _ hnew

theorem openSized (hcons : Consistent jobs fds cbs state) {ans : Answers}
    (hfresh : ans.fresh state) (op : OpId) (path : Path) (spec : OpenSpec) :
    Consistent jobs (openedFds (state.openSized ans op path spec).1 ++ fds) cbs
      (state.openSized ans op path spec).2 := by
  have hraw := hcons.openRaw hfresh path spec
  unfold State.openSized
  split
  · next error next hopen =>
      rw [hopen] at hraw
      exact hraw
  · next fd next hopen =>
      rw [hopen] at hraw
      have hissued := hraw.issue op .fstat (hraw.mem_openFds_of_hand List.mem_cons_self)
      simp only
      split
      · exact hissued
      · exact hissued.closeRaw

theorem openFor (hcons : Consistent jobs fds cbs state) {ans : Answers}
    (hfresh : ans.fresh state) (path : Path) (spec : OpenSpec) (pending : PendingOpen) :
    Consistent jobs (openedFds (state.openFor ans path spec pending).1 ++ fds) cbs
      (state.openFor ans path spec pending).2 := by
  have hraw := hcons.openRaw hfresh path spec
  unfold State.openFor
  split
  · split
    · next error next hopen =>
        rw [hopen] at hraw
        exact hraw
    · next fd next hopen =>
        rw [hopen] at hraw
        exact hraw
  · exact hcons.openSized hfresh _ path spec
  · exact hcons.openSized hfresh _ path spec

theorem opened {pending : PendingOpen} {result : Except IoError (Fd × ℕ)}
    (hcons : Consistent jobs (openedFds result ++ fds) (pending.cb :: cbs) state)
    (hown : pending.cb = pending.id) (htask : state.task.jobs = []) (ans : Answers) :
    Consistent jobs fds cbs (state.opened ans pending result) := by
  unfold State.opened
  split
  · exact hcons.settle _
  · next fd size =>
      split
      · exact (hcons.register size).settle _
      · split
        · exact (hcons.register size).settle _
        · exact hcons.enqueueOwned rfl rfl hown htask
      · exact hcons.enqueueOwned rfl rfl hown htask

theorem openHere (pending : PendingOpen) {ans : Answers}
    (hcons : Consistent jobs fds (pending.cb :: cbs) state)
    (hown : pending.cb = pending.id) (hfresh : ans.fresh state) (htask : state.task.jobs = [])
    (path : Path) (spec : OpenSpec) :
    Consistent jobs fds cbs
      ((state.openFor ans path spec pending).2.opened ans pending
        (state.openFor ans path spec pending).1) := by
  have hkept : (state.openFor ans path spec pending).2.task.jobs = [] := by
    rw [openFor_snd]
    exact htask
  exact (hcons.openFor hfresh path spec pending).opened hown hkept ans

theorem openThen {id : OpId} {cb : Callback} {ans : Answers}
    (hcons : Consistent jobs fds (cb :: cbs) state) (hown : cb = id)
    (hfresh : ans.fresh state) (htask : state.task.jobs = []) (path : Path)
    (spec : OpenSpec) (after : AfterOpen) :
    Consistent jobs fds cbs (state.openThen ans id path spec after cb) := by
  unfold State.openThen
  simp only
  split
  · exact hcons.openHere ⟨id, after, cb⟩ hown hfresh htask path spec
  · split
    · refine hcons.move ?_ ?_ ?_ rfl rfl rfl rfl rfl
      · intro w
        simp only [State.held, ofList_append, ofList_cons, ofList_nil, Weights.helperJob]
        omega
      · exact fun _ hmem => hmem
      · intro pending hmem
        have hsplit : pending = ⟨id, after, cb⟩ ∨ pending ∈ state.pendings := by
          simp only [State.pendings, List.flatMap_append, List.mem_append,
            List.flatMap_singleton, HelperJob.pendings, List.mem_singleton] at hmem ⊢
          tauto
        rcases hsplit with rfl | hold
        · exact ⟨hown, Finset.mem_insert_self _ _⟩
        · have hids := hcons.pendingIds pending hold
          exact ⟨hids.1, Finset.mem_insert_of_mem hids.2⟩
    · have hretry : Consistent jobs fds (cb :: cbs)
          { state with pendingOpens := (insert id state.pendingOpens).erase id } := by
        refine hcons.move ?_ ?_ ?_ rfl rfl rfl rfl rfl
        · exact fun _ => rfl
        · exact fun _ hmem => hmem
        · intro pending hmem
          have hids := hcons.pendingIds pending hmem
          have hne := hcons.pending_ne hmem
          rw [hids.1, hown] at hne
          exact ⟨hids.1,
            Finset.mem_erase.mpr ⟨hne, Finset.mem_insert_of_mem hids.2⟩⟩
      exact hretry.openHere ⟨id, after, cb⟩ hown hfresh htask path spec

theorem close {cb : Callback} (hcons : Consistent jobs fds (cb :: cbs) state)
    (ans : Answers) (handle : Handle) :
    Consistent jobs fds cbs (state.close ans handle cb) := by
  unfold State.close
  split
  · exact hcons.settle _
  · next entry hlookup =>
      split
      · exact hcons.settle _
      · next hopen =>
          have hclosing : entry.closing = none := by simpa using hopen
          split
          · next hbusy =>
              refine hcons.update { entry with closing := some cb } hlookup rfl ?_
                (fun _ _ => rfl) (hcons.opsCount handle entry hlookup) (fun _ => hbusy)
                (fun _ hmem => Or.inl hmem) rfl rfl
              intro w
              change w.callback cb + ofList w.role (state.roles jobs) + _ =
                w.closing entry.closing + ofList w.role (state.roles jobs) + _
              rw [hclosing]
              simp only [Weights.closing, ofList_cons]
              omega
          · next hidle =>
              have hremoved : Consistent jobs (entry.fd :: fds) (cb :: cbs)
                  { state with files := state.files.erase handle } := by
                refine hcons.remove hlookup ?_ (fun _ _ => rfl) ?_ (fun _ hmem => hmem)
                  rfl rfl
                · intro w
                  change ofList w.role (state.roles jobs) + _ = _
                  rw [hclosing, Weights.closing, Nat.zero_add]
                · change rolesOn handle (state.roles jobs) = 0
                  have hops := hcons.opsCount handle entry hlookup
                  omega
              exact (hremoved.closeRaw).settle _

/-! ### Chunks -/

/-- Accounting for a chunk asks at most `fstat`, on the job's own descriptor. -/
theorem askStep {job : Job} (hcons : Consistent jobs fds cbs state)
    (hmem : job.role ∈ state.roles jobs) (ans : Answers) (transferred : Transferred) :
    Consistent jobs fds cbs (state.stepJob ans transferred job).2.2 := by
  rcases stepJob_state state ans transferred job with hsame | hstat
  · rwa [hsame]
  · rw [hstat]
    exact hcons.issue _ _ (hcons.mem_openFds_of_role hmem)

theorem stepJob {job : Job} (hcons : Consistent (job :: jobs) fds cbs state)
    (ans : Answers) (transferred : Transferred) :
    Consistent ((state.stepJob ans transferred job).1 :: jobs) fds cbs
      (state.stepJob ans transferred job).2.2 := by
  refine (hcons.askStep List.mem_cons_self ans transferred).frame ?_
    (fun _ hmem => Or.inl hmem) rfl
  rw [State.roles_cons, stepJob_role, State.roles_cons]

theorem advance {job : Job} (hcons : Consistent (job :: jobs) fds cbs state)
    (htask : state.task.jobs = []) (ans : Answers) (transferred : Transferred) :
    Consistent jobs fds cbs (state.advance ans transferred job) := by
  have hstep := hcons.stepJob ans transferred
  have hkept := stepJob_task state ans transferred job
  unfold State.advance
  split
  · next job' reply next heq =>
      rw [heq] at hstep
      exact hstep.finish ans reply
  · next job' next heq =>
      rw [heq] at hstep hkept
      split
      · exact hstep.finish ans _
      · exact hstep.pushFront (hkept ▸ htask) rfl

theorem submitReady (hcons : Consistent jobs fds cbs state)
    (htask : state.task.jobs = []) (ans : Answers) :
    Consistent jobs fds cbs (state.submitReady ans) := by
  have hidle : Consistent jobs fds cbs { state with task := .none } := by
    refine hcons.frame ?_ (fun _ hmem => Or.inl hmem) rfl
    simp only [State.roles, State.liveJobs, htask, Task.jobs_none]
    exact List.Perm.refl _
  unfold State.submitReady
  split
  · split
    · exact hidle
    · next job queue hqueue =>
        have htaken : Consistent (job :: jobs) fds cbs { state with queue := queue } := by
          refine hcons.frame ?_ (fun _ hmem => Or.inl hmem) rfl
          apply List.Perm.map
          simp only [State.liveJobs, htask, hqueue, List.nil_append, List.cons_append]
          exact List.perm_middle.symm
        have hissued : Consistent (job :: jobs) fds cbs
            (({ state with queue := queue }).issue job.id job.fd (prepare job).2) :=
          htaken.issue _ _
            (htaken.mem_openFds_of_role (List.mem_cons_self : job.role ∈ _))
        simp only
        split
        · refine hissued.frame ?_ ?_ rfl
          · apply List.Perm.map
            simp only [State.liveJobs, State.issue, State.emit, List.map_append,
              List.map_cons, List.map_nil, ← List.append_assoc]
            exact List.perm_append_singleton _ _
          · intro entry hmem
            rcases List.mem_append.mp hmem with hold | hnew
            · exact Or.inl hold
            · obtain rfl := List.mem_singleton.mp hnew
              exact Or.inr (prepare_fildes job)
        · split
          · refine hissued.frame ?_ (fun _ hmem => Or.inl hmem) rfl
            apply List.Perm.map
            simp only [State.liveJobs, State.issue, State.emit, htask,
              Task.jobs_executeSync, List.nil_append, List.cons_append]
            exact List.perm_middle
          · exact hissued.pushFront htask rfl
        · exact hissued.finish ans _
  · exact hidle

/-- The job `execute_sync` runs comes into hand when the task changes. -/
theorem takeTask {job job' : Job} (hcons : Consistent jobs fds cbs state)
    (htask : state.task = .executeSync job) (hrole : job'.role = job.role) :
    Consistent (job' :: jobs) fds cbs { state with task := .submitReady } := by
  refine hcons.frame ?_ (fun _ hmem => Or.inl hmem) rfl
  rw [State.roles_cons, hrole]
  simp only [State.roles, State.liveJobs, htask, Task.jobs_submitReady,
    Task.jobs_executeSync, List.nil_append, List.map_append,
    List.cons_append, List.map_cons]
  exact List.perm_middle.symm

theorem executeSync {job : Job} (hcons : Consistent jobs fds cbs state)
    (htask : state.task = .executeSync job) (ans : Answers) :
    Consistent jobs fds cbs (state.executeSync ans job) := by
  have hmem : job.role ∈ state.roles jobs := by
    simp [State.roles, State.liveJobs, htask]
  have hissued : Consistent jobs fds cbs (state.issue job.id job.fd (syncCall job)) :=
    hcons.issue _ _ (hcons.mem_openFds_of_role hmem)
  unfold State.executeSync
  simp only
  split
  · exact (hissued.takeTask htask rfl).finish ans _
  · next transferred _ =>
      have hasked := hissued.askStep hmem ans transferred
      have hrole := stepJob_role (state.issue job.id job.fd (syncCall job)) ans transferred job
      have hkept := stepJob_task (state.issue job.id job.fd (syncCall job)) ans transferred job
      split
      · next heq =>
          rw [heq] at hasked hrole hkept
          exact (hasked.takeTask (hkept.trans htask) hrole).finish ans _
      · next job' next heq =>
          rw [heq] at hasked hrole hkept
          have hsame : next.task = .executeSync job := hkept.trans htask
          refine hasked.frame ?_ (fun _ hmem => Or.inl hmem) rfl
          simp only [State.roles, State.liveJobs, hsame, Task.jobs_executeSync,
            List.map_append, List.map_cons, hrole]
          exact List.Perm.refl _

/-! ### Messages -/

theorem cancel (hcons : Consistent jobs fds cbs state) (ans : Answers) (id : OpId) :
    Consistent jobs fds cbs (state.cancel ans id) := by
  unfold State.cancel
  split
  · next job hfind =>
      have htaken : Consistent (job :: jobs) fds cbs
          { state with queue := state.queue.eraseP fun job => job.id = id } := by
        refine hcons.frame ?_ (fun _ hmem => Or.inl hmem) rfl
        apply List.Perm.map
        have hperm := perm_eraseP_of_find? hfind
        simp only [State.liveJobs]
        calc
          (job :: jobs ++ (state.task.jobs ++ (state.queue.eraseP fun job => job.id = id) ++
              state.inflight.map (·.job))).Perm
              (jobs ++ (state.task.jobs ++
                (job :: state.queue.eraseP fun job => job.id = id) ++
                state.inflight.map (·.job))) := by
            simp only [List.append_assoc, List.cons_append]
            rw [← List.append_assoc, ← List.append_assoc jobs]
            exact List.perm_middle.symm
          List.Perm _ (jobs ++ (state.task.jobs ++ state.queue ++
                state.inflight.map (·.job))) :=
            (((hperm.symm.append_left _).append_right _).append_left _)
      exact htaken.finish ans _
  · split
    · split
      · refine hcons.frame ?_ (fun _ hmem => Or.inl hmem) rfl
        exact List.Perm.refl _
      · exact hcons
    · next index hindex =>
        have hbound := (List.findIdx?_eq_some_iff_getElem.mp hindex).1
        have hroles := map_modify_of_eq (fun entry : Inflight => entry.job.role)
          (fun entry => { entry with job := { entry.job with cancelled := true } })
          (fun _ => rfl) state.inflight index
        have hfildes := map_modify_of_eq
          (fun entry : Inflight => (entry.aiocb.fildes, entry.job.fd))
          (fun entry => { entry with job := { entry.job with cancelled := true } })
          (fun _ => rfl) state.inflight index
        have hflagged : Consistent jobs fds cbs
            { state with
              inflight := state.inflight.modify index fun entry =>
                { entry with job := { entry.job with cancelled := true } } } := by
          refine hcons.frame ?_ ?_ rfl
          · simp only [State.roles, State.liveJobs, List.map_append, List.map_map,
              Function.comp_def, hroles]
            exact List.Perm.refl _
          · intro entry hmem
            have himage := List.mem_map_of_mem
              (f := fun entry : Inflight => (entry.aiocb.fildes, entry.job.fd)) hmem
            rw [hfildes, List.mem_map] at himage
            obtain ⟨old, hold, hsame⟩ := himage
            rw [Prod.mk.injEq] at hsame
            exact Or.inr (hsame.1.symm.trans ((hcons.fildes old hold).trans hsame.2))
        apply hflagged.issue
        have hget : state.inflight[index]? = some state.inflight[index] :=
          List.getElem?_eq_getElem hbound
        have hentry : state.inflight[index] ∈ state.inflight := List.getElem_mem hbound
        have hrole : state.inflight[index].job.role ∈ state.roles jobs :=
          List.mem_map_of_mem (List.mem_append_right _
            (List.mem_append_right _ (List.mem_map_of_mem hentry)))
        rw [hget, Option.map_some, Option.getD_some, hcons.fildes _ hentry]
        exact hcons.mem_openFds_of_role hrole

theorem handleOp {id : OpId} {cb : Callback} {ans : Answers}
    (hcons : Consistent jobs fds (cb :: cbs) state) (hown : cb = id)
    (hfresh : ans.fresh state) (htask : state.task.jobs = []) (op : Op) :
    Consistent jobs fds cbs (state.handleOp ans id op cb) := by
  cases op with
  | nop => exact hcons.settle _
  | openFile path spec => exact hcons.openThen hown hfresh htask path spec _
  | close handle => exact hcons.close ans handle
  | readFile path inlineMax => exact hcons.openThen hown hfresh htask path _ _
  | writeFile path data => exact hcons.openThen hown hfresh htask path _ _
  | size handle =>
      simp only [State.handleOp]
      split
      · exact hcons.settle _
      · next hfd => exact (hcons.issue _ _ (hcons.mem_openFds_of_withFd hfd)).settle _
  | setLen handle size =>
      simp only [State.handleOp]
      split
      · exact hcons.settle _
      · next hfd => exact (hcons.issue _ _ (hcons.mem_openFds_of_withFd hfd)).settle _
  | sync handle dataOnly =>
      simp only [State.handleOp]
      split
      · exact hcons.settle _
      · next hfd => exact hcons.enqueueOn hfd rfl rfl hown htask
  | readAt handle pos dest =>
      simp only [State.handleOp]
      split
      · exact hcons.settle _
      · next hfd =>
          split
          · exact hcons.settle _
          · exact hcons.settle _
          · exact hcons.enqueueOn hfd rfl rfl hown htask
          · exact hcons.enqueueOn hfd rfl rfl hown htask
  | readToEnd handle pos =>
      simp only [State.handleOp]
      split
      · exact hcons.settle _
      · next hfd =>
          exact (hcons.issue _ _ (hcons.mem_openFds_of_withFd hfd)).enqueueOn hfd rfl rfl
            hown htask
  | writeAt handle pos data append =>
      simp only [State.handleOp]
      split
      · exact hcons.settle _
      · next hfd =>
          split
          · split
            · exact (hcons.issue _ _ (hcons.mem_openFds_of_withFd hfd)).settle _
            · exact hcons.settle _
          · exact hcons.enqueueOn hfd rfl rfl hown htask

theorem beginMsg (hcons : Consistent jobs fds cbs state) (msg : Msg) :
    Consistent jobs fds cbs (({ state with progress := true }).emit (.handled msg)) := by
  have hnoted : Consistent jobs fds cbs { state with progress := true } :=
    hcons.frame (List.Perm.refl _) (fun _ hmem => Or.inl hmem) rfl
  exact hnoted.handled msg

/-- A message leaves the channel and its callback is in hand. -/
theorem receiveMsg (hcons : Consistent jobs fds cbs state) {ans : Answers}
    (hfresh : ans.fresh state) (htask : state.task.jobs = []) {msg : Msg} {rx : List Msg}
    (hrx : state.rx = msg :: rx) :
    Consistent jobs fds cbs (({ state with rx := rx }).handleMsg ans msg) := by
  cases msg with
  | cancel id =>
      have htaken : Consistent jobs fds cbs { state with rx := rx } := by
        refine hcons.move ?_ ?_ hcons.pendingIds rfl rfl rfl rfl rfl
        · intro w
          simp only [State.held, hrx, ofList_cons, Weights.msg]
          omega
        · exact fun msg hmem => hrx ▸ List.mem_cons_of_mem _ hmem
      exact (htaken.beginMsg (.cancel id)).cancel ans id
  | submit id op cb =>
      have hown : cb = id := hcons.rxCb id op cb (hrx ▸ List.mem_cons_self)
      have htaken : Consistent jobs fds (cb :: cbs) { state with rx := rx } := by
        refine hcons.move ?_ ?_ hcons.pendingIds rfl rfl rfl rfl rfl
        · intro w
          simp only [State.held, hrx, ofList_cons, Weights.msg]
          omega
        · exact fun msg hmem => hrx ▸ List.mem_cons_of_mem _ hmem
      exact (htaken.beginMsg (.submit id op cb)).handleOp hown hfresh htask op

/-- The descriptor of an open nobody wants any more is closed. -/
theorem closeOpened {result : Except IoError (Fd × ℕ)}
    (hcons : Consistent jobs (openedFds result ++ fds) cbs state) :
    Consistent jobs fds cbs (state.closeOpened result) := by
  cases result with
  | ok opened => exact hcons.closeRaw
  | error error => exact hcons

theorem receiveOpened (hcons : Consistent jobs fds cbs state) (ans : Answers)
    (htask : state.task.jobs = []) {message : Opened} {back : List Opened}
    (hback : state.back = message :: back) :
    Consistent jobs fds cbs (({ state with back := back }).handleOpened ans message) := by
  have hlisted : message.pending ∈ state.pendings := by
    simp [State.pendings, hback]
  have hown := hcons.pendingIds _ hlisted
  have hstill : ∀ pending ∈ ({ state with back := back } : State).pendings,
      pending ∈ state.pendings := by
    intro pending hmem
    simp only [State.pendings, hback, List.map_cons, List.mem_append, List.mem_cons] at hmem ⊢
    tauto
  have htaken : Consistent jobs (openedFds message.result ++ fds)
      (message.pending.cb :: cbs) { state with back := back } := by
    refine hcons.move ?_ (fun _ hmem => hmem)
      (fun pending hmem => hcons.pendingIds pending (hstill pending hmem)) rfl rfl rfl rfl rfl
    intro w
    simp only [State.held, hback, ofList_cons, ofList_append, Weights.opened, w.result_eq]
    omega
  have herased : Consistent jobs (openedFds message.result ++ fds)
      (message.pending.cb :: cbs)
      { state with
        back := back
        progress := true
        pendingOpens := state.pendingOpens.erase message.pending.id } := by
    refine htaken.move (fun _ => rfl) (fun _ hmem => hmem) ?_ rfl rfl rfl rfl rfl
    intro pending hmem
    have hids := hcons.pendingIds pending (hstill pending hmem)
    have hne := htaken.pending_ne hmem
    rw [hids.1, hown.1] at hne
    exact ⟨hids.1, Finset.mem_erase.mpr ⟨hne, hids.2⟩⟩
  simp only [State.handleOpened]
  split
  · have hforgot : Consistent jobs (openedFds message.result ++ fds)
        (message.pending.cb :: cbs)
        { state with
          back := back
          progress := true
          pendingOpens := state.pendingOpens.erase message.pending.id
          cancelledOpens := state.cancelledOpens.erase message.pending.id } :=
      herased.frame (List.Perm.refl _) (fun _ hmem => Or.inl hmem) rfl
    exact hforgot.closeOpened.settle _
  · exact herased.opened hown.1 htask ans

end Consistent

end Turbofile.Darwin
