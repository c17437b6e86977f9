import Turbofile.Darwin.Step

/-!
# The driver's ledger

Callbacks and descriptors are never copied or dropped by the driver: each one
that came in is held in one container, is in the hands of the call now
running, or has been spent (a callback by its invocation, a descriptor by its
close).  `Consistent` states this for both at once, by weighing the containers
with arbitrary weights, together with the table facts that keep it going.  The
lists in front are what the running call holds in local variables.
-/

namespace Turbofile.Darwin

open Turbofile.Core
open Turbofile.Tally
open State

/-! ## Weights -/

/-- What the driver must remember of a job to settle it. -/
structure Role where
  id : OpId
  cb : Callback
  handle : Option Handle
  ownedFd : Bool
  fd : Fd

def Job.role (job : Job) : Role :=
  ⟨job.id, job.cb, job.handle, job.ownedFd, job.fd⟩

structure Weights where
  callback : Callback → ℕ
  fd : Fd → ℕ

namespace Weights

variable (w : Weights)

def msg : Msg → ℕ
  | .submit _ _ cb => w.callback cb
  | .cancel _ => 0

def helperJob : HelperJob → ℕ
  | .openFile _ _ pending => w.callback pending.cb
  | .close fd => w.fd fd

def result : Except IoError (Fd × ℕ) → ℕ
  | .ok (fd, _) => w.fd fd
  | .error _ => 0

def opened (message : Opened) : ℕ :=
  w.callback message.pending.cb + w.result message.result

def helper : Helper → ℕ
  | .running job => w.helperJob job
  | .sending message => w.opened message
  | .idle | .exited => 0

def role (role : Role) : ℕ :=
  w.callback role.cb + if role.ownedFd then w.fd role.fd else 0

def closing : Option Callback → ℕ
  | some cb => w.callback cb
  | none => 0

def entry (entry : FileEntry) : ℕ :=
  w.fd entry.fd + w.closing entry.closing

/-- What an event brings in: an accepted op or a fresh descriptor. -/
def entered : Event → ℕ
  | .sent (.submit _ _ cb) => w.callback cb
  | .opened fd _ _ => w.fd fd
  | _ => 0

/-- What an event uses up. -/
def spent : Event → ℕ
  | .settled cb _ => w.callback cb
  | .closed fd _ => w.fd fd
  | _ => 0

end Weights

/-- Everything held outside the jobs. -/
def State.held (state : State) (w : Weights) : ℕ :=
  ofList w.msg state.rx + ofList w.helperJob state.helperQueue +
    ofList w.helper state.helpers + ofList w.opened state.back +
    Table.tally (fun _ => w.entry) state.files

/-! ## Opens out at the helpers -/

def HelperJob.pendings : HelperJob → List PendingOpen
  | .openFile _ _ pending => [pending]
  | .close _ => []

def Helper.pendings : Helper → List PendingOpen
  | .running job => job.pendings
  | .sending message => [message.pending]
  | .idle | .exited => []

def State.pendings (state : State) : List PendingOpen :=
  state.helperQueue.flatMap HelperJob.pendings ++
    state.helpers.flatMap Helper.pendings ++ state.back.map (·.pending)

/-! ## The log read as a descriptor history -/

/-- Every open returns a closed number, every close and every syscall is on an
open one, and no live job carries a descriptor when it is closed. -/
def SafeTrace : List Event → Prop
  | [] => True
  | .opened fd _ _ :: log => fd ∉ openFds log ∧ SafeTrace log
  | .closed fd carriers :: log => fd ∈ openFds log ∧ carriers = [] ∧ SafeTrace log
  | .syscall _ fd _ :: log => fd ∈ openFds log ∧ SafeTrace log
  | _ :: log => SafeTrace log

/-- Weights that count one descriptor number. -/
def fdWeights (fd : Fd) : Weights where
  callback _ := 0
  fd other := if other = fd then 1 else 0

/-- Weights that count one callback. -/
def cbWeights (cb : Callback) : Weights where
  callback other := if other = cb then 1 else 0
  fd _ := 0

theorem SafeTrace.count_openFds {log : List Event} (hsafe : SafeTrace log) (fd : Fd) :
    (openFds log).count fd + ofList (fdWeights fd).spent log =
      ofList (fdWeights fd).entered log := by
  induction log with
  | nil => rfl
  | cons event log ih =>
      cases event with
      | opened other path flags =>
          have htail := ih hsafe.2
          by_cases hsame : other = fd
          · subst hsame
            simp [openFds, Weights.spent, Weights.entered, fdWeights]
            simp [fdWeights] at htail
            omega
          · simpa [openFds, Weights.spent, Weights.entered, fdWeights, hsame]
              using htail
      | closed other carriers =>
          have htail := ih hsafe.2.2
          by_cases hsame : other = fd
          · subst hsame
            have hpos : 0 < (openFds log).count other :=
              List.count_pos_iff.mpr hsafe.1
            simp [openFds, Weights.spent, Weights.entered, fdWeights]
            simp [fdWeights] at htail
            omega
          · have herase : ((openFds log).erase other).count fd = (openFds log).count fd :=
              List.count_erase_of_ne (Ne.symm hsame)
            simpa [openFds, Weights.spent, Weights.entered, fdWeights, hsame, herase]
              using htail
      | syscall op other call =>
          simpa [openFds, Weights.spent, Weights.entered] using ih hsafe.2
      | sent msg =>
          cases msg <;>
            simpa [openFds, Weights.spent, Weights.entered, fdWeights] using ih hsafe
      | handled msg =>
          simpa [openFds, Weights.spent, Weights.entered] using ih hsafe
      | registered handle other =>
          simpa [openFds, Weights.spent, Weights.entered] using ih hsafe
      | settled cb result =>
          simpa [openFds, Weights.spent, Weights.entered, fdWeights] using ih hsafe

theorem SafeTrace.nodup_openFds {log : List Event} (hsafe : SafeTrace log) :
    (openFds log).Nodup := by
  induction log with
  | nil => exact List.nodup_nil
  | cons event log ih =>
      cases event with
      | opened fd path flags => exact List.nodup_cons.mpr ⟨hsafe.1, ih hsafe.2⟩
      | closed fd carriers => exact (ih hsafe.2.2).erase fd
      | syscall op fd call => exact ih hsafe.2
      | sent msg => exact ih hsafe
      | handled msg => exact ih hsafe
      | registered handle fd => exact ih hsafe
      | settled cb result => exact ih hsafe

theorem count_submittedIds (cb : Callback) (log : List Event)
    (hsame : ∀ id op other, Event.sent (.submit id op other) ∈ log → other = id) :
    ofList (cbWeights cb).entered log = (submittedIds log).count cb := by
  induction log with
  | nil => rfl
  | cons event log ih =>
      have htail := ih fun id op other hmem => hsame id op other (List.mem_cons_of_mem _ hmem)
      cases event with
      | sent msg =>
          cases msg with
          | submit id op other =>
              obtain rfl := hsame id op other List.mem_cons_self
              simp only [ofList_cons, Weights.entered, cbWeights, submittedIds,
                List.count_cons, beq_iff_eq] at htail ⊢
              omega
          | cancel id => simpa [Weights.entered, submittedIds] using htail
      | opened fd path flags =>
          simpa [Weights.entered, submittedIds, cbWeights] using htail
      | closed fd carriers => simpa [Weights.entered, submittedIds] using htail
      | syscall op fd call => simpa [Weights.entered, submittedIds] using htail
      | handled msg => simpa [Weights.entered, submittedIds] using htail
      | registered handle fd => simpa [Weights.entered, submittedIds] using htail
      | settled cb result => simpa [Weights.entered, submittedIds] using htail

/-! ## The invariant -/

/-- The descriptor a role uses: its own, or that of a registered handle. -/
def Role.placedIn (files : Table Handle FileEntry) (role : Role) : Prop :=
  match role.handle with
  | none => role.ownedFd = true
  | some handle =>
      role.ownedFd = false ∧
        ∃ entry, files.lookup handle = some entry ∧ entry.fd = role.fd

def rolesOn (handle : Handle) (roles : List Role) : ℕ :=
  ofList (fun role => if role.handle = some handle then 1 else 0) roles

/-- The roles of the jobs in hand and of those in the driver's containers. -/
def State.roles (state : State) (jobs : List Job) : List Role :=
  (jobs ++ state.liveJobs).map Job.role

@[simp]
theorem State.roles_cons (state : State) (job : Job) (jobs : List Job) :
    state.roles (job :: jobs) = job.role :: state.roles jobs := rfl

@[simp]
theorem rolesOn_cons (handle : Handle) (role : Role) (roles : List Role) :
    rolesOn handle (role :: roles) =
      (if role.handle = some handle then 1 else 0) + rolesOn handle roles :=
  ofList_cons ..

/-- The channels and tables: all that the ledger counts but the jobs. -/
structure Containers where
  rx : List Msg
  helperQueue : List HelperJob
  helpers : List Helper
  back : List Opened
  pendingOpens : Finset OpId
  files : Table Handle FileEntry
  nextId : Handle
  log : List Event

def State.containers (state : State) : Containers :=
  ⟨state.rx, state.helperQueue, state.helpers, state.back, state.pendingOpens, state.files,
    state.nextId, state.log⟩

/-- Every submission is paid for by what the state, the running call's local
variables and the log hold, and the tables agree with the jobs. -/
structure Consistent (jobs : List Job) (fds : List Fd) (cbs : List Callback)
    (state : State) : Prop where
  balance : ∀ w : Weights,
    ofList w.entered state.log =
      state.held w + ofList w.role (state.roles jobs) +
        ofList w.spent state.log + ofList w.fd fds + ofList w.callback cbs
  fresh : ∀ handle entry, state.files.lookup handle = some entry →
    handle < state.nextId
  opsCount : ∀ handle entry, state.files.lookup handle = some entry →
    entry.ops = rolesOn handle (state.roles jobs)
  closingBusy : ∀ handle entry, state.files.lookup handle = some entry →
    entry.closing.isSome → 0 < entry.ops
  placed : ∀ role ∈ state.roles jobs, role.placedIn state.files
  roleIds : ∀ role ∈ state.roles jobs, role.cb = role.id
  trace : SafeTrace state.log
  unique : (submittedIds state.log).Nodup
  ownCb : ∀ id op cb, Event.sent (.submit id op cb) ∈ state.log → cb = id
  rxCb : ∀ id op cb, Msg.submit id op cb ∈ state.rx → cb = id
  pendingIds : ∀ pending ∈ state.pendings,
    pending.cb = pending.id ∧ pending.id ∈ state.pendingOpens
  fildes : ∀ entry ∈ state.inflight, entry.aiocb.fildes = entry.job.fd

namespace Consistent

variable {jobs : List Job} {fds : List Fd} {cbs : List Callback} {state : State}

/-! ### What the balance says of one callback and of one descriptor -/

/-- Op ids are unique, so no callback has two holders. -/
theorem count_callback_le (hcons : Consistent jobs fds cbs state) (cb : Callback) :
    state.held (cbWeights cb) + ofList (cbWeights cb).role (state.roles jobs) +
      ofList (cbWeights cb).spent state.log + cbs.count cb ≤ 1 := by
  have hbalance := hcons.balance (cbWeights cb)
  have hunique := List.nodup_iff_count_le_one.mp hcons.unique cb
  have hcbs : ofList (cbWeights cb).callback cbs = cbs.count cb := ofList_eq_count cb cbs
  rw [count_submittedIds cb state.log hcons.ownCb] at hbalance
  omega

/-- The holders of a descriptor number are as many as it has open descriptors. -/
theorem count_openFds (hcons : Consistent jobs fds cbs state) (fd : Fd) :
    (openFds state.log).count fd =
      state.held (fdWeights fd) + ofList (fdWeights fd).role (state.roles jobs) +
        fds.count fd := by
  have hbalance := hcons.balance (fdWeights fd)
  have htrace := hcons.trace.count_openFds fd
  have hfds : ofList (fdWeights fd).fd fds = fds.count fd := ofList_eq_count fd fds
  have hcbs : ofList (fdWeights fd).callback cbs = 0 := by
    rw [ofList_eq_zero_iff]
    intro cb _
    rfl
  omega

theorem count_openFds_le (hcons : Consistent jobs fds cbs state) (fd : Fd) :
    (openFds state.log).count fd ≤ 1 :=
  List.nodup_iff_count_le_one.mp hcons.trace.nodup_openFds fd

theorem one_le_held {handle : Handle} {entry : FileEntry}
    (hlookup : state.files.lookup handle = some entry) :
    1 ≤ state.held (fdWeights entry.fd) := by
  have hrow := Table.weight_le_tally (fun _ => (fdWeights entry.fd).entry) hlookup
  have hself : 1 ≤ (fdWeights entry.fd).entry entry := by
    simp [Weights.entry, fdWeights]
  simp only [State.held]
  omega

theorem mem_openFds_of_hand (hcons : Consistent jobs fds cbs state) {fd : Fd}
    (hmem : fd ∈ fds) : fd ∈ openFds state.log := by
  have hcount := hcons.count_openFds fd
  have hpos := List.count_pos_iff.mpr hmem
  exact List.count_pos_iff.mp (by omega)

theorem mem_openFds_of_entry (hcons : Consistent jobs fds cbs state)
    {handle : Handle} {entry : FileEntry}
    (hlookup : state.files.lookup handle = some entry) :
    entry.fd ∈ openFds state.log := by
  have hcount := hcons.count_openFds entry.fd
  have hheld := one_le_held hlookup
  exact List.count_pos_iff.mp (by omega)

/-- A role's descriptor has an owner: the role itself or its handle's entry. -/
theorem one_le_owners (hcons : Consistent jobs fds cbs state) {role : Role}
    (hmem : role ∈ state.roles jobs) :
    1 ≤ state.held (fdWeights role.fd) +
      ofList (fdWeights role.fd).role (state.roles jobs) := by
  have hplaced := hcons.placed role hmem
  unfold Role.placedIn at hplaced
  split at hplaced
  · have hweight := weight_le_ofList (fdWeights role.fd).role hmem
    simp only [Weights.role, fdWeights, hplaced, if_true] at hweight
    simp only [fdWeights]
    omega
  · obtain ⟨-, entry, hlookup, hfd⟩ := hplaced
    have hheld := one_le_held hlookup
    rw [hfd] at hheld
    omega

theorem mem_openFds_of_role (hcons : Consistent jobs fds cbs state) {role : Role}
    (hmem : role ∈ state.roles jobs) : role.fd ∈ openFds state.log := by
  have hcount := hcons.count_openFds role.fd
  have howners := hcons.one_le_owners hmem
  exact List.count_pos_iff.mp (by omega)

theorem mem_openFds_of_withFd (hcons : Consistent jobs fds cbs state)
    {handle : Handle} {fd : Fd} (hfd : state.withFd handle = .ok fd) :
    fd ∈ openFds state.log := by
  unfold State.withFd at hfd
  split at hfd
  · cases hfd
  · next entry hlookup =>
      split at hfd
      · cases hfd
      · obtain rfl : entry.fd = fd := by simpa using hfd
        exact hcons.mem_openFds_of_entry hlookup

/-! ### Moves that change no container -/

/-- Only the jobs' roles, up to order, and the containers matter. -/
theorem frame (hcons : Consistent jobs fds cbs state) {next : State} {jobs' : List Job}
    (hroles : (next.roles jobs').Perm (state.roles jobs))
    (hinflight : ∀ entry ∈ next.inflight,
      entry ∈ state.inflight ∨ entry.aiocb.fildes = entry.job.fd)
    (hsame : next.containers = state.containers) :
    Consistent jobs' fds cbs next := by
  simp only [State.containers, Containers.mk.injEq] at hsame
  obtain ⟨hrx, hqueue, hhelpers, hback, hpending, hfiles, hnext, hlog⟩ := hsame
  exact
    { balance w := by
        have hbalance := hcons.balance w
        simp only [State.held, hrx, hqueue, hhelpers, hback, hfiles, hlog,
          ofList_perm w.role hroles] at hbalance ⊢
        exact hbalance
      fresh := by rw [hfiles, hnext]; exact hcons.fresh
      opsCount handle entry hlookup := by
        rw [hfiles] at hlookup
        rw [rolesOn, ofList_perm _ hroles]
        exact hcons.opsCount handle entry hlookup
      closingBusy := by rw [hfiles]; exact hcons.closingBusy
      placed role hmem := by
        rw [hfiles]
        exact hcons.placed role (hroles.mem_iff.mp hmem)
      roleIds role hmem := hcons.roleIds role (hroles.mem_iff.mp hmem)
      trace := by rw [hlog]; exact hcons.trace
      unique := by rw [hlog]; exact hcons.unique
      ownCb := by rw [hlog]; exact hcons.ownCb
      rxCb := by rw [hrx]; exact hcons.rxCb
      pendingIds pending hmem := by
        rw [hpending]
        apply hcons.pendingIds
        simpa only [State.pendings, hqueue, hhelpers, hback] using hmem
      fildes entry hmem := (hinflight entry hmem).elim (hcons.fildes entry) id }

/-! ### Log entries -/

/-- An event other than a submission, paid for by what is in hand. -/
theorem emit (hcons : Consistent jobs fds cbs state) {event : Event}
    {fds' : List Fd} {cbs' : List Callback}
    (hbalance : ∀ w : Weights,
      w.entered event + ofList w.fd fds + ofList w.callback cbs =
        w.spent event + ofList w.fd fds' + ofList w.callback cbs')
    (htrace : SafeTrace (event :: state.log))
    (hsent : ∀ msg, event ≠ .sent msg) :
    Consistent jobs fds' cbs' (state.emit event) where
  balance w := by
    have hold := hcons.balance w
    have hmove := hbalance w
    change ofList w.entered (event :: state.log) =
      state.held w + ofList w.role (state.roles jobs) +
        ofList w.spent (event :: state.log) + ofList w.fd fds' + ofList w.callback cbs'
    simp only [ofList_cons]
    omega
  fresh := hcons.fresh
  opsCount := hcons.opsCount
  closingBusy := hcons.closingBusy
  placed := hcons.placed
  roleIds := hcons.roleIds
  trace := htrace
  unique := by
    have hids : submittedIds (event :: state.log) = submittedIds state.log := by
      cases event <;> first | rfl | exact absurd rfl (hsent _)
    exact hids ▸ hcons.unique
  ownCb id op cb hmem := by
    rcases List.mem_cons.mp hmem with hhead | htail
    · exact absurd hhead.symm (hsent _)
    · exact hcons.ownCb id op cb htail
  rxCb := hcons.rxCb
  pendingIds := hcons.pendingIds
  fildes := hcons.fildes

theorem handled (hcons : Consistent jobs fds cbs state) (msg : Msg) :
    Consistent jobs fds cbs (state.emit (.handled msg)) :=
  hcons.emit (fun _ => by simp [Weights.entered, Weights.spent]) hcons.trace (by simp)

theorem issue (hcons : Consistent jobs fds cbs state) (op : OpId) {fd : Fd}
    (call : Syscall) (hopen : fd ∈ openFds state.log) :
    Consistent jobs fds cbs (state.issue op fd call) :=
  hcons.emit (fun _ => by simp [Weights.entered, Weights.spent])
    ⟨hopen, hcons.trace⟩ (by simp)

theorem settle {cb : Callback} (hcons : Consistent jobs fds (cb :: cbs) state)
    (result : Outcome) : Consistent jobs fds cbs (state.settle cb result) :=
  hcons.emit
    (fun _ => by simp only [Weights.entered, Weights.spent, ofList_cons]; omega)
    hcons.trace (by simp)

/-- The descriptor in hand has no second owner, so no live job carries it. -/
theorem no_carriers {fd : Fd} (hcons : Consistent jobs (fd :: fds) cbs state) :
    (state.liveJobs.filter fun job => job.fd = fd).map (·.id) = [] := by
  rw [List.map_eq_nil_iff, List.filter_eq_nil_iff]
  intro job hmem hfd
  obtain rfl : job.fd = fd := by simpa using hfd
  have hrole : job.role ∈ state.roles jobs :=
    List.mem_map_of_mem (List.mem_append_right _ hmem)
  have howners := hcons.one_le_owners hrole
  have hcount := hcons.count_openFds job.fd
  have hle := hcons.count_openFds_le job.fd
  simp only [Job.role, List.count_cons_self] at howners hcount
  omega

theorem closeRaw {fd : Fd} (hcons : Consistent jobs (fd :: fds) cbs state) :
    Consistent jobs fds cbs (state.closeRaw fd) :=
  hcons.emit
    (fun _ => by simp only [Weights.entered, Weights.spent, ofList_cons]; omega)
    ⟨hcons.mem_openFds_of_hand List.mem_cons_self, hcons.no_carriers, hcons.trace⟩
    (by simp)

theorem gainFd (hcons : Consistent jobs fds cbs state) {fd : Fd} (path : Path)
    (flags : OpenFlags) (hfresh : fd ∉ openFds state.log) :
    Consistent jobs (fd :: fds) cbs (state.emit (.opened fd path flags)) :=
  hcons.emit
    (fun _ => by simp only [Weights.entered, Weights.spent, ofList_cons]; omega)
    ⟨hfresh, hcons.trace⟩ (by simp)

/-! ### The handle table -/

theorem lookup_nextId (hcons : Consistent jobs fds cbs state) :
    state.files.lookup state.nextId = none := by
  cases hlookup : state.files.lookup state.nextId with
  | none => rfl
  | some entry => exact absurd (hcons.fresh _ entry hlookup) (Nat.lt_irrefl _)

/-- No role is on a handle that is not registered. -/
theorem rolesOn_eq_zero (hcons : Consistent jobs fds cbs state) {handle : Handle}
    (hlookup : state.files.lookup handle = none) :
    rolesOn handle (state.roles jobs) = 0 := by
  rw [rolesOn, ofList_eq_zero_iff]
  intro role hmem
  have hplaced := hcons.placed role hmem
  by_cases hon : role.handle = some handle
  · simp [Role.placedIn, hon, hlookup] at hplaced
  · simp [hon]

theorem register {fd : Fd} (hcons : Consistent jobs (fd :: fds) cbs state) (size : ℕ) :
    Consistent jobs fds cbs (state.register fd size).2 where
  balance w := by
    have hbalance := hcons.balance w
    have hinsert := Table.tally_insert_new (fun _ => w.entry)
      { fd := fd, ops := 0, closing := none } hcons.lookup_nextId
    simp only [State.register, State.held, ofList_cons, Weights.entered, Weights.spent,
      Weights.entry, Weights.closing, State.roles, State.liveJobs] at hbalance hinsert ⊢
    omega
  fresh handle entry hlookup := by
    simp only [State.register] at hlookup
    change handle < state.nextId + 1
    by_cases hsame : handle = state.nextId
    · exact hsame ▸ Nat.lt_succ_self _
    · rw [AList.lookup_insert_ne hsame] at hlookup
      exact Nat.lt_succ_of_lt (hcons.fresh handle entry hlookup)
  opsCount handle entry hlookup := by
    simp only [State.register] at hlookup
    change entry.ops = rolesOn handle (state.roles jobs)
    by_cases hsame : handle = state.nextId
    · subst hsame
      rw [AList.lookup_insert, Option.some.injEq] at hlookup
      rw [hcons.rolesOn_eq_zero hcons.lookup_nextId, ← hlookup]
    · rw [AList.lookup_insert_ne hsame] at hlookup
      exact hcons.opsCount handle entry hlookup
  closingBusy handle entry hlookup hclosing := by
    simp only [State.register] at hlookup
    by_cases hsame : handle = state.nextId
    · subst hsame
      rw [AList.lookup_insert, Option.some.injEq] at hlookup
      simp [← hlookup] at hclosing
    · rw [AList.lookup_insert_ne hsame] at hlookup
      exact hcons.closingBusy handle entry hlookup hclosing
  placed role hmem := by
    have hplaced := hcons.placed role hmem
    unfold Role.placedIn at hplaced ⊢
    split at hplaced
    · exact hplaced
    · next handle _ =>
        obtain ⟨howned, entry, hlookup, hfd⟩ := hplaced
        have hne : handle ≠ state.nextId := (hcons.fresh handle entry hlookup).ne
        have hkeep : (state.register fd size).2.files.lookup handle = some entry := by
          rw [← hlookup]
          exact AList.lookup_insert_ne hne
        exact ⟨howned, entry, hkeep, hfd⟩
  roleIds := hcons.roleIds
  trace := hcons.trace
  unique := hcons.unique
  ownCb id op cb hmem := hcons.ownCb id op cb (by simpa [State.register] using hmem)
  rxCb := hcons.rxCb
  pendingIds := hcons.pendingIds
  fildes := hcons.fildes

/-- Overwrite the entry of a registered handle, together with the jobs on it. -/
theorem update (hcons : Consistent jobs fds cbs state) {next : State}
    {jobs' : List Job} {cbs' : List Callback} {handle : Handle} {entry : FileEntry}
    (entry' : FileEntry) (hlookup : state.files.lookup handle = some entry)
    (hfd : entry'.fd = entry.fd)
    (hbalance : ∀ w : Weights,
      w.closing entry'.closing + ofList w.role (next.roles jobs') + ofList w.callback cbs' =
        w.closing entry.closing + ofList w.role (state.roles jobs) + ofList w.callback cbs)
    (hothers : ∀ other, other ≠ handle →
      rolesOn other (next.roles jobs') = rolesOn other (state.roles jobs))
    (hops : entry'.ops = rolesOn handle (next.roles jobs'))
    (hbusy : entry'.closing.isSome → 0 < entry'.ops)
    (hplaced : ∀ role ∈ next.roles jobs', role ∈ state.roles jobs ∨
      role.handle = some handle ∧ role.ownedFd = false ∧ role.fd = entry.fd ∧
        role.cb = role.id)
    (hsame : next.containers = { state.containers with files := state.files.insert handle entry' })
    (hinflight : next.inflight = state.inflight) :
    Consistent jobs' fds cbs' next := by
  simp only [State.containers, Containers.mk.injEq] at hsame
  obtain ⟨hrx, hqueue, hhelpers, hback, hpending, hfiles, hnext, hlog⟩ := hsame
  exact
    { balance w := by
        have hold := hcons.balance w
        have hmove := hbalance w
        have htable := Table.tally_update (fun _ => w.entry) entry' hlookup
        simp only [State.held, hrx, hqueue, hhelpers, hback, hfiles, hlog, Weights.entry,
          hfd] at hold htable ⊢
        omega
      fresh other found hfound := by
        rw [hfiles] at hfound
        rw [hnext]
        by_cases hsame : other = handle
        · exact hsame ▸ hcons.fresh handle entry hlookup
        · rw [AList.lookup_insert_ne hsame] at hfound
          exact hcons.fresh other found hfound
      opsCount other found hfound := by
        rw [hfiles] at hfound
        by_cases hsame : other = handle
        · subst hsame
          rw [AList.lookup_insert, Option.some.injEq] at hfound
          exact hfound ▸ hops
        · rw [AList.lookup_insert_ne hsame] at hfound
          rw [hothers other hsame]
          exact hcons.opsCount other found hfound
      closingBusy other found hfound hclosing := by
        rw [hfiles] at hfound
        by_cases hsame : other = handle
        · subst hsame
          rw [AList.lookup_insert, Option.some.injEq] at hfound
          subst hfound
          exact hbusy hclosing
        · rw [AList.lookup_insert_ne hsame] at hfound
          exact hcons.closingBusy other found hfound hclosing
      placed role hmem := by
        rw [hfiles]
        have hentry' : (state.files.insert handle entry').lookup handle = some entry' :=
          AList.lookup_insert _
        rcases hplaced role hmem with hold | ⟨hon, howned, hsame, -⟩
        · have hroleOld := hcons.placed role hold
          unfold Role.placedIn at hroleOld ⊢
          split at hroleOld
          · exact hroleOld
          · next other _ =>
              obtain ⟨howned, found, hfound, hfoundFd⟩ := hroleOld
              by_cases hsame : other = handle
              · subst hsame
                rw [hlookup, Option.some.injEq] at hfound
                exact ⟨howned, entry', hentry', by rw [hfd, hfound, hfoundFd]⟩
              · exact ⟨howned, found, by rwa [AList.lookup_insert_ne hsame], hfoundFd⟩
        · simp only [Role.placedIn, hon]
          exact ⟨howned, entry', hentry', by rw [hfd, hsame]⟩
      roleIds role hmem := by
        rcases hplaced role hmem with hold | ⟨-, -, -, hids⟩
        · exact hcons.roleIds role hold
        · exact hids
      trace := by rw [hlog]; exact hcons.trace
      unique := by rw [hlog]; exact hcons.unique
      ownCb := by rw [hlog]; exact hcons.ownCb
      rxCb := by rw [hrx]; exact hcons.rxCb
      pendingIds pending hmem := by
        rw [hpending]
        apply hcons.pendingIds
        simpa only [State.pendings, hqueue, hhelpers, hback] using hmem
      fildes := by rw [hinflight]; exact hcons.fildes }

/-- Take the entry of a handle without remaining jobs out of the table: its
descriptor and its closing callback are in hand from then on. -/
theorem remove (hcons : Consistent jobs fds cbs state) {next : State}
    {jobs' : List Job} {cbs' : List Callback} {handle : Handle} {entry : FileEntry}
    (hlookup : state.files.lookup handle = some entry)
    (hbalance : ∀ w : Weights,
      ofList w.role (next.roles jobs') + ofList w.callback cbs' =
        w.closing entry.closing + ofList w.role (state.roles jobs) + ofList w.callback cbs)
    (hothers : ∀ other, other ≠ handle →
      rolesOn other (next.roles jobs') = rolesOn other (state.roles jobs))
    (hnone : rolesOn handle (next.roles jobs') = 0)
    (hplaced : ∀ role ∈ next.roles jobs', role ∈ state.roles jobs)
    (hsame : next.containers = { state.containers with files := state.files.erase handle })
    (hinflight : next.inflight = state.inflight) :
    Consistent jobs' (entry.fd :: fds) cbs' next := by
  simp only [State.containers, Containers.mk.injEq] at hsame
  obtain ⟨hrx, hqueue, hhelpers, hback, hpending, hfiles, hnext, hlog⟩ := hsame
  exact
    { balance w := by
        have hold := hcons.balance w
        have hmove := hbalance w
        have htable := Table.tally_erase_add (fun _ => w.entry) hlookup
        simp only [State.held, hrx, hqueue, hhelpers, hback, hfiles, hlog, Weights.entry,
          ofList_cons] at hold htable ⊢
        omega
      fresh other found hfound := by
        rw [hfiles] at hfound
        rw [hnext]
        by_cases hsame : other = handle
        · exact hsame ▸ hcons.fresh handle entry hlookup
        · rw [AList.lookup_erase_ne hsame] at hfound
          exact hcons.fresh other found hfound
      opsCount other found hfound := by
        rw [hfiles] at hfound
        by_cases hsame : other = handle
        · subst hsame
          simp at hfound
        · rw [AList.lookup_erase_ne hsame] at hfound
          rw [hothers other hsame]
          exact hcons.opsCount other found hfound
      closingBusy other found hfound hclosing := by
        rw [hfiles] at hfound
        by_cases hsame : other = handle
        · subst hsame
          simp at hfound
        · rw [AList.lookup_erase_ne hsame] at hfound
          exact hcons.closingBusy other found hfound hclosing
      placed role hmem := by
        rw [hfiles]
        have hroleOld := hcons.placed role (hplaced role hmem)
        have hoff := (ofList_eq_zero_iff _ _).mp hnone role hmem
        unfold Role.placedIn at hroleOld ⊢
        split at hroleOld
        · exact hroleOld
        · next other hon =>
            obtain ⟨howned, found, hfound, hfoundFd⟩ := hroleOld
            have hsame : other ≠ handle := by
              rintro rfl
              simp [hon] at hoff
            exact ⟨howned, found, by rwa [AList.lookup_erase_ne hsame], hfoundFd⟩
      roleIds role hmem := hcons.roleIds role (hplaced role hmem)
      trace := by rw [hlog]; exact hcons.trace
      unique := by rw [hlog]; exact hcons.unique
      ownCb := by rw [hlog]; exact hcons.ownCb
      rxCb := by rw [hrx]; exact hcons.rxCb
      pendingIds pending hmem := by
        rw [hpending]
        apply hcons.pendingIds
        simpa only [State.pendings, hqueue, hhelpers, hback] using hmem
      fildes := by rw [hinflight]; exact hcons.fildes }

end Consistent

end Turbofile.Darwin
