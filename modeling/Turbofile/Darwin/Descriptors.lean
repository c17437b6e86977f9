import Turbofile.Darwin.Runs

/-!
# Every open descriptor has one owner

An owner is what will close the descriptor: a registered handle, a job that
opened the file for itself, an open on its way back, or a close handed to the
helpers.
-/

namespace Turbofile.Darwin

open Turbofile.Core
open Turbofile.Tally
open State

inductive Owner
  | file (handle : Handle)
  | job (id : OpId)
  | opened (id : OpId)
  | closeJob
  deriving DecidableEq

def Opened.fd (message : Opened) : Option Fd :=
  match message.result with
  | .ok (fd, _) => some fd
  | .error _ => none

def HelperJob.closes : HelperJob → List Fd
  | .openFile .. => []
  | .close fd => [fd]

def Helper.closes : Helper → List Fd
  | .running job => job.closes
  | .idle | .sending _ | .exited => []

def Helper.messages : Helper → List Opened
  | .sending message => [message]
  | .idle | .running _ | .exited => []

namespace State

/-- Closes queued for the helpers or running there. -/
def closes (state : State) : List Fd :=
  state.helperQueue.flatMap HelperJob.closes ++ state.helpers.flatMap Helper.closes

/-- Opens that have a result the driver has not seen yet. -/
def messages (state : State) : List Opened :=
  state.helpers.flatMap Helper.messages ++ state.back

/-- All owners of a descriptor number, one entry for each occurrence. -/
def owners (state : State) (fd : Fd) : List Owner :=
  (state.files.entries.filter fun row => row.2.fd = fd).map (fun row => .file row.1) ++
    (state.liveJobs.filter fun job => job.ownedFd ∧ job.fd = fd).map (fun job => .job job.id) ++
    (state.messages.filter fun message => message.fd = some fd).map
      (fun message => .opened message.pending.id) ++
    (state.closes.filter fun other => other = fd).map (fun _ => .closeJob)

end State

/-! ## Counting owners -/

theorem length_files (files : Table Handle FileEntry) (fd : Fd) :
    (files.entries.filter fun row => row.2.fd = fd).length =
      Table.tally (fun _ => (fdWeights fd).entry) files := by
  rw [← List.countP_eq_length_filter, ← ofList_indicator, Table.tally]
  apply ofList_congr
  rintro ⟨handle, other, ops, closing⟩ -
  cases closing <;> simp [Weights.entry, Weights.closing, fdWeights]

theorem length_owning (jobs : List Job) (fd : Fd) :
    (jobs.filter fun job => job.ownedFd ∧ job.fd = fd).length =
      ofList (fdWeights fd).role (jobs.map Job.role) := by
  rw [← List.countP_eq_length_filter, ← ofList_indicator, ofList_map]
  apply ofList_congr
  intro job _
  cases howned : job.ownedFd <;> simp [Weights.role, Job.role, fdWeights, howned]

theorem opened_weight (message : Opened) (fd : Fd) :
    (fdWeights fd).opened message = if message.fd = some fd then 1 else 0 := by
  obtain ⟨pending, result⟩ := message
  cases result <;> simp [Weights.opened, Weights.result, Opened.fd, fdWeights]

theorem helperJob_weight (job : HelperJob) (fd : Fd) :
    (fdWeights fd).helperJob job =
      ofList (fun other => if other = fd then 1 else 0) job.closes := by
  cases job <;> simp [Weights.helperJob, HelperJob.closes, fdWeights]

theorem helper_weight (helper : Helper) (fd : Fd) :
    (fdWeights fd).helper helper =
      ofList (fun message => if message.fd = some fd then 1 else 0) helper.messages +
        ofList (fun other => if other = fd then 1 else 0) helper.closes := by
  cases helper with
  | idle => rfl
  | exited => rfl
  | running job => simp [Weights.helper, Helper.messages, Helper.closes, helperJob_weight]
  | sending message => simp [Weights.helper, Helper.messages, Helper.closes, opened_weight]

theorem length_messages_closes (state : State) (fd : Fd) :
    (state.messages.filter fun message => message.fd = some fd).length +
        (state.closes.filter fun other => other = fd).length =
      ofList (fdWeights fd).helperJob state.helperQueue +
        ofList (fdWeights fd).helper state.helpers +
        ofList (fdWeights fd).opened state.back := by
  have hhelpers : ofList (fdWeights fd).helper state.helpers =
      ofList (fun message : Opened => if message.fd = some fd then 1 else 0)
          (state.helpers.flatMap Helper.messages) +
        ofList (fun other => if other = fd then 1 else 0)
          (state.helpers.flatMap Helper.closes) := by
    rw [ofList_flatMap _ _ fun _ => rfl, ofList_flatMap _ _ fun _ => rfl, ← ofList_add]
    exact ofList_congr fun helper _ => helper_weight helper fd
  have hqueue := ofList_flatMap _ _ (fun job => helperJob_weight job fd) state.helperQueue
  have hback : ofList (fdWeights fd).opened state.back =
      ofList (fun message : Opened => if message.fd = some fd then 1 else 0) state.back :=
    ofList_congr fun message _ => opened_weight message fd
  rw [← List.countP_eq_length_filter, ← List.countP_eq_length_filter, ← ofList_indicator,
    ← ofList_indicator, State.messages, State.closes, ofList_append, ofList_append,
    hhelpers, hback, ← hqueue]
  omega

theorem length_owners (state : State) (fd : Fd) :
    (state.owners fd).length =
      state.held (fdWeights fd) + ofList (fdWeights fd).role (state.roles []) := by
  have hrx : ofList (fdWeights fd).msg state.rx = 0 := by
    rw [ofList_eq_zero_iff]
    intro msg _
    cases msg <;> rfl
  have hchannels := length_messages_closes state fd
  simp only [State.owners, List.length_append, List.length_map, length_files,
    length_owning, State.held, State.roles, List.nil_append, hrx]
  omega

theorem Consistent.length_owners {state : State} (hcons : Consistent [] [] [] state)
    (fd : Fd) : (state.owners fd).length = (openFds state.log).count fd := by
  rw [Darwin.length_owners, hcons.count_openFds, List.count_nil, Nat.add_zero]

/-- `FileEntry.ops` is the number of live jobs on the handle. -/
theorem Consistent.ops_eq {state : State} (hcons : Consistent [] [] [] state)
    {handle : Handle} {entry : FileEntry} (hlookup : state.files.lookup handle = some entry) :
    entry.ops = state.liveJobs.countP fun job => job.handle = some handle := by
  rw [hcons.opsCount handle entry hlookup, rolesOn, State.roles, List.nil_append, ofList_map,
    ← ofList_indicator]
  rfl

/-- **The descriptor ledger.**  In every reachable state an open descriptor has
exactly one owner and a closed one has none; the history opens only closed
numbers, closes only open ones that no live job carries, and makes syscalls
only on open ones; the count of ops in a file's entry is the number of live jobs
on its handle, so the job that gives one back always finds it positive. -/
theorem descriptors_owned {state : State} (hreach : driver.Reachable state) :
    (∀ fd ∈ openFds state.log, ∃ owner, state.owners fd = [owner]) ∧
      (∀ fd ∉ openFds state.log, state.owners fd = []) ∧
      SafeTrace state.log ∧
      (∀ handle entry, state.files.lookup handle = some entry →
        entry.ops = state.liveJobs.countP fun job => job.handle = some handle) ∧
      (∀ job ∈ state.liveJobs, ∀ handle, job.handle = some handle →
        ∃ entry, state.files.lookup handle = some entry ∧ entry.fd = job.fd ∧
          0 < entry.ops) := by
  have hcons := (Invariant.of_reachable hreach).ledger
  refine ⟨?_, ?_, hcons.trace, fun handle entry => hcons.ops_eq, ?_⟩
  · intro fd hopen
    have hcount := List.count_eq_one_of_mem hcons.trace.nodup_openFds hopen
    exact List.length_eq_one_iff.mp ((hcons.length_owners fd).trans hcount)
  · intro fd hclosed
    have hcount := List.count_eq_zero_of_not_mem hclosed
    exact List.length_eq_zero_iff.mp ((hcons.length_owners fd).trans hcount)
  · intro job hmem handle hhandle
    have hrole : job.role ∈ state.roles [] := List.mem_map_of_mem hmem
    have hplaced := hcons.placed job.role hrole
    simp only [Role.placedIn, Job.role, hhandle] at hplaced
    obtain ⟨-, entry, hlookup, hfd⟩ := hplaced
    refine ⟨entry, hlookup, hfd, ?_⟩
    rw [hcons.ops_eq hlookup]
    exact List.countP_pos_iff.mpr ⟨job, hmem, by simpa using hhandle⟩

/-- A file opened on the idle driver thread. -/
def openRun : List Label :=
  [.submit 1 (.openFile [97] { read := true }), .drive { openFd := .ok 5 }]

theorem descriptors_owned_open :
    ∃ final, driver.exec (State.new (helpersFor 8) 16) openRun = some final ∧
      openFds final.log = [5] ∧ ∃ owner, final.owners 5 = [owner] := by
  refine ⟨_, rfl, rfl, ?_⟩
  have hstart : driver.init (State.new (helpersFor 8) 16) := ⟨8, 16, by decide, rfl⟩
  have hreach : driver.Reachable _ :=
    (System.Reachable.ofInit hstart).ofExec
      (rfl : driver.exec (State.new (helpersFor 8) 16) openRun = some _)
  exact (descriptors_owned hreach).1 5 List.mem_cons_self

end Turbofile.Darwin
