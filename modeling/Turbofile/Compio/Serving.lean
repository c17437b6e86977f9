import Turbofile.Compio.Machine

/-!
# The compio driver serves its files

A task goes from call to call, and what it comes to is what the file service
answers to its op.
-/

namespace Turbofile.Compio.OnDisk

open Turbofile.Core
open Turbofile.Tally
open Turbofile.FileService
open Turbofile.OpenModes (openOptions stdFlags)
open State (openIdFor)

/-! ## One task at a time -/

/-- The driver has these tasks and messages, and no task is cancelled. -/
structure Alone (tasks : List Task) (rx : List Msg) (state : State) : Prop where
  submitters : state.submittersGone = false
  running : state.returned = false
  rx : state.rx = rx
  tasks : state.tasks = tasks
  flags : ∀ id, state.cancelFlags.lookup id ≠ some true

/-- The driver has the files of the service, under handles below `bound`. -/
structure Ready (kernel : Kernel) (service : Service) (calls : Calls) (bound : Handle)
    (state : State) : Prop where
  rows : ∀ handle fd, state.files.lookup handle = some fd → (nodeOf fd state.log).isSome = true
  table : Tabled service.nodes calls (fun handle => nodeFor handle state) bound
  numbers : bound ≤ state.nextId
  fits : Fits kernel service.disk

section Steps

variable {kernel : Kernel} {service : Service} {calls : Calls} {id : OpId} {op : Op}
  {disk after : Disk} {state mid next : State} {ans : Answers} {handle bound : Handle}
  {task : Task} {fd : Fd} {node : Node} {outcome : Outcome}

theorem nodeFor_of_lookup (hlookup : state.files.lookup handle = some fd) :
    nodeFor handle state = nodeOf fd state.log := by
  rw [nodeFor, hlookup]
  rfl

theorem nodeFor_of_unlisted (hlookup : state.files.lookup handle = none) :
    nodeFor handle state = none := by
  rw [nodeFor, hlookup]
  rfl

/-- No handle has the descriptor. -/
def Unlisted (fd : Fd) (state : State) : Prop :=
  ∀ handle, state.files.lookup handle ≠ some fd

theorem unlisted_of_holds (hholds : state.holds fd = false) : Unlisted fd state := by
  intro handle hlookup
  have hmem : (⟨handle, fd⟩ : Sigma fun _ : Handle => Fd) ∈ state.files.entries :=
    AList.mem_lookup_iff.mp hlookup
  have hany : (state.files.entries.any fun row => row.2 = fd) = true :=
    List.any_eq_true.mpr ⟨_, hmem, decide_eq_true rfl⟩
  rw [State.holds, hany, Bool.or_true] at hholds
  cases hholds

theorem unlisted_of_fresh (hfresh : fd ∉ state.heldFds) : Unlisted fd state := by
  intro handle hlookup
  have hmem : (⟨handle, fd⟩ : Sigma fun _ : Handle => Fd) ∈ state.files.entries :=
    AList.mem_lookup_iff.mp hlookup
  refine hfresh (List.mem_dedup.mpr (List.mem_append_right _ ?_))
  exact List.mem_map_of_mem hmem

namespace Ready

/-- The nodes of the handles are all that matters of the log. -/
theorem kept (hready : Ready kernel service calls bound state)
    (hfiles : next.files = state.files) (hnextId : state.nextId ≤ next.nextId)
    (hlog : ∀ handle fd, state.files.lookup handle = some fd →
      nodeOf fd next.log = nodeOf fd state.log) : Ready kernel service calls bound next := by
  have hsame : ∀ handle, nodeFor handle next = nodeFor handle state := by
    intro handle
    cases hlookup : state.files.lookup handle with
    | none => rw [nodeFor_of_unlisted hlookup, nodeFor_of_unlisted (hfiles ▸ hlookup)]
    | some fd =>
        rw [nodeFor_of_lookup hlookup, nodeFor_of_lookup (hfiles ▸ hlookup)]
        exact hlog handle fd hlookup
  refine ⟨fun handle fd hlookup => ?_, ?_, hready.numbers.trans hnextId, hready.fits⟩
  · rw [hfiles] at hlookup
    rw [hlog handle fd hlookup]
    exact hready.rows handle fd hlookup
  · rw [funext hsame]
    exact hready.table

/-- The op has been answered, and has opened no file for its caller. -/
theorem answered {service' : Service} {call : Op × Outcome}
    (hready : Ready kernel service calls bound state) (hnodes : service'.nodes = service.nodes)
    (hfits : Fits kernel service'.disk) (hreturned : returned call = none) :
    Ready kernel service' (calls ++ [call]) state.nextId state where
  rows := hready.rows
  table := by
    rw [hnodes]
    exact (hready.table.skip hready.numbers).answered hreturned
  numbers := Nat.le_refl _
  fits := hfits

end Ready

/-! ## What becomes of the op -/

/-- The events since, newest first, with the op's callback or without. -/
def Since (id : OpId) (outcome : Option Outcome) (state next : State) : Prop :=
  ∃ events, next.log = events ++ state.log ∧ events.findSome? (outcome? id) = outcome

/-- What a task with an open file comes to, poll by poll. -/
inductive Goes (kernel : Kernel) (node : Node) (op : Op) (fd : Fd) :
    Stage → Disk → Outcome → Disk → Prop
  | ends {stage : Stage} {disk after : Disk} {outcome : Outcome} (ans : Answers)
      (hans : callAnswers kernel op stage node disk = (ans, after))
      (hpoll : ∀ (state : State) (task : Task), state.tasks = [task] → task.op = op →
        task.stage = stage → state.cancelled task.id = false →
        state.poll ans 0 = some (state.finish 0 task (some fd) outcome)) :
      Goes kernel node op fd stage disk outcome after
  | closes {stage : Stage} {disk after : Disk} (ans : Answers) (reply : Reply)
      (hans : callAnswers kernel op stage node disk = (ans, after))
      (hpoll : ∀ (state : State) (task : Task), state.tasks = [task] → task.op = op →
        task.stage = stage → state.cancelled task.id = false →
        state.poll ans 0 = some (state.suspend 0 task (.closing fd reply))) :
      Goes kernel node op fd stage disk (.ok reply) after
  | more {stage : Stage} {disk mid after : Disk} {outcome : Outcome} (ans : Answers)
      (stage' : Stage) (hfd : stage'.fd = some fd)
      (hans : callAnswers kernel op stage node disk = (ans, mid))
      (hpoll : ∀ (state : State) (task : Task), state.tasks = [task] → task.op = op →
        task.stage = stage → state.cancelled task.id = false →
        state.poll ans 0 = some (state.suspend 0 task stage'))
      (hrest : Goes kernel node op fd stage' mid outcome after) :
      Goes kernel node op fd stage disk outcome after

/-- Where the task stands, and what is still to come. -/
inductive Stands (kernel : Kernel) (service : Service) (calls : Calls) (op : Op) (task : Task)
    (disk : Disk) (state : State) : Prop
  | spawned (handle bound : Handle) (hstage : task.stage = .spawned) (hop : task.op = on handle op)
      (hready : Ready kernel service calls bound state)
      (hnumber : ∀ number, task.openId = some number → bound ≤ number ∧ number < state.nextId)
      (hopenId : task.openId.isSome = (openIdFor op 0).isSome)
      (hnames : ∀ slot ∈ named op, Names calls slot handle)
      (hsuits : suits (nodeFor handle state) op = true) (hmodal : opensModal op = true)
      (hdisk : disk = service.disk)
  | opening (bound : Handle) (hstage : task.stage = .opening) (hop : task.op = op)
      (hopens : (opens op).isSome = true)
      (hready : Ready kernel service calls bound state)
      (hnumber : ∀ number, task.openId = some number → bound ≤ number ∧ number < state.nextId)
      (hopenId : task.openId.isSome = (openIdFor op 0).isSome)
      (hmodal : opensModal op = true) (hdisk : disk = service.disk)
  | opened (bound number : Handle) (fd : Fd) (node : Node) (hstage : task.stage = .statting fd)
      (hop : task.op = op) (hready : Ready kernel service calls bound state)
      (hnumber : bound ≤ number ∧ number < state.nextId) (hopenId : task.openId = some number)
      (hnode : nodeOf fd state.log = some node)
      (hopened : (∃ path spec, op = .openFile path spec ∧
          Service.opened kernel path spec service.disk = .ok (node, disk)) ∨
        ∃ path inlineMax, op = .readFile path inlineMax ∧
          Service.opened kernel path { read := true } service.disk = .ok (node, disk))
  | call (bound : Handle) (fd : Fd) (node : Node) (outcome : Outcome) (after : Disk)
      (hfd : task.stage.fd = some fd) (hnode : nodeOf fd state.log = some node)
      (hready : Ready kernel service calls bound state)
      (hgoes : Goes kernel node task.op fd task.stage disk outcome after)
      (hdue : Due kernel service calls op outcome after)
  | closing (bound : Handle) (fd : Fd) (reply : Reply) (result : Result) (service' : Service)
      (hstage : task.stage = .closing fd reply)
      (hperform : service.perform kernel calls.length op = (result, service'))
      (hshows : Shows result (.ok reply)) (hreturned : returned (op, .ok reply) = none)
      (hready : Ready kernel service' calls bound state) (hdisk : disk = service'.disk)

/-- The task of the op. -/
inductive Midway (kernel : Kernel) (service : Service) (calls : Calls) (id : OpId) (op : Op)
    (disk : Disk) (state : State) : Prop
  | intro (task : Task) (halone : Alone [task] [] state) (hcb : task.cb = id)
      (hstands : Stands kernel service calls op task disk state)

inductive Came (kernel : Kernel) (service : Service) (calls : Calls) (id : OpId) (op : Op)
    (disk : Disk) (state next : State) : Prop
  | replied (outcome : Outcome) (result : Result) (service' : Service)
      (hsince : Since id (some outcome) state next)
      (hperform : service.perform kernel calls.length op = (result, service'))
      (hshows : Shows result outcome) (halone : Alone [] [] next)
      (hready : Ready kernel service' (calls ++ [(op, outcome)]) next.nextId next)
      (hdisk : disk = service'.disk)
  | goesOn (hsince : Since id none state next)
      (hmidway : Midway kernel service calls id op disk next)

/-! ## The end of a task -/

theorem finish_eq (htasks : state.tasks = [task]) (held : Option Fd) (outcome : Outcome) :
    ∃ events, state.finish 0 task held outcome = { state with
      tasks := []
      cancelFlags := state.cancelFlags.erase task.id
      log := .settled task.cb outcome :: events ++ state.log } ∧
    (events = [] ∨ ∃ fd, events = [.closed fd] ∧ Unlisted fd state) := by
  have herase : state.tasks.eraseIdx 0 = [] := by rw [htasks]; rfl
  cases held with
  | none =>
      refine ⟨[], ?_, .inl rfl⟩
      simp only [State.finish, herase]
      rfl
  | some fd =>
      cases hholds : ({ state with tasks := [] } : State).holds fd with
      | true =>
          refine ⟨[], ?_, .inl rfl⟩
          simp only [State.finish, herase, State.release, hholds, if_true]
          rfl
      | false =>
          refine ⟨[.closed fd], ?_, .inr ⟨fd, rfl, ?_⟩⟩
          · simp only [State.finish, herase, State.release, hholds, Bool.false_eq_true, if_false]
            rfl
          · have hunlisted := unlisted_of_holds hholds
            exact hunlisted

/-- The callback of a task runs. -/
theorem finished {bound : Handle} (halone : Alone [task] [] state) (hcb : task.cb = id)
    (hready : Ready kernel service calls bound state) (held : Option Fd) (outcome : Outcome) :
    Since id (some outcome) state (state.finish 0 task held outcome) ∧
      Alone [] [] (state.finish 0 task held outcome) ∧
      Ready kernel service calls bound (state.finish 0 task held outcome) := by
  obtain ⟨events, hfinish, hevents⟩ := finish_eq halone.tasks held outcome
  rw [hfinish]
  refine ⟨⟨.settled task.cb outcome :: events, rfl, ?_⟩, ?_, ?_⟩
  · rw [List.findSome?_cons, outcome?, if_pos hcb]
  · refine { halone with tasks := rfl, flags := fun other => ?_ }
    by_cases hsame : other = task.id
    · rw [hsame, AList.lookup_erase]
      simp
    · rw [AList.lookup_erase_ne hsame]
      exact halone.flags other
  · refine hready.kept rfl (Nat.le_refl _) fun handle fd hlookup => ?_
    rcases hevents with rfl | ⟨fd', rfl, hunlisted⟩
    · rfl
    · have hne : fd' ≠ fd := fun hsame => hunlisted handle (hsame ▸ hlookup)
      exact if_neg hne

theorem came_finish (halone : Alone [task] [] state) (hcb : task.cb = id)
    (hready : Ready kernel service calls bound state) (held : Option Fd)
    (hdue : Due kernel service calls op outcome disk) :
    Came kernel service calls id op disk state (state.finish 0 task held outcome) := by
  obtain ⟨hsince, hfinished, hkept⟩ := finished halone hcb hready held outcome
  obtain ⟨result, hperform, hshows⟩ := hdue.performs
  exact .replied outcome result _ hsince hperform hshows hfinished
    (hkept.answered rfl (hdue.fits hready.fits) hdue.returned) rfl

/-- The task waits for its next call. -/
theorem suspended (halone : Alone [task] [] state) (stage : Stage) :
    Alone [{ task with stage := stage }] [] (state.suspend 0 task stage) :=
  { halone with tasks := by rw [State.suspend, halone.tasks]; rfl }

theorem came_suspend (halone : Alone [task] [] state) (hcb : task.cb = id) {stage : Stage}
    (hstands : Stands kernel service calls op { task with stage := stage } disk
      (state.suspend 0 task stage)) :
    Came kernel service calls id op disk state (state.suspend 0 task stage) :=
  .goesOn ⟨[], rfl, rfl⟩ ⟨_, suspended halone stage, hcb, hstands⟩

theorem Ready.suspended (hready : Ready kernel service calls bound state) (task : Task)
    (stage : Stage) : Ready kernel service calls bound (state.suspend 0 task stage) :=
  hready.kept rfl (Nat.le_refl _) fun _ _ _ => rfl

theorem cancelled_eq (halone : Alone [task] [] state) (id : OpId) : state.cancelled id = false :=
  decide_eq_false (halone.flags id)

/-! ## Polls of a task with an open file -/

/-- Another disk for the same open files. -/
theorem Ready.redisk (hready : Ready kernel service calls bound state) (hfits : Fits kernel after) :
    Ready kernel { service with disk := after } calls bound state :=
  { hready with fits := hfits }

/-- A call that changes the file and fails ends the task. -/
theorem goes_refused {stage : Stage} {errno : Errno}
    (hstage : stage = .writing fd ∨ stage = .appending fd ∨ stage = .resizing fd)
    (hans : callAnswers kernel op stage node disk = ({ done := .error errno }, disk)) :
    Goes kernel node op fd stage disk (.error (.os errno)) disk := by
  refine .ends _ hans fun state task htasks hop hat hlive => ?_
  rcases hstage with rfl | rfl | rfl <;>
    simp only [State.poll, htasks, List.getElem?_cons_zero, hat, State.orFail]

/-- A poll of a task in the middle of its calls. -/
theorem came_call {ans : Answers} {after' : Disk} (halone : Alone [task] [] state)
    (hcb : task.cb = id) (hnode : nodeOf fd state.log = some node)
    (hready : Ready kernel service calls bound state)
    (hgoes : Goes kernel node task.op fd task.stage disk outcome after)
    (hdue : Due kernel service calls op outcome after)
    (hans : callAnswers kernel task.op task.stage node disk = (ans, after'))
    (hpoll : state.poll ans 0 = some next) :
    Came kernel service calls id op after' state next := by
  have hcancelled := cancelled_eq halone task.id
  cases hgoes with
  | ends ans' hans' hends =>
      obtain ⟨rfl, rfl⟩ := Prod.mk.inj (hans.symm.trans hans')
      rw [hends state task halone.tasks rfl rfl hcancelled] at hpoll
      rw [← Option.some.inj hpoll]
      exact came_finish halone hcb hready (some fd) hdue
  | closes ans' reply hans' hcloses =>
      obtain ⟨rfl, rfl⟩ := Prod.mk.inj (hans.symm.trans hans')
      rw [hcloses state task halone.tasks rfl rfl hcancelled] at hpoll
      rw [← Option.some.inj hpoll]
      obtain ⟨result, hperform, hshows⟩ := hdue.performs
      exact came_suspend halone hcb (.closing bound fd reply result _ rfl hperform hshows
        hdue.returned ((hready.redisk (hdue.fits hready.fits)).suspended task _) rfl)
  | more ans' stage' hfd' hans' hmore hrest =>
      obtain ⟨rfl, rfl⟩ := Prod.mk.inj (hans.symm.trans hans')
      rw [hmore state task halone.tasks rfl rfl hcancelled] at hpoll
      rw [← Option.some.inj hpoll]
      exact came_suspend halone hcb (.call bound fd node outcome after hfd' hnode
        (hready.suspended task _) hrest hdue)

/-- A file that nothing else has open is closed, and the op is over. -/
theorem came_closing {reply : Reply} {result : Result} {service' : Service}
    (halone : Alone [task] [] state) (hcb : task.cb = id) (hstage : task.stage = .closing fd reply)
    (hperform : service.perform kernel calls.length op = (result, service'))
    (hshows : Shows result (.ok reply)) (hreturned : returned (op, .ok reply) = none)
    (hready : Ready kernel service' calls bound state) (hdisk : disk = service'.disk)
    (hpoll : state.poll {} 0 = some next) :
    Came kernel service calls id op disk state next := by
  have hget : state.tasks[0]? = some task := by rw [halone.tasks]; rfl
  simp only [State.poll, hget, hstage] at hpoll
  split at hpoll
  · cases hpoll
  · next hholds =>
      have hunlisted : Unlisted fd state := by
        have hnone := unlisted_of_holds (Bool.eq_false_iff.mpr hholds)
        exact hnone
      have hmid : Ready kernel service' calls bound (state.emit (.closed fd)) := by
        refine hready.kept rfl (Nat.le_refl _) fun handle fd' hlookup => ?_
        exact if_neg fun hsame : fd = fd' => hunlisted handle (hsame ▸ hlookup)
      have halone' : Alone [task] [] (state.emit (.closed fd)) :=
        { halone with tasks := halone.tasks }
      obtain ⟨⟨events, hlog, hfound⟩, hfinished, hkept⟩ :=
        finished halone' hcb hmid none (.ok reply)
      rw [← Option.some.inj hpoll]
      refine .replied (.ok reply) result service' ⟨events ++ [.closed fd], ?_, ?_⟩ hperform hshows
        hfinished (hkept.answered rfl hready.fits hreturned) hdisk
      · rw [List.append_assoc]
        exact hlog
      · rw [List.findSome?_append, hfound]
        rfl

/-! ## Opening -/

/-- The file becomes a handle. -/
theorem came_insert {number : Handle} {size : ℕ} (halone : Alone [task] [] state)
    (hcb : task.cb = id) (hopenId : task.openId = some number)
    (hready : Ready kernel service calls bound state)
    (hnumber : bound ≤ number ∧ number < state.nextId) (hnode : nodeOf fd state.log = some node)
    (hsize : size = (FileService.stat node disk).size)
    (hperform : service.perform kernel calls.length op = service.register calls.length node disk) :
    Came kernel service calls id op disk state (state.insertFile 0 task fd size) := by
  have hfits := Service.perform_fits hready.fits calls.length op
  rw [hperform] at hfits
  obtain ⟨mid, hmid⟩ : ∃ mid, ({ state with
      files := state.files.insert number fd
      log := .registered number fd :: state.log } : State) = mid := ⟨_, rfl⟩
  have hnext : state.insertFile 0 task fd size =
      mid.finish 0 task none (.ok (.handle number size fd)) := by
    simp only [State.insertFile, hopenId, hmid]
  have halone' : Alone [task] [] mid := by
    rw [← hmid]
    exact { halone with tasks := halone.tasks }
  have hsame : ∀ other, nodeFor other mid =
      Function.update (fun handle => nodeFor handle state) number (some node) other := by
    intro other
    by_cases hother : other = number
    · rw [hother, Function.update_self, nodeFor, ← hmid, AList.lookup_insert]
      exact hnode
    · rw [Function.update_of_ne hother, nodeFor, ← hmid, AList.lookup_insert_ne hother]
      rfl
  have hlater : Ready kernel { service with
      disk := disk
      nodes := Function.update service.nodes calls.length (some node) }
      (calls ++ [(op, .ok (.handle number size fd))]) mid.nextId mid := by
    refine ⟨fun other fd' hlookup => ?_, ?_, Nat.le_refl _, hfits⟩
    · rw [← hmid] at hlookup ⊢
      by_cases hother : other = number
      · rw [hother, AList.lookup_insert] at hlookup
        rw [← Option.some.inj hlookup]
        exact Option.isSome_iff_exists.mpr ⟨node, hnode⟩
      · rw [AList.lookup_insert_ne hother] at hlookup
        exact hready.rows other fd' hlookup
    · rw [funext hsame, ← hmid]
      exact hready.table.registered hnumber.1 hnumber.2 rfl
  obtain ⟨⟨events, hlog, hfound⟩, hfinished, hkept⟩ :=
    finished halone' hcb hlater none (.ok (.handle number size fd))
  rw [hnext]
  refine .replied (.ok (.handle number size fd)) _ _ ⟨events ++ [.registered number fd], ?_, ?_⟩
    hperform ⟨.handle size, by rw [hsize], rfl⟩ hfinished hkept rfl
  · rw [List.append_assoc, hlog, ← hmid]
    rfl
  · rw [List.findSome?_append, hfound]
    rfl

theorem Came.since (hsince : Since id none state mid)
    (hcame : Came kernel service calls id op disk mid next) :
    Came kernel service calls id op disk state next := by
  obtain ⟨events, hlog, hnone⟩ := hsince
  have hlater : ∀ outcome, Since id outcome mid next → Since id outcome state next := by
    rintro outcome ⟨more, hmore, hfound⟩
    refine ⟨more ++ events, by rw [hmore, hlog, List.append_assoc], ?_⟩
    rw [List.findSome?_append, hfound, hnone, Option.or_none]
  cases hcame with
  | replied outcome result service' hsettled hperform hshows halone hready hdisk =>
      exact .replied outcome result service' (hlater _ hsettled) hperform hshows halone hready hdisk
  | goesOn hnothing hmidway => exact .goesOn (hlater _ hnothing) hmidway

section Opening

variable {path : Path} {spec : OpenSpec} {disk' : Disk}

theorem perform_refused {failure : Failure} (hopens : opens op = some (path, spec))
    (hopened : Service.opened kernel path spec service.disk = .error failure) (index : ℕ) :
    service.perform kernel index op = (.error failure, service) := by
  cases op with
  | openFile path' spec' | readFile path' inlineMax | writeFile path' data =>
      obtain ⟨rfl, rfl⟩ := Prod.mk.inj (Option.some.inj hopens)
      simp only [Service.perform, hopened]
  | _ => cases hopens

theorem modal_of_opens (hopens : opens op = some (path, spec)) (hmodal : opensModal op = true) :
    modal spec = true := by
  cases op with
  | openFile path' spec' =>
      obtain ⟨rfl, rfl⟩ := Prod.mk.inj (Option.some.inj hopens)
      exact hmodal
  | readFile path' inlineMax | writeFile path' data =>
      obtain ⟨rfl, rfl⟩ := Prod.mk.inj (Option.some.inj hopens)
      rfl
  | _ => cases hopens

/-- The open on the disk, as the service opens. -/
theorem openAnswers_opened (hmodal : modal spec = true)
    (hans : openAnswers kernel fd path spec disk = (ans, disk')) :
    (∃ failure errno, Service.opened kernel path spec disk = .error failure ∧
      failure.Shown (.os errno) ∧ ans.openFd = .error errno ∧ disk' = disk) ∨
    ∃ flags, stdFlags (openOptions spec) = some flags ∧ ans.openFd = .ok fd ∧
      Service.opened kernel path spec disk = .ok (⟨path, flags⟩, disk') := by
  unfold openAnswers at hans
  unfold Service.opened
  rw [stdFlags_wanted hmodal] at *
  by_cases hnul : 0 ∈ path
  · rw [if_pos hnul] at hans ⊢
    obtain ⟨rfl, rfl⟩ := Prod.mk.inj hans
    exact .inl ⟨.invalidInput, einval, rfl, rfl, rfl, rfl⟩
  · rw [if_neg hnul] at hans ⊢
    cases hwanted : wanted spec with
    | none =>
        rw [hwanted] at hans
        obtain ⟨rfl, rfl⟩ := Prod.mk.inj hans
        exact .inl ⟨.invalidInput, einval, rfl, rfl, rfl, rfl⟩
    | some flags =>
        simp only [hwanted] at hans
        cases hopen : openAt kernel ⟨path, flags⟩ disk with
        | error errno =>
            simp only [hopen] at hans
            obtain ⟨rfl, rfl⟩ := Prod.mk.inj hans
            exact .inl ⟨.os errno, errno, by simp only [hopen]; rfl, rfl, rfl, rfl⟩
        | ok after =>
            simp only [hopen] at hans
            obtain ⟨rfl, rfl⟩ := Prod.mk.inj hans
            exact .inr ⟨flags, rfl, rfl, by simp only [hopen]; rfl⟩

/-- What a node of the service was opened with. -/
theorem opened_flags (hopened : Service.opened kernel path spec disk = .ok (node, after)) :
    ∃ flags, wanted spec = some flags ∧ node = ⟨path, flags⟩ ∧
      openAt kernel node disk = .ok after := by
  unfold Service.opened at hopened
  split at hopened
  · cases hopened
  · split at hopened
    · cases hopened
    · next flags hwanted =>
        cases hopen : openAt kernel ⟨path, flags⟩ disk with
        | error errno =>
            rw [hopen] at hopened
            cases hopened
        | ok next =>
            rw [hopen] at hopened
            obtain ⟨rfl, rfl⟩ := Prod.mk.inj (Except.ok.inj hopened)
            exact ⟨flags, hwanted, rfl, hopen⟩

/-- A file opened to be written anew is empty. -/
theorem openAt_anew (hcreate : node.flags.create = true) (htruncate : node.flags.truncate = true)
    (hexclusive : node.flags.exclusive = false) (hopen : openAt kernel node disk = .ok after) :
    after = store node [] disk := by
  unfold openAt at hopen
  simp only [hcreate, htruncate, hexclusive, if_true, Bool.and_false, Bool.false_eq_true,
    if_false] at hopen
  split at hopen
  · cases hopen
  · split at hopen <;> exact (Except.ok.inj hopen).symm

/-- Writing nothing to an empty file changes nothing. -/
theorem write_nothing (hwrite : node.flags.write = true) :
    write kernel node 0 [] (store node [] disk) = .ok (store node [] disk) := by
  have hcontent : content node (store node [] disk) = [] := by
    rw [content, store, Function.update_self]
    rfl
  have hflag : ¬node.flags.write = false := by simp [hwrite]
  have hroom : ¬kernel.limit < (0 : ℤ).toNat + ([] : List Byte).length := Nat.not_lt_zero _
  rw [FileService.write, if_neg hflag, if_neg (by decide), if_neg hroom, hcontent,
    Binary.splice, if_pos rfl, store, store, Function.update_idem]

theorem goes_writeFile {data : Payload} {path' : Path}
    (hwrite : write kernel node 0 data.asSlice disk = .ok after)
    (hnothing : data.isEmpty = true → after = disk) :
    Goes kernel node (.writeFile path' data) fd (.writing fd) disk
      (.ok (.written data.len data.len)) after := by
  refine .closes {} _ ?_ fun state task htasks hop hstage hlive => ?_
  · simp only [callAnswers]
    split
    · next hempty => rw [hnothing hempty]
    · rw [hwrite]
      rfl
  · simp only [State.poll, htasks, List.getElem?_cons_zero, hstage]
    simp only [State.orFail, State.wrote, hop]

theorem goes_writeFile_error {data : Payload} {path' : Path} {errno : Errno}
    (hwrite : write kernel node 0 data.asSlice disk = .error errno)
    (hsome : data.isEmpty = false) :
    Goes kernel node (.writeFile path' data) fd (.writing fd) disk (.error (.os errno)) disk := by
  refine goes_refused (.inl rfl) ?_
  simp only [callAnswers, hsome, Bool.false_eq_true, if_false, hwrite]
  rfl

/-- A poll of a task whose open is answered. -/
theorem came_opening (halone : Alone [task] [] state) (hcb : task.cb = id)
    (hstage : task.stage = .opening) (hop : task.op = op)
    (hopens : opens op = some (path, spec)) (hready : Ready kernel service calls bound state)
    (hnumber : ∀ number, task.openId = some number → bound ≤ number ∧ number < state.nextId)
    (hopenId : task.openId.isSome = (openIdFor op 0).isSome)
    (hmodal : opensModal op = true) (hdisk : disk = service.disk)
    (hans : openAnswers kernel fd path spec disk = (ans, disk'))
    (hfresh : fresh ans state = true) (hpoll : state.poll ans 0 = some next) :
    Came kernel service calls id op disk' state next := by
  subst hdisk
  simp only [State.poll, halone.tasks, List.getElem?_cons_zero, hstage] at hpoll
  have hnext := Option.some.inj hpoll
  rcases openAnswers_opened (modal_of_opens hopens hmodal) hans with
    ⟨failure, errno, hopened, hshown, hopenFd, rfl⟩ | ⟨flags, hflags, hopenFd, hopened⟩
  · rw [hopenFd] at hnext
    rw [← hnext]
    exact came_finish halone hcb hready none
      ⟨⟨_, perform_refused hopens hopened _, failure, rfl, hshown⟩, rfl⟩
  · rw [hopenFd] at hnext
    have hunlisted : Unlisted fd state := by
      rw [fresh, hopenFd] at hfresh
      exact unlisted_of_fresh (of_decide_eq_true hfresh)
    obtain ⟨mid, hmid⟩ : ∃ mid, state.emit (.opened fd path spec) = mid := ⟨_, rfl⟩
    have hsince : Since id none state mid := by
      rw [← hmid]
      exact ⟨[_], rfl, rfl⟩
    have halone' : Alone [task] [] mid := by
      rw [← hmid]
      exact { halone with tasks := halone.tasks }
    have hready' : Ready kernel service calls bound mid := by
      rw [← hmid]
      refine hready.kept rfl (Nat.le_refl _) fun handle fd' hlookup => ?_
      exact if_neg fun hsame : fd = fd' => hunlisted handle (hsame ▸ hlookup)
    have hnode : nodeOf fd mid.log = some ⟨path, flags⟩ := by
      rw [← hmid]
      refine (if_pos rfl).trans ?_
      rw [hflags]
      rfl
    have hnumber' : ∀ number, task.openId = some number → bound ≤ number ∧ number < mid.nextId := by
      rw [← hmid]
      exact hnumber
    refine .since hsince ?_
    rw [← hnext]
    cases op with
    | openFile path' spec' =>
        obtain ⟨rfl, rfl⟩ := Prod.mk.inj (Option.some.inj hopens)
        obtain ⟨number, hnumbered⟩ := Option.isSome_iff_exists.mp (hopenId.trans rfl)
        simp only [State.orFail, State.openedFile, hop, hmid]
        exact came_suspend halone' hcb (.opened bound number fd _ rfl hop (hready'.suspended _ _)
          (hnumber' number hnumbered) hnumbered hnode (.inl ⟨_, _, rfl, hopened⟩))
    | readFile path' inlineMax =>
        obtain ⟨rfl, rfl⟩ := Prod.mk.inj (Option.some.inj hopens)
        obtain ⟨number, hnumbered⟩ := Option.isSome_iff_exists.mp (hopenId.trans rfl)
        simp only [State.orFail, State.openedFile, hop, hmid]
        exact came_suspend halone' hcb (.opened bound number fd _ rfl hop (hready'.suspended _ _)
          (hnumber' number hnumbered) hnumbered hnode (.inr ⟨_, _, rfl, hopened⟩))
    | writeFile path' data =>
        obtain ⟨rfl, rfl⟩ := Prod.mk.inj (Option.some.inj hopens)
        simp only [State.orFail, State.openedFile, hop, hmid]
        obtain ⟨flags', hwanted, hsame, hopen⟩ := opened_flags hopened
        obtain ⟨-, rfl⟩ := Node.mk.inj hsame
        have hanew : disk' = store ⟨path', flags⟩ [] service.disk :=
          openAt_anew (congrArg OpenFlags.create (Option.some.inj hwanted)).symm
            (congrArg OpenFlags.truncate (Option.some.inj hwanted)).symm
            (congrArg OpenFlags.exclusive (Option.some.inj hwanted)).symm hopen
        have hnothing : data.isEmpty = true →
            write kernel ⟨path', flags⟩ 0 data.asSlice disk' = .ok disk' := by
          intro hempty
          have hslice : data.asSlice = [] :=
            List.eq_nil_of_length_eq_zero (beq_iff_eq.mp hempty)
          rw [hslice, hanew]
          exact write_nothing (congrArg OpenFlags.write (Option.some.inj hwanted)).symm
        cases hwrite : write kernel ⟨path', flags⟩ 0 data.asSlice disk' with
        | error errno =>
            have hsome : data.isEmpty = false := by
              by_contra hempty
              rw [hnothing (by simpa using hempty)] at hwrite
              cases hwrite
            refine came_suspend halone' hcb (.call bound fd _ (.error (.os errno)) disk' rfl hnode
              (hready'.suspended _ _) ?_ ⟨⟨.error (.os errno), ?_, .os errno, rfl, rfl⟩, rfl⟩)
            · change Goes kernel _ task.op fd (.writing fd) disk' _ disk'
              rw [hop]
              exact goes_writeFile_error hwrite hsome
            · simp only [Service.perform, hopened, Service.change, hwrite]
        | ok after =>
            refine came_suspend halone' hcb (.call bound fd _ (.ok (.written data.len data.len))
              after rfl hnode (hready'.suspended _ _) ?_
              ⟨⟨.ok (.written data.len data.len), ?_, _, rfl, rfl⟩, rfl⟩)
            · change Goes kernel _ task.op fd (.writing fd) disk' _ after
              rw [hop]
              refine goes_writeFile hwrite fun hempty => ?_
              rw [hnothing hempty] at hwrite
              exact (Except.ok.inj hwrite).symm
            · simp only [Service.perform, hopened, Service.change, hwrite]
    | _ => cases hopens

theorem goes_readAll {path' : Path} {inlineMax : ℕ} (hflag : node.flags.read = true) :
    Goes kernel node (.readFile path' inlineMax) fd (.readingToEnd fd) disk
      (.ok (.bytes (content node disk))) disk := by
  refine .closes { data := .ok (content node disk) } _ ?_
    fun state task htasks hop hstage hlive => ?_
  · rw [callAnswers]
    exact congrArg (fun data => (({ data := data } : Answers), disk))
      (read_all hflag (Nat.le_refl _))
  · simp only [State.poll, htasks, List.getElem?_cons_zero, hstage]
    simp only [State.orFail, State.readAll, hop]

/-- The size of a file that has been opened for the caller, or to be read whole. -/
theorem came_opened {number : Handle} (halone : Alone [task] [] state) (hcb : task.cb = id)
    (hstage : task.stage = .statting fd) (hop : task.op = op)
    (hready : Ready kernel service calls bound state)
    (hnumber : bound ≤ number ∧ number < state.nextId) (hopenId : task.openId = some number)
    (hnode : nodeOf fd state.log = some node)
    (hopened : (∃ path spec, op = .openFile path spec ∧
        Service.opened kernel path spec service.disk = .ok (node, disk)) ∨
      ∃ path inlineMax, op = .readFile path inlineMax ∧
        Service.opened kernel path { read := true } service.disk = .ok (node, disk))
    (hpoll : state.poll { stat := .ok (FileService.stat node disk) } 0 = some next) :
    Came kernel service calls id op disk state next := by
  simp only [State.poll, halone.tasks, List.getElem?_cons_zero, hstage, State.orFail] at hpoll
  rw [← Option.some.inj hpoll]
  rcases hopened with ⟨path, spec, rfl, hopened⟩ | ⟨path, inlineMax, rfl, hopened⟩
  · simp only [State.statted, hop]
    refine came_insert halone hcb hopenId hready hnumber hnode rfl ?_
    simp only [Service.perform, hopened]
  · simp only [State.statted, hop]
    by_cases hlarge : inlineMax < (FileService.stat node disk).size
    · rw [if_pos hlarge]
      refine came_insert halone hcb hopenId hready hnumber hnode rfl ?_
      simp only [Service.perform, hopened, if_pos hlarge]
    · rw [if_neg hlarge]
      obtain ⟨flags, hwanted, rfl, -⟩ := opened_flags hopened
      refine came_suspend halone hcb (.call bound fd _ (.ok (.bytes (content ⟨path, flags⟩ disk)))
        disk rfl hnode (hready.suspended _ _) ?_
        ⟨⟨.ok (.bytes (content ⟨path, flags⟩ disk)), ?_, _, rfl, rfl⟩, rfl⟩)
      · change Goes kernel _ task.op fd (.readingToEnd fd) disk _ disk
        rw [hop]
        exact goes_readAll (congrArg OpenFlags.read (Option.some.inj hwanted)).symm
      · simp only [Service.perform, hopened, if_neg hlarge]

end Opening

/-! ## The calls of an op on a handle -/

section Handles

variable {slot : Handle} {pos size : ℕ} {data : Payload} {dest : Dest} {append dataOnly : Bool}

theorem goes_size :
    Goes kernel node (.size slot) fd (.statting fd) disk
      (.ok (.size (FileService.stat node disk).size)) disk := by
  refine .ends { stat := .ok (FileService.stat node disk) } rfl
    fun state task htasks hop hstage hlive => ?_
  simp only [State.poll, htasks, List.getElem?_cons_zero, hstage, State.orFail, State.statted, hop]

theorem goes_sync :
    Goes kernel node (.sync slot dataOnly) fd (.syncing fd) disk (.ok .unit) disk := by
  refine .ends {} rfl fun state task htasks hop hstage hlive => ?_
  simp only [State.poll, htasks, List.getElem?_cons_zero, hstage, State.orFail]

/-- The outcome of a call that changes the disk. -/
def changed (reply : Reply) : Except Errno Disk → Outcome
  | .error errno => .error (.os errno)
  | .ok _ => .ok reply

def changedDisk (disk : Disk) : Except Errno Disk → Disk
  | .error _ => disk
  | .ok after => after

theorem goes_setLen {called : Except Errno Disk}
    (hcalled : truncate kernel node (asOffT size) disk = called) :
    Goes kernel node (.setLen slot size) fd (.resizing fd) disk (changed .unit called)
      (changedDisk disk called) := by
  cases called with
  | error errno =>
      refine goes_refused (.inr (.inr rfl)) ?_
      simp only [callAnswers, hcalled]
      rfl
  | ok after =>
      refine .ends {} ?_ fun state task htasks hop hstage hlive => ?_
      · simp only [callAnswers, hcalled]
        rfl
      · simp only [State.poll, htasks, List.getElem?_cons_zero, hstage, State.orFail, changed]

/-- A write of nothing, or at a position. -/
theorem goes_write_nothing (hnothing : data.isEmpty = true) :
    Goes kernel node (.writeAt slot pos data append) fd (.writing fd) disk
      (.ok (.written data.len (u64Add pos data.len))) disk := by
  refine .ends {} ?_ fun state task htasks hop hstage hlive => ?_
  · simp only [callAnswers, hnothing, if_true]
  · simp only [State.poll, htasks, List.getElem?_cons_zero, hstage, State.orFail, State.wrote, hop]

theorem goes_write {called : Except Errno Disk} (hsome : data.isEmpty = false)
    (hcalled : write kernel node (asOffT pos) data.asSlice disk = called) :
    Goes kernel node (.writeAt slot pos data append) fd (.writing fd) disk
      (changed (.written data.len (u64Add pos data.len)) called) (changedDisk disk called) := by
  cases called with
  | error errno =>
      refine goes_refused (.inl rfl) ?_
      simp only [callAnswers, hsome, Bool.false_eq_true, if_false, hcalled]
      rfl
  | ok after =>
      refine .ends {} ?_ fun state task htasks hop hstage hlive => ?_
      · simp only [callAnswers, hsome, Bool.false_eq_true, if_false, hcalled]
        rfl
      · simp only [State.poll, htasks, List.getElem?_cons_zero, hstage, State.orFail, State.wrote,
          hop, changed]

/-- A write at the end asks where that is. -/
theorem goes_appended :
    Goes kernel node (.writeAt slot pos data append) fd (.statting fd) disk
      (.ok (.written data.len (FileService.stat node disk).size)) disk := by
  refine .ends { stat := .ok (FileService.stat node disk) } rfl
    fun state task htasks hop hstage hlive => ?_
  simp only [State.poll, htasks, List.getElem?_cons_zero, hstage, State.orFail, State.statted, hop]

theorem goes_append_nothing (hnothing : data.isEmpty = true) :
    Goes kernel node (.writeAt slot pos data append) fd (.appending fd) disk
      (.ok (.written data.len (FileService.stat node disk).size)) disk := by
  refine .more {} (.statting fd) rfl ?_ (fun state task htasks hop hstage hlive => ?_) goes_appended
  · simp only [callAnswers, hnothing, if_true]
  · simp only [State.poll, htasks, List.getElem?_cons_zero, hstage, State.orFail]

theorem goes_append_error {errno : Errno} (hsome : data.isEmpty = false)
    (hextend : extend kernel node data.asSlice disk = .error errno) :
    Goes kernel node (.writeAt slot pos data append) fd (.appending fd) disk
      (.error (.os errno)) disk := by
  refine goes_refused (.inr (.inl rfl)) ?_
  simp only [callAnswers, hsome, Bool.false_eq_true, if_false, hextend]
  rfl

theorem goes_append (hsome : data.isEmpty = false)
    (hextend : extend kernel node data.asSlice disk = .ok after) :
    Goes kernel node (.writeAt slot pos data append) fd (.appending fd) disk
      (.ok (.written data.len (FileService.stat node after).size)) after := by
  refine .more {} (.statting fd) rfl ?_ (fun state task htasks hop hstage hlive => ?_) goes_appended
  · simp only [callAnswers, hsome, Bool.false_eq_true, if_false, hextend]
    rfl
  · simp only [State.poll, htasks, List.getElem?_cons_zero, hstage, State.orFail]

/-- The outcome of a call that only looks. -/
def looked {α : Type} (reply : α → Reply) : Except Errno α → Outcome
  | .error errno => .error (.os errno)
  | .ok value => .ok (reply value)

theorem goes_readToEnd :
    Goes kernel node (.readToEnd slot pos) fd (.statting fd) disk
      (looked .bytes (read node (asOffT pos) (FileService.stat node disk).size disk)) disk := by
  refine .more { stat := .ok (FileService.stat node disk) } (.readingToEnd fd) rfl rfl
    (fun state task htasks hop hstage hlive => ?_) ?_
  · simp only [State.poll, htasks, List.getElem?_cons_zero, hstage, State.orFail, State.statted,
      hop]
  · refine .ends { data := read node (asOffT pos) (FileService.stat node disk).size disk } rfl
      fun state task htasks hop hstage hlive => ?_
    simp only [State.poll, htasks, List.getElem?_cons_zero, hstage]
    cases read node (asOffT pos) (FileService.stat node disk).size disk with
    | error errno => rfl
    | ok data => simp only [State.orFail, State.readAll, hop, looked]

/-- The bytes of a read, as its caller asked for them. -/
def replied (dest : Dest) (data : List Byte) : Reply :=
  match dest with
  | .alloc _ => .bytes data
  | .into _ _ => .read data.length

/-- Nothing more to read. -/
theorem goes_readAt_end {buf : Buf} (hmem : buf.mem.length = buf.len)
    (hread : read node (asOffT (u64Add pos buf.len)) buf.cap disk = .ok []) :
    Goes kernel node (.readAt slot pos dest) fd (.reading fd buf) disk
      (.ok (replied dest buf.mem)) disk := by
  refine .ends { data := .ok [] } ?_ fun state task htasks hop hstage hlive => ?_
  · simp only [callAnswers, hread]
  · simp only [State.poll, htasks, List.getElem?_cons_zero, hstage, hop, State.orFail, if_true]
    cases dest with
    | alloc len => rw [← hmem, List.take_length]; rfl
    | into base len => rw [← hmem]; rfl

theorem readUpTo_eq (hlive : state.cancelled task.id = false) (cap : ℕ) (data : List Byte) :
    state.readUpTo 0 task fd dest ⟨cap, data.length, data⟩ =
      if dest.asked ≤ data.length then
        state.finish 0 task (some fd) (.ok (replied dest data))
      else state.suspend 0 task (.reading fd ⟨cap, data.length, data⟩) := by
  cases dest with
  | alloc len =>
      simp only [State.readUpTo, hlive, Bool.false_eq_true, if_false, List.take_length]
      rfl
  | into base len =>
      simp only [State.readUpTo, hlive, Bool.false_eq_true, if_false]
      rfl

theorem goes_readAt (hpos : pos < 2 ^ 64) (hfile : (content node disk).length < 2 ^ 63) :
    Goes kernel node (.readAt slot pos dest) fd (.reading fd ⟨dest.asked, 0, []⟩) disk
      (looked (replied dest) (read node (asOffT pos) dest.asked disk)) disk := by
  have hcall : callAnswers kernel (.readAt slot pos dest) (.reading fd ⟨dest.asked, 0, []⟩) node
      disk = ({ data := read node (asOffT pos) dest.asked disk }, disk) := by
    simp only [callAnswers, asOffT_start hpos]
  cases hread : read node (asOffT pos) dest.asked disk with
  | error errno =>
      refine .ends _ hcall fun state task htasks hop hstage hlive => ?_
      simp only [State.poll, htasks, List.getElem?_cons_zero, hstage, hop, hread, State.orFail,
        looked]
  | ok data =>
      by_cases hnone : data = []
      · rw [hnone] at hread ⊢
        refine goes_readAt_end rfl ?_
        rw [asOffT_start hpos]
        exact hread
      · have hfill : (⟨dest.asked, 0, []⟩ : Buf).fill data =
            ⟨dest.asked, data.length, data⟩ := by
          simp only [Buf.fill, Nat.zero_max, List.drop_nil, List.append_nil]
        have hpolled : ∀ (state : State) (task : Task), state.tasks = [task] →
            task.op = .readAt slot pos dest →
            task.stage = .reading fd ⟨dest.asked, 0, []⟩ → state.cancelled task.id = false →
            state.poll { data := read node (asOffT pos) dest.asked disk } 0 =
              some (state.readUpTo 0 task fd dest ⟨dest.asked, data.length, data⟩) := by
          intro state task htasks hop hstage hlive
          simp only [State.poll, htasks, List.getElem?_cons_zero, hstage, hop, hread, State.orFail,
            if_neg hnone, hfill]
        by_cases hfull : dest.asked ≤ data.length
        · refine .ends _ hcall fun state task htasks hop hstage hlive => ?_
          rw [hpolled state task htasks hop hstage hlive, readUpTo_eq hlive, if_pos hfull]
          rfl
        · refine .more _ (.reading fd ⟨dest.asked, data.length, data⟩) rfl hcall
            (fun state task htasks hop hstage hlive => ?_) (goes_readAt_end rfl ?_)
          · rw [hpolled state task htasks hop hstage hlive, readUpTo_eq hlive, if_neg hfull]
          · obtain ⟨hflag, hoffset, hdata⟩ := read_ok hread
            obtain ⟨hplace, hsame⟩ := pos_of_nonneg hpos hoffset
            rw [hsame] at hdata
            have hlength : data.length = min dest.asked ((content node disk).length - pos) := by
              rw [hdata, Binary.slice, List.length_take, List.length_drop]
            have hsome : 0 < data.length := List.length_pos_iff.mpr hnone
            -- a short read has come to the end of the file
            have hend : pos + data.length = (content node disk).length := by omega
            change read node (asOffT (u64Add pos data.length)) dest.asked disk = _
            rw [u64Add_eq (by omega), hend, asOffT_eq hfile]
            exact read_end hflag (Int.natCast_nonneg _) (Int.le_refl _) _

end Handles

/-! ## Any op -/

section Spawned

variable {slot : ℕ}

theorem due_change {called : Except Errno Disk} {answer : Disk → Answer} {reply : Reply}
    (hnamed : named op = some slot) (hslot : service.nodes slot = some node)
    (hon : service.onNode kernel op slot node = service.change called answer)
    (hshows : ∀ disk, called = .ok disk → (answer disk).Shown reply)
    (hreturned : returned (op, .ok reply) = none) :
    Due kernel service calls op (changed reply called) (changedDisk service.disk called) := by
  cases called with
  | error errno => exact due_onNode hnamed hslot hon ⟨.os errno, rfl, rfl⟩ rfl
  | ok disk => exact due_onNode hnamed hslot hon ⟨_, rfl, hshows disk rfl⟩ hreturned

theorem due_look {α : Type} {called : Except Errno α} {answer : α → Answer} {reply : α → Reply}
    (hnamed : named op = some slot) (hslot : service.nodes slot = some node)
    (hon : service.onNode kernel op slot node = service.look (called.map answer))
    (hshows : ∀ value, (answer value).Shown (reply value))
    (hreturned : ∀ value, returned (op, .ok (reply value)) = none) :
    Due kernel service calls op (looked reply called) service.disk := by
  cases called with
  | error errno => exact due_onNode hnamed hslot hon ⟨.os errno, rfl, rfl⟩ rfl
  | ok value => exact due_onNode hnamed hslot hon ⟨_, rfl, hshows value⟩ (hreturned value)

/-- A task that waits for the call of its handle. -/
theorem came_goes (halone : Alone [task] [] state) (hcb : task.cb = id)
    (hop : task.op = on handle op) (hready : Ready kernel service calls bound state)
    (hnode : nodeOf fd state.log = some node) {stage : Stage} (hfd : stage.fd = some fd)
    (hgoes : Goes kernel node (on handle op) fd stage service.disk outcome after)
    (hdue : Due kernel service calls op outcome after) :
    Came kernel service calls id op service.disk state (state.suspend 0 task stage) := by
  refine came_suspend halone hcb (.call bound fd node outcome after hfd hnode
    (hready.suspended _ _) ?_ hdue)
  rw [← hop] at hgoes
  exact hgoes

/-- A read starts at the head of the loop. -/
theorem came_readAt {slot' pos : ℕ} {dest : Dest} (halone : Alone [task] [] state)
    (hcb : task.cb = id) (hop : task.op = on handle (.readAt slot' pos dest))
    (hready : Ready kernel service calls bound state)
    (hnamed : named (.readAt slot' pos dest) = some slot)
    (hslot : service.nodes slot = some node) (hpos : pos < 2 ^ 64)
    (hnode : nodeOf fd state.log = some node) :
    Came kernel service calls id (.readAt slot' pos dest) service.disk state
      (state.readUpTo 0 task fd dest ⟨dest.asked, 0, []⟩) := by
  have hfile : (content node service.disk).length < 2 ^ 63 :=
    (hready.fits.content_le node).trans_lt kernel.limit_lt
  have hhead : state.readUpTo 0 task fd dest ⟨dest.asked, 0, []⟩ =
      if dest.asked ≤ 0 then state.finish 0 task (some fd) (.ok (replied dest []))
      else state.suspend 0 task (.reading fd ⟨dest.asked, 0, []⟩) :=
    readUpTo_eq (cancelled_eq halone task.id) dest.asked []
  rw [hhead]
  by_cases hnone : dest.asked = 0
  · rw [if_pos (Nat.le_of_eq hnone)]
    refine came_finish halone hcb hready _
      (due_onNode hnamed hslot ?_ ⟨delivered [] dest, rfl, ?_⟩ ?_)
    · simp only [Service.onNode, hnone, if_true]
      rfl
    · cases dest <;> rfl
    · cases dest <;> rfl
  · have hon : service.onNode kernel (.readAt slot' pos dest) slot node =
        service.look ((read node (asOffT pos) dest.asked service.disk).map fun data =>
          delivered data dest) := by
      simp only [Service.onNode, if_neg hnone]
    rw [if_neg (by omega)]
    refine came_goes halone hcb hop hready hnode rfl (goes_readAt hpos hfile)
      (due_look hnamed hslot hon (fun data => ?_) fun data => ?_)
    · cases dest <;> rfl
    · cases dest <;> rfl

/-- The file of a handle is closed. -/
theorem came_close (halone : Alone [task] [] state) (hcb : task.cb = id)
    (hready : Ready kernel service calls bound state)
    (hnames : Names calls slot handle) (hslot : service.nodes slot = some node) :
    Came kernel service calls id (.close slot) service.disk state
      (({ state with files := state.files.erase handle }).suspend 0 task
        (.closing fd .unit)) := by
  have hreturned : handleOf calls slot = some handle := hready.table.slot_of_names hnames hslot
  obtain ⟨mid, hmid⟩ : ∃ mid, ({ state with files := state.files.erase handle } : State) = mid :=
    ⟨_, rfl⟩
  have halone' : Alone [task] [] mid := by
    rw [← hmid]
    exact { halone with tasks := halone.tasks }
  have hsame : ∀ other, nodeFor other mid =
      Function.update (fun handle => nodeFor handle state) handle none other := by
    intro other
    by_cases hother : other = handle
    · rw [hother, Function.update_self, nodeFor, ← hmid, AList.lookup_erase]
      rfl
    · rw [Function.update_of_ne hother, nodeFor, ← hmid, AList.lookup_erase_ne hother]
      rfl
  have hready' : Ready kernel { service with
      nodes := Function.update service.nodes slot none } calls bound mid := by
    refine ⟨fun other fd' hother => ?_, ?_, ?_, hready.fits⟩
    · rw [← hmid] at hother ⊢
      by_cases hclosed : other = handle
      · rw [hclosed, AList.lookup_erase] at hother
        cases hother
      · rw [AList.lookup_erase_ne hclosed] at hother
        exact hready.rows other fd' hother
    · rw [funext hsame]
      exact hready.table.closed hreturned
    · rw [← hmid]
      exact hready.numbers
  rw [hmid]
  refine .goesOn ⟨[], by rw [← hmid]; rfl, rfl⟩ ⟨_, suspended halone' _, hcb, ?_⟩
  exact .closing bound fd .unit (.ok .unit) _ rfl (Service.perform_known rfl hslot _)
    ⟨_, rfl, rfl⟩ rfl (hready'.suspended _ _) rfl

theorem came_known (halone : Alone [task] [] state) (hcb : task.cb = id)
    (hop : task.op = on handle op) (hready : Ready kernel service calls bound state)
    (hnamed : named op = some slot) (hnames : Names calls slot handle)
    (hslot : service.nodes slot = some node) (hsuits : suits (some node) op = true)
    (hlookup : state.files.lookup handle = some fd) (hnode : nodeOf fd state.log = some node) :
    Came kernel service calls id op service.disk state (state.execute 0 task) := by
  have hlive := cancelled_eq halone task.id
  simp only [State.execute, hlive, Bool.false_eq_true, if_false, hop]
  cases op with
  | openFile | readFile | writeFile | nop => cases hnamed
  | close slot' =>
      obtain rfl := Option.some.inj hnamed
      simp only [on, hlookup]
      exact came_close halone hcb hready hnames hslot
  | size slot' =>
      simp only [on, State.withFile, hlookup]
      exact came_goes halone hcb hop hready hnode rfl goes_size
        (due_onNode hnamed hslot rfl ⟨_, rfl, rfl⟩ rfl)
  | sync slot' dataOnly =>
      simp only [on, State.withFile, hlookup]
      exact came_goes halone hcb hop hready hnode rfl goes_sync
        (due_onNode hnamed hslot rfl ⟨_, rfl, rfl⟩ rfl)
  | setLen slot' size =>
      simp only [on, State.withFile, hlookup]
      exact came_goes halone hcb hop hready hnode rfl (goes_setLen rfl)
        (due_change hnamed hslot rfl (fun _ _ => rfl) rfl)
  | readToEnd slot' pos =>
      simp only [on, State.withFile, hlookup]
      exact came_goes halone hcb hop hready hnode rfl goes_readToEnd
        (due_look hnamed hslot rfl (fun _ => rfl) fun _ => rfl)
  | readAt slot' pos dest =>
      simp only [on, State.withFile, hlookup]
      cases dest <;>
        exact came_readAt halone hcb hop hready hnamed hslot (of_decide_eq_true hsuits) hnode
  | writeAt slot' pos data append =>
      obtain ⟨hpos, happend⟩ := (Bool.and_eq_true _ _).mp hsuits
      have hpos := of_decide_eq_true hpos
      simp only [on, State.withFile, hlookup]
      by_cases hnone : data.isEmpty = true
      · have hlen : data.len = 0 := beq_iff_eq.mp hnone
        cases append with
        | true =>
            refine came_goes halone hcb hop hready hnode rfl (goes_append_nothing hnone)
              (due_onNode hnamed hslot ?_ ⟨.written 0 _, rfl, by rw [hlen]; rfl⟩ rfl)
            simp only [Service.onNode, hlen, if_true]
            rfl
        | false =>
            refine came_goes halone hcb hop hready hnode rfl (goes_write_nothing hnone)
              (due_onNode hnamed hslot ?_ ⟨.written 0 pos, rfl, ?_⟩ rfl)
            · simp only [Service.onNode, hlen, if_true]
              rfl
            · rw [hlen, u64Add_eq hpos]
              rfl
      · have hlen : ¬data.len = 0 := fun hzero => hnone (beq_iff_eq.mpr hzero)
        have hsome : data.isEmpty = false := Bool.eq_false_iff.mpr hnone
        cases append with
        | true =>
            cases hextend : extend kernel node data.asSlice service.disk with
            | error errno =>
                refine came_goes halone hcb hop hready hnode rfl (goes_append_error hsome hextend)
                  (due_onNode hnamed hslot ?_ ⟨.os errno, rfl, rfl⟩ rfl)
                simp only [Service.onNode, if_neg hlen, if_true, hextend, Service.change]
            | ok after =>
                refine came_goes halone hcb hop hready hnode rfl (goes_append hsome hextend)
                  (due_onNode hnamed hslot ?_ ⟨_, rfl, rfl⟩ rfl)
                simp only [Service.onNode, if_neg hlen, if_true, hextend, Service.change]
        | false =>
            have hon : service.onNode kernel (.writeAt slot' pos data false) slot node =
                service.change (write kernel node (asOffT pos) data.asSlice service.disk)
                  fun _ => .written data.len (pos + data.len) := by
              simp only [Service.onNode, if_neg hlen, Bool.false_eq_true, if_false]
            refine came_goes halone hcb hop hready hnode rfl (goes_write hsome rfl)
              (due_change hnamed hslot hon (fun disk hwrite => ?_) rfl)
            exact congrArg (Answer.written data.len) (write_end hpos hwrite).symm

/-- The first poll of a task. -/
theorem came_spawned (halone : Alone [task] [] state) (hcb : task.cb = id)
    (hop : task.op = on handle op) (hready : Ready kernel service calls bound state)
    (hnumber : ∀ number, task.openId = some number → bound ≤ number ∧ number < state.nextId)
    (hopenId : task.openId.isSome = (openIdFor op 0).isSome)
    (hnames : ∀ slot ∈ named op, Names calls slot handle)
    (hsuits : suits (nodeFor handle state) op = true) (hmodal : opensModal op = true) :
    Came kernel service calls id op service.disk state (state.execute 0 task) := by
  have hlive := cancelled_eq halone task.id
  cases hnamed : named op with
  | none =>
      simp only [State.execute, hlive, Bool.false_eq_true, if_false, hop]
      cases op with
      | nop => exact came_finish halone hcb hready none ⟨⟨_, rfl, _, rfl, rfl⟩, rfl⟩
      | openFile | readFile | writeFile =>
          exact came_suspend halone hcb (.opening bound rfl hop rfl (hready.suspended _ _) hnumber
            hopenId hmodal rfl)
      | _ => cases hnamed
  | some slot =>
      have hslot := hready.table.resolves (hnames slot hnamed)
      cases hlookup : state.files.lookup handle with
      | none =>
          rw [nodeFor_of_unlisted hlookup] at hslot
          have hexecute : state.execute 0 task = state.finish 0 task none (.error badHandle) := by
            simp only [State.execute, hlive, Bool.false_eq_true, if_false, hop]
            cases op with
            | openFile | readFile | writeFile | nop => cases hnamed
            | readAt slot' pos dest => cases dest <;> simp only [on, State.withFile, hlookup]
            | _ => simp only [on, State.withFile, hlookup]
          rw [hexecute]
          exact came_finish halone hcb hready none
            ⟨⟨_, Service.perform_unknown hnamed hslot _, .badHandle, rfl, rfl⟩, rfl⟩
      | some fd =>
          obtain ⟨node, hnode⟩ := Option.isSome_iff_exists.mp (hready.rows handle fd hlookup)
          rw [nodeFor_of_lookup hlookup, hnode] at hslot hsuits
          exact came_known halone hcb hop hready hnamed (hnames slot hnamed) hslot hsuits hlookup
            hnode

end Spawned

/-- A poll of the task of the op. -/
theorem Midway.poll (hmidway : Midway kernel service calls id op disk state)
    (hans : answers kernel fd 0 disk state = (ans, after)) (hfresh : fresh ans state = true)
    (hpoll : state.poll ans 0 = some next) :
    Came kernel service calls id op after state next := by
  obtain ⟨task, halone, hcb, hstands⟩ := hmidway
  have hget : state.tasks[0]? = some task := by
    rw [halone.tasks]
    rfl
  simp only [answers, hget] at hans
  cases hstands with
  | spawned handle bound hstage hop hready hnumber hopenId hnames hsuits hmodal hdisk =>
      simp only [hstage, Stage.fd] at hans
      obtain ⟨rfl, rfl⟩ := Prod.mk.inj hans
      simp only [State.poll, hget, hstage] at hpoll
      rw [← Option.some.inj hpoll, hdisk]
      exact came_spawned halone hcb hop hready hnumber hopenId hnames hsuits hmodal
  | opening bound hstage hop hopens hready hnumber hopenId hmodal hdisk =>
      obtain ⟨⟨path, spec⟩, hopens⟩ := Option.isSome_iff_exists.mp hopens
      simp only [hstage, Stage.fd, if_true, hop, hopens] at hans
      exact came_opening halone hcb hstage hop hopens hready hnumber hopenId hmodal hdisk hans
        hfresh hpoll
  | opened bound number fd' node hstage hop hready hnumber hopenId hnode hopened =>
      simp only [hstage, Stage.fd, hnode, callAnswers] at hans
      obtain ⟨rfl, rfl⟩ := Prod.mk.inj hans
      exact came_opened halone hcb hstage hop hready hnumber hopenId hnode hopened hpoll
  | call bound fd' node outcome after' hfd hnode hready hgoes hdue =>
      simp only [hfd, hnode] at hans
      exact came_call halone hcb hnode hready hgoes hdue hans hpoll
  | closing bound fd' reply result service' hstage hperform hshows hreturned hready hdisk =>
      have hnone : ans = {} ∧ after = disk := by
        simp only [hstage, Stage.fd] at hans
        split at hans <;> obtain ⟨rfl, rfl⟩ := Prod.mk.inj hans <;> exact ⟨rfl, rfl⟩
      obtain ⟨rfl, rfl⟩ := hnone
      exact came_closing halone hcb hstage hperform hshows hreturned hready hdisk hpoll

end Steps

/-! ## The machine -/

/-- Between two ops, at a message, or at a task. -/
inductive Standing (kernel : Kernel) (service : Service) (machine : Machine) : Prop
  | idle (bound : Handle) (hpending : machine.pending = none) (halone : Alone [] [] machine.state)
      (hready : Ready kernel service machine.calls bound machine.state)
      (hdisk : machine.disk = service.disk)
  | sent (bound : Handle) (id : OpId) (op : Op) (handle : Handle)
      (hpending : machine.pending = some (id, op))
      (halone : Alone [] [.submit id (on handle op) id] machine.state)
      (hready : Ready kernel service machine.calls bound machine.state)
      (hnames : ∀ slot ∈ named op, Names machine.calls slot handle)
      (hsuits : suits (nodeFor handle machine.state) op = true) (hmodal : opensModal op = true)
      (hdisk : machine.disk = service.disk)
  | working (id : OpId) (op : Op) (hpending : machine.pending = some (id, op))
      (hmidway : Midway kernel service machine.calls id op machine.disk machine.state)

def Serving (kernel : Kernel) (disk : Disk) (machine : Machine) : Prop :=
  ∃ service, Served kernel disk machine.calls service ∧ Standing kernel service machine

section Machine

variable {kernel : Kernel} {disk disk' : Disk} {service : Service} {machine after : Machine}
  {id : OpId} {op : Op} {next : State}

theorem newEvents_eq {state : State} {events : List Event} (hlog : next.log = events ++ state.log) :
    newEvents state next = events := by
  rw [newEvents, hlog, List.length_append, Nat.add_sub_cancel]
  exact List.take_left

/-- A poll of the task of the op. -/
theorem serving_came (hserved : Served kernel disk machine.calls service)
    (hpending : machine.pending = some (id, op))
    (hcame : Came kernel service machine.calls id op disk' machine.state next)
    (hafter : machine.after (some next) disk' = some after) : Serving kernel disk after := by
  obtain rfl := Option.some.inj hafter
  cases hcame with
  | replied outcome result service' hsince hperform hshows halone hready hdisk =>
      obtain ⟨events, hlog, hfound⟩ := hsince
      refine ⟨service', ?_⟩
      simp only [Machine.settle, hpending, newEvents_eq hlog, hfound]
      exact ⟨hserved.concat hperform hshows, .idle next.nextId rfl halone hready hdisk⟩
  | goesOn hsince hmidway =>
      obtain ⟨events, hlog, hnone⟩ := hsince
      refine ⟨service, ?_⟩
      simp only [Machine.settle, hpending, newEvents_eq hlog, hnone]
      exact ⟨hserved, .working id op rfl hmidway⟩

/-- An op is sent to the driver. -/
theorem sent_of_submit {state : State} {calls : Calls} {bound : Handle}
    (halone : Alone [] [] state) (hready : Ready kernel service calls bound state)
    (hstep : Compio.step state (.submit id op) = some next) :
    Alone [] [.submit id op id] next ∧ Ready kernel service calls bound next ∧
      ∀ handle, nodeFor handle next = nodeFor handle state := by
  have hlive : ¬state.submittersGone = true := by simp [halone.submitters]
  simp only [Compio.step] at hstep
  split at hstep
  · cases hstep
  · rw [State.send, if_neg hlive] at hstep
    rw [← Option.some.inj hstep]
    exact ⟨{ halone with rx := congrArg (· ++ [_]) halone.rx },
      hready.kept rfl (Nat.le_refl _) fun _ _ _ => rfl, fun _ => rfl⟩

/-- The message becomes a task. -/
theorem midway_of_recv {state : State} {calls : Calls} {bound handle : Handle}
    (halone : Alone [] [.submit id (on handle op) id] state)
    (hready : Ready kernel service calls bound state)
    (hnames : ∀ slot ∈ named op, Names calls slot handle)
    (hsuits : suits (nodeFor handle state) op = true) (hmodal : opensModal op = true)
    (hstep : state.recv = some next) :
    Since id none state next ∧ Midway kernel service calls id op service.disk next := by
  have hlive : ¬state.returned = true := by simp [halone.running]
  rw [State.recv, if_neg hlive, halone.rx] at hstep
  have hnext := Option.some.inj hstep
  rw [← hnext]
  refine ⟨⟨[_], rfl, rfl⟩,
    ⟨⟨id, on handle op, openIdFor (on handle op) state.nextId, id, .spawned⟩, ?_, rfl, ?_⟩⟩
  · refine ⟨halone.submitters, halone.running, rfl, ?_, fun other => ?_⟩
    · exact congrArg (· ++ [_]) halone.tasks
    · change (state.cancelFlags.insert id false).lookup other ≠ some true
      by_cases hsame : other = id
      · rw [hsame, AList.lookup_insert]
        simp
      · rw [AList.lookup_insert_ne hsame]
        exact halone.flags other
  · refine .spawned handle bound rfl rfl (hready.kept rfl ?_ fun _ _ _ => rfl) ?_ ?_ hnames hsuits
      hmodal rfl
    · cases op <;> simp [State.handleMsg, State.emit, on, openIdFor]
    · intro number hnumber
      have hnumbers := hready.numbers
      cases op with
      | openFile path spec | readFile path inlineMax =>
          obtain rfl := Option.some.inj hnumber
          exact ⟨hnumbers, Nat.lt_succ_self _⟩
      | _ => cases hnumber
    · cases op <;> rfl

theorem Standing.step (hserved : Served kernel disk machine.calls service)
    (hstanding : Standing kernel service machine) {turn : Turn}
    (hstep : Machine.step kernel machine turn = some after) : Serving kernel disk after := by
  cases turn with
  | submit id op handle =>
      simp only [Machine.step] at hstep
      split at hstep
      · next hallowed =>
          obtain ⟨hnone, hnames, hsuits, hmodal, -⟩ := hallowed
          cases hstanding with
          | idle bound hpending halone hready hdisk =>
              obtain ⟨next, hnext, rfl⟩ := Option.map_eq_some_iff.mp hstep
              obtain ⟨halone', hready', hsame⟩ := sent_of_submit halone hready hnext
              exact ⟨service, hserved, .sent bound id op handle rfl halone' hready' hnames
                (by rwa [hsame]) hmodal hdisk⟩
          | sent bound id op handle hpending => simp [hpending] at hnone
          | working id op hpending => simp [hpending] at hnone
      · cases hstep
  | recv =>
      simp only [Machine.step, Compio.step] at hstep
      cases hrecv : machine.state.recv with
      | none =>
          rw [hrecv] at hstep
          cases hstep
      | some next =>
          rw [hrecv] at hstep
          cases hstanding with
          | idle bound hpending halone hready hdisk =>
              simp [State.recv, halone.running, halone.rx] at hrecv
          | sent bound id op handle hpending halone hready hnames hsuits hmodal hdisk =>
              obtain ⟨hsince, hmidway⟩ :=
                midway_of_recv halone hready hnames hsuits hmodal hrecv
              rw [hdisk] at hstep
              exact serving_came hserved hpending (.goesOn hsince hmidway) hstep
          | working id op hpending hmidway =>
              obtain ⟨task, halone, -, -⟩ := hmidway
              simp [State.recv, halone.running, halone.rx] at hrecv
  | poll index fd =>
      obtain ⟨ans, disk', hans⟩ : ∃ ans disk',
          answers kernel fd index machine.disk machine.state = (ans, disk') := ⟨_, _, rfl⟩
      simp only [Machine.step, hans, Compio.step] at hstep
      split at hstep
      · next hfresh =>
          cases hpoll : machine.state.poll ans index with
          | none =>
              rw [hpoll] at hstep
              cases hstep
          | some next =>
              rw [hpoll] at hstep
              cases hstanding with
              | idle bound hpending halone => simp [State.poll, halone.tasks] at hpoll
              | sent bound id op handle hpending halone => simp [State.poll, halone.tasks] at hpoll
              | working id op hpending hmidway =>
                  have hfirst : index = 0 := by
                    obtain ⟨task, halone, -, -⟩ := hmidway
                    by_contra hother
                    obtain ⟨rest, rfl⟩ := Nat.exists_eq_succ_of_ne_zero hother
                    simp [State.poll, halone.tasks] at hpoll
                  subst hfirst
                  exact serving_came hserved hpending (hmidway.poll hans hfresh hpoll) hstep
      · cases hstep

theorem serving_of_reachable (hfits : Fits kernel disk)
    (hreach : (machines kernel disk).Reachable machine) : Serving kernel disk machine := by
  refine hreach.invariant ?_ ?_
  · rintro machine ⟨hstate, hdisk, hcalls, hpending⟩
    have hnew : machine.state = .new := hstate
    refine ⟨⟨disk, fun _ => none⟩, ?_, .idle 1 hpending ?_ ?_ hdisk⟩
    · rw [hcalls]
      exact .start kernel disk
    · rw [hnew]
      exact ⟨rfl, rfl, rfl, rfl, fun _ => by simp [State.new]⟩
    · rw [hnew, hcalls]
      exact ⟨fun handle fd hlookup => (by cases hlookup), .start 1, Nat.le_refl _, hfits⟩
  · rintro machine turn next - ⟨service, hserved, hstanding⟩ hstep
    exact hstanding.step hserved hstep

/-- The disk between two ops is the service's. -/
theorem Standing.disk_eq (hstanding : Standing kernel service machine)
    (hpending : machine.pending = none) : machine.disk = service.disk := by
  cases hstanding with
  | idle bound hnone halone hready hdisk => exact hdisk
  | sent bound id op handle hsome => simp [hpending] at hsome
  | working id op hsome => simp [hpending] at hsome

/-- Between two ops the driver takes every op that `open` submits. -/
theorem Standing.takes_open (hstanding : Standing kernel service machine)
    (hpending : machine.pending = none) {repr : String → String} {args : OpenModes.OpenArgs}
    {info : ModeInfo} (hopen : OpenModes.openFile repr args = .ok (info, op))
    (hnew : id ∉ State.submittedIds machine.state.log) (handle : Handle) :
    ∃ after, Machine.step kernel machine (.submit id op handle) = some after := by
  have hmodal := opensModal_of_openFile hopen
  obtain ⟨-, -, -, rfl⟩ := OpenModes.openFile_ok_iff.mp hopen
  cases hstanding with
  | idle bound hnone halone hready hdisk =>
      have hlive : ¬machine.state.submittersGone = true := by simp [halone.submitters]
      have hallowed : machine.pending.isNone ∧
          (∀ slot ∈ named (.openFile args.path (OpenModes.openSpec info)),
            Names machine.calls slot handle) ∧
          suits (nodeFor handle machine.state) (.openFile args.path (OpenModes.openSpec info)) ∧
          opensModal (.openFile args.path (OpenModes.openSpec info)) ∧
          inRange (.openFile args.path (OpenModes.openSpec info)) :=
        ⟨by simp [hpending], fun _ hnamed => (by cases hnamed), rfl, hmodal, rfl⟩
      rw [Machine.step, if_pos hallowed]
      simp only [Compio.step, if_neg hnew, State.send, if_neg hlive]
      exact ⟨_, rfl⟩
  | sent bound id op handle hsome => simp [hpending] at hsome
  | working id op hsome => simp [hpending] at hsome

/-- The driver answers a script as the service does, and leaves the disk that the
service leaves; what `open` submits can always come next. -/
theorem serves_by_tasks (hfits : Fits kernel disk)
    (hreach : (machines kernel disk).Reachable machine) :
    ∃ service, Served kernel disk machine.calls service ∧
      (machine.pending = none → machine.disk = service.disk ∧
        ∀ repr args info op id handle, OpenModes.openFile repr args = .ok (info, op) →
          id ∉ State.submittedIds machine.state.log →
          ∃ after, Machine.step kernel machine (.submit id op handle) = some after) := by
  obtain ⟨service, hserved, hstanding⟩ := serving_of_reachable hfits hreach
  exact ⟨service, hserved, fun hpending => ⟨hstanding.disk_eq hpending,
    fun _ _ _ _ _ handle hopen hnew => hstanding.takes_open hpending hopen hnew handle⟩⟩

end Machine

/-! ## A script -/

def unused : Machine := ⟨.new, fun _ => none, [], none⟩

/-- Create a file, write behind its end and read it. -/
def scriptTurns : List Turn :=
  [.submit 1 (.openFile [97] { read := true, write := true, create := true }) 0, .recv,
    .poll 0 0, .poll 0 3, .poll 0 0,
    .submit 2 (.writeAt 0 2 (.owned [1, 2, 3]) false) 1, .recv, .poll 0 0, .poll 0 0,
    .submit 3 (.readAt 0 0 (.alloc 9)) 1, .recv, .poll 0 0, .poll 0 0, .poll 0 0]

def scriptRun : Machine :=
  ((machines smallKernel fun _ => none).exec unused scriptTurns).getD unused

theorem reachable_scriptRun : (machines smallKernel fun _ => none).Reachable scriptRun := by
  have hruns : ((machines smallKernel fun _ => none).exec unused scriptTurns).isSome = true := rfl
  obtain ⟨machine, hexec⟩ := Option.isSome_iff_exists.mp hruns
  have hunused : (machines smallKernel fun _ => none).Reachable unused :=
    .ofInit ⟨rfl, rfl, rfl, rfl⟩
  rw [scriptRun, hexec]
  exact hunused.ofExec hexec

theorem serves_by_tasks_script :
    scriptRun.calls.map Prod.snd =
        [.ok (.handle 1 0 3), .ok (.written 3 5), .ok (.bytes [0, 0, 1, 2, 3])] ∧
      ∃ service, Served smallKernel (fun _ => none) scriptRun.calls service ∧
        scriptRun.disk = service.disk := by
  obtain ⟨service, hserved, hidle⟩ := serves_by_tasks fits_none reachable_scriptRun
  exact ⟨rfl, service, hserved, (hidle rfl).1⟩

end Turbofile.Compio.OnDisk
