import Turbofile.Compio.CloseCancel
import Turbofile.Library.Sharing

/-!
# Each op on the file of its handle

An op clones the file of its handle when it starts and drops the clone when it
ends; the last clone closes the descriptor.  The kernel gives the number of a
closed descriptor out again, so an op is safe only while its descriptor stands
for the very file that its handle was registered for.
-/

namespace Turbofile.Compio

open Turbofile.Core
open Turbofile.Tally
open Turbofile.Sharing (standing Alternates Sound)
open Turbofile.Darwin (Op.target)

/-! ## Descriptors as shared resources -/

/-- A file as it was opened. -/
abbrev File := Path × OpenSpec

/-- What happened to the descriptors. -/
def trace : List Event → List (Sharing.Entry Fd File)
  | [] => []
  | .opened fd path spec :: log => .acquired fd (path, spec) :: trace log
  | .closed fd :: log => .freed fd :: trace log
  | .sent _ :: log | .handled _ :: log | .registered _ _ :: log | .settled _ _ :: log => trace log

def taskClones (tasks : List Task) : Multiset Fd :=
  ↑(tasks.filterMap fun task => task.stage.fd)

def tableClones (files : Table Handle Fd) : Multiset Fd :=
  ↑(files.entries.map fun row => row.2)

/-- The clones of the tasks and of the table, and the trace of the log. -/
def State.shared (state : State) : Sharing.State Fd File :=
  ⟨taskClones state.tasks + tableClones state.files, trace state.log⟩

/-- The file an op opens for itself. -/
def openedBy : Op → Option File
  | .openFile path spec => some (path, spec)
  | .readFile path _ => some (path, { read := true })
  | .writeFile path _ => some (path, { write := true, create := true, truncate := true })
  | .readAt .. | .readToEnd .. | .writeAt .. | .close _ | .sync .. | .setLen .. | .size _
  | .nop => none

/-- The file a handle was registered for. -/
def registeredFile (handle : Handle) : List Event → Option File
  | [] => none
  | .registered own fd :: log =>
      if own = handle then standing fd (trace log) else registeredFile handle log
  | .sent _ :: log | .handled _ :: log | .opened _ _ _ :: log | .closed _ :: log
  | .settled _ _ :: log => registeredFile handle log

/-- The file an op is about: the one it opens, or the one of its handle. -/
def opFile (log : List Event) (op : Op) : Option File :=
  match Op.target op with
  | some handle => registeredFile handle log
  | none => openedBy op

/-- An open answers with a descriptor that is not open. -/
def FreshOpens (state : State) : Label → Prop
  | .poll _ ans => ∀ fd, ans.openFd = .ok fd → standing fd (trace state.log) = none
  | .submit _ _ | .requestCancel _ | .dropSubmitters | .recv | .dropRuntime => True

section Clones

theorem taskClones_cons_some {task : Task} {tasks : List Task} {fd : Fd}
    (hfd : task.stage.fd = some fd) : taskClones (task :: tasks) = fd ::ₘ taskClones tasks := by
  rw [taskClones, @List.filterMap_cons_some _ _ (fun task : Task => task.stage.fd) _ _ _ hfd]
  rfl

theorem taskClones_cons_none {task : Task} {tasks : List Task} (hfd : task.stage.fd = none) :
    taskClones (task :: tasks) = taskClones tasks := by
  rw [taskClones, @List.filterMap_cons_none _ _ (fun task : Task => task.stage.fd) _ _ hfd]
  rfl

theorem taskClones_perm {tasks others : List Task} (hperm : tasks.Perm others) :
    taskClones tasks = taskClones others :=
  Multiset.coe_eq_coe.mpr (hperm.filterMap _)

theorem mem_taskClones {tasks : List Task} {fd : Fd} :
    fd ∈ taskClones tasks ↔ ∃ task ∈ tasks, task.stage.fd = some fd := by
  rw [taskClones, Multiset.mem_coe, List.mem_filterMap]

theorem mem_tableClones {files : Table Handle Fd} {fd : Fd} :
    fd ∈ tableClones files ↔ ∃ handle, files.lookup handle = some fd := by
  rw [tableClones, Multiset.mem_coe, List.mem_map]
  constructor
  · rintro ⟨⟨handle, own⟩, hrow, rfl⟩
    exact ⟨handle, AList.mem_lookup_iff.mpr hrow⟩
  · rintro ⟨handle, hlookup⟩
    exact ⟨⟨handle, fd⟩, AList.mem_lookup_iff.mp hlookup, rfl⟩

theorem tableClones_erase {files : Table Handle Fd} {handle : Handle} {fd : Fd}
    (hlookup : files.lookup handle = some fd) :
    tableClones files = fd ::ₘ tableClones (files.erase handle) :=
  Multiset.coe_eq_coe.mpr ((Table.entries_perm_erase hlookup).map _)

theorem tableClones_insert {files : Table Handle Fd} {handle : Handle} {fd : Fd}
    (hnew : files.lookup handle = none) :
    tableClones (files.insert handle fd) = fd ::ₘ tableClones files := by
  rw [tableClones, AList.entries_insert_of_notMem (AList.lookup_eq_none.mp hnew)]
  rfl

theorem mem_clones {state : State} {fd : Fd} : fd ∈ state.shared.clones ↔
    (∃ task ∈ state.tasks, task.stage.fd = some fd) ∨
      ∃ handle, state.files.lookup handle = some fd := by
  rw [State.shared, Multiset.mem_add, mem_taskClones, mem_tableClones]

theorem holds_iff {state : State} {fd : Fd} :
    state.holds fd = true ↔ fd ∈ state.shared.clones := by
  rw [mem_clones, ← mem_heldFds]
  simp [State.holds, State.heldFds]

end Clones

/-! ## What a poll does with clones -/

/-- A poll of the task at `index`, by what becomes of its clone. -/
inductive Moved (ans : Answers) (state : State) (index : ℕ) (task : Task) : State → Prop
  | stays (stage : Stage) (hstage : stage.fd = task.stage.fd) :
      Moved ans state index task (state.suspend index task stage)
  | shares (handle : Handle) (fd : Fd) (stage : Stage) (htarget : Op.target task.op = some handle)
      (hlookup : state.files.lookup handle = some fd) (hnone : task.stage.fd = none)
      (hstage : stage.fd = some fd) : Moved ans state index task (state.suspend index task stage)
  | takes (handle : Handle) (fd : Fd) (htarget : Op.target task.op = some handle)
      (hlookup : state.files.lookup handle = some fd) (hnone : task.stage.fd = none) :
      Moved ans state index task
        (({ state with files := state.files.erase handle }).suspend index task (.closing fd .unit))
  | opens (fd : Fd) (path : Path) (spec : OpenSpec) (stage : Stage)
      (hopens : openedBy task.op = some (path, spec)) (hanswer : ans.openFd = .ok fd)
      (hnone : task.stage.fd = none) (hstage : stage.fd = some fd) :
      Moved ans state index task ((state.emit (.opened fd path spec)).suspend index task stage)
  | ends (result : Outcome) (hnone : task.stage.fd = none) :
      Moved ans state index task (state.finish index task none result)
  | drops (fd : Fd) (result : Outcome) (hstage : task.stage.fd = some fd) :
      Moved ans state index task (state.finish index task (some fd) result)
  | registers (handle : Handle) (fd : Fd) (size : ℕ) (hopenId : task.openId = some handle)
      (hstage : task.stage.fd = some fd) :
      Moved ans state index task (state.insertFile index task fd size)

namespace State

variable {ans : Answers} {state next : State} {index : ℕ} {task : Task}

/-- The table keeps the file of a handle open. -/
theorem finish_of_listed {handle : Handle} {fd : Fd} (hlookup : state.files.lookup handle = some fd)
    (result : Outcome) :
    state.finish index task (some fd) result = state.finish index task none result := by
  have hheld : ({ state with tasks := state.tasks.eraseIdx index }).holds fd = true :=
    holds_iff.mpr (mem_clones.mpr (.inr ⟨handle, hlookup⟩))
  simp only [finish, release, hheld, if_true]

theorem moved_readUpTo {fd : Fd} {dest : Dest} {buf : Buf}
    (hfinish : ∀ result, Moved ans state index task (state.finish index task (some fd) result))
    (hsuspend : Moved ans state index task (state.suspend index task (.reading fd buf))) :
    Moved ans state index task (state.readUpTo index task fd dest buf) := by
  unfold readUpTo
  cases dest with
  | alloc len =>
      simp only
      split_ifs
      · exact hfinish _
      · exact hfinish _
      · exact hsuspend
  | into ptr len =>
      simp only
      split_ifs
      · exact hfinish _
      · exact hfinish _
      · exact hsuspend

theorem moved_withFile {handle : Handle} {use : Fd → State} (hnone : task.stage.fd = none)
    (huse : ∀ fd, state.files.lookup handle = some fd → Moved ans state index task (use fd)) :
    Moved ans state index task (state.withFile index task handle use) := by
  unfold withFile
  split
  · exact .ends _ hnone
  · next fd hlookup => exact huse fd hlookup

theorem moved_execute (hstage : task.stage = .spawned) :
    Moved ans state index task (state.execute index task) := by
  have hnone : task.stage.fd = none := by
    rw [hstage]
    rfl
  have hopening : Moved ans state index task (state.suspend index task .opening) :=
    .stays _ hnone.symm
  unfold execute
  split
  · exact .ends _ hnone
  cases hop : task.op with
  | nop => exact .ends _ hnone
  | openFile path spec => exact hopening
  | readFile path inlineMax => exact hopening
  | writeFile path data => exact hopening
  | close handle =>
      simp only
      split
      · exact .ends _ hnone
      · next fd hlookup => exact .takes handle fd (by rw [hop]; rfl) hlookup hnone
  | readAt handle pos dest =>
      refine moved_withFile hnone fun fd hlookup => ?_
      have hends : ∀ result,
          Moved ans state index task (state.finish index task (some fd) result) := by
        intro result
        rw [finish_of_listed hlookup]
        exact .ends _ hnone
      cases dest with
      | alloc len =>
          exact moved_readUpTo hends
            (.shares handle fd _ (by rw [hop]; rfl) hlookup hnone rfl)
      | into ptr len =>
          exact moved_readUpTo hends
            (.shares handle fd _ (by rw [hop]; rfl) hlookup hnone rfl)
  | readToEnd handle pos =>
      refine moved_withFile hnone fun fd hlookup => ?_
      exact .shares handle fd _ (by rw [hop]; rfl) hlookup hnone rfl
  | size handle =>
      refine moved_withFile hnone fun fd hlookup => ?_
      exact .shares handle fd _ (by rw [hop]; rfl) hlookup hnone rfl
  | writeAt handle pos data append =>
      refine moved_withFile hnone fun fd hlookup => ?_
      split
      · exact .shares handle fd _ (by rw [hop]; rfl) hlookup hnone rfl
      · exact .shares handle fd _ (by rw [hop]; rfl) hlookup hnone rfl
  | sync handle dataOnly =>
      refine moved_withFile hnone fun fd hlookup => ?_
      exact .shares handle fd _ (by rw [hop]; rfl) hlookup hnone rfl
  | setLen handle size =>
      refine moved_withFile hnone fun fd hlookup => ?_
      exact .shares handle fd _ (by rw [hop]; rfl) hlookup hnone rfl

/-- After an error the task drops what it holds. -/
theorem moved_orFail {α : Type} {fd : Fd} {result : Except Errno α} {next : α → State}
    (hstage : task.stage.fd = some fd)
    (hnext : ∀ value, Moved ans state index task (next value)) :
    Moved ans state index task (state.orFail index task (some fd) result next) := by
  cases result with
  | error errno => exact .drops fd _ hstage
  | ok value => exact hnext value

theorem moved_openedFile (hstage : task.stage = .opening) (hfits : Stage.opening.fits task.op)
    {fd : Fd} (hanswer : ans.openFd = .ok fd) :
    Moved ans state index task (state.openedFile index task fd) := by
  have hnone : task.stage.fd = none := by
    rw [hstage]
    rfl
  unfold openedFile
  cases hop : task.op with
  | openFile path spec => exact .opens fd path spec _ (by rw [hop]; rfl) hanswer hnone rfl
  | readFile path inlineMax => exact .opens fd path _ _ (by rw [hop]; rfl) hanswer hnone rfl
  | writeFile path data => exact .opens fd path _ _ (by rw [hop]; rfl) hanswer hnone rfl
  | _ => simp [Stage.fits, hop, openIdFor] at hfits

theorem moved_insertFile (hwell : task.WellFormed) (hop : (openIdFor task.op 0).isSome) {fd : Fd}
    (hstage : task.stage.fd = some fd) (size : ℕ) :
    Moved ans state index task (state.insertFile index task fd size) := by
  have hsome := hwell.openId
  rw [hop, Option.isSome_iff_exists] at hsome
  obtain ⟨handle, hhandle⟩ := hsome
  exact .registers handle fd size hhandle hstage

theorem moved_statted (hwell : task.WellFormed) {fd : Fd}
    (hfits : (Stage.statting fd).fits task.op) (hstage : task.stage.fd = some fd)
    (stat : FileStat) : Moved ans state index task (state.statted index task fd stat) := by
  have hreading : Moved ans state index task (state.suspend index task (.readingToEnd fd)) :=
    .stays _ hstage.symm
  unfold statted
  cases hop : task.op with
  | openFile path spec => exact moved_insertFile hwell (by simp [hop, openIdFor]) hstage _
  | readFile path inlineMax =>
      simp only
      split
      · exact moved_insertFile hwell (by simp [hop, openIdFor]) hstage _
      · exact hreading
  | readToEnd handle pos => exact hreading
  | writeAt handle pos data append => exact .drops fd _ hstage
  | size handle => exact .drops fd _ hstage
  | _ => simp [Stage.fits, hop, openIdFor] at hfits

theorem moved_wrote {fd : Fd} (hfits : (Stage.writing fd).fits task.op)
    (hstage : task.stage.fd = some fd) :
    Moved ans state index task (state.wrote index task fd) := by
  unfold wrote
  cases hop : task.op with
  | writeAt handle pos data append => exact .drops fd _ hstage
  | writeFile path data => exact .stays _ hstage.symm
  | _ => simp [Stage.fits, hop] at hfits

theorem moved_readAll {fd : Fd} (hfits : (Stage.readingToEnd fd).fits task.op)
    (hstage : task.stage.fd = some fd) (data : List Byte) :
    Moved ans state index task (state.readAll index task fd data) := by
  unfold readAll
  cases hop : task.op with
  | readToEnd handle pos => exact .drops fd _ hstage
  | readFile path inlineMax => exact .stays _ hstage.symm
  | _ => simp [Stage.fits, hop] at hfits

/-- A close that ends drops the last clone. -/
theorem moved_closed {fd : Fd} (hstage : task.stage.fd = some fd)
    (hlast : ¬({ state with tasks := state.tasks.eraseIdx index }).holds fd = true)
    (result : Outcome) :
    Moved ans state index task ((state.emit (.closed fd)).finish index task none result) := by
  have hsame : (state.emit (.closed fd)).finish index task none result =
      state.finish index task (some fd) result := by
    simp only [finish, release, if_neg hlast]
    rfl
  rw [hsame]
  exact .drops fd _ hstage

theorem moved_poll (hget : state.tasks[index]? = some task) (hwell : task.WellFormed)
    (hpoll : state.poll ans index = some next) : Moved ans state index task next := by
  have hfits := hwell.fits
  unfold poll at hpoll
  rw [hget] at hpoll
  simp only at hpoll
  cases hstage : task.stage with
  | spawned =>
      rw [hstage] at hpoll
      obtain rfl := Option.some.inj hpoll
      exact moved_execute hstage
  | opening =>
      rw [hstage] at hpoll hfits
      obtain rfl := Option.some.inj hpoll
      cases hanswer : ans.openFd with
      | error errno => exact .ends _ (by rw [hstage]; rfl)
      | ok fd => exact moved_openedFile hstage hfits hanswer
  | statting fd =>
      have hfd : task.stage.fd = some fd := congrArg Stage.fd hstage
      rw [hstage] at hpoll hfits
      obtain rfl := Option.some.inj hpoll
      exact moved_orFail hfd fun stat => moved_statted hwell hfits hfd stat
  | reading fd buf =>
      have hfd : task.stage.fd = some fd := congrArg Stage.fd hstage
      rw [hstage] at hpoll hfits
      obtain ⟨handle, pos, dest, hop⟩ := hfits
      simp only [hop] at hpoll
      obtain rfl := Option.some.inj hpoll
      refine moved_orFail hfd fun data => ?_
      split
      · exact .drops fd _ hfd
      · exact moved_readUpTo (fun _ => .drops fd _ hfd) (.stays _ hfd.symm)
  | readingToEnd fd =>
      have hfd : task.stage.fd = some fd := congrArg Stage.fd hstage
      rw [hstage] at hpoll hfits
      obtain rfl := Option.some.inj hpoll
      exact moved_orFail hfd fun data => moved_readAll hfits hfd data
  | writing fd =>
      have hfd : task.stage.fd = some fd := congrArg Stage.fd hstage
      rw [hstage] at hpoll hfits
      obtain rfl := Option.some.inj hpoll
      exact moved_orFail hfd fun _ => moved_wrote hfits hfd
  | appending fd =>
      have hfd : task.stage.fd = some fd := congrArg Stage.fd hstage
      rw [hstage] at hpoll
      obtain rfl := Option.some.inj hpoll
      exact moved_orFail hfd fun _ => .stays _ hfd.symm
  | syncing fd =>
      have hfd : task.stage.fd = some fd := congrArg Stage.fd hstage
      rw [hstage] at hpoll
      obtain rfl := Option.some.inj hpoll
      exact moved_orFail hfd fun _ => .drops fd _ hfd
  | resizing fd =>
      have hfd : task.stage.fd = some fd := congrArg Stage.fd hstage
      rw [hstage] at hpoll
      obtain rfl := Option.some.inj hpoll
      exact moved_orFail hfd fun _ => .drops fd _ hfd
  | closing fd reply =>
      have hfd : task.stage.fd = some fd := congrArg Stage.fd hstage
      rw [hstage] at hpoll
      simp only at hpoll
      split at hpoll
      · cases hpoll
      · next hlast =>
          obtain rfl := Option.some.inj hpoll
          cases ans.done with
          | error errno => exact moved_closed hfd hlast _
          | ok value => exact moved_closed hfd hlast _

end State

/-! ## The clones through a step -/

section Clones

variable {ans : Answers} {state next : State} {index : ℕ} {task : Task}

/-- The clones of the other tasks and of the table. -/
def State.others (state : State) (index : ℕ) : Multiset Fd :=
  taskClones (state.tasks.eraseIdx index) + tableClones state.files

theorem clones_of_some (hget : state.tasks[index]? = some task) {fd : Fd}
    (hfd : task.stage.fd = some fd) : state.shared.clones = fd ::ₘ state.others index := by
  rw [State.shared, taskClones_perm (Polled.perm_erase hget), taskClones_cons_some hfd,
    Multiset.cons_add]
  rfl

theorem clones_of_none (hget : state.tasks[index]? = some task) (hfd : task.stage.fd = none) :
    state.shared.clones = state.others index := by
  rw [State.shared, taskClones_perm (Polled.perm_erase hget), taskClones_cons_none hfd]
  rfl

theorem taskClones_set_some (hget : state.tasks[index]? = some task) {stage : Stage} {fd : Fd}
    (hfd : stage.fd = some fd) :
    taskClones (state.tasks.set index { task with stage := stage }) =
      fd ::ₘ taskClones (state.tasks.eraseIdx index) := by
  rw [taskClones_perm (Polled.perm_set hget _), taskClones_cons_some hfd]

theorem taskClones_set_none (hget : state.tasks[index]? = some task) {stage : Stage}
    (hfd : stage.fd = none) :
    taskClones (state.tasks.set index { task with stage := stage }) =
      taskClones (state.tasks.eraseIdx index) := by
  rw [taskClones_perm (Polled.perm_set hget _), taskClones_cons_none hfd]

/-- A poll is a step of the shared descriptors, or leaves them. -/
theorem Moved.shared (hmoved : Moved ans state index task next)
    (hget : state.tasks[index]? = some task)
    (hfresh : ∀ fd, ans.openFd = .ok fd → standing fd (trace state.log) = none)
    (hnew : ∀ handle, task.openId = some handle → state.files.lookup handle = none) :
    next.shared = state.shared ∨ Sharing.Step state.shared next.shared := by
  cases hmoved with
  | stays stage hstage =>
      refine .inl (congrArg₂ Sharing.State.mk ?_ rfl)
      change taskClones (state.tasks.set index _) + _ = state.shared.clones
      cases hfd : task.stage.fd with
      | none => rw [taskClones_set_none hget (hstage.trans hfd), clones_of_none hget hfd]; rfl
      | some fd =>
          rw [taskClones_set_some hget (hstage.trans hfd), clones_of_some hget hfd,
            Multiset.cons_add]
          rfl
  | shares handle fd stage htarget hlookup hnone hstage =>
      have hclones : (state.suspend index task stage).shared =
          ⟨fd ::ₘ state.shared.clones, state.shared.trace⟩ := by
        refine congrArg₂ Sharing.State.mk ?_ rfl
        change taskClones (state.tasks.set index _) + _ = _
        rw [taskClones_set_some hget hstage, clones_of_none hget hnone, Multiset.cons_add]
        rfl
      rw [hclones]
      exact .inr (.clone fd (mem_clones.mpr (.inr ⟨handle, hlookup⟩)))
  | takes handle fd htarget hlookup hnone =>
      refine .inl (congrArg₂ Sharing.State.mk ?_ rfl)
      change taskClones (state.tasks.set index _) + tableClones (state.files.erase handle) =
        state.shared.clones
      rw [taskClones_set_some hget rfl, clones_of_none hget hnone, State.others,
        tableClones_erase hlookup, Multiset.cons_add, Multiset.add_cons]
  | opens fd path spec stage hopens hanswer hnone hstage =>
      have hclones : ((state.emit (.opened fd path spec)).suspend index task stage).shared =
          ⟨fd ::ₘ state.shared.clones, .acquired fd (path, spec) :: state.shared.trace⟩ := by
        refine congrArg₂ Sharing.State.mk ?_ rfl
        change taskClones (state.tasks.set index _) + _ = _
        rw [taskClones_set_some hget hstage, clones_of_none hget hnone, Multiset.cons_add]
        rfl
      rw [hclones]
      exact .inr (.acquire fd (path, spec) (hfresh fd hanswer))
  | ends result hnone =>
      refine .inl (congrArg₂ Sharing.State.mk ?_ rfl)
      exact (clones_of_none hget hnone).symm
  | drops fd result hstage =>
      have hdropped : (state.finish index task (some fd) result).shared =
          ⟨state.others index, if fd ∈ state.others index then state.shared.trace
            else .freed fd :: state.shared.trace⟩ := by
        have hheld : ({ state with tasks := state.tasks.eraseIdx index }).holds fd = true ↔
            fd ∈ state.others index := holds_iff
        simp only [State.finish, State.release]
        by_cases hmem : fd ∈ state.others index
        · rw [if_pos (hheld.mpr hmem), if_pos hmem]
          rfl
        · rw [if_neg (mt hheld.mp hmem), if_neg hmem]
          rfl
      rw [hdropped]
      exact .inr (.drop fd _ (clones_of_some hget hstage))
  | registers handle fd size hopenId hstage =>
      refine .inl ?_
      simp only [State.insertFile, hopenId]
      refine congrArg₂ Sharing.State.mk ?_ rfl
      change taskClones (state.tasks.eraseIdx index) + tableClones (state.files.insert handle fd) =
        state.shared.clones
      rw [clones_of_some hget hstage, tableClones_insert (hnew handle hopenId), Multiset.add_cons]
      rfl

end Clones

/-! ## Whose file it is -/

/-- The descriptors are shared soundly, and each holder has that of its file. -/
structure OwnFiles (state : State) : Prop where
  sound : Sound state.shared
  listed : ∀ handle fd, state.files.lookup handle = some fd →
    registeredFile handle state.log = standing fd (trace state.log)
  tasks : ∀ task ∈ state.tasks, ∀ fd, task.stage.fd = some fd →
    opFile state.log task.op = standing fd (trace state.log)

theorem mem_of_registeredFile {handle : Handle} {log : List Event}
    (hsome : (registeredFile handle log).isSome = true) :
    ∃ fd, Event.registered handle fd ∈ log := by
  induction log with
  | nil => cases hsome
  | cons event log ih =>
      have hlater : (registeredFile handle log).isSome = true →
          ∃ fd, Event.registered handle fd ∈ event :: log := fun hsome =>
        (ih hsome).imp fun _ hmem => List.mem_cons_of_mem _ hmem
      cases event with
      | registered own fd =>
          rw [registeredFile] at hsome
          split at hsome
          · next hsame => exact ⟨fd, hsame ▸ List.mem_cons_self⟩
          · exact hlater hsome
      | sent msg => exact hlater hsome
      | handled msg => exact hlater hsome
      | opened fd path spec => exact hlater hsome
      | closed fd => exact hlater hsome
      | settled cb result => exact hlater hsome

theorem opFile_congr {log other : List Event} {op : Op}
    (hsame : ∀ handle, Op.target op = some handle →
      registeredFile handle log = registeredFile handle other) :
    opFile log op = opFile other op := by
  unfold opFile
  split
  · next handle htarget => exact hsame handle htarget
  · rfl

theorem opFile_of_opens {op : Op} {file : File} (hopens : openedBy op = some file)
    (log : List Event) : opFile log op = some file := by
  cases op with
  | openFile path spec => exact hopens
  | readFile path inlineMax => exact hopens
  | writeFile path data => exact hopens
  | _ => cases hopens

section Steps

variable {ans : Answers} {state next : State} {index : ℕ} {task : Task}

/-- The entry a poll may add, the registrations it leaves, and the clone its
task comes to hold. -/
theorem Moved.frame (hmoved : Moved ans state index task next) :
    (∀ handle fd, next.files.lookup handle = some fd → state.files.lookup handle = some fd ∨
      trace next.log = trace state.log ∧
        registeredFile handle next.log = standing fd (trace state.log)) ∧
    (∀ handle, task.openId ≠ some handle →
      registeredFile handle next.log = registeredFile handle state.log) ∧
    ∀ other ∈ next.tasks, other ∈ state.tasks ∨
      other.op = task.op ∧ (other.stage.fd = task.stage.fd ∨
        (∃ handle fd, Op.target task.op = some handle ∧ state.files.lookup handle = some fd ∧
          other.stage.fd = some fd) ∨
        ∃ fd file, openedBy task.op = some file ∧ standing fd (trace next.log) = some file ∧
          other.stage.fd = some fd) := by
  have hset : ∀ stage, ∀ other ∈ state.tasks.set index { task with stage := stage },
      other ∈ state.tasks ∨ other = { task with stage := stage } := fun stage other hother =>
    List.mem_or_eq_of_mem_set hother
  cases hmoved with
  | stays stage hstage =>
      refine ⟨fun _ _ hlookup => .inl hlookup, fun _ _ => rfl, fun other hother => ?_⟩
      rcases hset stage other hother with hold | rfl
      · exact .inl hold
      · exact .inr ⟨rfl, .inl hstage⟩
  | shares handle fd stage htarget hlookup hnone hstage =>
      refine ⟨fun _ _ hlookup => .inl hlookup, fun _ _ => rfl, fun other hother => ?_⟩
      rcases hset stage other hother with hold | rfl
      · exact .inl hold
      · exact .inr ⟨rfl, .inr (.inl ⟨handle, fd, htarget, hlookup, hstage⟩)⟩
  | takes handle fd htarget hlookup hnone =>
      refine ⟨fun _ _ hother => .inl (lookup_of_erase hother), fun _ _ => rfl,
        fun other hother => ?_⟩
      rcases hset _ other hother with hold | rfl
      · exact .inl hold
      · exact .inr ⟨rfl, .inr (.inl ⟨handle, fd, htarget, hlookup, rfl⟩)⟩
  | opens fd path spec stage hopens hanswer hnone hstage =>
      refine ⟨fun _ _ hlookup => .inl hlookup, fun _ _ => rfl, fun other hother => ?_⟩
      rcases hset stage other hother with hold | rfl
      · exact .inl hold
      · exact .inr ⟨rfl, .inr (.inr ⟨fd, _, hopens, if_pos rfl, hstage⟩)⟩
  | ends result hnone =>
      exact ⟨fun _ _ hlookup => .inl hlookup, fun _ _ => rfl,
        fun other hother => .inl (List.mem_of_mem_eraseIdx hother)⟩
  | drops fd result hstage =>
      have hdropped : state.finish index task (some fd) result =
          state.finish index task none result ∨
          state.finish index task (some fd) result =
            (state.emit (.closed fd)).finish index task none result := by
        simp only [State.finish, State.release]
        split
        · exact .inl rfl
        · exact .inr rfl
      rcases hdropped with hsame | hsame <;>
        exact hsame ▸ ⟨fun _ _ hlookup => .inl hlookup, fun _ _ => rfl,
          fun other hother => .inl (List.mem_of_mem_eraseIdx hother)⟩
  | registers handle fd size hopenId hstage =>
      simp only [State.insertFile, hopenId]
      refine ⟨fun other fd' hlookup => ?_, fun other hother => ?_,
        fun other hother => .inl (List.mem_of_mem_eraseIdx hother)⟩
      · by_cases hsame : other = handle
        · subst hsame
          change (state.files.insert other fd).lookup other = some fd' at hlookup
          rw [AList.lookup_insert] at hlookup
          obtain rfl := Option.some.inj hlookup
          exact .inr ⟨rfl, if_pos rfl⟩
        · left
          change (state.files.insert handle fd).lookup other = some fd' at hlookup
          rwa [AList.lookup_insert_ne hsame] at hlookup
      · exact if_neg fun hsame => hother (congrArg some hsame)

namespace OwnFiles

theorem polled (hown : OwnFiles state) (hnoted : Noted state) (hinv : Invariant state)
    (hget : state.tasks[index]? = some task) (hmoved : Moved ans state index task next)
    (hfresh : ∀ fd, ans.openFd = .ok fd → standing fd (trace state.log) = none) :
    OwnFiles next := by
  have hnew : ∀ handle, task.openId = some handle → state.files.lookup handle = none := by
    intro handle hopenId
    by_contra hsome
    obtain ⟨fd, hlookup⟩ := Option.ne_none_iff_exists'.mp hsome
    exact hinv.unpromised hget (hnoted.files handle fd hlookup) hopenId
  have hshared := hmoved.shared hget hfresh hnew
  have hkept : ∀ fd ∈ state.shared.clones, fd ∈ next.shared.clones →
      standing fd (trace next.log) = standing fd (trace state.log) := by
    intro fd hbefore hafter
    rcases hshared with hsame | hstep
    · exact congrArg (standing fd) (congrArg Sharing.State.trace hsame)
    · exact hstep.standing_eq hown.sound hbefore hafter
  have hused : ∀ fd ∈ state.shared.clones, (standing fd (trace state.log)).isSome = true :=
    fun fd hmem => (hown.sound.used fd).mpr hmem
  obtain ⟨hfiles, hregistered, htasks⟩ := hmoved.frame
  -- a handle that has a file is not registered again
  have hsame : ∀ handle, (registeredFile handle state.log).isSome = true →
      registeredFile handle next.log = registeredFile handle state.log := by
    intro handle hsome
    obtain ⟨fd, hmem⟩ := mem_of_registeredFile hsome
    exact hregistered handle (hinv.unpromised hget hmem)
  have hlisted : ∀ handle fd, state.files.lookup handle = some fd →
      fd ∈ state.shared.clones ∧
      registeredFile handle next.log = standing fd (trace state.log) := by
    intro handle fd hlookup
    have hmem : fd ∈ state.shared.clones := mem_clones.mpr (.inr ⟨handle, hlookup⟩)
    have hfile := hown.listed handle fd hlookup
    exact ⟨hmem, (hsame handle (hfile ▸ hused fd hmem)).trans hfile⟩
  have hheld : ∀ other ∈ state.tasks, ∀ fd, other.stage.fd = some fd →
      fd ∈ state.shared.clones ∧ opFile next.log other.op = standing fd (trace state.log) := by
    intro other hother fd hfd
    have hmem : fd ∈ state.shared.clones := mem_clones.mpr (.inl ⟨other, hother, hfd⟩)
    have hfile := hown.tasks other hother fd hfd
    refine ⟨hmem, (opFile_congr fun handle htarget => hsame handle ?_).trans hfile⟩
    have hregistered : registeredFile handle state.log = standing fd (trace state.log) := by
      rw [← hfile, opFile, htarget]
    exact hregistered ▸ hused fd hmem
  constructor
  · rcases hshared with hsame | hstep
    · exact hsame ▸ hown.sound
    · exact hstep.sound hown.sound
  · intro handle fd hlookup
    have hafter : fd ∈ next.shared.clones := mem_clones.mpr (.inr ⟨handle, hlookup⟩)
    rcases hfiles handle fd hlookup with hold | ⟨htrace, hfile⟩
    · obtain ⟨hbefore, hfile⟩ := hlisted handle fd hold
      rw [hfile, hkept fd hbefore hafter]
    · rw [hfile, htrace]
  · intro other hother fd hfd
    have hafter : fd ∈ next.shared.clones := mem_clones.mpr (.inl ⟨other, hother, hfd⟩)
    have hthis := List.mem_of_getElem? hget
    rcases htasks other hother with hold | ⟨hop, hstage | ⟨handle, own, htarget, hlookup, hstage⟩ |
      ⟨own, file, hopens, hstands, hstage⟩⟩
    · obtain ⟨hbefore, hfile⟩ := hheld other hold fd hfd
      rw [hfile, hkept fd hbefore hafter]
    · obtain ⟨hbefore, hfile⟩ := hheld task hthis fd (hstage ▸ hfd)
      rw [hop, hfile, hkept fd hbefore hafter]
    · obtain rfl := Option.some.inj (hstage.symm.trans hfd)
      obtain ⟨hbefore, hfile⟩ := hlisted handle own hlookup
      rw [hop, opFile, htarget, hkept own hbefore hafter]
      exact hfile
    · obtain rfl := Option.some.inj (hstage.symm.trans hfd)
      rw [hop, opFile_of_opens hopens, hstands]

/-- An event of the channel, and at most a task that has not run. -/
theorem grown (hown : OwnFiles state) (hfiles : next.files = state.files)
    (htasks : next.tasks = state.tasks ∨ ∃ task : Task, task.stage = .spawned ∧
      next.tasks = state.tasks ++ [task])
    {event : Event} (hlog : next.log = event :: state.log)
    (hevent : (∃ msg, event = .sent msg) ∨ ∃ msg, event = .handled msg) : OwnFiles next := by
  have htrace : trace next.log = trace state.log := by
    rw [hlog]
    rcases hevent with ⟨msg, rfl⟩ | ⟨msg, rfl⟩ <;> rfl
  have hregistered : ∀ handle,
      registeredFile handle next.log = registeredFile handle state.log := by
    intro handle
    rw [hlog]
    rcases hevent with ⟨msg, rfl⟩ | ⟨msg, rfl⟩ <;> rfl
  have hclones : taskClones next.tasks = taskClones state.tasks := by
    rcases htasks with hsame | ⟨task, hstage, hsame⟩
    · rw [hsame]
    · rw [hsame, taskClones_perm (List.perm_append_singleton task state.tasks),
        taskClones_cons_none (congrArg Stage.fd hstage)]
  have hshared : next.shared = state.shared := by
    rw [State.shared, State.shared, hclones, hfiles, htrace]
  refine ⟨hshared ▸ hown.sound, fun handle fd hlookup => ?_, fun task htask fd hfd => ?_⟩
  · rw [hregistered, htrace]
    exact hown.listed handle fd (hfiles ▸ hlookup)
  · rw [opFile_congr fun handle _ => hregistered handle, htrace]
    refine hown.tasks task ?_ fd hfd
    rcases htasks with hsame | ⟨spawned, hstage, hsame⟩
    · exact hsame ▸ htask
    · rw [hsame, List.mem_append, List.mem_singleton] at htask
      refine htask.resolve_right ?_
      rintro rfl
      rw [hstage] at hfd
      cases hfd

theorem recv (hown : OwnFiles state) (hrecv : state.recv = some next) : OwnFiles next := by
  rw [State.recv] at hrecv
  split at hrecv
  · cases hrecv
  split at hrecv
  · rename_i msg rx hrx
    cases hrecv
    cases msg with
    | submit id op cb => exact hown.grown rfl (.inr ⟨_, rfl, rfl⟩) rfl (.inr ⟨_, rfl⟩)
    | cancel id =>
        simp only [State.handleMsg]
        split
        · exact hown.grown rfl (.inl rfl) rfl (.inr ⟨_, rfl⟩)
        · exact hown.grown rfl (.inl rfl) rfl (.inr ⟨_, rfl⟩)
  · cases hrecv

theorem dropped (hown : OwnFiles state) : OwnFiles state.dropped := by
  have htrace : ∀ fds : List Fd, trace (fds.map .closed ++ state.log) =
      fds.map .freed ++ trace state.log := by
    intro fds
    induction fds with
    | nil => rfl
    | cons fd fds ih => exact congrArg _ ih
  have hdropped : Sharing.Step state.shared
      ⟨0, state.heldFds.map .freed ++ trace state.log⟩ :=
    .dropAll _ (List.nodup_dedup _) fun fd => mem_heldFds.trans mem_clones.symm
  refine ⟨?_, fun handle fd hlookup => (by cases hlookup), fun task htask => (by cases htask)⟩
  have hsound := hdropped.sound hown.sound
  rw [← htrace] at hsound
  exact hsound

theorem of_reachable (hreach : driver.ReachableBy FreshOpens state) : OwnFiles state := by
  refine hreach.invariant ?_ ?_
  · rintro _ rfl
    exact ⟨Sound.empty, fun handle fd hlookup => (by cases hlookup),
      fun task htask => (by cases htask)⟩
  · intro state label next hprev hown hfresh hstep
    have hinv := Invariant.of_reachable hprev.reachable
    have hsubmitter : label.submits = true → OwnFiles next := by
      intro hsubmits
      obtain ⟨hfiles, htasks, hlog | ⟨msg, hlog, -, -⟩⟩ := submitter_cases hstep hsubmits
      · refine ⟨?_, fun handle fd hlookup => ?_, fun task htask fd hfd => ?_⟩
        · rw [State.shared, hfiles, htasks, hlog]
          exact hown.sound
        · rw [hlog]
          exact hown.listed handle fd (hfiles ▸ hlookup)
        · rw [hlog]
          exact hown.tasks task (htasks ▸ htask) fd hfd
      · exact hown.grown hfiles (.inl htasks) hlog (.inl ⟨msg, rfl⟩)
    cases label with
    | recv => exact hown.recv hstep
    | dropRuntime =>
        obtain ⟨-, -, -, rfl⟩ := State.dropRuntime_eq hstep
        exact hown.dropped
    | poll index ans =>
        obtain ⟨task, hget, hwell, -⟩ := hinv.polled hstep
        exact hown.polled (Noted.of_reachable hprev.reachable) hinv hget
          (State.moved_poll hget hwell hstep) hfresh
    | submit id op => exact hsubmitter rfl
    | requestCancel id => exact hsubmitter rfl
    | dropSubmitters => exact hsubmitter rfl

end OwnFiles

/-- A dropped runtime leaves nothing behind. -/
theorem returned_empty (hreach : driver.Reachable state) (hreturned : state.returned = true) :
    state.tasks = [] ∧ state.files = ∅ := by
  refine ⟨((Invariant.of_reachable hreach).ended hreturned).2.2, ?_⟩
  revert hreturned
  refine @System.Reachable.invariant _ _ _ (fun state => state.returned = true → state.files = ∅)
    ?_ ?_ _ hreach
  · rintro _ rfl hreturned
    rfl
  · intro state label next hprev hempty hstep hreturned
    have hsend : ∀ msg, state.send msg = some next → next.files = ∅ := by
      intro msg hsend
      obtain ⟨rfl, -⟩ := send_eq hsend
      exact hempty hreturned
    cases label with
    | submit id op =>
        change (if id ∈ State.submittedIds state.log then none
          else state.send (.submit id op id)) = some next at hstep
        split at hstep
        · cases hstep
        · exact hsend _ hstep
    | requestCancel id => exact hsend _ hstep
    | dropSubmitters =>
        cases hstep
        exact hempty hreturned
    | recv =>
        change state.recv = some next at hstep
        rw [State.recv] at hstep
        split at hstep
        · cases hstep
        · next hgoing =>
            split at hstep
            · cases hstep
              rw [State.handleMsg_returned] at hreturned
              exact absurd hreturned hgoing
            · cases hstep
    | dropRuntime =>
        obtain ⟨-, -, -, rfl⟩ := State.dropRuntime_eq hstep
        rfl
    | poll index ans =>
        have hinv := Invariant.of_reachable hprev
        obtain ⟨task, -, -, hpolled⟩ := hinv.polled hstep
        rw [hpolled.frame.2.2, hinv.going_of_poll hstep] at hreturned
        cases hreturned

/-- **An op meets no other file.**  Where the kernel answers an open with the
number of no open descriptor, each descriptor is closed once for each open and
as soon as no clone of it is left, every task that holds one has it stand for
the file of its op, and so does every entry of the table for its handle.  Once
the runtime has been dropped nothing is open. -/
theorem own_files (hreach : driver.ReachableBy FreshOpens state) :
    Alternates (trace state.log) ∧
      (∀ fd, (standing fd (trace state.log)).isSome = true ↔
        (∃ task ∈ state.tasks, task.stage.fd = some fd) ∨
          ∃ handle, state.files.lookup handle = some fd) ∧
      (∀ task ∈ state.tasks, ∀ fd, task.stage.fd = some fd → ∃ file,
        opFile state.log task.op = some file ∧ standing fd (trace state.log) = some file) ∧
      (∀ handle fd, state.files.lookup handle = some fd → ∃ file,
        registeredFile handle state.log = some file ∧
          standing fd (trace state.log) = some file) ∧
      (state.returned = true → ∀ fd, standing fd (trace state.log) = none) := by
  have hown := OwnFiles.of_reachable hreach
  have hused : ∀ fd, (standing fd (trace state.log)).isSome = true ↔
      (∃ task ∈ state.tasks, task.stage.fd = some fd) ∨
        ∃ handle, state.files.lookup handle = some fd := fun fd =>
    (hown.sound.used fd).trans mem_clones
  refine ⟨hown.sound.alternates, hused, fun task htask fd hfd => ?_,
    fun handle fd hlookup => ?_, fun hreturned fd => ?_⟩
  · obtain ⟨file, hfile⟩ :=
      Option.isSome_iff_exists.mp ((hused fd).mpr (.inl ⟨task, htask, hfd⟩))
    exact ⟨file, (hown.tasks task htask fd hfd).trans hfile, hfile⟩
  · obtain ⟨file, hfile⟩ := Option.isSome_iff_exists.mp ((hused fd).mpr (.inr ⟨handle, hlookup⟩))
    exact ⟨file, (hown.listed handle fd hlookup).trans hfile, hfile⟩
  · obtain ⟨htasks, hfiles⟩ := returned_empty hreach.reachable hreturned
    by_contra hopen
    rcases (hused fd).mp (Option.isSome_iff_ne_none.mpr hopen) with ⟨task, htask, -⟩ |
      ⟨handle, hlookup⟩
    · rw [htasks] at htask
      cases htask
    · rw [hfiles] at hlookup
      cases hlookup

end Steps

/-- Two files are opened while the first is being read and closed. -/
def reusedFd : List Label :=
  [.submit 1 (.openFile [97] { read := true }), .recv, .poll 0 {}, .poll 0 { openFd := .ok 3 },
    .poll 0 {}, .submit 2 (.readAt 1 0 (.into 0 4)), .submit 3 (.close 1), .recv, .recv,
    .poll 0 {}, .poll 1 {}, .submit 4 (.openFile [98] { write := true }), .recv, .poll 2 {},
    .poll 2 { openFd := .ok 4 }, .poll 2 {}, .poll 0 {}, .poll 0 {},
    .submit 5 (.openFile [99] { read := true }), .recv, .poll 0 {}, .poll 0 { openFd := .ok 3 },
    .poll 0 {}, .submit 6 (.readToEnd 3 0), .recv, .poll 0 {}]

def afterRun (labels : List Label) : State := (driver.exec .new labels).getD .new

/-- The answers of the opens, tested. -/
def freshOpens (state : State) : Label → Bool
  | .poll _ ans => ans.openFd.toOption.all fun fd => (standing fd (trace state.log)).isNone
  | .submit _ _ | .requestCancel _ | .dropSubmitters | .recv | .dropRuntime => true

theorem freshOpens_sound (state : State) (label : Label) (hfresh : freshOpens state label = true) :
    FreshOpens state label := by
  cases label with
  | poll index ans =>
      intro fd hanswer
      rw [freshOpens, hanswer] at hfresh
      exact Option.isNone_iff_eq_none.mp hfresh
  | submit id op => trivial
  | requestCancel id => trivial
  | dropSubmitters => trivial
  | recv => trivial
  | dropRuntime => trivial

/-- The descriptor of the first file stands for the third, which its new reader
is about. -/
theorem own_files_reused :
    ∃ task ∈ (afterRun reusedFd).tasks, task.stage.fd = some 3 ∧ task.op = .readToEnd 3 0 ∧
      Alternates (trace (afterRun reusedFd).log) ∧
      ∃ file, opFile (afterRun reusedFd).log task.op = some file ∧
        standing 3 (trace (afterRun reusedFd).log) = some file ∧
        file = ([99], { read := true }) := by
  have hexec : driver.exec State.new reusedFd = some (afterRun reusedFd) := rfl
  have hreach : driver.ReachableBy FreshOpens (afterRun reusedFd) :=
    .ofExec freshOpens_sound (.init rfl) hexec rfl
  obtain ⟨halternates, -, htasks, -⟩ := own_files hreach
  have htask : ⟨6, .readToEnd 3 0, none, 6, .statting 3⟩ ∈ (afterRun reusedFd).tasks :=
    List.mem_singleton_self _
  obtain ⟨file, hfile, hstands⟩ := htasks _ htask 3 rfl
  have hsame : standing 3 (trace (afterRun reusedFd).log) = some ([99], { read := true }) := rfl
  exact ⟨_, htask, rfl, rfl, halternates, file, hfile, hstands,
    Option.some.inj (hstands.symm.trans hsame)⟩

end Turbofile.Compio
