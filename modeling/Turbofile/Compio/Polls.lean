import Turbofile.Compio.Step

/-!
# What a poll can do

Whatever await a task is at, one poll leaves it at another await, or settles
its op and drops it.  `Polled` lists the ways with all they change, so that no
later proof takes `poll` apart.
-/

namespace Turbofile.Compio

open Turbofile.Core

/-- The ops that come to wait there. -/
def Stage.fits (op : Op) : Stage → Prop
  | .spawned => True
  | .opening => (State.openIdFor op 0).isSome ∨ ∃ path data, op = .writeFile path data
  | .statting _ =>
      (State.openIdFor op 0).isSome ∨ (∃ handle pos, op = .readToEnd handle pos) ∨
        (∃ handle pos data append, op = .writeAt handle pos data append) ∨
        ∃ handle, op = .size handle
  | .reading _ _ => ∃ handle pos dest, op = .readAt handle pos dest
  | .readingToEnd _ =>
      (∃ handle pos, op = .readToEnd handle pos) ∨ ∃ path inlineMax, op = .readFile path inlineMax
  | .writing _ =>
      (∃ handle pos data append, op = .writeAt handle pos data append) ∨
        ∃ path data, op = .writeFile path data
  | .appending _ => ∃ handle pos data append, op = .writeAt handle pos data append
  | .syncing _ => ∃ handle dataOnly, op = .sync handle dataOnly
  | .resizing _ => ∃ handle size, op = .setLen handle size
  | .closing _ reply =>
      (∃ handle, op = .close handle ∧ reply = .unit) ∨
        (∃ path inlineMax, op = .readFile path inlineMax) ∨ ∃ path data, op = .writeFile path data

structure Task.WellFormed (task : Task) : Prop where
  fits : task.stage.fits task.op
  openId : task.openId.isSome = (State.openIdFor task.op 0).isSome
  own : task.cb = task.id

/-- Opens and closes: neither a submission nor a registration nor a settlement. -/
def Event.isFile : Event → Prop
  | .opened _ _ _ | .closed _ => True
  | .sent _ | .handled _ | .registered _ _ | .settled _ _ => False

/-- A poll of the task at `index`, by what has become of it. -/
inductive Polled (state : State) (index : ℕ) (task : Task) : State → Prop
  | waits (stage : Stage) (events : List Event) (hfits : stage.fits task.op)
      (hopen : ∀ handle, task.op ≠ .close handle)
      (hevents : ∀ event ∈ events, event.isFile) :
      Polled state index task { state with
        tasks := state.tasks.set index { task with stage := stage }
        log := events ++ state.log }
  | closes (handle : Handle) (fd : Fd) (hop : task.op = .close handle)
      (hlookup : state.files.lookup handle = some fd) :
      Polled state index task { state with
        files := state.files.erase handle
        tasks := state.tasks.set index { task with stage := .closing fd .unit } }
  | settles (events : List Event) (result : Outcome)
      (hevents : ∀ event ∈ events, event.isFile)
      (hclose : ∀ handle, task.op = .close handle →
        (task.stage = .spawned ∧
          (state.cancelled task.id = true ∨ state.files.lookup handle = none)) ∨
        ∃ fd, task.stage = .closing fd .unit ∧ Event.closed fd ∈ events) :
      Polled state index task { state with
        cancelFlags := state.cancelFlags.erase task.id
        tasks := state.tasks.eraseIdx index
        log := .settled task.cb result :: (events ++ state.log) }
  | registers (handle : Handle) (fd : Fd) (size : ℕ) (hopenId : task.openId = some handle) :
      Polled state index task { state with
        files := state.files.insert handle fd
        cancelFlags := state.cancelFlags.erase task.id
        tasks := state.tasks.eraseIdx index
        log := [.settled task.cb (.ok (.handle handle size fd)), .registered handle fd] ++
          state.log }

namespace State

variable {state : State} {index : ℕ} {task : Task}

/-- `finish` after nothing but closes. -/
theorem polled_finish (held : Option Fd) (result : Outcome)
    (hclose : ∀ handle, task.op = .close handle → task.stage = .spawned ∧
      (state.cancelled task.id = true ∨ state.files.lookup handle = none)) :
    Polled state index task (state.finish index task held result) := by
  have hsettles : ∀ events : List Event, (∀ event ∈ events, event.isFile) →
      Polled state index task { state with
        cancelFlags := state.cancelFlags.erase task.id
        tasks := state.tasks.eraseIdx index
        log := .settled task.cb result :: (events ++ state.log) } :=
    fun events hevents => .settles events result hevents
      fun handle hop => Or.inl (hclose handle hop)
  cases held with
  | none => exact hsettles [] (by simp)
  | some fd =>
      simp only [finish, release]
      split
      · exact hsettles [] (by simp)
      · exact hsettles [.closed fd] (by simp [Event.isFile])

theorem polled_suspend {stage : Stage} (hfits : stage.fits task.op)
    (hopen : ∀ handle, task.op ≠ .close handle) :
    Polled state index task (state.suspend index task stage) :=
  .waits stage [] hfits hopen (by simp)

theorem polled_insertFile (hwell : task.WellFormed) (hop : (openIdFor task.op 0).isSome)
    (fd : Fd) (size : ℕ) :
    Polled state index task (state.insertFile index task fd size) := by
  have hsome := hwell.openId
  rw [hop, Option.isSome_iff_exists] at hsome
  obtain ⟨handle, hhandle⟩ := hsome
  simp only [insertFile, hhandle]
  exact .registers handle fd size hhandle

theorem polled_readUpTo {handle : Handle} {pos : ℕ} {dest : Dest}
    (hop : task.op = .readAt handle pos dest) (fd : Fd) (buf : Buf) :
    Polled state index task (state.readUpTo index task fd dest buf) := by
  have hopen : ∀ handle, task.op ≠ .close handle := by simp [hop]
  have hfinish : ∀ result, Polled state index task
      (state.finish index task (some fd) result) := fun result =>
    polled_finish _ result fun handle hclose => absurd hclose (hopen handle)
  have hsuspend : Polled state index task (state.suspend index task (.reading fd buf)) :=
    polled_suspend ⟨handle, pos, dest, hop⟩ hopen
  cases dest with
  | alloc len =>
      simp only [readUpTo]
      split_ifs
      · exact hfinish _
      · exact hfinish _
      · exact hsuspend
  | into ptr len =>
      simp only [readUpTo]
      split_ifs
      · exact hfinish _
      · exact hfinish _
      · exact hsuspend

theorem polled_withFile {handle : Handle} {use : Fd → State}
    (hopen : ∀ handle, task.op ≠ .close handle)
    (huse : ∀ fd, Polled state index task (use fd)) :
    Polled state index task (state.withFile index task handle use) := by
  unfold withFile
  split
  · exact polled_finish _ _ fun handle hclose => absurd hclose (hopen handle)
  · exact huse _

theorem polled_execute (hstage : task.stage = .spawned) :
    Polled state index task (state.execute index task) := by
  by_cases hcancelled : state.cancelled task.id = true
  · rw [execute, if_pos hcancelled]
    exact polled_finish _ _ fun _ _ => ⟨hstage, Or.inl hcancelled⟩
  rw [execute, if_neg hcancelled]
  cases hop : task.op with
  | nop => exact polled_finish _ _ (by simp [hop])
  | openFile path spec =>
      exact polled_suspend (Or.inl (by simp [hop, openIdFor])) (by simp [hop])
  | readFile path inlineMax =>
      exact polled_suspend (Or.inl (by simp [hop, openIdFor])) (by simp [hop])
  | writeFile path data =>
      exact polled_suspend (Or.inr ⟨path, data, hop⟩) (by simp [hop])
  | close handle =>
      simp only
      split
      · next hlookup =>
          refine polled_finish _ _ fun other hother => ⟨hstage, Or.inr ?_⟩
          rw [hop] at hother
          cases hother
          exact hlookup
      · next fd hlookup => exact .closes handle fd hop hlookup
  | readAt handle pos dest =>
      apply polled_withFile (by simp [hop])
      intro fd
      cases dest <;> exact polled_readUpTo hop fd _
  | readToEnd handle pos =>
      apply polled_withFile (by simp [hop])
      exact fun fd => polled_suspend (Or.inr (Or.inl ⟨handle, pos, hop⟩)) (by simp [hop])
  | size handle =>
      apply polled_withFile (by simp [hop])
      exact fun fd => polled_suspend (Or.inr (Or.inr (Or.inr ⟨handle, hop⟩))) (by simp [hop])
  | writeAt handle pos data append =>
      apply polled_withFile (by simp [hop])
      intro fd
      split
      · exact polled_suspend ⟨handle, pos, data, append, hop⟩ (by simp [hop])
      · exact polled_suspend (Or.inl ⟨handle, pos, data, append, hop⟩) (by simp [hop])
  | sync handle dataOnly =>
      apply polled_withFile (by simp [hop])
      exact fun fd => polled_suspend ⟨handle, dataOnly, hop⟩ (by simp [hop])
  | setLen handle size =>
      apply polled_withFile (by simp [hop])
      exact fun fd => polled_suspend ⟨handle, size, hop⟩ (by simp [hop])

theorem polled_orFail {α : Type} {held : Option Fd} {result : Except Errno α}
    {next : α → State} (hopen : ∀ handle, task.op ≠ .close handle)
    (hnext : ∀ value, Polled state index task (next value)) :
    Polled state index task (state.orFail index task held result next) := by
  cases result with
  | error errno =>
      exact polled_finish _ _ fun handle hclose => absurd hclose (hopen handle)
  | ok value => exact hnext value

theorem polled_openedFile (hfits : Stage.opening.fits task.op) (fd : Fd) :
    Polled state index task (state.openedFile index task fd) := by
  have hopened : ∀ path spec stage, Stage.fits task.op stage →
      (∀ handle, task.op ≠ .close handle) →
      Polled state index task
        ((state.emit (.opened fd path spec)).suspend index task stage) :=
    fun path spec stage hstage hopen =>
      .waits stage [.opened fd path spec] hstage hopen (by simp [Event.isFile])
  unfold openedFile
  cases hop : task.op with
  | openFile path spec =>
      exact hopened _ _ _ (Or.inl (by simp [hop, openIdFor])) (by simp [hop])
  | readFile path inlineMax =>
      exact hopened _ _ _ (Or.inl (by simp [hop, openIdFor])) (by simp [hop])
  | writeFile path data =>
      exact hopened _ _ _ (Or.inr ⟨path, data, hop⟩) (by simp [hop])
  | _ => simp [Stage.fits, hop, openIdFor] at hfits

theorem polled_statted (hwell : task.WellFormed) {fd : Fd}
    (hfits : (Stage.statting fd).fits task.op) (stat : FileStat) :
    Polled state index task (state.statted index task fd stat) := by
  unfold statted
  cases hop : task.op with
  | openFile path spec =>
      exact polled_insertFile hwell (by simp [hop, openIdFor]) fd _
  | readFile path inlineMax =>
      simp only
      split
      · exact polled_insertFile hwell (by simp [hop, openIdFor]) fd _
      · exact polled_suspend (Or.inr ⟨path, inlineMax, hop⟩) (by simp [hop])
  | readToEnd handle pos =>
      exact polled_suspend (Or.inl ⟨handle, pos, hop⟩) (by simp [hop])
  | writeAt handle pos data append => exact polled_finish _ _ (by simp [hop])
  | size handle => exact polled_finish _ _ (by simp [hop])
  | _ => simp [Stage.fits, hop, openIdFor] at hfits

theorem polled_wrote {fd : Fd} (hfits : (Stage.writing fd).fits task.op) :
    Polled state index task (state.wrote index task fd) := by
  unfold wrote
  cases hop : task.op with
  | writeAt handle pos data append => exact polled_finish _ _ (by simp [hop])
  | writeFile path data =>
      exact polled_suspend (Or.inr (Or.inr ⟨path, data, hop⟩)) (by simp [hop])
  | _ => simp [Stage.fits, hop] at hfits

theorem polled_readAll {fd : Fd} (hfits : (Stage.readingToEnd fd).fits task.op)
    (data : List Byte) : Polled state index task (state.readAll index task fd data) := by
  unfold readAll
  cases hop : task.op with
  | readToEnd handle pos => exact polled_finish _ _ (by simp [hop])
  | readFile path inlineMax =>
      exact polled_suspend (Or.inr (Or.inl ⟨path, inlineMax, hop⟩)) (by simp [hop])
  | _ => simp [Stage.fits, hop] at hfits

/-- A close that has ended: the descriptor goes before the callback runs. -/
theorem polled_closed {fd : Fd} {reply : Reply} (hfits : (Stage.closing fd reply).fits task.op)
    (hstage : task.stage = .closing fd reply) (result : Outcome) :
    Polled state index task
      ((state.emit (.closed fd)).finish index task none result) := by
  refine .settles [.closed fd] result (by simp [Event.isFile]) ?_
  intro handle hop
  refine Or.inr ⟨fd, ?_, List.mem_singleton_self _⟩
  have hunit : reply = .unit := by simpa [Stage.fits, hop] using hfits
  rw [hstage, hunit]

/-- One poll of a task. -/
theorem polled_poll {ans : Answers} {next : State} (hget : state.tasks[index]? = some task)
    (hwell : task.WellFormed) (hpoll : state.poll ans index = some next) :
    Polled state index task next := by
  have hfits := hwell.fits
  unfold poll at hpoll
  rw [hget] at hpoll
  simp only at hpoll
  cases hstage : task.stage with
  | spawned =>
      rw [hstage] at hpoll
      obtain rfl := Option.some.inj hpoll
      exact polled_execute hstage
  | opening =>
      rw [hstage] at hpoll hfits
      obtain rfl := Option.some.inj hpoll
      apply polled_orFail
      · intro handle hop
        simp [Stage.fits, hop, openIdFor] at hfits
      · exact fun fd => polled_openedFile hfits fd
  | statting fd =>
      rw [hstage] at hpoll hfits
      obtain rfl := Option.some.inj hpoll
      apply polled_orFail
      · intro handle hop
        simp [Stage.fits, hop, openIdFor] at hfits
      · exact fun stat => polled_statted hwell hfits stat
  | reading fd buf =>
      rw [hstage] at hpoll hfits
      obtain ⟨handle, pos, dest, hop⟩ := hfits
      simp only [hop] at hpoll
      obtain rfl := Option.some.inj hpoll
      apply polled_orFail (by simp [hop])
      intro data
      split
      · exact polled_finish _ _ (by simp [hop])
      · exact polled_readUpTo hop fd _
  | readingToEnd fd =>
      rw [hstage] at hpoll hfits
      obtain rfl := Option.some.inj hpoll
      apply polled_orFail
      · intro handle hop
        simp [Stage.fits, hop] at hfits
      · exact fun data => polled_readAll hfits data
  | writing fd =>
      rw [hstage] at hpoll hfits
      obtain rfl := Option.some.inj hpoll
      apply polled_orFail
      · intro handle hop
        simp [Stage.fits, hop] at hfits
      · exact fun _ => polled_wrote hfits
  | appending fd =>
      rw [hstage] at hpoll hfits
      obtain rfl := Option.some.inj hpoll
      obtain ⟨handle, pos, data, append, hop⟩ := hfits
      apply polled_orFail (by simp [hop])
      exact fun _ => polled_suspend
        (Or.inr (Or.inr (Or.inl ⟨handle, pos, data, append, hop⟩))) (by simp [hop])
  | syncing fd =>
      rw [hstage] at hpoll hfits
      obtain rfl := Option.some.inj hpoll
      obtain ⟨handle, dataOnly, hop⟩ := hfits
      apply polled_orFail (by simp [hop])
      exact fun _ => polled_finish _ _ (by simp [hop])
  | resizing fd =>
      rw [hstage] at hpoll hfits
      obtain rfl := Option.some.inj hpoll
      obtain ⟨handle, size, hop⟩ := hfits
      apply polled_orFail (by simp [hop])
      exact fun _ => polled_finish _ _ (by simp [hop])
  | closing fd reply =>
      rw [hstage] at hpoll hfits
      simp only at hpoll
      split at hpoll
      · cases hpoll
      · obtain rfl := Option.some.inj hpoll
        cases ans.done with
        | error errno => exact polled_closed hfits hstage _
        | ok value => exact polled_closed hfits hstage _

end State

end Turbofile.Compio
