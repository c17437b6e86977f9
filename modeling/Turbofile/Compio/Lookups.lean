import Turbofile.Compio.LateCancel
import Turbofile.Darwin.Actions

/-!
# What an op finds under its handle

An op on a handle looks its file up at the first poll of its task.  When the
table has no entry then, the op ends there and never holds a file.
-/

namespace Turbofile.Compio

open Turbofile.Core
open Turbofile.Tally
open Turbofile.Darwin (Op.target)

variable {state next : State} {id : OpId} {handle : Handle}

/-! ## The table and the flags against the log -/

/-- An entry of the table was registered, and a flag is set by a cancel. -/
structure Noted (state : State) : Prop where
  files : ∀ handle fd, state.files.lookup handle = some fd →
    Event.registered handle fd ∈ state.log
  flags : ∀ id, state.cancelled id = true → Event.handled (.cancel id) ∈ state.log

/-- The log has grown, the table has lost entries, and no flag has come up. -/
theorem Noted.mono (hnoted : Noted state) (hlog : state.log ⊆ next.log)
    (hfiles : ∀ handle fd, next.files.lookup handle = some fd →
      state.files.lookup handle = some fd)
    (hflags : ∀ id, next.cancelled id = true → state.cancelled id = true) : Noted next where
  files handle fd hlookup := hlog (hnoted.files handle fd (hfiles handle fd hlookup))
  flags id hflag := hlog (hnoted.flags id (hflags id hflag))

theorem lookup_of_erase {Key Entry : Type*} [DecidableEq Key] {table : Table Key Entry}
    {erased key : Key} {entry : Entry} (hlookup : (table.erase erased).lookup key = some entry) :
    table.lookup key = some entry := by
  by_cases hsame : key = erased
  · subst hsame
    rw [AList.lookup_erase] at hlookup
    cases hlookup
  · rwa [AList.lookup_erase_ne hsame] at hlookup

theorem cancelled_of_erase {flags : Table OpId Bool} {other : OpId}
    (hflags : next.cancelFlags = flags.erase other) (hsame : state.cancelFlags = flags)
    (hflag : next.cancelled id = true) : state.cancelled id = true := by
  rw [State.cancelled, decide_eq_true_eq, hflags] at hflag
  rw [State.cancelled, decide_eq_true_eq, hsame]
  exact lookup_of_erase hflag

theorem Noted.polled {index : ℕ} {task : Task} (hnoted : Noted state)
    (hpolled : Polled state index task next) : Noted next := by
  cases hpolled with
  | waits stage events hfits hopen hevents =>
      exact hnoted.mono (List.subset_append_right _ _) (fun _ _ hlookup => hlookup)
        (fun _ hflag => hflag)
  | closes handle fd hop hlookup =>
      exact hnoted.mono (List.Subset.refl _) (fun _ _ hother => lookup_of_erase hother)
        (fun _ hflag => hflag)
  | settles events result hevents hclose =>
      exact hnoted.mono (List.subset_cons_of_subset _ (List.subset_append_right _ _))
        (fun _ _ hlookup => hlookup) (fun _ hflag => cancelled_of_erase rfl rfl hflag)
  | registers handle fd size hopenId =>
      constructor
      · intro other fd' hlookup
        by_cases hsame : other = handle
        · subst hsame
          rw [AList.lookup_insert] at hlookup
          cases hlookup
          exact List.mem_cons_of_mem _ List.mem_cons_self
        · rw [AList.lookup_insert_ne hsame] at hlookup
          exact List.mem_append_right _ (hnoted.files other fd' hlookup)
      · intro id hflag
        exact List.mem_append_right _ (hnoted.flags id (cancelled_of_erase rfl rfl hflag))

theorem Noted.recv (hnoted : Noted state) (hrecv : state.recv = some next) : Noted next := by
  rw [State.recv] at hrecv
  split at hrecv
  · cases hrecv
  · split at hrecv
    · rename_i msg rx hrx
      cases hrecv
      cases msg with
      | submit id op cb =>
          refine hnoted.mono (List.subset_cons_self _ _) (fun _ _ hlookup => hlookup) ?_
          intro other hflag
          rw [State.cancelled, decide_eq_true_eq] at hflag ⊢
          change (state.cancelFlags.insert id false).lookup other = some true at hflag
          by_cases hsame : other = id
          · subst hsame
            rw [AList.lookup_insert] at hflag
            cases hflag
          · rwa [AList.lookup_insert_ne hsame] at hflag
      | cancel id =>
          simp only [State.handleMsg]
          split
          · refine ⟨fun other fd hlookup => List.mem_cons_of_mem _ (hnoted.files _ _ hlookup), ?_⟩
            intro other hflag
            by_cases hsame : other = id
            · subst hsame
              exact List.mem_cons_self
            · refine List.mem_cons_of_mem _ (hnoted.flags other ?_)
              rw [State.cancelled, decide_eq_true_eq] at hflag ⊢
              rwa [AList.lookup_insert_ne hsame] at hflag
          · exact hnoted.mono (List.subset_cons_self _ _) (fun _ _ hlookup => hlookup)
              (fun _ hflag => hflag)
    · cases hrecv

theorem Noted.dropped : Noted state.dropped := by
  refine ⟨fun handle fd hlookup => ?_, fun id hflag => ?_⟩
  · cases hlookup
  · rw [State.cancelled, decide_eq_true_eq] at hflag
    cases hflag

theorem Noted.of_reachable (hreach : driver.Reachable state) : Noted state := by
  refine hreach.invariant ?_ ?_
  · rintro _ rfl
    refine ⟨fun handle fd hlookup => ?_, fun id hflag => ?_⟩
    · cases hlookup
    · rw [State.cancelled, decide_eq_true_eq] at hflag
      cases hflag
  · intro state label next hprev hnoted hstep
    cases label with
    | submit id op =>
        change (if id ∈ State.submittedIds state.log then none
          else state.send (.submit id op id)) = some next at hstep
        split at hstep
        · cases hstep
        · rw [State.send] at hstep
          split at hstep
          · cases hstep
          · cases hstep
            exact hnoted.mono (List.subset_cons_self _ _) (fun _ _ hlookup => hlookup)
              (fun _ hflag => hflag)
    | requestCancel id =>
        change state.send (.cancel id) = some next at hstep
        rw [State.send] at hstep
        split at hstep
        · cases hstep
        · cases hstep
          exact hnoted.mono (List.subset_cons_self _ _) (fun _ _ hlookup => hlookup)
            (fun _ hflag => hflag)
    | dropSubmitters =>
        cases hstep
        exact ⟨hnoted.files, hnoted.flags⟩
    | recv => exact hnoted.recv hstep
    | dropRuntime =>
        obtain ⟨-, -, -, rfl⟩ := State.dropRuntime_eq hstep
        exact .dropped
    | poll index ans =>
        obtain ⟨task, -, -, hpolled⟩ := (Invariant.of_reachable hprev).polled hstep
        exact hnoted.polled hpolled

theorem mem_registeredHandles {fd : Fd} {log : List Event}
    (hmem : Event.registered handle fd ∈ log) : handle ∈ registeredHandles log := by
  induction log with
  | nil => cases hmem
  | cons event log ih =>
      rcases List.mem_cons.mp hmem with rfl | hearlier
      · exact List.mem_cons_self
      · cases event with
        | registered other fd => exact List.mem_cons_of_mem _ (ih hearlier)
        | sent msg => exact ih hearlier
        | handled msg => exact ih hearlier
        | opened fd path spec => exact ih hearlier
        | closed fd => exact ih hearlier
        | settled cb result => exact ih hearlier

/-- A number in the table has been given out. -/
theorem handle_lt_nextId (hreach : driver.Reachable state) {fd : Fd}
    (hlookup : state.files.lookup handle = some fd) : handle < state.nextId := by
  have hmem := (Noted.of_reachable hreach).files handle fd hlookup
  refine (Invariant.of_reachable hreach).claimedFresh handle ?_
  have hcount : 0 < (registeredHandles state.log).count handle :=
    List.count_pos_iff.mpr (mem_registeredHandles hmem)
  exact Nat.add_pos_right _ hcount

/-! ## An op that finds nothing -/

/-- The poll looks up the file of the op and finds one. -/
def Finds (state : State) (label : Label) (id : OpId) (handle : Handle) : Prop :=
  ∃ index ans task, label = .poll index ans ∧ state.tasks[index]? = some task ∧
    task.stage = .spawned ∧ task.id = id ∧ state.cancelled id = false ∧
    (state.files.lookup handle).isSome

/-- The op has not been given a file: it waits for its first poll, or it has
ended as one on an unknown handle. -/
structure Unserved (id : OpId) (handle : Handle) (state : State) : Prop where
  sent : ∃ op, Op.target op = some handle ∧ Event.sent (.submit id op id) ∈ state.log
  waits : ∀ task ∈ state.tasks, task.id = id → task.stage = .spawned
  ends : ∀ result, Event.settled id result ∈ state.log → result = .error badHandle ∨
    result = .error cancelledError ∧ Event.handled (.cancel id) ∈ state.log

theorem execute_unserved {index : ℕ} {task : Task} (htarget : Op.target task.op = some handle)
    (hnone : state.cancelled task.id = false → state.files.lookup handle = none) :
    state.execute index task = state.finish index task none
      (.error (if state.cancelled task.id then cancelledError else badHandle)) := by
  cases hcancelled : state.cancelled task.id with
  | true => simp [State.execute, hcancelled]
  | false =>
      have hmiss := hnone hcancelled
      cases hop : task.op with
      | close other =>
          rw [hop] at htarget
          cases htarget
          simp [State.execute, hcancelled, hop, hmiss]
      | readAt other pos dest =>
          rw [hop] at htarget
          cases htarget
          simp [State.execute, hcancelled, hop, State.withFile, hmiss]
      | readToEnd other pos =>
          rw [hop] at htarget
          cases htarget
          simp [State.execute, hcancelled, hop, State.withFile, hmiss]
      | writeAt other pos data append =>
          rw [hop] at htarget
          cases htarget
          simp [State.execute, hcancelled, hop, State.withFile, hmiss]
      | sync other dataOnly =>
          rw [hop] at htarget
          cases htarget
          simp [State.execute, hcancelled, hop, State.withFile, hmiss]
      | setLen other size =>
          rw [hop] at htarget
          cases htarget
          simp [State.execute, hcancelled, hop, State.withFile, hmiss]
      | size other =>
          rw [hop] at htarget
          cases htarget
          simp [State.execute, hcancelled, hop, State.withFile, hmiss]
      | openFile path spec =>
          rw [hop] at htarget
          cases htarget
      | readFile path inlineMax =>
          rw [hop] at htarget
          cases htarget
      | writeFile path data =>
          rw [hop] at htarget
          cases htarget
      | nop =>
          rw [hop] at htarget
          cases htarget

/-- Every op in the channel or in a task is the one that was sent. -/
theorem exists_recorded (hreach : driver.Reachable state) : ∃ reads, Recorded state reads := by
  refine @System.Reachable.invariant _ _ _ (fun state => ∃ reads, Recorded state reads) ?_ ?_ _
    hreach
  · rintro _ rfl
    exact ⟨_, Recorded.new⟩
  · rintro state label next hprev ⟨reads, hrecorded⟩ hstep
    exact ⟨_, hrecorded.step (Invariant.of_reachable hprev) hstep⟩

namespace Unserved

theorem poll (hunserved : Unserved id handle state) (hreach : driver.Reachable state) {index : ℕ}
    {ans : Answers} (hfinds : ¬Finds state (.poll index ans) id handle)
    (hpoll : state.poll ans index = some next) : Unserved id handle next := by
  have hinv := Invariant.of_reachable hreach
  obtain ⟨task, hget, hwell, hpolled⟩ := hinv.polled hpoll
  obtain ⟨hapart, -, hsettled⟩ := ids_apart hinv (hinv.going_of_poll hpoll) hget
  obtain ⟨hothers, events, hlog, hsent, hends⟩ := hpolled.quiet hget
  obtain ⟨op, htarget, hop⟩ := hunserved.sent
  have hsub : state.log ⊆ next.log := by
    rw [hlog]
    exact List.subset_append_right _ _
  by_cases hself : task.id = id
  · subst hself
    obtain ⟨reads, hrecorded⟩ := exists_recorded hreach
    have hmem := List.mem_of_getElem? hget
    have hstage := hunserved.waits task hmem rfl
    obtain rfl := sent_unique hinv.unique (hrecorded.sent task hmem) hop
    have hnone : state.cancelled task.id = false → state.files.lookup handle = none := by
      intro hcancelled
      by_contra hsome
      exact hfinds ⟨index, ans, task, rfl, hget, hstage, rfl, hcancelled,
        Option.isSome_iff_ne_none.mpr hsome⟩
    have hnext : next = state.finish index task none
        (.error (if state.cancelled task.id then cancelledError else badHandle)) := by
      rw [← execute_unserved htarget hnone]
      simp only [State.poll, hget, hstage] at hpoll
      exact (Option.some.inj hpoll).symm
    refine ⟨⟨task.op, htarget, hsub hop⟩, ?_, ?_⟩
    · intro other hother hid
      rw [hnext] at hother
      exact absurd hid (hapart other hother).2
    · intro result hresult
      rw [hnext] at hresult ⊢
      rcases List.mem_cons.mp hresult with hnow | hearlier
      · cases hcancelled : state.cancelled task.id with
        | true =>
            rw [hcancelled] at hnow
            obtain ⟨-, rfl⟩ := Event.settled.inj hnow
            exact .inr ⟨rfl, List.mem_cons_of_mem _
              ((Noted.of_reachable hreach).flags task.id hcancelled)⟩
        | false =>
            rw [hcancelled] at hnow
            obtain ⟨-, rfl⟩ := Event.settled.inj hnow
            exact .inl rfl
      · exact absurd hearlier (not_settled hsettled result)
  · refine ⟨⟨op, htarget, hsub hop⟩, ?_, ?_⟩
    · intro other hother hid
      rcases hothers other hother with hrest | ⟨stage, rfl⟩
      · exact hunserved.waits other (hapart other hrest).1 hid
      · exact absurd hid hself
    · intro result hresult
      rw [hlog] at hresult
      rcases List.mem_append.mp hresult with hnew | hold
      · exact absurd ((hends id result hnew).trans hwell.own).symm hself
      · exact (hunserved.ends result hold).imp_right fun hcancelled =>
          ⟨hcancelled.1, hsub hcancelled.2⟩

/-- An op that has just been sent waits for its first poll. -/
theorem of_submit (hreach : driver.Reachable state) {op : Op}
    (htarget : Op.target op = some handle)
    (hstep : Compio.step state (.submit id op) = some next) : Unserved id handle next := by
  have hinv := Invariant.of_reachable hreach
  simp only [Compio.step, State.send] at hstep
  split at hstep
  · cases hstep
  · next hnew =>
      split at hstep
      · cases hstep
      · next hopen =>
          cases hstep
          have hgoing : state.returned = false := by
            cases hreturned : state.returned with
            | false => rfl
            | true => exact absurd (hinv.ended hreturned).2.1 hopen
          refine ⟨⟨op, htarget, List.mem_cons_self⟩, fun task hmem hid => ?_, fun result hmem => ?_⟩
          · obtain ⟨reads, hrecorded⟩ := exists_recorded hreach
            exact absurd (mem_submittedIds (hid ▸ hrecorded.sent task hmem)) hnew
          · have hearlier := (List.mem_cons.mp hmem).resolve_left (by rintro ⟨⟩)
            have hbalance := hinv.balance hgoing id
            rw [List.count_eq_zero_of_not_mem hnew] at hbalance
            have hnone : settledTimes id state.log = 0 := by omega
            exact absurd hearlier (not_settled hnone result)

/-- Only the poll that finds a file serves the op. -/
theorem step (hunserved : Unserved id handle state) (hreach : driver.Reachable state)
    {label : Label} (hfinds : ¬Finds state label id handle)
    (hstep : Compio.step state label = some next) : Unserved id handle next := by
  obtain ⟨op, htarget, hop⟩ := hunserved.sent
  have hidle : Idles state next → Unserved id handle next := by
    rintro ⟨htasks, -, -, events, hlog, -, hends⟩
    have hsub : state.log ⊆ next.log := by
      rw [hlog]
      exact List.subset_append_right _ _
    refine ⟨⟨op, htarget, hsub hop⟩, ?_, ?_⟩
    · intro task hmem hid
      exact (htasks task hmem).elim (fun hold => hunserved.waits task hold hid) And.left
    · intro result hresult
      rw [hlog] at hresult
      have hold := (List.mem_append.mp hresult).resolve_left (hends id result)
      exact (hunserved.ends result hold).imp_right fun hcancelled =>
        ⟨hcancelled.1, hsub hcancelled.2⟩
  have hsend : ∀ msg, state.send msg = some next → Unserved id handle next := by
    intro msg hsend
    rw [State.send] at hsend
    split at hsend
    · cases hsend
    · cases hsend
      refine ⟨⟨op, htarget, List.mem_cons_of_mem _ hop⟩, hunserved.waits, fun result hresult => ?_⟩
      have hearlier := (List.mem_cons.mp hresult).resolve_left (by rintro ⟨⟩)
      exact (hunserved.ends result hearlier).imp_right fun hcancelled =>
        ⟨hcancelled.1, List.mem_cons_of_mem _ hcancelled.2⟩
  cases label with
  | submit other op =>
      simp only [Compio.step] at hstep
      split at hstep
      · cases hstep
      · exact hsend _ hstep
  | requestCancel other => exact hsend _ hstep
  | dropSubmitters =>
      cases hstep
      exact ⟨hunserved.sent, hunserved.waits, hunserved.ends⟩
  | recv => exact hidle (recv_quiet hstep)
  | dropRuntime => exact hidle (dropRuntime_quiet hstep)
  | poll index ans => exact hunserved.poll hreach hfinds hstep

end Unserved

/-- The file a poll finds was registered. -/
theorem registered_of_finds (hreach : driver.Reachable state) {label : Label}
    (hfinds : Finds state label id handle) (hstep : Compio.step state label = some next) :
    ∃ fd, Event.registered handle fd ∈ next.log := by
  obtain ⟨index, ans, task, rfl, hget, -, -, -, hfile⟩ := hfinds
  obtain ⟨fd, hlookup⟩ := Option.isSome_iff_exists.mp hfile
  obtain ⟨other, hother, -, hpolled⟩ := (Invariant.of_reachable hreach).polled hstep
  obtain ⟨-, events, hlog, -, -⟩ := hpolled.quiet hother
  rw [hlog]
  exact ⟨fd, List.mem_append_right _ ((Noted.of_reachable hreach).files handle fd hlookup)⟩

/-- A number is given out once and for all. -/
theorem nextId_step (hreach : driver.Reachable state) {label : Label}
    (hstep : Compio.step state label = some next) : state.nextId ≤ next.nextId := by
  have hsend : ∀ msg, state.send msg = some next → state.nextId ≤ next.nextId := by
    intro msg hsend
    rw [State.send] at hsend
    split at hsend
    · cases hsend
    · cases hsend
      exact le_refl _
  cases label with
  | submit other op =>
      simp only [Compio.step] at hstep
      split at hstep
      · cases hstep
      · exact hsend _ hstep
  | requestCancel other => exact hsend _ hstep
  | dropSubmitters =>
      cases hstep
      exact le_refl _
  | recv =>
      change state.recv = some next at hstep
      rw [State.recv] at hstep
      split at hstep
      · cases hstep
      · split at hstep
        · rename_i msg rx hrx
          cases hstep
          cases msg with
          | submit id op cb =>
              simp only [State.handleMsg]
              split
              · exact Nat.le_succ _
              · exact le_refl _
          | cancel id =>
              simp only [State.handleMsg]
              split
              · exact le_refl _
              · exact le_refl _
        · cases hstep
  | dropRuntime =>
      obtain ⟨-, -, -, rfl⟩ := State.dropRuntime_eq hstep
      exact le_refl _
  | poll index ans =>
      obtain ⟨task, -, -, hpolled⟩ := (Invariant.of_reachable hreach).polled hstep
      exact hpolled.frame.2.1.ge

end Turbofile.Compio
