import Turbofile.Compio.Lookups
import Turbofile.Library.Logs

/-!
# A close on the compio driver

A registered file is in the table, or held by the task of its close, or closed.
Its close takes it out of the table at the first poll, unless the flag of the
op is set by then.
-/

namespace Turbofile.Compio

open Turbofile.Core
open Turbofile.Tally
open Turbofile.Logs

variable {state next : State} {index : ℕ} {task : Task}

/-! ## Where a registered file is -/

structure Located (state : State) : Prop where
  place : ∀ handle fd, Event.registered handle fd ∈ state.log →
    state.files.lookup handle = some fd ∨
      (∃ task ∈ state.tasks, task.op = .close handle ∧ task.stage = .closing fd .unit) ∨
      Precedes (.registered handle fd) (.closed fd) state.log
  closing : ∀ task ∈ state.tasks, ∀ handle fd, task.op = .close handle →
    task.stage = .closing fd .unit →
    Event.registered handle fd ∈ state.log ∧ state.files.lookup handle = none

/-- A handle that is registered is promised to no task. -/
theorem Invariant.unpromised (hinv : Invariant state) (hget : state.tasks[index]? = some task)
    {handle : Handle} {fd : Fd} (hmem : Event.registered handle fd ∈ state.log) :
    task.openId ≠ some handle := by
  intro hopen
  have hclaims := hinv.claimedOnce handle
  have hpromised : 0 < (state.tasks.map (·.openId)).count (some handle) :=
    List.count_pos_iff.mpr (List.mem_map.mpr ⟨task, List.mem_of_getElem? hget, hopen⟩)
  have hregistered := List.count_pos_iff.mpr (mem_registeredHandles hmem)
  rw [State.claims] at hclaims
  omega

/-- A handle that is registered and out of the table stays out. -/
theorem Polled.unlisted (hpolled : Polled state index task next) (hinv : Invariant state)
    (hget : state.tasks[index]? = some task) {handle : Handle} {fd : Fd}
    (hmem : Event.registered handle fd ∈ state.log)
    (hnone : state.files.lookup handle = none) : next.files.lookup handle = none := by
  cases hpolled with
  | waits stage events hfits hopen hevents => exact hnone
  | settles events result hevents hclose => exact hnone
  | closes other fd' hop hlookup =>
      by_contra hsome
      obtain ⟨found, hfound⟩ := Option.ne_none_iff_exists'.mp hsome
      rw [lookup_of_erase hfound] at hnone
      cases hnone
  | registers other fd' size hopenId =>
      have hne : handle ≠ other := by
        rintro rfl
        exact hinv.unpromised hget hmem hopenId
      change (state.files.insert other fd').lookup handle = none
      rw [AList.lookup_insert_ne hne]
      exact hnone

theorem precedes_closed {handle : Handle} {fd : Fd} {events log : List Event}
    (hclosed : Event.closed fd ∈ events) (hmem : Event.registered handle fd ∈ log) :
    Precedes (.registered handle fd) (.closed fd) (events ++ log) := by
  obtain ⟨front, back, rfl⟩ := List.append_of_mem hclosed
  exact ⟨front, back ++ log, by simp, List.mem_append_right _ hmem⟩

/-- A task of the list is the one at the index, or one of the others. -/
theorem eq_or_mem_eraseIdx (hget : state.tasks[index]? = some task) {other : Task}
    (hother : other ∈ state.tasks) : other = task ∨ other ∈ state.tasks.eraseIdx index :=
  List.mem_cons.mp ((Polled.perm_erase hget).mem_iff.mp hother)

/-- A task that is no close waits for its next answer. -/
theorem Located.waits (hlocated : Located state) (hget : state.tasks[index]? = some task)
    (stage : Stage) {events : List Event} (hopen : ∀ handle, task.op ≠ .close handle)
    (hevents : ∀ event ∈ events, event.isFile) :
    Located { state with
      tasks := state.tasks.set index { task with stage := stage }
      log := events ++ state.log } where
  place handle fd hmem := by
    have hold : Event.registered handle fd ∈ state.log :=
      (List.mem_append.mp hmem).resolve_left fun hnew => hevents _ hnew
    rcases hlocated.place handle fd hold with hlookup | ⟨other, hother, hop, hstage⟩ | hclosed
    · exact .inl hlookup
    · refine .inr (.inl ⟨other, ?_, hop, hstage⟩)
      refine (Polled.perm_set hget _).mem_iff.mpr (List.mem_cons_of_mem _ ?_)
      refine (eq_or_mem_eraseIdx hget hother).resolve_left ?_
      rintro rfl
      exact hopen handle hop
    · exact .inr (.inr (hclosed.mono (List.suffix_append _ _)))
  closing other hother handle fd hop hstage := by
    rcases List.mem_cons.mp ((Polled.perm_set hget _).mem_iff.mp hother) with rfl | hrest
    · exact absurd hop (hopen handle)
    · obtain ⟨hmem, hnone⟩ :=
        hlocated.closing other (List.mem_of_mem_eraseIdx hrest) handle fd hop hstage
      exact ⟨List.mem_append_right _ hmem, hnone⟩

/-- A close takes its file out of the table. -/
theorem Located.closes (hlocated : Located state) (hnoted : Noted state) (hinv : Invariant state)
    (hget : state.tasks[index]? = some task) {closed : Handle} {fd' : Fd}
    (hclose : task.op = .close closed) (hlookup : state.files.lookup closed = some fd') :
    Located { state with
      files := state.files.erase closed
      tasks := state.tasks.set index { task with stage := .closing fd' .unit } } where
  place handle fd hmem := by
    rcases hlocated.place handle fd hmem with hlisted | ⟨other, hother, hop, hstage⟩ | hclosed
    · by_cases hsame : handle = closed
      · subst hsame
        rw [hlookup] at hlisted
        obtain rfl := Option.some.inj hlisted
        refine .inr (.inl ⟨{ task with stage := .closing fd' .unit }, ?_, hclose, rfl⟩)
        exact (Polled.perm_set hget _).mem_iff.mpr List.mem_cons_self
      · left
        change (state.files.erase closed).lookup handle = some fd
        rw [AList.lookup_erase_ne hsame]
        exact hlisted
    · refine .inr (.inl ⟨other, ?_, hop, hstage⟩)
      refine (Polled.perm_set hget _).mem_iff.mpr (List.mem_cons_of_mem _ ?_)
      refine (eq_or_mem_eraseIdx hget hother).resolve_left ?_
      rintro rfl
      have hnone := (hlocated.closing other hother handle fd hop hstage).2
      rw [hclose] at hop
      cases hop
      rw [hlookup] at hnone
      cases hnone
    · exact .inr (.inr hclosed)
  closing other hother handle fd hop hstage := by
    rcases List.mem_cons.mp ((Polled.perm_set hget _).mem_iff.mp hother) with rfl | hrest
    · cases hstage
      rw [hclose] at hop
      cases hop
      exact ⟨hnoted.files closed fd' hlookup, AList.lookup_erase closed state.files⟩
    · obtain ⟨hmem, hnone⟩ :=
        hlocated.closing other (List.mem_of_mem_eraseIdx hrest) handle fd hop hstage
      exact ⟨hmem, (Polled.closes closed fd' hclose hlookup).unlisted hinv hget hmem hnone⟩

/-- A task settles; that of a close has closed its descriptor by then. -/
theorem Located.settles (hlocated : Located state) (hget : state.tasks[index]? = some task)
    {events : List Event} (result : Outcome) (hevents : ∀ event ∈ events, event.isFile)
    (hclose : ∀ handle fd, task.op = .close handle → task.stage = .closing fd .unit →
      Event.closed fd ∈ events) :
    Located { state with
      cancelFlags := state.cancelFlags.erase task.id
      tasks := state.tasks.eraseIdx index
      log := .settled task.cb result :: (events ++ state.log) } := by
  have hsuffix : state.log <:+ .settled task.cb result :: (events ++ state.log) :=
    (List.suffix_append _ _).trans (List.suffix_cons _ _)
  constructor
  · intro handle fd hmem
    have hold : Event.registered handle fd ∈ state.log := by
      rcases List.mem_cons.mp hmem with hnow | hlater
      · cases hnow
      · exact (List.mem_append.mp hlater).resolve_left fun hnew => hevents _ hnew
    rcases hlocated.place handle fd hold with hlookup | ⟨other, hother, hop, hstage⟩ | hclosed
    · exact .inl hlookup
    · rcases eq_or_mem_eraseIdx hget hother with rfl | hrest
      · have hprecedes := precedes_closed (hclose handle fd hop hstage) hold
        exact .inr (.inr (hprecedes.mono (List.suffix_cons _ _)))
      · exact .inr (.inl ⟨other, hrest, hop, hstage⟩)
    · exact .inr (.inr (hclosed.mono hsuffix))
  · intro other hother handle fd hop hstage
    obtain ⟨hmem, hnone⟩ :=
      hlocated.closing other (List.mem_of_mem_eraseIdx hother) handle fd hop hstage
    exact ⟨hsuffix.subset hmem, hnone⟩

/-- An open registers its file under a handle that was promised to it. -/
theorem Located.registers (hlocated : Located state) (hinv : Invariant state)
    (hget : state.tasks[index]? = some task) (hwell : task.WellFormed) {new : Handle} (fd' : Fd)
    (size : ℕ) (hopenId : task.openId = some new) :
    Located { state with
      files := state.files.insert new fd'
      cancelFlags := state.cancelFlags.erase task.id
      tasks := state.tasks.eraseIdx index
      log := [.settled task.cb (.ok (.handle new size fd')), .registered new fd'] ++
        state.log } := by
  have hsuffix : state.log <:+
      [.settled task.cb (.ok (.handle new size fd')), .registered new fd'] ++ state.log :=
    List.suffix_append _ _
  have hnotClose : ∀ handle, task.op ≠ .close handle := by
    intro handle hop
    have hsome := hwell.openId
    rw [hopenId, hop] at hsome
    cases hsome
  have hother : ∀ {handle : Handle} {fd : Fd}, Event.registered handle fd ∈ state.log →
      handle ≠ new := by
    rintro handle fd hmem rfl
    exact hinv.unpromised hget hmem hopenId
  constructor
  · intro handle fd hmem
    rcases List.mem_append.mp hmem with hnew | hold
    · left
      simp only [List.mem_cons, List.not_mem_nil, or_false, reduceCtorEq, false_or,
        Event.registered.injEq] at hnew
      obtain ⟨rfl, rfl⟩ := hnew
      exact AList.lookup_insert state.files
    · rcases hlocated.place handle fd hold with hlookup | ⟨other, hin, hop, hstage⟩ | hclosed
      · left
        change (state.files.insert new fd').lookup handle = some fd
        rw [AList.lookup_insert_ne (hother hold)]
        exact hlookup
      · refine .inr (.inl ⟨other, (eq_or_mem_eraseIdx hget hin).resolve_left ?_, hop, hstage⟩)
        rintro rfl
        exact hnotClose handle hop
      · exact .inr (.inr (hclosed.mono hsuffix))
  · intro other hin handle fd hop hstage
    obtain ⟨hmem, hnone⟩ :=
      hlocated.closing other (List.mem_of_mem_eraseIdx hin) handle fd hop hstage
    refine ⟨hsuffix.subset hmem, ?_⟩
    exact (Polled.registers new fd' size hopenId).unlisted hinv hget hmem hnone

theorem Located.polled (hlocated : Located state) (hnoted : Noted state) (hinv : Invariant state)
    (hget : state.tasks[index]? = some task) (hwell : task.WellFormed)
    (hpolled : Polled state index task next) : Located next := by
  cases hpolled with
  | waits stage events hfits hopen hevents => exact hlocated.waits hget stage hopen hevents
  | closes closed fd' hclose hlookup => exact hlocated.closes hnoted hinv hget hclose hlookup
  | settles events result hevents hclose =>
      refine hlocated.settles hget result hevents fun handle fd hop hstage => ?_
      rcases hclose handle hop with ⟨hspawned, -⟩ | ⟨fd', hstage', hclosed⟩
      · rw [hstage] at hspawned
        cases hspawned
      · rw [hstage] at hstage'
        cases hstage'
        exact hclosed
  | registers new fd' size hopenId => exact hlocated.registers hinv hget hwell fd' size hopenId

/-- An event that registers nothing, and at most a task that has not run. -/
theorem Located.grown (hlocated : Located state) (hfiles : next.files = state.files)
    (htasks : ∀ task, task.stage ≠ .spawned → (task ∈ next.tasks ↔ task ∈ state.tasks))
    {event : Event} (hlog : next.log = event :: state.log)
    (hevent : ∀ handle fd, event ≠ .registered handle fd) : Located next := by
  have hsuffix : state.log <:+ next.log := hlog ▸ List.suffix_cons event state.log
  constructor
  · intro handle fd hmem
    rw [hlog] at hmem
    have hold := (List.mem_cons.mp hmem).resolve_left fun hnow => hevent handle fd hnow.symm
    rcases hlocated.place handle fd hold with hlookup | ⟨task, htask, hop, hstage⟩ | hclosed
    · exact .inl (hfiles ▸ hlookup)
    · refine .inr (.inl ⟨task, (htasks task ?_).mpr htask, hop, hstage⟩)
      rw [hstage]
      exact Stage.noConfusion
    · exact .inr (.inr (hclosed.mono hsuffix))
  · intro task htask handle fd hop hstage
    have hran : task.stage ≠ .spawned := by
      rw [hstage]
      exact Stage.noConfusion
    obtain ⟨hmem, hnone⟩ := hlocated.closing task ((htasks task hran).mp htask) handle fd hop hstage
    exact ⟨hsuffix.subset hmem, hfiles ▸ hnone⟩

/-- One turn of the loop of `run`. -/
theorem recv_cases (hrecv : state.recv = some next) :
    ∃ msg, next.files = state.files ∧ next.log = .handled msg :: state.log ∧
      ∀ task, task.stage ≠ .spawned → (task ∈ next.tasks ↔ task ∈ state.tasks) := by
  rw [State.recv] at hrecv
  split at hrecv
  · cases hrecv
  · split at hrecv
    · rename_i msg rx hrx
      cases hrecv
      refine ⟨msg, ?_⟩
      cases msg with
      | submit id op cb =>
          refine ⟨rfl, rfl, fun task hran => ?_⟩
          change task ∈ state.tasks ++ [_] ↔ _
          rw [List.mem_append, List.mem_singleton]
          refine or_iff_left ?_
          rintro rfl
          exact hran rfl
      | cancel id =>
          simp only [State.handleMsg]
          split
          · exact ⟨rfl, rfl, fun task _ => Iff.rfl⟩
          · exact ⟨rfl, rfl, fun task _ => Iff.rfl⟩
    · cases hrecv

theorem mem_heldFds {fd : Fd} : fd ∈ state.heldFds ↔
    (∃ task ∈ state.tasks, task.stage.fd = some fd) ∨
      ∃ handle, state.files.lookup handle = some fd := by
  rw [State.heldFds, List.mem_dedup, List.mem_append, List.mem_filterMap, List.mem_map]
  refine or_congr Iff.rfl ⟨?_, ?_⟩
  · rintro ⟨⟨handle, fd'⟩, hrow, rfl⟩
    exact ⟨handle, AList.mem_lookup_iff.mpr hrow⟩
  · rintro ⟨handle, hlookup⟩
    exact ⟨⟨handle, fd⟩, AList.mem_lookup_iff.mp hlookup, rfl⟩

theorem Located.recv (hlocated : Located state) (hrecv : state.recv = some next) :
    Located next := by
  obtain ⟨msg, hfiles, hlog, htasks⟩ := recv_cases hrecv
  exact hlocated.grown hfiles htasks hlog fun handle fd => Event.noConfusion

theorem Located.dropped (hlocated : Located state) : Located state.dropped := by
  constructor
  · intro handle fd hmem
    have hold : Event.registered handle fd ∈ state.log :=
      (List.mem_append.mp hmem).resolve_left (by simp)
    have hheld : fd ∈ state.heldFds → Event.closed fd ∈ state.heldFds.map Event.closed :=
      List.mem_map_of_mem
    right
    right
    rcases hlocated.place handle fd hold with hlookup | ⟨task, htask, hop, hstage⟩ | hclosed
    · exact precedes_closed (hheld (mem_heldFds.mpr (.inr ⟨handle, hlookup⟩))) hold
    · refine precedes_closed (hheld (mem_heldFds.mpr (.inl ⟨task, htask, ?_⟩))) hold
      rw [hstage]
      rfl
    · exact hclosed.mono (List.suffix_append _ _)
  · intro task htask
    cases htask

theorem send_eq {msg : Msg} (hsend : state.send msg = some next) :
    next = { state with rx := state.rx ++ [msg], log := .sent msg :: state.log } ∧
      state.submittersGone = false := by
  rw [State.send] at hsend
  split at hsend
  · cases hsend
  · next hopen => exact ⟨(Option.some.inj hsend).symm, Bool.eq_false_of_not_eq_true hopen⟩

/-- What the submitters do: a message goes out, or they are gone. -/
theorem submitter_cases {label : Label} (hstep : Compio.step state label = some next)
    (hsubmits : label.submits = true) :
    next.files = state.files ∧ next.tasks = state.tasks ∧
      (next.log = state.log ∨ ∃ msg, next.log = .sent msg :: state.log ∧
        state.submittersGone = false ∧
          ∀ id op cb, msg = .submit id op cb → id ∉ State.submittedIds state.log) := by
  cases label with
  | submit id op =>
      simp only [Compio.step] at hstep
      split at hstep
      · cases hstep
      · next hnew =>
          obtain ⟨rfl, hopen⟩ := send_eq hstep
          refine ⟨rfl, rfl, .inr ⟨_, rfl, hopen, fun other op' cb hsame => ?_⟩⟩
          cases hsame
          exact hnew
  | requestCancel id =>
      obtain ⟨rfl, hopen⟩ := send_eq hstep
      exact ⟨rfl, rfl, .inr ⟨_, rfl, hopen, fun other op cb hsame => by cases hsame⟩⟩
  | dropSubmitters =>
      cases hstep
      exact ⟨rfl, rfl, .inl rfl⟩
  | recv => cases hsubmits
  | dropRuntime => cases hsubmits
  | poll index ans => cases hsubmits

/-- A step adds to the log. -/
theorem step_suffix (hinv : Invariant state) {label : Label}
    (hstep : Compio.step state label = some next) : state.log <:+ next.log := by
  have hsubmitter : label.submits = true →
      state.log <:+ next.log := by
    intro hsubmits
    obtain ⟨-, -, hlog | ⟨msg, hlog, -, -⟩⟩ := submitter_cases hstep hsubmits
    · rw [hlog]
    · rw [hlog]
      exact List.suffix_cons _ _
  cases label with
  | recv =>
      obtain ⟨-, -, -, events, hlog, -, -⟩ := recv_quiet hstep
      exact ⟨events, hlog.symm⟩
  | dropRuntime =>
      obtain ⟨-, -, -, events, hlog, -, -⟩ := dropRuntime_quiet hstep
      exact ⟨events, hlog.symm⟩
  | poll index ans =>
      obtain ⟨task, hget, -, hpolled⟩ := hinv.polled hstep
      obtain ⟨-, events, hlog, -, -⟩ := hpolled.quiet hget
      exact ⟨events, hlog.symm⟩
  | submit id op => exact hsubmitter rfl
  | requestCancel id => exact hsubmitter rfl
  | dropSubmitters => exact hsubmitter rfl

theorem Located.of_reachable (hreach : driver.Reachable state) : Located state := by
  refine hreach.invariant ?_ ?_
  · rintro _ rfl
    refine ⟨fun handle fd hmem => ?_, fun task htask => ?_⟩
    · cases hmem
    · cases htask
  · intro state label next hprev hlocated hstep
    have hsubmitter : label.submits = true → Located next := by
      intro hsubmits
      obtain ⟨hfiles, htasks, hlog | ⟨msg, hlog, -, -⟩⟩ := submitter_cases hstep hsubmits
      · refine ⟨fun handle fd hmem => ?_, fun task htask handle fd hop hstage => ?_⟩
        · rw [hfiles, htasks, hlog]
          exact hlocated.place handle fd (hlog ▸ hmem)
        · rw [hfiles, hlog]
          exact hlocated.closing task (htasks ▸ htask) handle fd hop hstage
      · refine hlocated.grown hfiles (fun task _ => ?_) hlog fun handle fd => Event.noConfusion
        rw [htasks]
    cases label with
    | recv => exact hlocated.recv hstep
    | dropRuntime =>
        obtain ⟨-, -, -, rfl⟩ := State.dropRuntime_eq hstep
        exact hlocated.dropped
    | poll index ans =>
        have hinv := Invariant.of_reachable hprev
        obtain ⟨task, hget, hwell, hpolled⟩ := hinv.polled hstep
        exact hlocated.polled (Noted.of_reachable hprev) hinv hget hwell hpolled
    | submit id op => exact hsubmitter rfl
    | requestCancel id => exact hsubmitter rfl
    | dropSubmitters => exact hsubmitter rfl

/-- Every number that came into use was given out in a reply. -/
def Numbered (log : List Event) : Prop :=
  ∀ handle fd, Event.registered handle fd ∈ log →
    ∃ cb size, Event.settled cb (.ok (.handle handle size fd)) ∈ log

theorem Numbered.append {events log : List Event} (hnumbered : Numbered log)
    (hevents : ∀ handle fd, Event.registered handle fd ∉ events) : Numbered (events ++ log) := by
  intro handle fd hmem
  have hold := (List.mem_append.mp hmem).resolve_left (hevents handle fd)
  obtain ⟨cb, size, hsettled⟩ := hnumbered handle fd hold
  exact ⟨cb, size, List.mem_append_right _ hsettled⟩

theorem Numbered.polled (hnumbered : Numbered state.log)
    (hpolled : Polled state index task next) : Numbered next.log := by
  cases hpolled with
  | waits stage events hfits hopen hevents =>
      exact hnumbered.append fun handle fd hmem => hevents _ hmem
  | closes handle fd hop hlookup => exact hnumbered
  | settles events result hevents hclose =>
      have hfile := hnumbered.append fun handle fd hmem => hevents _ hmem
      have hsettled : Numbered ([.settled task.cb result] ++ (events ++ state.log)) :=
        hfile.append (by simp)
      exact hsettled
  | registers handle fd size hopenId =>
      intro other fd' hmem
      rcases List.mem_cons.mp hmem with hnow | hlater
      · cases hnow
      · rcases List.mem_cons.mp hlater with hnow | hearlier
        · cases hnow
          exact ⟨task.cb, size, List.mem_cons_self⟩
        · obtain ⟨cb, size', hsettled⟩ := hnumbered other fd' hearlier
          exact ⟨cb, size', List.mem_append_right _ hsettled⟩

theorem Numbered.of_reachable (hreach : driver.Reachable state) : Numbered state.log := by
  refine @System.Reachable.invariant _ _ _ (fun state => Numbered state.log) ?_ ?_ _ hreach
  · rintro _ rfl handle fd hmem
    cases hmem
  · intro state label next hprev hnumbered hstep
    have hsubmitter : label.submits = true →
        Numbered next.log := by
      intro hsubmits
      obtain ⟨-, -, hlog | ⟨msg, hlog, -, -⟩⟩ := submitter_cases hstep hsubmits
      · rw [hlog]
        exact hnumbered
      · have hsent : Numbered ([.sent msg] ++ state.log) := hnumbered.append (by simp)
        rw [hlog]
        exact hsent
    cases label with
    | recv =>
        obtain ⟨msg, -, hlog, -⟩ := recv_cases hstep
        have hhandled : Numbered ([.handled msg] ++ state.log) := hnumbered.append (by simp)
        rw [hlog]
        exact hhandled
    | dropRuntime =>
        obtain ⟨-, -, -, rfl⟩ := State.dropRuntime_eq hstep
        exact hnumbered.append (by simp)
    | poll index ans =>
        obtain ⟨task, -, -, hpolled⟩ := (Invariant.of_reachable hprev).polled hstep
        exact hnumbered.polled hpolled
    | submit id op => exact hsubmitter rfl
    | requestCancel id => exact hsubmitter rfl
    | dropSubmitters => exact hsubmitter rfl

/-- A callback runs at most once, the end of the runtime included. -/
theorem settledTimes_le_one (hreach : driver.Reachable state) (id : OpId) :
    settledTimes id state.log ≤ 1 := by
  have hgoing : ∀ {state : State}, driver.Reachable state → state.returned = false →
      settledTimes id state.log ≤ 1 := by
    intro state hreach hgoing
    have hinv := Invariant.of_reachable hreach
    have hbalance := hinv.balance hgoing id
    have hone := List.nodup_iff_count_le_one.mp hinv.unique id
    omega
  refine @System.Reachable.invariant _ _ _ (fun state => settledTimes id state.log ≤ 1) ?_ ?_ _
    hreach
  · rintro _ rfl
    exact Nat.zero_le 1
  · intro state label next hprev hbefore hstep
    cases hended : next.returned with
    | false => exact hgoing (hprev.next hstep) hended
    | true =>
        have hsubmitter : label.submits = true →
            settledTimes id next.log ≤ 1 := by
          intro hsubmits
          obtain ⟨-, -, hlog | ⟨msg, hlog, -, -⟩⟩ := submitter_cases hstep hsubmits
          · rwa [hlog]
          · rw [hlog]
            exact hbefore
        cases label with
        | recv =>
            obtain ⟨msg, -, hlog, -⟩ := recv_cases hstep
            rw [hlog]
            exact hbefore
        | dropRuntime =>
            obtain ⟨-, -, -, rfl⟩ := State.dropRuntime_eq hstep
            have hfile : ∀ event ∈ state.heldFds.map Event.closed, event.isFile := by
              intro event hmem
              obtain ⟨fd, -, rfl⟩ := List.mem_map.mp hmem
              trivial
            rw [State.dropped, (file_append hfile state.log).2.2]
            exact hbefore
        | poll index ans =>
            have hinv := Invariant.of_reachable hprev
            obtain ⟨task, -, -, hpolled⟩ := hinv.polled hstep
            rw [hpolled.frame.2.2, hinv.going_of_poll hstep] at hended
            cases hended
        | submit id op => exact hsubmitter rfl
        | requestCancel id => exact hsubmitter rfl
        | dropSubmitters => exact hsubmitter rfl

theorem settled_once (hreach : driver.Reachable state) {id : OpId} {result other : Outcome}
    (hresult : Event.settled id result ∈ state.log) (hother : Event.settled id other ∈ state.log) :
    result = other := by
  have hsame := eq_of_countP_le_one (settledTimes_le_one hreach id) hresult hother (by simp)
    (by simp)
  exact (Event.settled.inj hsame).2

/-! ## The callback of a close -/

/-- No close of the handle comes to its first poll with its flag set. -/
def Unflagged (handle : Handle) (state : State) (label : Label) : Prop :=
  ∀ index ans task, label = .poll index ans → state.tasks[index]? = some task →
    task.stage = .spawned → task.op = .close handle → state.cancelled task.id = false

/-- A close that was sent for a registered handle, and has ended, has taken the
file out of the table. -/
def Unlists (handle : Handle) (state : State) : Prop :=
  ∀ id fd result,
    Precedes (.registered handle fd) (.sent (.submit id (.close handle) id)) state.log →
    Event.settled id result ∈ state.log → state.files.lookup handle = none

/-- Events that send nothing and settle nothing. -/
theorem Unlists.quiet {handle : Handle} (hunlists : Unlists handle state) {events : List Event}
    (hlog : next.log = events ++ state.log) (hsent : ∀ msg, Event.sent msg ∉ events)
    (hends : ∀ id result, Event.settled id result ∉ events)
    (hfiles : ∀ fd, Event.registered handle fd ∈ state.log →
      state.files.lookup handle = none → next.files.lookup handle = none) :
    Unlists handle next := by
  intro id fd result hasked hsettled
  rw [hlog] at hasked hsettled
  have hearlier := (precedes_append (hsent _)).mp hasked
  have hold := (List.mem_append.mp hsettled).resolve_left (hends id result)
  exact hfiles fd hearlier.mem.1 (hunlists id fd result hearlier hold)

theorem Unlists.poll {handle : Handle} (hunlists : Unlists handle state)
    (hreach : driver.Reachable state) {ans : Answers}
    (hallowed : Unflagged handle state (.poll index ans))
    (hpoll : state.poll ans index = some next) : Unlists handle next := by
  have hinv := Invariant.of_reachable hreach
  obtain ⟨task, hget, hwell, hpolled⟩ := hinv.polled hpoll
  obtain ⟨-, events, hlog, hsent, hends⟩ := hpolled.quiet hget
  obtain ⟨reads, hrecorded⟩ := exists_recorded hreach
  have hthis := List.mem_of_getElem? hget
  intro id fd result hasked hsettled
  rw [hlog] at hasked
  have hearlier := (precedes_append (hsent _)).mp hasked
  have hkeeps := hpolled.unlisted hinv hget hearlier.mem.1
  rw [hlog] at hsettled
  rcases List.mem_append.mp hsettled with hnew | hold
  · have hown : id = task.id := (hends id result hnew).trans hwell.own
    subst hown
    obtain hop := sent_unique hinv.unique (hrecorded.sent task hthis) hearlier.mem.2
    refine hkeeps ?_
    cases hpolled with
    | waits stage events' hfits hopen hevents => exact absurd hop (hopen handle)
    | closes other fd' hclose hlookup =>
        obtain rfl : events = [] := List.self_eq_append_left.mp hlog
        cases hnew
    | settles events' result' hevents hclose =>
        rcases hclose handle hop with ⟨hspawned, hcancelled | hnone⟩ | ⟨fd', hstage, -⟩
        · rw [hallowed index ans task rfl hget hspawned hop] at hcancelled
          cases hcancelled
        · exact hnone
        · exact ((Located.of_reachable hreach).closing task hthis handle fd' hop hstage).2
    | registers other fd' size hopenId =>
        have hsome := hwell.openId
        rw [hopenId, hop] at hsome
        cases hsome
  · exact hkeeps (hunlists id fd result hearlier hold)

theorem unlisted_recv {handle : Handle} (hnone : state.files.lookup handle = none)
    (hrecv : state.recv = some next) : next.files.lookup handle = none := by
  obtain ⟨msg, hfiles, -, -⟩ := recv_cases hrecv
  rw [hfiles]
  exact hnone

/-- An op that has ended was sent. -/
theorem submitted_of_settled (hinv : Invariant state) (hgoing : state.submittersGone = false)
    {id : OpId} {result : Outcome} (hsettled : Event.settled id result ∈ state.log) :
    id ∈ State.submittedIds state.log := by
  by_contra hnew
  have hreturned : state.returned = false := by
    by_contra hended
    have hgone := (hinv.ended (by simpa using hended)).2.1
    rw [hgoing] at hgone
    cases hgone
  have hbalance := hinv.balance hreturned id
  rw [List.count_eq_zero_of_not_mem hnew] at hbalance
  have hnone : settledTimes id state.log = 0 := by omega
  exact not_settled hnone result hsettled

theorem Unlists.step {handle : Handle} (hunlists : Unlists handle state)
    (hreach : driver.Reachable state) {label : Label} (hallowed : Unflagged handle state label)
    (hstep : Compio.step state label = some next) : Unlists handle next := by
  have hsubmitter : label.submits = true →
      Unlists handle next := by
    intro hsubmits
    obtain ⟨hfiles, -, hlog | ⟨msg, hlog, hopen, hnew⟩⟩ := submitter_cases hstep hsubmits
    · have hsame : next.log = [] ++ state.log := hlog
      exact hunlists.quiet hsame (by simp) (by simp) fun _ _ hnone => hfiles ▸ hnone
    · intro id fd result hasked hsettled
      rw [hlog] at hasked hsettled
      have hold := (List.mem_cons.mp hsettled).resolve_left Event.noConfusion
      rw [hfiles]
      rcases precedes_cons.mp hasked with ⟨hnow, -⟩ | hearlier
      · cases hnow
        exact absurd (submitted_of_settled (.of_reachable hreach) hopen hold) (hnew id _ id rfl)
      · exact hunlists id fd result hearlier hold
  cases label with
  | recv =>
      obtain ⟨-, -, -, events, hlog, hsent, hends⟩ := recv_quiet hstep
      exact hunlists.quiet hlog hsent hends fun _ _ hnone => unlisted_recv hnone hstep
  | dropRuntime =>
      obtain ⟨-, -, -, events, hlog, hsent, hends⟩ := dropRuntime_quiet hstep
      obtain ⟨-, -, -, rfl⟩ := State.dropRuntime_eq hstep
      exact hunlists.quiet hlog hsent hends fun _ _ _ => rfl
  | poll index ans => exact hunlists.poll hreach hallowed hstep
  | submit id op => exact hsubmitter rfl
  | requestCancel id => exact hsubmitter rfl
  | dropSubmitters => exact hsubmitter rfl

/-- Once the callback of its only close has run, a registered handle is out of
the table and its descriptor has been closed. -/
theorem shut_of_settled {handle : Handle} (hreach : driver.ReachableBy (Unflagged handle) state)
    {id : OpId} {fd : Fd}
    (hasked : Precedes (.registered handle fd) (.sent (.submit id (.close handle) id)) state.log)
    (hsingle : ∀ other cb, Event.sent (.submit other (.close handle) cb) ∈ state.log →
      other = id)
    {result : Outcome} (hsettled : Event.settled id result ∈ state.log) :
    state.files.lookup handle = none ∧
      Precedes (.registered handle fd) (.closed fd) state.log := by
  have hunlists : Unlists handle state := by
    refine hreach.invariant ?_ ?_
    · rintro _ rfl id fd result hasked hsettled
      cases hsettled
    · intro state label next hprev hunlists hallowed hstep
      exact hunlists.step hprev.reachable hallowed hstep
  have hnone := hunlists id fd result hasked hsettled
  have hinv := Invariant.of_reachable hreach.reachable
  obtain ⟨reads, hrecorded⟩ := exists_recorded hreach.reachable
  refine ⟨hnone, ?_⟩
  rcases (Located.of_reachable hreach.reachable).place handle fd hasked.mem.1 with
    hlookup | ⟨task, htask, hop, -⟩ | hclosed
  · rw [hnone] at hlookup
    cases hlookup
  · -- the task of a close that goes on is that of the one that has ended
    have hsame : task.id = id :=
      hsingle task.id task.id (hop ▸ hrecorded.sent task htask)
    obtain ⟨index, hget⟩ := List.mem_iff_getElem?.mp htask
    have hgoing : state.returned = false := by
      by_contra hended
      have htasks := (hinv.ended (by simpa using hended)).2.2
      rw [htasks] at htask
      cases htask
    have hunsettled := (ids_apart hinv hgoing hget).2.2
    exact absurd hsettled (hsame ▸ not_settled hunsettled result)
  · exact hclosed

/-- In a step that is left out the close ends cancelled, and the file stays. -/
theorem kept_of_flagged {handle : Handle} {ans : Answers}
    (hget : state.tasks[index]? = some task) (hspawned : task.stage = .spawned)
    (hcancelled : state.cancelled task.id = true)
    (hpoll : state.poll ans index = some next) :
    Event.settled task.cb (.error cancelledError) ∈ next.log ∧
      next.files.lookup handle = state.files.lookup handle := by
  simp only [State.poll, hget, hspawned] at hpoll
  obtain rfl := Option.some.inj hpoll
  have hends : state.execute index task =
      state.finish index task none (.error cancelledError) := by
    rw [State.execute, if_pos hcancelled]
  rw [hends]
  exact ⟨List.mem_cons_self, rfl⟩

end Turbofile.Compio
