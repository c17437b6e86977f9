import Turbofile.Compio.Lookups
import Turbofile.Darwin.Channel

/-!
# Handles across a fork

`driver()` keys the driver by pid: a forked child builds one of its own, whose
table is empty and whose numbers start at 1 again.  The `BinaryFile` objects of
the parent come along with their numbers.
-/

namespace Turbofile.Drivers

open Turbofile.Core
open Turbofile.Darwin (Op.target)

/-! ## One driver -/

/-- `BackendKind`, with what the darwin driver finds of the machine. -/
inductive Backend
  | compio
  | darwin (hardware : ℕ) (maxInflight : ℕ+)

inductive Driver
  | compio (state : Compio.State)
  | darwin (state : Darwin.State)

/-- A step of the threads of a driver or of its submitters. -/
inductive Thread
  | compio (label : Compio.Label)
  | darwin (label : Darwin.Label)

namespace Driver

def new : Backend → Driver
  | .compio => .compio .new
  | .darwin hardware maxInflight =>
      .darwin (Darwin.State.new (Darwin.helpersFor hardware) maxInflight)

def step (driver : Driver) (thread : Thread) : Option Driver :=
  match driver, thread with
  | .compio state, .compio label => (Compio.driver.step state label).map .compio
  | .darwin state, .darwin label => (Darwin.driver.step state label).map .darwin
  | .compio _, .darwin _ | .darwin _, .compio _ => none

/-- `Driver::submit`. -/
def submit (id : OpId) (op : Op) (driver : Driver) : Option Driver :=
  match driver with
  | .compio _ => driver.step (.compio (.submit id op))
  | .darwin _ => driver.step (.darwin (.submit id op))

/-- The callback of an open got the number. -/
def gave (id : OpId) (handle : Handle) : Driver → Bool
  | .compio state => state.log.any fun event =>
      match event with
      | .settled cb (.ok (.handle given _ _)) => cb = id ∧ given = handle
      | _ => false
  | .darwin state => state.log.any fun event =>
      match event with
      | .settled cb (.ok (.handle given _ _)) => cb = id ∧ given = handle
      | _ => false

/-- The next number it gives out. -/
def nextId : Driver → Handle
  | .compio state => state.nextId
  | .darwin state => state.nextId

/-- It has opened a file under the number. -/
def Registered (handle : Handle) : Driver → Prop
  | .compio state => ∃ fd, Compio.Event.registered handle fd ∈ state.log
  | .darwin state => ∃ fd, Darwin.Event.registered handle fd ∈ state.log

/-- In this step the driver comes to the op on the number and has a file open
under it. -/
def Takes (thread : Thread) (id : OpId) (handle : Handle) : Driver → Prop
  | .compio state => ∃ label, thread = .compio label ∧ Compio.Finds state label id handle
  | .darwin state => ∃ label next, thread = .darwin label ∧
      Darwin.driver.step state label = some next ∧
      id ∈ Darwin.takenOn handle next.log ∧ id ∉ Darwin.takenOn handle state.log

/-- The op holds no file and makes no call, and if it has ended then as one on
an unknown handle (or cancelled, which a compio op can be before it is polled). -/
def Refuses (id : OpId) : Driver → Prop
  | .compio state =>
      (∀ task ∈ state.tasks, task.id = id → task.stage.fd = none) ∧
        ∀ result, Compio.Event.settled id result ∈ state.log → result = .error badHandle ∨
          result = .error cancelledError ∧ Compio.Event.handled (.cancel id) ∈ state.log
  | .darwin state =>
      (∀ fd call, Darwin.Event.syscall id fd call ∉ state.log) ∧
        ∀ result, Darwin.Event.settled id result ∈ state.log → result = .error badHandle

/-- The driver has been run from `Driver::new`. -/
def Valid : Driver → Prop
  | .compio state => Compio.driver.Reachable state
  | .darwin state => Darwin.driver.Reachable state

/-- The op was submitted for the number and has not been given a file. -/
def Waits (id : OpId) (handle : Handle) : Driver → Prop
  | .compio state => Compio.Unserved id handle state
  | .darwin state => Darwin.Sends id handle state ∧ id ∉ Darwin.takenOn handle state.log

/-- The op was submitted for the number, and had it come to a file the number
would have been given out. -/
def Called (id : OpId) (handle : Handle) : Driver → Prop
  | .compio state => Compio.Unserved id handle state ∨ handle < state.nextId
  | .darwin state => Darwin.Sends id handle state

variable {driver next : Driver} {thread : Thread} {id : OpId} {handle : Handle}

theorem valid_new (backend : Backend) : (Driver.new backend).Valid := by
  cases backend with
  | compio => exact System.Reachable.ofInit rfl
  | darwin hardware maxInflight =>
      exact System.Reachable.ofInit ⟨hardware, maxInflight, maxInflight.pos, rfl⟩

theorem Valid.step (hvalid : driver.Valid) (hstep : driver.step thread = some next) :
    next.Valid := by
  cases driver with
  | compio state =>
      cases thread with
      | darwin label => cases hstep
      | compio label =>
          obtain ⟨state', htake, rfl⟩ := Option.map_eq_some_iff.mp hstep
          exact System.Reachable.next hvalid htake
  | darwin state =>
      cases thread with
      | compio label => cases hstep
      | darwin label =>
          obtain ⟨state', htake, rfl⟩ := Option.map_eq_some_iff.mp hstep
          exact System.Reachable.next hvalid htake

theorem submit_step {op : Op} (hsubmit : driver.submit id op = some next) :
    ∃ thread, driver.step thread = some next := by
  cases driver with
  | compio state => exact ⟨.compio (.submit id op), hsubmit⟩
  | darwin state => exact ⟨.darwin (.submit id op), hsubmit⟩

theorem Waits.step (hwaits : driver.Waits id handle) (hvalid : driver.Valid)
    (htakes : ¬driver.Takes thread id handle) (hstep : driver.step thread = some next) :
    next.Waits id handle := by
  cases driver with
  | compio state =>
      cases thread with
      | darwin label => cases hstep
      | compio label =>
          obtain ⟨state', htake, rfl⟩ := Option.map_eq_some_iff.mp hstep
          exact Compio.Unserved.step hwaits hvalid (fun hfinds => htakes ⟨label, rfl, hfinds⟩) htake
  | darwin state =>
      cases thread with
      | compio label => cases hstep
      | darwin label =>
          obtain ⟨state', htake, rfl⟩ := Option.map_eq_some_iff.mp hstep
          refine ⟨hwaits.1.step (Darwin.Invariant.of_reachable hvalid) htake, fun htaken => ?_⟩
          exact htakes ⟨label, state', rfl, htake, htaken, hwaits.2⟩

theorem Called.step (hcalled : driver.Called id handle) (hvalid : driver.Valid)
    (hstep : driver.step thread = some next) : next.Called id handle := by
  cases driver with
  | compio state =>
      cases thread with
      | darwin label => cases hstep
      | compio label =>
          obtain ⟨state', htake, rfl⟩ := Option.map_eq_some_iff.mp hstep
          have hnext := Compio.nextId_step hvalid htake
          rcases hcalled with hunserved | hgiven
          · by_cases hfinds : Compio.Finds state label id handle
            · obtain ⟨index, ans, task, -, -, -, -, -, hfile⟩ := hfinds
              obtain ⟨fd, hlookup⟩ := Option.isSome_iff_exists.mp hfile
              have hlt := Compio.handle_lt_nextId hvalid hlookup
              exact .inr (Nat.lt_of_lt_of_le hlt hnext)
            · exact .inl (hunserved.step hvalid hfinds htake)
          · exact .inr (Nat.lt_of_lt_of_le hgiven hnext)
  | darwin state =>
      cases thread with
      | compio label => cases hstep
      | darwin label =>
          obtain ⟨state', htake, rfl⟩ := Option.map_eq_some_iff.mp hstep
          exact Darwin.Sends.step hcalled (Darwin.Invariant.of_reachable hvalid) htake

theorem Waits.called (hwaits : driver.Waits id handle) : driver.Called id handle := by
  cases driver with
  | compio state => exact .inl hwaits
  | darwin state => exact hwaits.1

/-- Another submission serves no op. -/
theorem Waits.submitted {other : OpId} {op : Op} (hwaits : driver.Waits id handle)
    (hvalid : driver.Valid) (hsubmit : driver.submit other op = some next) :
    next.Waits id handle := by
  cases driver with
  | compio state =>
      have htakes : ¬(Driver.compio state).Takes (.compio (.submit other op)) id handle := by
        rintro ⟨label, hlabel, index, ans, task, rfl, -⟩
        cases hlabel
      exact hwaits.step hvalid htakes hsubmit
  | darwin state =>
      have htakes : ¬(Driver.darwin state).Takes (.darwin (.submit other op)) id handle := by
        rintro ⟨label, state', hlabel, htake, htaken, hnew⟩
        cases hlabel
        rw [Darwin.takenOn_submit htake] at htaken
        exact hnew htaken
      exact hwaits.step hvalid htakes hsubmit

/-- An op that has just been submitted waits. -/
theorem submit_waits {op : Op} (hvalid : driver.Valid) (htarget : Op.target op = some handle)
    (hsubmit : driver.submit id op = some next) : next.Waits id handle := by
  cases driver with
  | compio state =>
      obtain ⟨state', htake, rfl⟩ := Option.map_eq_some_iff.mp hsubmit
      exact Compio.Unserved.of_submit hvalid htarget htake
  | darwin state =>
      obtain ⟨state', htake, rfl⟩ := Option.map_eq_some_iff.mp hsubmit
      exact Darwin.sends_of_submit hvalid htarget htake

theorem Waits.refuses (hwaits : driver.Waits id handle) (hvalid : driver.Valid) :
    driver.Refuses id := by
  cases driver with
  | compio state =>
      refine ⟨fun task hmem hid => ?_, hwaits.ends⟩
      rw [hwaits.waits task hmem hid]
      rfl
  | darwin state => exact Darwin.refused_of_untaken hvalid hwaits.1 hwaits.2

/-- A number that has not been given out stands for no file. -/
theorem Called.refuses (hcalled : driver.Called id handle) (hvalid : driver.Valid)
    (hnew : driver.nextId ≤ handle) : driver.Refuses id := by
  have hwaits : driver.Waits id handle := by
    cases driver with
    | compio state => exact hcalled.resolve_right (Nat.not_lt.mpr hnew)
    | darwin state =>
        exact ⟨hcalled, fun htaken =>
          Nat.not_lt.mpr hnew (Darwin.handle_lt_of_taken hvalid htaken)⟩
  exact hwaits.refuses hvalid

/-- The file an op is given was opened by the same driver. -/
theorem Takes.registered (htakes : driver.Takes thread id handle) (hvalid : driver.Valid)
    (hstep : driver.step thread = some next) : next.Registered handle := by
  cases driver with
  | compio state =>
      obtain ⟨label, rfl, hfinds⟩ := htakes
      obtain ⟨state', htake, rfl⟩ := Option.map_eq_some_iff.mp hstep
      exact Compio.registered_of_finds hvalid hfinds htake
  | darwin state =>
      obtain ⟨label, state', rfl, htake, htaken, -⟩ := htakes
      obtain ⟨state'', htake', rfl⟩ := Option.map_eq_some_iff.mp hstep
      obtain rfl := Option.some.inj (htake.symm.trans htake')
      exact Darwin.registered_of_standing (Darwin.standing_of_taken htaken)

end Driver

/-! ## Processes -/

abbrev Pid := ℕ

/-- A `BinaryFile` by its number, with the process in which it was opened. -/
structure BinaryFile where
  handle : Handle
  home : Pid
  deriving DecidableEq

/-- What a fork copies: the stored driver with the pid it is for, and the
objects.  `calls` are the ops the process has submitted through them. -/
structure Process where
  driver : Option (Pid × Driver)
  files : List BinaryFile
  calls : List (OpId × BinaryFile)

namespace Process

def fresh : Process := ⟨none, [], []⟩

/-- The driver of the process itself; that of another process is dead here. -/
def own (pid : Pid) (process : Process) : Option Driver :=
  match process.driver with
  | some (stored, driver) => if stored = pid then some driver else none
  | none => none

/-- `driver()`. -/
def ensure (pid : Pid) (backend : Backend) (process : Process) : Process :=
  match process.own pid with
  | some _ => process
  | none => { process with driver := some (pid, .new backend) }

/-- The memory of a child right after the fork. -/
def forked (process : Process) : Process := { process with calls := [] }

def drive (pid : Pid) (thread : Thread) (process : Process) : Option Process :=
  (process.own pid).bind fun driver =>
    (driver.step thread).map fun next => { process with driver := some (pid, next) }

/-- A `BinaryFile` for what the callback of an open got. -/
def obtain (pid : Pid) (id : OpId) (handle : Handle) (process : Process) : Option Process :=
  (process.own pid).bind fun driver =>
    if driver.gave id handle then
      some { process with files := ⟨handle, pid⟩ :: process.files }
    else none

/-- A method of a `BinaryFile` submits an op. -/
def call (pid : Pid) (file : BinaryFile) (id : OpId) (op : Op) (process : Process) :
    Option Process :=
  if file ∈ process.files ∧ Op.target op = some file.handle then
    (process.own pid).bind fun driver =>
      (driver.submit id op).map fun next =>
        { process with
          driver := some (pid, next)
          calls := (id, file) :: process.calls }
  else none

end Process

abbrev World := Pid → Option Process

/-- `start` is any call of `driver()`; `drive` also covers the ops that are not
submitted through a `BinaryFile`, such as opens. -/
inductive Label
  | fork (parent child : Pid)
  | start (pid : Pid) (backend : Backend)
  | drive (pid : Pid) (thread : Thread)
  | obtain (pid : Pid) (id : OpId) (handle : Handle)
  | call (pid : Pid) (backend : Backend) (file : BinaryFile) (id : OpId) (op : Op)

/-- Change one process. -/
def World.change (world : World) (pid : Pid) (update : Process → Option Process) :
    Option World :=
  (world pid).bind fun process =>
    (update process).map fun next => Function.update world pid (some next)

def World.step (world : World) : Label → Option World
  | .fork parent child =>
      if (world child).isSome then none
      else (world parent).map fun process => Function.update world child (some process.forked)
  | .start pid backend => world.change pid fun process => some (process.ensure pid backend)
  | .drive pid thread => world.change pid (·.drive pid thread)
  | .obtain pid id handle => world.change pid (·.obtain pid id handle)
  | .call pid backend file id op =>
      world.change pid fun process => (process.ensure pid backend).call pid file id op

/-- A process that has just started, and all that descend from it. -/
def forks : System World Label where
  init world := ∃ pid, world = Function.update (fun _ => none) pid (some .fresh)
  step := World.step

/-- No driver comes to an op of an inherited `BinaryFile` while it has a file of
its own open under the number. -/
def Apart (world : World) (label : Label) : Prop :=
  ∀ pid thread process driver, label = .drive pid thread → world pid = some process →
    process.own pid = some driver → ∀ call ∈ process.calls, call.2.home ≠ pid →
      ¬driver.Takes thread call.1 call.2.handle

/-! ## What every process keeps -/

/-- The driver of the process is one that `Driver::new` began, and every op
called through a `BinaryFile` went to it. -/
structure Process.Keeps (holds : Driver → OpId × BinaryFile → Prop) (pid : Pid)
    (process : Process) : Prop where
  valid : ∀ driver, process.own pid = some driver → driver.Valid
  calls : ∀ call ∈ process.calls, ∃ driver, process.own pid = some driver ∧ holds driver call

namespace Process.Keeps

variable {holds : Driver → OpId × BinaryFile → Prop} {pid : Pid} {process next : Process}
  {backend : Backend}

theorem forked (child : Pid) (process : Process) (hother : process.own child = none) :
    Keeps holds child process.forked where
  valid driver hown := by
    have hnone : process.forked.own child = none := hother
    rw [hnone] at hown
    cases hown
  calls call hmem := by cases hmem

theorem ensure (hkeeps : Keeps holds pid process) :
    Keeps holds pid (process.ensure pid backend) ∧
      ∃ driver, (process.ensure pid backend).own pid = some driver := by
  cases hown : process.own pid with
  | some driver =>
      have hsame : process.ensure pid backend = process := by simp [Process.ensure, hown]
      rw [hsame]
      exact ⟨hkeeps, driver, hown⟩
  | none =>
      have hnew : process.ensure pid backend =
          { process with driver := some (pid, .new backend) } := by simp [Process.ensure, hown]
      have hfresh : (process.ensure pid backend).own pid = some (.new backend) := by
        rw [hnew]
        simp [Process.own]
      refine ⟨⟨fun driver hdriver => ?_, fun call hmem => ?_⟩, _, hfresh⟩
      · rw [hfresh] at hdriver
        cases hdriver
        exact Driver.valid_new backend
      · rw [hnew] at hmem
        obtain ⟨driver, hdriver, -⟩ := hkeeps.calls call hmem
        rw [hown] at hdriver
        cases hdriver

/-- The driver of the process has come to a new state. -/
theorem moved {driver moved : Driver} (hown : process.own pid = some driver)
    (hkeeps : Keeps holds pid process) (hvalid : moved.Valid)
    (hdriver : next.driver = some (pid, moved))
    (hcalls : ∀ call ∈ next.calls, (call ∈ process.calls → holds driver call) → holds moved call) :
    Keeps holds pid next := by
  have hnext : next.own pid = some moved := by simp [Process.own, hdriver]
  refine ⟨fun other hother => ?_, fun call hmem => ⟨moved, hnext, hcalls call hmem fun hold => ?_⟩⟩
  · rw [hnext] at hother
    cases hother
    exact hvalid
  · obtain ⟨other, hother, hholds⟩ := hkeeps.calls call hold
    rw [hown] at hother
    cases hother
    exact hholds

end Process.Keeps

theorem change_eq {world next : World} {pid : Pid} {update : Process → Option Process}
    (hchange : world.change pid update = some next) :
    ∃ process moved, world pid = some process ∧ update process = some moved ∧
      next = Function.update world pid (some moved) := by
  obtain ⟨process, hprocess, hmap⟩ := Option.bind_eq_some_iff.mp hchange
  obtain ⟨moved, hmoved, rfl⟩ := Option.map_eq_some_iff.mp hmap
  exact ⟨process, moved, hprocess, hmoved, rfl⟩

structure World.Keeps (holds : Pid → Driver → OpId × BinaryFile → Prop) (world : World) : Prop where
  each : ∀ pid process, world pid = some process → process.Keeps (holds pid) pid
  stored : ∀ pid process stored driver, world pid = some process →
    process.driver = some (stored, driver) → (world stored).isSome

namespace World.Keeps

variable {holds : Pid → Driver → OpId × BinaryFile → Prop} {world next : World}

/-- One process is new or has changed. -/
theorem update (hkeeps : Keeps holds world) {pid : Pid} {process : Process}
    (hprocess : process.Keeps (holds pid) pid)
    (hstored : ∀ stored driver, process.driver = some (stored, driver) →
      stored = pid ∨ (world stored).isSome) :
    Keeps holds (Function.update world pid (some process)) where
  each other moved hmoved := by
    by_cases hsame : other = pid
    · subst hsame
      rw [Function.update_self] at hmoved
      cases hmoved
      exact hprocess
    · rw [Function.update_of_ne hsame] at hmoved
      exact hkeeps.each other moved hmoved
  stored other moved stored driver hmoved hdriver := by
    by_cases hhere : stored = pid
    · subst hhere
      rw [Function.update_self]
      rfl
    rw [Function.update_of_ne hhere]
    by_cases hsame : other = pid
    · subst hsame
      rw [Function.update_self] at hmoved
      cases hmoved
      exact (hstored stored driver hdriver).resolve_left hhere
    · rw [Function.update_of_ne hsame] at hmoved
      exact hkeeps.stored other moved stored driver hmoved hdriver

/-- Every process keeps what submissions start with and steps of its own driver
leave true. -/
theorem step (hkeeps : Keeps holds world) {label : Label}
    (hcalled : ∀ pid driver moved id op file, driver.Valid → Op.target op = some file.handle →
      driver.submit id op = some moved → holds pid moved (id, file) ∧
        ∀ call, holds pid driver call → holds pid moved call)
    (hdriven : ∀ pid thread process driver moved, label = .drive pid thread →
      world pid = some process → process.own pid = some driver → driver.Valid →
      driver.step thread = some moved →
      ∀ call ∈ process.calls, holds pid driver call → holds pid moved call)
    (hstep : world.step label = some next) : Keeps holds next := by
  cases label with
  | fork parent child =>
      simp only [World.step] at hstep
      split at hstep
      · cases hstep
      · next hfree =>
          obtain ⟨process, hprocess, rfl⟩ := Option.map_eq_some_iff.mp hstep
          have hstored : ∀ stored driver, process.driver = some (stored, driver) →
              (world stored).isSome :=
            fun stored driver hdriver => hkeeps.stored parent process stored driver hprocess hdriver
          refine hkeeps.update (.forked child process ?_) fun stored driver hdriver =>
            .inr (hstored stored driver hdriver)
          unfold Process.own
          split
          · next stored driver hdriver =>
              refine if_neg ?_
              rintro rfl
              exact hfree (hstored stored driver hdriver)
          · rfl
  | start pid backend =>
      obtain ⟨process, moved, hprocess, hmoved, rfl⟩ := change_eq hstep
      cases hmoved
      refine hkeeps.update (hkeeps.each pid process hprocess).ensure.1 ?_
      intro stored driver hdriver
      unfold Process.ensure at hdriver
      split at hdriver
      · exact .inr (hkeeps.stored pid process stored driver hprocess hdriver)
      · cases hdriver
        exact .inl rfl
  | drive pid thread =>
      obtain ⟨process, moved, hprocess, hmoved, rfl⟩ := change_eq hstep
      obtain ⟨driver, hown, hmap⟩ := Option.bind_eq_some_iff.mp hmoved
      obtain ⟨after, htake, rfl⟩ := Option.map_eq_some_iff.mp hmap
      have hprev := hkeeps.each pid process hprocess
      have hvalid := hprev.valid driver hown
      refine hkeeps.update (hprev.moved hown (hvalid.step htake) rfl ?_) ?_
      · intro call hmem hholds
        exact hdriven pid thread process driver after rfl hprocess hown hvalid htake call hmem
          (hholds hmem)
      · intro stored other hdriver
        cases hdriver
        exact .inl rfl
  | obtain pid id handle =>
      obtain ⟨process, moved, hprocess, hmoved, rfl⟩ := change_eq hstep
      obtain ⟨driver, hown, hgave⟩ := Option.bind_eq_some_iff.mp hmoved
      split at hgave
      · cases hgave
        have hprev := hkeeps.each pid process hprocess
        refine hkeeps.update ⟨hprev.valid, hprev.calls⟩ fun stored other hdriver => ?_
        exact .inr (hkeeps.stored pid process stored other hprocess hdriver)
      · cases hgave
  | call pid backend file id op =>
      obtain ⟨process, moved, hprocess, hmoved, rfl⟩ := change_eq hstep
      have hprev : (process.ensure pid backend).Keeps (holds pid) pid :=
        (hkeeps.each pid process hprocess).ensure.1
      simp only [Process.call] at hmoved
      split at hmoved
      · next hcan =>
          obtain ⟨driver, hown, hmap⟩ := Option.bind_eq_some_iff.mp hmoved
          obtain ⟨after, hsubmit, rfl⟩ := Option.map_eq_some_iff.mp hmap
          have hvalid := hprev.valid driver hown
          obtain ⟨thread, htake⟩ := Driver.submit_step hsubmit
          obtain ⟨hnew, hold⟩ := hcalled pid driver after id op file hvalid hcan.2 hsubmit
          refine hkeeps.update (hprev.moved hown (hvalid.step htake) rfl ?_) ?_
          · intro call hmem hholds
            rcases List.mem_cons.mp hmem with rfl | hearlier
            · exact hnew
            · exact hold call (hholds hearlier)
          · intro stored other hdriver
            cases hdriver
            exact .inl rfl
      · cases hmoved

theorem new (pid : Pid) : Keeps holds (Function.update (fun _ => none) pid (some .fresh)) where
  each other process hprocess := by
    by_cases hsame : other = pid
    · subst hsame
      rw [Function.update_self] at hprocess
      cases hprocess
      refine ⟨fun driver hown => ?_, fun call hmem => ?_⟩
      · cases hown
      · cases hmem
    · rw [Function.update_of_ne hsame] at hprocess
      cases hprocess
  stored other process stored driver hprocess hdriver := by
    by_cases hsame : other = pid
    · subst hsame
      rw [Function.update_self] at hprocess
      cases hprocess
      cases hdriver
    · rw [Function.update_of_ne hsame] at hprocess
      cases hprocess

end World.Keeps

/-! ## Inherited files -/

/-- In every run every op reached its driver, and is refused there as long as
its number has not been given out. -/
theorem called_of_reachable {world : World} (hreach : forks.Reachable world) :
    world.Keeps fun _ driver call => driver.Called call.1 call.2.handle := by
  refine hreach.invariant ?_ ?_
  · rintro _ ⟨pid, rfl⟩
    exact .new pid
  · intro world label next _ hkeeps hstep
    refine hkeeps.step ?_ ?_ hstep
    · intro pid driver moved id op file hvalid htarget hsubmit
      obtain ⟨thread, htake⟩ := Driver.submit_step hsubmit
      exact ⟨(Driver.submit_waits hvalid htarget hsubmit).called,
        fun call hcalled => hcalled.step hvalid htake⟩
    · intro pid thread process driver moved _ _ _ hvalid htake call _ hcalled
      exact hcalled.step hvalid htake

theorem waits_of_apart {world : World} (hreach : forks.ReachableBy Apart world) :
    world.Keeps fun pid driver call => call.2.home ≠ pid → driver.Waits call.1 call.2.handle := by
  refine hreach.invariant ?_ ?_
  · rintro _ ⟨pid, rfl⟩
    exact .new pid
  · intro world label next _ hkeeps hapart hstep
    refine hkeeps.step ?_ ?_ hstep
    · intro pid driver moved id op file hvalid htarget hsubmit
      exact ⟨fun _ => Driver.submit_waits hvalid htarget hsubmit,
        fun call hwaits hhome => (hwaits hhome).submitted hvalid hsubmit⟩
    · intro pid thread process driver moved hlabel hprocess hown hvalid htake call hmem hwaits hhome
      exact (hwaits hhome).step hvalid
        (hapart pid thread process driver hlabel hprocess hown call hmem hhome) htake

/-- **Handles across a fork.**  In every run in which no driver comes to an op
of an inherited `BinaryFile` while it has a file of its own open under the
number, every such op is refused.  That covers all ops of a process that has not
given out the number yet.  In a step that is left out the op gets a file that
was opened by the driver of its own process. -/
theorem inherited_refused {world : World} (hreach : forks.Reachable world) {pid : Pid}
    {process : Process} {driver : Driver} (hprocess : world pid = some process)
    (hown : process.own pid = some driver) :
    (forks.ReachableBy Apart world → ∀ call ∈ process.calls, call.2.home ≠ pid →
        driver.Refuses call.1) ∧
      (∀ call ∈ process.calls, driver.nextId ≤ call.2.handle → driver.Refuses call.1) ∧
      ∀ thread next id handle, driver.step thread = some next → driver.Takes thread id handle →
        next.Registered handle := by
  have hkeeps := (called_of_reachable hreach).each pid process hprocess
  have hvalid := hkeeps.valid driver hown
  refine ⟨fun hapart call hmem hhome => ?_, fun call hmem hnew => ?_, fun thread next id handle
    hstep htakes => htakes.registered hvalid hstep⟩
  · obtain ⟨other, hother, hwaits⟩ :=
      ((waits_of_apart hapart).each pid process hprocess).calls call hmem
    rw [hown] at hother
    cases hother
    exact (hwaits hhome).refuses hvalid
  · obtain ⟨other, hother, hcalled⟩ := hkeeps.calls call hmem
    rw [hown] at hother
    cases hother
    exact hcalled.refuses hvalid hnew

/-- A test for `Apart`: no inherited file has been used, or the table of a compio
driver has no such number. -/
def apartTest (world : World) (label : Label) : Bool :=
  match label with
  | .drive pid _ => (world pid).all fun process =>
      process.calls.all fun call => call.2.home = pid ||
        (process.own pid).all fun driver =>
          match driver with
          | .compio state => (state.files.lookup call.2.handle).isNone
          | .darwin _ => false
  | _ => true

theorem apart_of_test (world : World) (label : Label) (htest : apartTest world label = true) :
    Apart world label := by
  rintro pid thread process driver rfl hprocess hown call hmem hhome htakes
  simp only [apartTest, hprocess, Option.all_some, List.all_eq_true] at htest
  have hcall := htest call hmem
  rw [hown] at hcall
  cases driver with
  | compio state =>
      obtain ⟨label, -, index, ans, task, -, -, -, -, -, hfile⟩ := htakes
      simp only [hhome, decide_false, Bool.false_or, Option.all_some] at hcall
      rw [Option.isNone_iff_eq_none] at hcall
      rw [hcall] at hfile
      cases hfile
  | darwin state => simp [hhome] at hcall

/-- Process 1 opens a file, as its number 1, and forks. -/
def openAndFork : List Label :=
  [.start 1 .compio,
    .drive 1 (.compio (.submit 1 (.openFile [97] { read := true, write := true }))),
    .drive 1 (.compio .recv), .drive 1 (.compio (.poll 0 {})),
    .drive 1 (.compio (.poll 0 { openFd := .ok 5 })), .drive 1 (.compio (.poll 0 {})),
    .obtain 1 1 1, .fork 1 2]

def writeThrough : List Label :=
  [.call 2 .compio ⟨1, 1⟩ 7 (.writeAt 1 0 (.owned [120]) false), .drive 2 (.compio .recv),
    .drive 2 (.compio (.poll 0 {}))]

def started : World := Function.update (fun _ => none) 1 (some .fresh)

/-- A child that has opened nothing. -/
theorem inherited_refused_unopened :
    ∃ world process driver, forks.exec started (openAndFork ++ writeThrough) = some world ∧
      world 2 = some process ∧ process.own 2 = some driver ∧ driver.Refuses 7 := by
  obtain ⟨world, hexec⟩ : ∃ world,
      forks.exec started (openAndFork ++ writeThrough) = some world := ⟨_, rfl⟩
  have hstart : forks.ReachableBy Apart started := .init ⟨1, rfl⟩
  have hapart : forks.ReachableBy Apart world := hstart.ofExec apart_of_test hexec rfl
  obtain ⟨process, driver, hprocess, hown, hmem⟩ : ∃ process driver, world 2 = some process ∧
      process.own 2 = some driver ∧ (7, ⟨1, 1⟩) ∈ process.calls := by
    cases hexec
    exact ⟨_, _, rfl, rfl, List.mem_singleton_self _⟩
  exact ⟨world, process, driver, hexec, hprocess, hown,
    (inherited_refused hapart.reachable hprocess hown).1 hapart _ hmem (by decide)⟩

/-- A child that has opened another file: the write goes to that one. -/
theorem inherited_write_hits_child_file :
    ∃ world process state, forks.exec started (openAndFork ++
        [.start 2 .compio,
          .drive 2 (.compio (.submit 1 (.openFile [98] { read := true, write := true }))),
          .drive 2 (.compio .recv), .drive 2 (.compio (.poll 0 {})),
          .drive 2 (.compio (.poll 0 { openFd := .ok 6 })), .drive 2 (.compio (.poll 0 {}))] ++
        writeThrough) = some world ∧
      world 2 = some process ∧ process.own 2 = some (.compio state) ∧
      (7, ⟨1, 1⟩) ∈ process.calls ∧
      Compio.Event.opened 6 [98] { read := true, write := true } ∈ state.log ∧
      state.tasks = [⟨7, .writeAt 1 0 (.owned [120]) false, none, 7, .writing 6⟩] :=
  ⟨_, _, _, rfl, rfl, rfl, List.mem_singleton_self _, by decide, rfl⟩

end Turbofile.Drivers
