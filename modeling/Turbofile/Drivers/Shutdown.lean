import Turbofile.Compio.Runs
import Turbofile.Darwin.Settlement

/-!
# What a dropped driver leaves behind

Dropping the `Driver` closes the channel.  The darwin loop goes on until every
op has settled.  The compio loop returns as soon as the channel is empty; some
of its tasks may be polled once more, and the runtime is dropped with whatever
tasks it still has then.
-/

namespace Turbofile.Drivers

open Turbofile.Core

/-- The compio runtime is dropped only after every spawned task has finished. -/
def EndsIdle (state : Compio.State) (label : Compio.Label) : Prop :=
  label = .dropRuntime → state.tasks = []

/-- Every accepted op has had its callback run once. -/
def AllSettled (log : List Compio.Event) : Prop :=
  ∀ id ∈ Compio.State.submittedIds log, Compio.settledTimes id log = 1

variable {state next : Compio.State} {label : Compio.Label}

/-- The only step to the end of the driver thread. -/
theorem ends_by_drop (hinv : Compio.Invariant state)
    (hstep : Compio.driver.step state label = some next)
    (hgoing : state.returned = false) (hended : next.returned = true) :
    label = .dropRuntime ∧ state.rx = [] ∧
      next.log = state.heldFds.map .closed ++ state.log := by
  cases label with
  | submit id op =>
      simp only [Compio.driver, Compio.step] at hstep
      split at hstep
      · cases hstep
      · simp only [Compio.State.send] at hstep
        split at hstep
        · cases hstep
        · obtain rfl := Option.some.inj hstep
          exact absurd hended (by simp [Compio.State.emit, hgoing])
  | requestCancel id =>
      simp only [Compio.driver, Compio.step, Compio.State.send] at hstep
      split at hstep
      · cases hstep
      · obtain rfl := Option.some.inj hstep
        exact absurd hended (by simp [Compio.State.emit, hgoing])
  | dropSubmitters =>
      obtain rfl := Option.some.inj hstep
      exact absurd hended (by simp [hgoing])
  | poll index ans =>
      obtain ⟨task, -, -, hpolled⟩ := hinv.polled hstep
      rw [hpolled.frame.2.2, hgoing] at hended
      cases hended
  | recv =>
      change state.recv = some next at hstep
      unfold Compio.State.recv at hstep
      rw [hgoing, if_neg Bool.false_ne_true] at hstep
      cases hrx : state.rx with
      | nil =>
          rw [hrx] at hstep
          cases hstep
      | cons msg rx =>
          rw [hrx] at hstep
          obtain rfl := Option.some.inj hstep
          rw [Compio.State.handleMsg_returned] at hended
          cases hended
  | dropRuntime =>
      obtain ⟨-, hrx, -, rfl⟩ := Compio.State.dropRuntime_eq hstep
      exact ⟨rfl, hrx, rfl⟩

/-- A dropped runtime does nothing any more. -/
theorem log_of_returned (hinv : Compio.Invariant state)
    (hstep : Compio.driver.step state label = some next)
    (hreturned : state.returned = true) : next.log = state.log := by
  obtain ⟨-, hgone, -⟩ := hinv.ended hreturned
  cases label with
  | submit id op =>
      simp [Compio.driver, Compio.step, Compio.State.send, hgone] at hstep
  | requestCancel id =>
      simp [Compio.driver, Compio.step, Compio.State.send, hgone] at hstep
  | dropSubmitters =>
      obtain rfl := Option.some.inj hstep
      rfl
  | poll index ans =>
      have hgoing := hinv.going_of_poll hstep
      rw [hreturned] at hgoing
      cases hgoing
  | recv => simp [Compio.driver, Compio.step, Compio.State.recv, hreturned] at hstep
  | dropRuntime =>
      obtain ⟨hgoing, -⟩ := Compio.State.dropRuntime_eq hstep
      rw [hreturned] at hgoing
      cases hgoing

/-- At the end every op has settled exactly if no task is left. -/
theorem settled_iff_idle (hinv : Compio.Invariant state) (hgoing : state.returned = false)
    (hrx : state.rx = []) (hlog : next.log = state.heldFds.map .closed ++ state.log) :
    AllSettled next.log ↔ state.tasks = [] := by
  have hfile : ∀ event ∈ state.heldFds.map Compio.Event.closed, event.isFile := by
    intro event hmem
    obtain ⟨fd, -, rfl⟩ := List.mem_map.mp hmem
    trivial
  obtain ⟨hids, -, htimes⟩ := Compio.file_append hfile state.log
  have hbalance : ∀ id, (Compio.State.submittedIds state.log).count id =
      (state.tasks.map (·.id)).count id + Compio.settledTimes id state.log := by
    intro id
    have hall := hinv.balance hgoing id
    rw [Compio.State.pendingTimes, hrx] at hall
    simpa [Compio.waitingIds] using hall
  rw [AllSettled, hlog, hids]
  constructor
  · intro hsettled
    by_contra htasks
    obtain ⟨task, hmem⟩ := List.exists_mem_of_ne_nil _ htasks
    have hpos : 0 < (state.tasks.map (·.id)).count task.id :=
      List.count_pos_iff.mpr (List.mem_map_of_mem hmem)
    have hone := List.nodup_iff_count_le_one.mp hinv.unique task.id
    have hsent : task.id ∈ Compio.State.submittedIds state.log :=
      List.count_pos_iff.mp (by have := hbalance task.id; omega)
    have hrun := hsettled task.id hsent
    rw [htimes] at hrun
    have hcount := hbalance task.id
    omega
  · intro htasks id hsent
    have hcount := hbalance id
    rw [htasks, List.count_eq_one_of_mem hinv.unique hsent] at hcount
    rw [htimes]
    simpa using hcount.symm

/-- In a run that ends idle nothing is owed at the end. -/
theorem settled_of_endsIdle (hreach : Compio.driver.ReachableBy EndsIdle state)
    (hreturned : state.returned = true) : AllSettled state.log := by
  revert hreturned
  refine @System.ReachableBy.invariant _ _ _ EndsIdle
    (fun state => state.returned = true → AllSettled state.log) ?_ ?_ _ hreach
  · rintro _ rfl hreturned
    cases hreturned
  · intro state label next hprev ih hidle hstep hreturned
    have hinv := Compio.Invariant.of_reachable hprev.reachable
    cases hgoing : state.returned with
    | true =>
        rw [log_of_returned hinv hstep hgoing]
        exact ih hgoing
    | false =>
        obtain ⟨hdrop, hrx, hlog⟩ := ends_by_drop hinv hstep hgoing hreturned
        exact (settled_iff_idle hinv hgoing hrx hlog).mpr (hidle hdrop)

/-- **A dropped driver.**  The darwin driver thread ends only after every
accepted op has settled, once.  The compio thread does so in every run in which
no task is unfinished when the runtime is dropped, and in no other. -/
theorem dropped_driver_settles {darwin : Darwin.State} {compio : Compio.State}
    (hdarwin : Darwin.driver.Reachable darwin) (hcompio : Compio.driver.Reachable compio) :
    (darwin.point = .returned →
      ∀ id ∈ Darwin.State.submittedIds darwin.log, Darwin.settledTimes id darwin.log = 1) ∧
    (Compio.driver.ReachableBy EndsIdle compio → compio.returned = true →
      AllSettled compio.log) ∧
    ∀ label next, Compio.driver.step compio label = some next →
      compio.returned = false → next.returned = true →
      (AllSettled next.log ↔ compio.tasks = []) := by
  refine ⟨?_, settled_of_endsIdle, ?_⟩
  · intro hreturned id hsent
    exact (Darwin.Invariant.of_reachable hdarwin).settledTimes_returned hreturned hsent
  · intro label next hstep hgoing hended
    have hinv := Compio.Invariant.of_reachable hcompio
    obtain ⟨-, hrx, hlog⟩ := ends_by_drop hinv hstep hgoing hended
    exact settled_iff_idle hinv hgoing hrx hlog

/-- A nop that is polled between the end of the channel and that of the runtime. -/
def polledNop : List Compio.Label :=
  [.submit 1 .nop, .dropSubmitters, .recv, .poll 0 {}, .dropRuntime]

theorem dropped_driver_settles_nop :
    ∃ final, Compio.driver.exec .new polledNop = some final ∧ final.returned = true ∧
      Compio.settledTimes 1 final.log = 1 := by
  have hstart : Compio.driver.ReachableBy EndsIdle .new := .init rfl
  have hsent := hstart.step (.submit 1 .nop) (fun hdrop => by cases hdrop) rfl
  have hclosed := hsent.step .dropSubmitters (fun hdrop => by cases hdrop) rfl
  have hspawned := hclosed.step .recv (fun hdrop => by cases hdrop) rfl
  have hpolled := hspawned.step (.poll 0 {}) (fun hdrop => by cases hdrop) rfl
  have hended := hpolled.step .dropRuntime (fun _ => rfl) rfl
  have hdarwin : Darwin.driver.Reachable (Darwin.State.new (Darwin.helpersFor 8) 16) :=
    System.Reachable.ofInit ⟨8, 16, by decide, rfl⟩
  exact ⟨_, rfl, rfl,
    (dropped_driver_settles hdarwin hended.reachable).2.1 hended rfl 1 (by decide)⟩

/-- An open that is polled too, and waits for the kernel: it is dropped with the
runtime, and its callback never runs. -/
theorem dropped_driver_loses_open :
    ∃ final, Compio.driver.exec .new [.submit 1 (.openFile [97] { read := true }),
        .dropSubmitters, .recv, .poll 0 {}, .dropRuntime] = some final ∧
      final.returned = true ∧ 1 ∈ Compio.State.submittedIds final.log ∧
      Compio.settledTimes 1 final.log = 0 :=
  ⟨_, rfl, rfl, by decide, rfl⟩

end Turbofile.Drivers
