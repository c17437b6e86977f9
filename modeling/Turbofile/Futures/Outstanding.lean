import Turbofile.Futures.Settling

/-!
# What is outstanding for a future

A future that is done has nothing left in flight.  One that is not done waits,
perhaps through the awaits of its continuation, for an op in flight or for the
next turn of the loop.
-/

namespace Turbofile.EventLoop

open Turbofile.Core
open Turbofile.Asyncio
open Turbofile.Bridge
open Turbofile.Futures
open Turbofile.LargeRead (deliver_cases)
open Turbofile.Tally

variable {code : Raised → ℕ} {world : World}

/-- The op was submitted for the future, or for a part of its buffer. -/
def serves (world : World) (future : FutureId) (entry : Inflight) : Prop :=
  match entry.onDone with
  | .complete owner _ => owner = future
  | .chunkDone group _ _ => ∃ known, world.groups[group]? = some known ∧ known.future = future

/-- Nothing outstanding belongs to the future. -/
structure Released (state : State) (future : FutureId) : Prop where
  ops : ∀ entry ∈ state.world.inflight ++ state.unsubmitted, ¬ serves state.world future entry
  queue : ∀ completion ∈ state.world.queue, completion.future ≠ future
  handed : ∀ handed ∈ state.handed, handed.owner = future →
    handed.continuation.settled = true

section Outstanding

variable {state : State}

theorem Invariant.released (hinvariant : Invariant state) {future : ℕ}
    (hdone : (state.world.outcome future).isSome = true) : Released state future := by
  have hledger := hinvariant.ledger
  have howed := hledger.owed future
  rw [pendingCount_of_done hdone, World.sources] at howed
  have hinflight : ofList (Inflight.settles future) state.world.inflight = 0 := by omega
  have hgroups : ofList (ReadGroup.settles future) state.world.groups = 0 := by omega
  have hqueue : ofList (Completion.settles future) state.world.queue = 0 := by omega
  have hhanded : ofList (Handed.settles future) state.handed = 0 := by
    rw [due] at howed
    omega
  rw [ofList_eq_zero_iff] at hinflight hgroups hqueue hhanded
  refine ⟨fun entry hentry hserves => ?_, fun completion hcompletion hmine => ?_,
    fun handed hmember hmine => ?_⟩
  · have hsettles : entry.settles future = 0 := by
      rcases List.mem_append.mp hentry with hentry | hentry
      · exact hinflight entry hentry
      · exact hledger.chunks entry hentry future
    rw [serves] at hserves
    split at hserves
    · next owner output hcomplete =>
        simp [Inflight.settles, hcomplete, hserves] at hsettles
    · next group start len hchunk =>
        obtain ⟨known, hknown, hmine⟩ := hserves
        have hcounts : 0 < entry.counts group := by simp [Inflight.counts, hchunk]
        obtain ⟨waiting, hwaiting, hremaining⟩ := hledger.group_of_counts hentry hcounts
        obtain rfl := Option.some.inj (hknown.symm.trans hwaiting)
        have hzero := hgroups known (List.mem_of_getElem? hknown)
        simp [ReadGroup.settles, hmine, hremaining.ne'] at hzero
  · have hzero := hqueue completion hcompletion
    simp [Completion.settles, hmine] at hzero
  · have hzero := hhanded handed hmember
    simpa [Handed.settles, hmine] using hzero

/-- A future is done only after everything submitted for it: its op, the chunks
of its read, and what its continuation has asked for.  It is settled once, and
no task around it ends before. -/
theorem settled_after_ops (hreach : (system code).Reachable state) :
    (∀ future outcome, state.world.outcome future = some outcome →
      Released state future ∧ state.world.settleCount future = 1 ∧
        ∀ handed ∈ state.handed, handed.owner = future → ∀ asked ∈ handed.asked,
          (state.world.outcome asked).isSome = true ∧ Released state asked) ∧
      ∀ waiter ∈ state.waiters, waiter.task.isDone = true →
        waiter.driving = true ∨ waiter.task.coro = true →
        (state.world.outcome waiter.future).isSome = true ∧ Released state waiter.future := by
  have hinvariant := Invariant.of_reachable hreach
  refine ⟨fun future outcome houtcome => ?_, fun waiter hwaiter hdone hstarted => ?_⟩
  · have hdone : (state.world.outcome future).isSome = true := by
      rw [houtcome]
      rfl
    have hreleased := hinvariant.released hdone
    refine ⟨hreleased, ?_, fun handed hhanded howner asked hasked => ?_⟩
    · have hsettled := hinvariant.ledger.settled future
      rw [pendingCount_of_done hdone, if_pos (lt_of_outcome houtcome)] at hsettled
      exact hsettled
    · have hkept := hinvariant.handed handed hhanded
      have hended := hkept.settled (hreleased.handed handed hhanded howner)
      have hasked : (state.world.outcome asked).isSome = true := by
        rcases hkept.asked asked hasked with hasked | hawaited
        · exact hasked
        · simp [Task.isDone, hawaited] at hended
      exact ⟨hasked, hinvariant.released hasked⟩
  · have hsettled := (hinvariant.waiters waiter hwaiter).ends hdone hstarted
    exact ⟨hsettled, hinvariant.released hsettled⟩

/-- A large file is read by a task that drives the future, which is cancelled;
meanwhile another buffer is filled by two reads. -/
def cancelledRead : List Move :=
  [.submit (.readFile [] LargeRead.LARGE_READ) (.wholeFile true), .wait 0 true, .turnTask 0,
    .enter ⟨4, 0, 2, 1⟩, .post, .callback 1 (.ok (.read 1)) [7], .post,
    .callback 0 (.ok (.handle 5 3 9)) [], .deliver ⟨some 3, true⟩, .cancelTask 0,
    .callback 0 (.ok (.read 1)) [8], .deliver ⟨none, true⟩,
    .callback 0 (.error cancelledError) [], .deliver ⟨none, true⟩, .turn 0 ⟨none, true⟩,
    .callback 0 (.ok .unit) [], .deliver ⟨none, true⟩, .turn 0 ⟨none, true⟩, .settleFrom 0,
    .turnTask 0]

def after (moves : List Move) : State := ((system fun _ => 0).exec {} moves).getD {}

theorem settled_after_ops_cancelled :
    (after cancelledRead).world.outcome 0 = some .cancelled ∧
      Released (after cancelledRead) 0 ∧
      (after cancelledRead).world.outcome 1 = some (.result (.bytes [7, 8])) ∧
      Released (after cancelledRead) 1 ∧
      ∃ handed ∈ (after cancelledRead).handed, handed.asked = [2, 3] ∧
        Released (after cancelledRead) 2 ∧ Released (after cancelledRead) 3 := by
  have hexec : (system fun _ => 0).exec {} cancelledRead = some (after cancelledRead) := rfl
  have hreach : (system fun _ => 0).Reachable (after cancelledRead) := .ofExec (.ofInit rfl) hexec
  have hsettled := settled_after_ops hreach
  have hfirst := hsettled.1 0 .cancelled rfl
  have hsecond := hsettled.1 1 (.result (.bytes [7, 8])) rfl
  obtain ⟨handed, hhanded, howner, hasked⟩ : ∃ handed ∈ (after cancelledRead).handed,
      handed.owner = 0 ∧ handed.asked = [2, 3] := ⟨_, .head _, rfl, rfl⟩
  have hreleased : ∀ future ∈ [2, 3], Released (after cancelledRead) future := fun future hfuture =>
    (hfirst.2.2 handed hhanded howner future (hasked ▸ hfuture)).2
  exact ⟨rfl, hfirst.1, rfl, hsecond.1, handed, hhanded, hasked, hreleased 2 (.head _),
    hreleased 3 (.tail _ (.head _))⟩

/-! ## No future is forgotten -/

/-- An op in flight or about to be submitted, a queued completion or the next
turn of a continuation will bring the future further, or the future that its
continuation waits for. -/
inductive Served (code : Raised → ℕ) (state : State) : FutureId → Prop
  | op {future : FutureId} (entry : Inflight)
      (hentry : entry ∈ state.world.inflight ++ state.unsubmitted)
      (hserves : serves state.world future entry) : Served code state future
  | queued (completion : Completion) (hqueue : completion ∈ state.world.queue) :
      Served code state completion.future
  | turn {handed : Handed} (index : ℕ) (hget : state.handed[index]? = some handed)
      (hturn : ∀ inline, (state.turn code index inline).isSome = true) :
      Served code state handed.owner
  | settles {handed : Handed} (index : ℕ) (hget : state.handed[index]? = some handed)
      (hsettle : (state.settleFrom index).isSome = true) : Served code state handed.owner
  | awaits {handed : Handed} {future : FutureId} (hmember : handed ∈ state.handed)
      (hphase : handed.continuation.task.phase = .waiting future)
      (hserved : Served code state future) : Served code state handed.owner

theorem exists_of_ofList_pos {α : Type*} {weight : α → ℕ} {entries : List α}
    (hpos : 0 < ofList weight entries) : ∃ entry ∈ entries, 0 < weight entry := by
  by_contra hnone
  refine hpos.ne' ((ofList_eq_zero_iff ..).mpr fun entry hentry => ?_)
  by_contra hweight
  exact hnone ⟨entry, hentry, Nat.pos_of_ne_zero hweight⟩

theorem serves_of_settles {entry : Inflight} {future : ℕ} (hsettles : 0 < entry.settles future) :
    serves world future entry := by
  rw [serves]
  cases hdone : entry.onDone with
  | complete owner output =>
      simp only [Inflight.settles, hdone] at hsettles
      split_ifs at hsettles with hmine
      · exact hmine
      · cases hsettles
  | chunkDone group start len => simp [Inflight.settles, hdone] at hsettles

theorem serves_of_counts {entry : Inflight} {index : ℕ} (hcounts : 0 < entry.counts index)
    {group : ReadGroup} (hget : world.groups[index]? = some group) :
    serves world group.future entry := by
  rw [serves]
  cases hdone : entry.onDone with
  | complete owner output => simp [Inflight.counts, hdone] at hcounts
  | chunkDone owner start len =>
      simp only [Inflight.counts, hdone] at hcounts
      split_ifs at hcounts with hmine
      · subst hmine
        exact ⟨group, hget, rfl⟩
      · cases hcounts

/-- What is owed to a future comes from the bridge, or from a continuation that
may wait for a newer future itself. -/
theorem Invariant.source (hinvariant : Invariant state) {future : ℕ}
    (hknown : future < state.world.futures.length)
    (hpending : state.world.outcome future = none) :
    Served code state future ∨ ∃ handed ∈ state.handed, ∃ awaited : ℕ, handed.owner = future ∧
      handed.continuation.task.phase = .waiting awaited ∧ future < awaited ∧
        awaited < state.world.futures.length ∧ state.world.outcome awaited = none := by
  have hledger := hinvariant.ledger
  have howed := hledger.owed future
  rw [pendingCount_of_pending hknown hpending, World.sources] at howed
  by_cases hinflight : 0 < ofList (Inflight.settles future) state.world.inflight
  · obtain ⟨entry, hentry, hsettles⟩ := exists_of_ofList_pos hinflight
    exact .inl (.op entry (List.mem_append_left _ hentry) (serves_of_settles hsettles))
  by_cases hgroups : 0 < ofList (ReadGroup.settles future) state.world.groups
  · obtain ⟨group, hgroup, hsettles⟩ := exists_of_ofList_pos hgroups
    obtain ⟨index, hget⟩ := List.mem_iff_getElem?.mp hgroup
    rw [ReadGroup.settles] at hsettles
    split_ifs at hsettles with hmine
    · obtain ⟨rfl, hremaining⟩ := hmine
      rw [hledger.groups index group hget] at hremaining
      obtain ⟨entry, hentry, hcounts⟩ := exists_of_ofList_pos hremaining
      exact .inl (.op entry hentry (serves_of_counts hcounts hget))
    · cases hsettles
  by_cases hqueue : 0 < ofList (Completion.settles future) state.world.queue
  · obtain ⟨completion, hcompletion, hsettles⟩ := exists_of_ofList_pos hqueue
    rw [Completion.settles] at hsettles
    split_ifs at hsettles with hmine
    · subst hmine
      exact .inl (.queued completion hcompletion)
    · cases hsettles
  have hhanded : 0 < ofList (Handed.settles future) state.handed := by
    rw [due] at howed
    omega
  obtain ⟨handed, hmember, hsettles⟩ := exists_of_ofList_pos hhanded
  rw [Handed.settles] at hsettles
  split_ifs at hsettles with hmine
  · obtain ⟨rfl, hgoing⟩ := hmine
    have hkept := hinvariant.handed handed hmember
    obtain ⟨index, hget⟩ := List.mem_iff_getElem?.mp hmember
    cases hphase : handed.continuation.task.phase with
    | created => exact absurd hphase hkept.begun
    | done outcome =>
        refine .inl (.settles index hget ?_)
        simp [State.settleFrom, hget, Handed.settleFrom, hgoing, hphase]
    | waiting awaited =>
        obtain ⟨hnewer, hlt⟩ := hkept.awaits awaited hphase
        cases houtcome : state.world.outcome awaited with
        | some outcome =>
            refine .inl (.turn index hget fun inline => ?_)
            simp [State.turn, hget, Handed.turn, Task.run, hphase, houtcome]
        | none => exact .inr ⟨handed, hmember, awaited, rfl, hphase, hnewer, hlt, houtcome⟩
  · cases hsettles

/-- By induction on how many futures are newer. -/
theorem Invariant.served (hinvariant : Invariant state) {future : ℕ}
    (hknown : future < state.world.futures.length)
    (hpending : state.world.outcome future = none) : Served code state future := by
  induction hnewer : state.world.futures.length - future using Nat.strong_induction_on
    generalizing future with
  | _ newer ih =>
      obtain hserved | ⟨handed, hmember, awaited, rfl, hphase, hlater, hlt, houtcome⟩ :=
        @Invariant.source code state hinvariant future hknown hpending
      · exact hserved
      · exact .awaits hmember hphase (ih _ (by omega) hlt houtcome rfl)

/-- What the loop thread does by itself. -/
def Move.progress : Move → Prop
  | .post | .deliver _ | .turn _ _ | .settleFrom _ => True
  | .submit _ _ | .enter _ | .callback _ _ _ | .cancel _ | .wait _ _ | .cancelTask _
  | .turnTask _ => False

/-- With nothing in flight, what serves a future is a move of the loop thread. -/
theorem Served.progress {future : FutureId} (hserved : Served code state future)
    (hnone : state.world.inflight = []) :
    ∃ move : Move, move.progress ∧ (state.step code move).isSome = true := by
  by_cases hidle : state.unsubmitted = []
  · induction hserved with
    | op entry hentry hserves => simp [hnone, hidle] at hentry
    | queued completion hqueue =>
        refine ⟨.deliver ⟨none, true⟩, trivial, ?_⟩
        simp only [State.step, hidle, if_true, State.loopStep, State.deliver]
        cases hcompletions : state.world.queue with
        | nil => simp [hcompletions] at hqueue
        | cons first rest =>
            obtain ⟨outcome, hsettles, -⟩ | ⟨-, handle, fd, hhands⟩ :=
              deliver_cases code { state.world with queue := rest } first
            · simp [hsettles]
            · simp [hhands]
    | turn index hget hturn =>
        refine ⟨.turn index ⟨none, true⟩, trivial, ?_⟩
        simpa only [State.step, hidle, if_true, State.loopStep] using hturn ⟨none, true⟩
    | settles index hget hsettle =>
        refine ⟨.settleFrom index, trivial, ?_⟩
        simpa only [State.step, hidle, if_true, State.loopStep] using hsettle
    | awaits hmember hphase hserved ih => exact ih
  · cases hunsubmitted : state.unsubmitted with
    | nil => exact absurd hunsubmitted hidle
    | cons entry rest => exact ⟨.post, trivial, by simp [State.step, hunsubmitted]⟩

/-- In every reachable state each future that is not done is served, so a run
stops with all its futures done, or with an op in flight. -/
theorem pending_is_served (hreach : (system code).Reachable state) {future : FutureId}
    (hknown : future < state.world.futures.length)
    (hpending : state.world.outcome future = none) :
    Served code state future ∧ (state.world.inflight = [] →
      ∃ move : Move, move.progress ∧ ((system code).step state move).isSome = true) := by
  have hserved : Served code state future :=
    (Invariant.of_reachable hreach).served hknown hpending
  exact ⟨hserved, hserved.progress⟩

/-- With nothing in flight the turn of the continuation is left. -/
theorem pending_is_served_handed :
    (after (cancelledRead.take 14)).world.inflight = [] ∧
      Served (fun _ => 0) (after (cancelledRead.take 14)) 0 ∧
      ∃ move : Move, move.progress ∧
        ((system fun _ => 0).step (after (cancelledRead.take 14)) move).isSome = true := by
  have hexec : (system fun _ => 0).exec {} (cancelledRead.take 14) =
      some (after (cancelledRead.take 14)) := rfl
  have hreach : (system fun _ => 0).Reachable (after (cancelledRead.take 14)) :=
    .ofExec (.ofInit rfl) hexec
  have hknown : (after (cancelledRead.take 14)).world.futures.length = 3 := rfl
  have hserved := pending_is_served hreach (show 0 < _ by rw [hknown]; decide) rfl
  exact ⟨rfl, hserved.1, hserved.2 rfl⟩

end Outstanding

end Turbofile.EventLoop
