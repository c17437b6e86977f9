import Turbofile.Bridge.Obligations
import Turbofile.Futures.EventLoop

/-!
# Futures settle after their ops

The ledger of the bridge is kept by everything the loop thread and the driver
thread do, with the continuations that have not run their done callbacks as
what is due outside of it.  A future that is done has nothing left in flight;
one that is not done waits, perhaps through the awaits of its continuation, for
an op in flight or for the next turn of the loop.
-/

namespace Turbofile.EventLoop

open Turbofile.Core
open Turbofile.Asyncio
open Turbofile.Bridge
open Turbofile.Futures
open Turbofile.LargeRead (Continuation Reading Inline readHandleToEnd deliver_cases)
open Turbofile.Tally

variable {code : Raised → ℕ} {world next : World}

/-! ## Later worlds -/

/-- The futures are still there, and those that are done stay as they are. -/
structure Later (world next : World) : Prop where
  length : world.futures.length ≤ next.futures.length
  outcome : ∀ future outcome, world.outcome future = some outcome →
    next.outcome future = some outcome

namespace Later

theorem of_same (hlength : next.futures.length = world.futures.length)
    (hsame : ∀ future, next.outcome future = world.outcome future) : Later world next where
  length := hlength.ge
  outcome future _ houtcome := (hsame future).trans houtcome

theorem refl (world : World) : Later world world := of_same rfl fun _ => rfl

theorem trans {middle : World} (hfirst : Later world middle) (hsecond : Later middle next) :
    Later world next where
  length := hfirst.length.trans hsecond.length
  outcome future outcome houtcome :=
    hsecond.outcome future outcome (hfirst.outcome future outcome houtcome)

theorem of_append {made : KernelFuture Value} (hfutures : next.futures = world.futures ++ [made]) :
    Later world next where
  length := by
    rw [hfutures, List.length_append]
    exact Nat.le_add_right ..
  outcome future outcome houtcome := by
    have hlt : future < world.futures.length := by
      by_contra hge
      rw [World.outcome, List.getElem?_eq_none (Nat.le_of_not_lt hge)] at houtcome
      cases houtcome
    rw [World.outcome, hfutures, List.getElem?_append_left hlt]
    exact houtcome

theorem settle (world : World) (future : FutureId) (outcome : Asyncio.Outcome Value) :
    Later world (world.settle future outcome) where
  length := by simp [World.settle]
  outcome other settled hsettled := by
    by_cases hsame : other = future
    · subst hsame
      cases hwaiting : world.futures[other]? with
      | none => simp [World.outcome, hwaiting] at hsettled
      | some waiting =>
          have hdone : waiting.outcome = some settled := by
            simpa [World.outcome, hwaiting] using hsettled
          simp [World.outcome, World.settle, hwaiting, KernelFuture.settle, KernelFuture.isDone,
            hdone]
    · rw [LargeRead.outcome_settle world future other outcome hsame]
      exact hsettled

end Later

theorem lt_of_outcome {future : ℕ} {outcome : Asyncio.Outcome Value}
    (houtcome : world.outcome future = some outcome) : future < world.futures.length := by
  by_contra hge
  rw [World.outcome, List.getElem?_eq_none (Nat.le_of_not_lt hge)] at houtcome
  cases houtcome

theorem pendingCount_of_done {future : ℕ} (hdone : (world.outcome future).isSome = true) :
    world.pendingCount future = 0 := by
  cases hwaiting : world.futures[future]? with
  | none => simp [World.pendingCount, hwaiting]
  | some waiting =>
      have hisDone : waiting.isDone = true := by
        simpa [World.outcome, hwaiting, KernelFuture.isDone] using hdone
      simp [World.pendingCount, hwaiting, hisDone]

theorem pendingCount_of_pending {future : ℕ} (hlt : future < world.futures.length)
    (hpending : world.outcome future = none) : world.pendingCount future = 1 := by
  have hwaiting := List.getElem?_eq_getElem hlt
  simp only [World.outcome, hwaiting, Option.bind_some] at hpending
  simp [World.pendingCount, hwaiting, KernelFuture.isDone, hpending]

/-! ## The steps of the task of a handed-over read -/

/-- A step of the coroutine submits for a new future and waits for it, or it
ends and leaves the world as it was. -/
inductive Asks (world : World) : LargeRead.Step → Prop
  | submit (op : Op) (reading : Reading) :
      Asks world (.waits world.futures.length, reading, (world.submit op .plain).2)
  | fill (call : ParallelFill.Call) (hchunk : 0 < call.chunk) (reading : Reading) :
      Asks world (.waits world.futures.length, reading,
        (world.readParallel call.handle call.pos call.len call.chunk).2)
  | ends {signal : Signal FutureId Value} (outcome : Asyncio.Outcome Value)
      (hends : signal.phase = .done outcome) (reading : Reading) :
      Asks world (signal, reading, world)

section Asks

variable {handle : Handle}

theorem close_asks (ending : Except Exc (List Byte)) :
    Asks world (LargeRead.close handle ending world) :=
  .submit _ _

theorem probe_asks (parts : List (List Byte)) (offset : ℕ) :
    Asks world (LargeRead.probe handle parts offset world) :=
  .submit _ _

theorem fill_asks (inline : Inline) (sizeNow : ℕ) :
    Asks world (LargeRead.fill code handle inline sizeNow world) := by
  have hfuture : (world.readParallel handle 0 (sizeNow - 0) LargeRead.PARALLEL_CHUNK).1 =
      world.futures.length := by
    simp only [World.readParallel]
    split_ifs <;> rfl
  cases hmemory : inline.memory with
  | false =>
      simp only [LargeRead.fill, hmemory]
      exact close_asks _
  | true =>
      simp only [LargeRead.fill, hmemory, if_true, hfuture]
      exact .fill ⟨handle, 0, sizeNow - 0, LargeRead.PARALLEL_CHUNK⟩
        (show 0 < LargeRead.PARALLEL_CHUNK by decide) _

theorem readHandleToEnd_asks (inline : Inline) (exc : Option Exc) (reading : Reading) :
    Asks world (readHandleToEnd code handle inline exc reading world) := by
  cases reading with
  | start =>
      simp only [readHandleToEnd]
      split
      · exact .ends _ rfl _
      · split
        · exact fill_asks inline _
        · exact .submit _ _
  | sizing future =>
      simp only [readHandleToEnd]
      split
      · exact close_asks _
      · exact fill_asks inline _
      · exact close_asks _
  | filling future sizeNow remaining =>
      simp only [readHandleToEnd]
      split
      · exact close_asks _
      · split_ifs
        · exact close_asks _
        · exact close_asks _
        · exact probe_asks _ _
      · exact close_asks _
  | probing future parts offset =>
      simp only [readHandleToEnd]
      split
      · exact close_asks _
      · exact close_asks _
      · exact probe_asks _ _
      · exact close_asks _
  | closing future ending =>
      simp only [readHandleToEnd]
      split
      · exact .ends _ rfl _
      · split
        · exact .ends _ rfl _
        · exact .ends _ rfl _
  | ended => exact .ends _ rfl _

end Asks

theorem readParallel_futures (call : ParallelFill.Call) (world : World) :
    ∃ made : KernelFuture Value, made.outcome = none ∧
      (world.readParallel call.handle call.pos call.len call.chunk).2.futures =
        world.futures ++ [made] := by
  rw [ParallelFill.readParallel_eq, ParallelFill.foldl_post]
  by_cases hlen : call.len = 0
  · exact ⟨_, rfl, by rw [ParallelFill.enter_eq_of_empty call world hlen]⟩
  · exact ⟨_, rfl, by rw [ParallelFill.enter_eq_of_pos call world hlen]⟩

theorem later_enter (call : ParallelFill.Call) (world : World) :
    Later world (call.enter world) := by
  by_cases hlen : call.len = 0
  · rw [ParallelFill.enter_eq_of_empty call world hlen]
    exact .of_append rfl
  · rw [ParallelFill.enter_eq_of_pos call world hlen]
    exact .of_append rfl

/-- A callback of the driver settles nothing. -/
theorem later_callback {index : ℕ} {result : Core.Outcome} {data : List Byte}
    (hcallback : world.callback index result data = some next) : Later world next := by
  simp only [World.callback, Option.map_eq_some_iff] at hcallback
  obtain ⟨entry, hentry, rfl⟩ := hcallback
  cases hdone : entry.onDone with
  | complete future output => exact .of_same rfl fun _ => rfl
  | chunkDone group start len =>
      simp only [World.chunkDone]
      split
      · exact .of_same rfl fun _ => rfl
      · split_ifs
        · exact .of_same rfl fun _ => rfl
        · exact .of_same rfl fun _ => rfl

/-- The step keeps the ledger, and what it waits for is new. -/
theorem Asks.effect {step : LargeRead.Step} (hasks : Asks world step) :
    Later world step.2.2 ∧
      (∀ due, Ledger world [] due → Ledger step.2.2 [] due) ∧
      ((∃ outcome, step.1.phase = .done outcome) ∨
        step.1.phase = .waiting world.futures.length ∧
          world.futures.length < step.2.2.futures.length) := by
  cases hasks with
  | submit op reading =>
      refine ⟨.of_append rfl, fun due hledger => hledger.submit op .plain, .inr ⟨rfl, ?_⟩⟩
      simp [World.submit]
  | fill call hchunk reading =>
      obtain ⟨made, -, hfutures⟩ := readParallel_futures call world
      refine ⟨.of_append hfutures, fun due hledger => hledger.readParallel call hchunk,
        .inr ⟨rfl, ?_⟩⟩
      simp [hfutures]
  | ends outcome hends reading =>
      exact ⟨.refl world, fun due hledger => hledger, .inl ⟨outcome, hends⟩⟩

/-! ## The invariant -/

/-- A continuation settles its owner until its done callback has run. -/
def Handed.settles (future : ℕ) (handed : Handed) : ℕ :=
  if handed.owner = future ∧ handed.continuation.settled = false then 1 else 0

def due (handed : List Handed) (future : ℕ) : ℕ := ofList (Handed.settles future) handed

/-- The task waits for the newest of the futures it has asked for; those before
it are done. -/
structure Handed.Kept (world : World) (handed : Handed) : Prop where
  known : handed.owner < world.futures.length
  begun : handed.continuation.task.phase ≠ .created
  awaits : ∀ future : ℕ, handed.continuation.task.phase = .waiting future →
    handed.owner < future ∧ future < world.futures.length
  asked : ∀ future ∈ handed.asked, (world.outcome future).isSome = true ∨
    handed.continuation.task.phase = .waiting future
  settled : handed.continuation.settled = true → handed.continuation.task.isDone = true

structure Waiter.Kept (world : World) (waiter : Waiter) : Prop where
  known : waiter.future < world.futures.length
  begun : waiter.task.phase = .created → waiter.task.coro = false
  ends : waiter.task.isDone = true → waiter.driving = true ∨ waiter.task.coro = true →
    (world.outcome waiter.future).isSome = true

structure Invariant (state : State) : Prop where
  ledger : Ledger state.world state.unsubmitted (due state.handed)
  handed : ∀ handed ∈ state.handed, handed.Kept state.world
  waiters : ∀ waiter ∈ state.waiters, waiter.Kept state.world

theorem Later.isSome (hlater : Later world next) {future : ℕ}
    (hdone : (world.outcome future).isSome = true) : (next.outcome future).isSome = true := by
  obtain ⟨outcome, houtcome⟩ := Option.isSome_iff_exists.mp hdone
  rw [hlater.outcome future outcome houtcome]
  rfl

theorem Handed.Kept.later {handed : Handed} (hkept : handed.Kept world)
    (hlater : Later world next) : handed.Kept next where
  known := hkept.known.trans_le hlater.length
  begun := hkept.begun
  awaits future hphase :=
    ⟨(hkept.awaits future hphase).1, (hkept.awaits future hphase).2.trans_le hlater.length⟩
  asked future hfuture := (hkept.asked future hfuture).imp_left hlater.isSome
  settled := hkept.settled

theorem Waiter.Kept.later {waiter : Waiter} (hkept : waiter.Kept world)
    (hlater : Later world next) : waiter.Kept next where
  known := hkept.known.trans_le hlater.length
  begun := hkept.begun
  ends hdone hstarted := hlater.isSome (hkept.ends hdone hstarted)

/-- A step that leaves the continuations and the tasks alone. -/
theorem Invariant.later {state : State} (hinvariant : Invariant state)
    (hlater : Later state.world next) {unsubmitted : List Inflight}
    (hledger : Ledger next unsubmitted (due state.handed)) :
    Invariant { state with world := next, unsubmitted := unsubmitted } where
  ledger := hledger
  handed handed hhanded := (hinvariant.handed handed hhanded).later hlater
  waiters waiter hwaiter := (hinvariant.waiters waiter hwaiter).later hlater

/-! ## The steps of the loop thread -/

section Steps

variable {state : State}

theorem due_set {handed : List Handed} {index : ℕ} {old new : Handed}
    (hget : handed[index]? = some old) (future : ℕ)
    (howner : new.owner = old.owner)
    (hsettled : new.continuation.settled = old.continuation.settled) :
    due (handed.set index new) future = due handed future := by
  have hset := ofList_set (Handed.settles future) hget new
  have hsame : new.settles future = old.settles future := by
    rw [Handed.settles, Handed.settles, howner, hsettled]
  rw [due, due]
  omega

/-- The futures the task has asked for before are done when it asks again. -/
theorem Handed.Kept.note {handed : Handed} {handle : Handle} {task : Task Reading FutureId Value}
    {settled : Bool} {asked : List FutureId} {owner : FutureId}
    (hknown : owner < world.futures.length) (hlater : Later world next)
    (hasked : ∀ future ∈ asked, (world.outcome future).isSome = true)
    (hsettled : settled = true → task.isDone = true)
    (hphase : (∃ outcome, task.phase = .done outcome) ∨
      task.phase = .waiting world.futures.length ∧
        world.futures.length < next.futures.length)
    (hhanded : handed = Handed.note ⟨owner, ⟨handle, task, settled⟩, asked⟩) :
    handed.Kept next ∧ handed.owner = owner ∧ handed.continuation = ⟨handle, task, settled⟩ := by
  obtain ⟨outcome, hdone⟩ | ⟨hwaiting, hlt⟩ := hphase
  · have hnote : handed = ⟨owner, ⟨handle, task, settled⟩, asked⟩ := by
      rw [hhanded, Handed.note]
      simp only [hdone]
    subst hnote
    refine ⟨?_, rfl, rfl⟩
    exact
      { known := hknown.trans_le hlater.length
        begun := fun hcreated => by simp [hdone] at hcreated
        awaits := fun future hawaits => by simp [hdone] at hawaits
        asked := fun future hfuture => .inl (hlater.isSome (hasked future hfuture))
        settled := hsettled }
  · have hnote : handed =
        ⟨owner, ⟨handle, task, settled⟩, asked ++ [world.futures.length]⟩ := by
      rw [hhanded, Handed.note]
      simp only [hwaiting]
    subst hnote
    refine ⟨?_, rfl, rfl⟩
    exact
      { known := hknown.trans_le hlater.length
        begun := fun hcreated => by simp [hwaiting] at hcreated
        awaits := fun future hawaits => by
          obtain rfl : world.futures.length = future := by simpa [hwaiting] using hawaits
          exact ⟨hknown, hlt⟩
        asked := fun future hfuture => by
          rcases List.mem_append.mp hfuture with hfuture | hfuture
          · exact .inl (hlater.isSome (hasked future hfuture))
          · obtain rfl := List.mem_singleton.mp hfuture
            exact .inr hwaiting
        settled := hsettled }

/-- A step of the task is a step of its coroutine. -/
theorem step_asks (handle : Handle) (inline : Inline) (exc : Option Exc)
    (task : Task Reading FutureId Value) (world : World) :
    ∃ step, Asks world step ∧ task.step (readHandleToEnd code handle inline) exc world =
      ({ coro := step.2.1, mustCancel := false, phase := step.1.phase }, step.2.2) :=
  ⟨_, readHandleToEnd_asks inline _ task.coro, rfl⟩

/-- `pending.continuation = task`. -/
theorem later_continuation (world : World) (owner : FutureId) :
    Later world { world with futures := world.futures.modify owner fun pending =>
      { pending with continuation := true } } := by
  refine .of_same (by simp) fun future => ?_
  simp only [World.outcome, List.getElem?_modify]
  cases world.futures[future]? with
  | none => rfl
  | some pending => simp only [Option.map_eq_map, Option.map_some]; split <;> rfl

theorem ledger_continuation {unsubmitted : List Inflight} {due : ℕ → ℕ}
    (hledger : Ledger world unsubmitted due) (owner : FutureId) :
    Ledger { world with futures := world.futures.modify owner fun pending =>
      { pending with continuation := true } } unsubmitted due := by
  refine hledger.same_futures (by simp) fun future => ?_
  simp only [List.getElem?_modify]
  cases world.futures[future]? with
  | none => rfl
  | some pending => simp only [Option.map_eq_map, Option.map_some]; split <;> rfl

/-- `finish_large_read` waits for a future of its own before it returns. -/
theorem start_kept {owner : ℕ} (hknown : owner < world.futures.length) (inline : Inline)
    (handle : Handle) {handed : Handed}
    (hstart : Handed.start code inline owner handle world = (handed, next)) :
    handed.Kept next ∧ handed.owner = owner ∧ handed.continuation.settled = false ∧
      Later world next ∧ ∀ due, Ledger world [] due → Ledger next [] due := by
  obtain ⟨step, hasks, hstep⟩ := @step_asks code handle inline none
    { coro := .start } world
  obtain ⟨hlater, hledger, hphase⟩ := hasks.effect
  simp only [Handed.start, Task.eager, hstep, Prod.mk.injEq] at hstart
  obtain ⟨hhanded, rfl⟩ := hstart
  have hmarked := later_continuation step.2.2 owner
  obtain ⟨hkept, howner, hcontinuation⟩ := Handed.Kept.note hknown hlater
    (fun future hfuture => by cases hfuture) (fun hsettled => by cases hsettled) hphase hhanded.symm
  refine ⟨hkept.later hmarked, howner, by rw [hcontinuation], hlater.trans hmarked, ?_⟩
  exact fun due hworld => ledger_continuation (hledger due hworld) owner

theorem Invariant.deliver (hinvariant : Invariant state) {after : State} {inline : Inline}
    (hidle : state.unsubmitted = []) (hdeliver : state.deliver code inline = some after) :
    Invariant after := by
  have hledger := hinvariant.ledger
  rw [State.deliver] at hdeliver
  split at hdeliver
  · cases hdeliver
  · next completion rest hqueue =>
      have htaken := hledger.take hqueue
      have hlater : Later state.world { state.world with queue := rest } :=
        .of_same rfl fun _ => rfl
      have hknown : completion.future < state.world.futures.length := by
        by_contra hnew
        have howed := hledger.owed completion.future
        rw [pendingCount_new state.world (Nat.le_of_not_lt hnew)] at howed
        simp [World.sources, hqueue, Completion.settles] at howed
      obtain ⟨outcome, hsettles, -⟩ | ⟨-, handle, fd, hhands⟩ :=
        deliver_cases code { state.world with queue := rest } completion
      · simp only [hsettles, Option.some.injEq] at hdeliver
        subst hdeliver
        have hdue : 0 < completion.settles completion.future +
            due state.handed completion.future := by
          simp [Completion.settles]
        have hpaid : Ledger (World.settle { state.world with queue := rest }
            completion.future outcome) state.unsubmitted (due state.handed) :=
          (htaken.settle hdue outcome).congr_due fun future => by
            simp only [Completion.settles]
            omega
        exact hinvariant.later (hlater.trans (.settle ..)) hpaid
      · obtain ⟨handed, next, hstart⟩ : ∃ handed next, Handed.start code inline completion.future
            handle { state.world with queue := rest } = (handed, next) := ⟨_, _, rfl⟩
        simp only [hhands, hstart, Option.some.injEq] at hdeliver
        subst hdeliver
        have hrest : completion.future <
            ({ state.world with queue := rest } : World).futures.length :=
          hknown
        obtain ⟨hkept, howner, hgoing, hstarted, hstartLedger⟩ :=
          start_kept hrest inline handle hstart
        exact
          { ledger := by
              rw [hidle] at htaken ⊢
              refine (hstartLedger _ htaken).congr_due fun future => ?_
              simp only [due, ofList_append, ofList_cons, ofList_nil,
                Handed.settles, howner, hgoing, Completion.settles, and_true]
              omega
            handed := fun other hother => by
              rcases List.mem_append.mp hother with hother | hother
              · exact (hinvariant.handed other hother).later (hlater.trans hstarted)
              · obtain rfl := List.mem_singleton.mp hother
                exact hkept
            waiters := fun waiter hwaiter =>
              (hinvariant.waiters waiter hwaiter).later (hlater.trans hstarted) }

/-- The task is woken once the future it waits for is done. -/
theorem Handed.Kept.turn {handed turned : Handed} (hkept : handed.Kept world) {inline : Inline}
    (hturn : handed.turn code inline world = some (turned, next)) :
    turned.Kept next ∧ turned.owner = handed.owner ∧
      turned.continuation.settled = handed.continuation.settled ∧
      Later world next ∧ ∀ due, Ledger world [] due → Ledger next [] due := by
  simp only [Handed.turn, Option.map_eq_some_iff, Prod.mk.injEq] at hturn
  obtain ⟨⟨task, after⟩, hrun, hturned, rfl⟩ := hturn
  cases hphase : handed.continuation.task.phase with
  | created => exact absurd hphase hkept.begun
  | done outcome => simp [Task.run, hphase] at hrun
  | waiting future =>
      simp only [Task.run, hphase, Option.map_eq_some_iff] at hrun
      obtain ⟨outcome, houtcome, hstepped⟩ := hrun
      obtain ⟨step, hasks, hstep⟩ := @step_asks code handed.continuation.handle inline
        outcome.raises handed.continuation.task world
      obtain ⟨hlater, hledger, hends⟩ := hasks.effect
      rw [hstep, Prod.mk.injEq] at hstepped
      obtain ⟨rfl, rfl⟩ := hstepped
      have hdone : ∀ other ∈ handed.asked, (world.outcome other).isSome = true := by
        intro other hother
        rcases hkept.asked other hother with hdone | hawaited
        · exact hdone
        · obtain rfl : future = other := by simpa [hphase] using hawaited
          rw [houtcome]
          rfl
      have hgoing : handed.continuation.settled = false := by
        by_contra hsettled
        have hended := hkept.settled (by simpa using hsettled)
        simp [Task.isDone, hphase] at hended
      obtain ⟨hnew, howner, hcontinuation⟩ := Handed.Kept.note hkept.known hlater hdone
        (fun hsettled => by rw [hgoing] at hsettled; cases hsettled) hends hturned.symm
      exact ⟨hnew, howner, by rw [hcontinuation], hlater, hledger⟩

theorem Invariant.turn (hinvariant : Invariant state) {after : State} {index : ℕ}
    {inline : Inline} (hidle : state.unsubmitted = [])
    (hturn : state.turn code index inline = some after) : Invariant after := by
  simp only [State.turn, Option.bind_eq_some_iff, Option.map_eq_some_iff] at hturn
  obtain ⟨handed, hget, ⟨turned, next⟩, hstep, rfl⟩ := hturn
  obtain ⟨hkept, howner, hsettled, hlater, hledger⟩ :=
    (hinvariant.handed handed (List.mem_of_getElem? hget)).turn hstep
  have hworld := hinvariant.ledger
  rw [hidle] at hworld
  exact
    { ledger := by
        rw [hidle]
        exact (hledger _ hworld).congr_due fun future =>
          (due_set hget future howner hsettled).symm
      handed := fun other hother => by
        rcases List.mem_or_eq_of_mem_set hother with hother | rfl
        · exact (hinvariant.handed other hother).later hlater
        · exact hkept
      waiters := fun waiter hwaiter => (hinvariant.waiters waiter hwaiter).later hlater }

/-- The done callback pays what was due. -/
theorem Invariant.settleFrom (hinvariant : Invariant state) {after : State} {index : ℕ}
    (hsettle : state.settleFrom index = some after) : Invariant after := by
  simp only [State.settleFrom, Option.bind_eq_some_iff, Option.map_eq_some_iff] at hsettle
  obtain ⟨handed, hget, ⟨settled, next⟩, hstep, rfl⟩ := hsettle
  rw [Handed.settleFrom] at hstep
  split at hstep
  · next outcome hgoing hphase =>
      obtain ⟨rfl, rfl⟩ := Prod.mk.inj (Option.some.inj hstep)
      have hmember := List.mem_of_getElem? hget
      have hkept := hinvariant.handed handed hmember
      have hlater := Later.settle state.world handed.owner outcome
      have hmine : handed.settles handed.owner = 1 := by simp [Handed.settles, hgoing]
      have hdue : 0 < due state.handed handed.owner :=
        (hmine ▸ Nat.one_pos).trans_le (weight_le_ofList (Handed.settles handed.owner) hmember)
      exact
        { ledger := by
            refine (hinvariant.ledger.settle hdue outcome).congr_due fun future => ?_
            have hset := ofList_set (Handed.settles future) hget
              { handed with continuation := { handed.continuation with settled := true } }
            simp only [Handed.settles, hgoing, and_true, reduceCtorEq, and_false, if_false] at hset
            simp only [due]
            omega
          handed := fun other hother => by
            rcases List.mem_or_eq_of_mem_set hother with hother | rfl
            · exact (hinvariant.handed other hother).later hlater
            · have hlaterKept := hkept.later hlater
              exact
                { known := hlaterKept.known
                  begun := hlaterKept.begun
                  awaits := hlaterKept.awaits
                  asked := hlaterKept.asked
                  settled := fun _ => by
                    change handed.continuation.task.isDone = true
                    rw [Task.isDone, hphase] }
          waiters := fun waiter hwaiter => (hinvariant.waiters waiter hwaiter).later hlater }
  · cases hstep

/-! ## Requests and tasks -/

theorem cancel_phase (task : Task Reading FutureId Value) (world : World) :
    (task.cancel World.cancelFuture world).1.phase = task.phase := by
  cases hphase : task.phase with
  | created => simp [Task.cancel, hphase]
  | done outcome => simp [Task.cancel, hphase]
  | waiting future => simp [Task.cancel, hphase, LargeRead.State.cancelFuture_eq]

/-- A request leaves a mark on the task at most. -/
theorem Handed.Kept.cancel {handed : Handed} (hkept : handed.Kept world) :
    (handed.cancel world).Kept world where
  known := hkept.known
  begun := by
    rw [Handed.cancel, cancel_phase]
    exact hkept.begun
  awaits := by
    rw [Handed.cancel, cancel_phase]
    exact hkept.awaits
  asked := by
    rw [Handed.cancel, cancel_phase]
    exact hkept.asked
  settled := by
    rw [Handed.cancel, Task.isDone, cancel_phase]
    exact hkept.settled

theorem Invariant.request (hinvariant : Invariant state) (future : FutureId)
    (asked : Option Request) : Invariant (state.request future asked) := by
  cases asked with
  | none => exact hinvariant
  | some asked =>
      cases asked with
      | ops ids => exact hinvariant
      | continuation =>
          exact
            { ledger := hinvariant.ledger.congr_due fun other => by
                simp only [State.request, due, ofList_map]
                refine ofList_congr fun handed _ => ?_
                split <;> rfl
              handed := fun handed hhanded => by
                obtain ⟨old, hold, rfl⟩ := List.mem_map.mp hhanded
                have hkept := hinvariant.handed old hold
                split
                · exact hkept.cancel
                · exact hkept
              waiters := hinvariant.waiters }

theorem request_world (state : State) (future : FutureId) (asked : Option Request) :
    (state.request future asked).world = state.world ∧
      (state.request future asked).waiters = state.waiters := by
  cases asked with
  | none => exact ⟨rfl, rfl⟩
  | some asked => cases asked <;> exact ⟨rfl, rfl⟩

theorem Invariant.cancel (hinvariant : Invariant state) (future : FutureId) :
    Invariant (state.cancel future) := by
  rw [State.cancel]
  split
  · exact hinvariant
  · exact hinvariant.request ..

theorem cancel_world (state : State) (future : FutureId) :
    (state.cancel future).world = state.world ∧
      (state.cancel future).waiters = state.waiters := by
  rw [State.cancel]
  split
  · exact ⟨rfl, rfl⟩
  · exact request_world ..

theorem signal_phase (outcome : Asyncio.Outcome Value) :
    (outcome.signal : Signal Unit Value).phase = .done outcome := by
  cases outcome <;> rfl

/-- A change of one future that does not settle it. -/
theorem Invariant.set (hinvariant : Invariant state) {index : ℕ} {old new : KernelFuture Value}
    (hget : state.world.futures[index]? = some old) (hsame : new.outcome = old.outcome) :
    Invariant { state with
        world := { state.world with futures := state.world.futures.set index new } } ∧
      Later state.world { state.world with futures := state.world.futures.set index new } := by
  have hlt := (List.getElem?_eq_some_iff.mp hget).1
  have hfutures : ∀ other : ℕ, ((state.world.futures.set index new)[other]?).map (·.outcome) =
      (state.world.futures[other]?).map (·.outcome) := by
    intro other
    by_cases hother : index = other
    · subst hother
      rw [List.getElem?_set_self hlt, hget, Option.map_some, Option.map_some, hsame]
    · rw [List.getElem?_set_ne hother]
  have hlater : Later state.world
      { state.world with futures := state.world.futures.set index new } := by
    refine .of_same (List.length_set ..) fun other => ?_
    have hother := hfutures other
    simp only [World.outcome]
    cases hnew : (state.world.futures.set index new)[other]? with
    | none =>
        cases hold : state.world.futures[other]? with
        | none => rfl
        | some before => simp [hnew, hold] at hother
    | some changed =>
        cases hold : state.world.futures[other]? with
        | none => simp [hnew, hold] at hother
        | some before => simpa [hnew, hold] using hother
  exact ⟨hinvariant.later hlater
    (hinvariant.ledger.same_futures (List.length_set ..) hfutures), hlater⟩

/-- With its future not done, a task that drives it, or has come to the await,
can only wait. -/
theorem resume_kept (hinvariant : Invariant state) {waiter : Waiter}
    (hknown : waiter.future < state.world.futures.length) (exc : Option Exc) {started : Bool}
    (hstarted : started = true → (state.world.outcome waiter.future).isSome = true)
    {signal : Signal Unit Value} {started' : Bool} {after : State}
    (hresume : waiter.resume exc started state = (signal, started', after)) :
    Invariant after ∧ after.waiters = state.waiters ∧ Later state.world after.world ∧
      (signal.phase = .waiting () ∨ ∃ outcome, signal.phase = .done outcome ∧
        (waiter.driving = true ∨ started' = true →
          (state.world.outcome waiter.future).isSome = true)) := by
  obtain ⟨future, hwaiting⟩ : ∃ future, state.world.futures[waiter.future]? = some future :=
    ⟨_, List.getElem?_eq_getElem hknown⟩
  have houtcome : state.world.outcome waiter.future = future.outcome := by
    rw [World.outcome, hwaiting, Option.bind_some]
  rw [houtcome] at hstarted ⊢
  simp only [Waiter.resume, hwaiting] at hresume
  cases hdriving : waiter.driving with
  | false =>
      simp only [hdriving, Bool.false_eq_true, if_false, Prod.mk.injEq] at hresume
      obtain ⟨rfl, rfl, rfl⟩ := hresume
      refine ⟨hinvariant, rfl, .refl _, ?_⟩
      cases exc with
      | some exc =>
          refine .inr ⟨exc.outcome, rfl, fun hstart => ?_⟩
          rcases hstart with hstart | hstart
          · cases hstart
          · exact hstarted hstart
      | none =>
          cases hdone : future.outcome with
          | none => exact .inl (by rw [awaiting, hdone]; rfl)
          | some outcome =>
              refine .inr ⟨outcome, ?_, fun _ => rfl⟩
              rw [awaiting, hdone]
              exact signal_phase outcome
  | true =>
      simp only [hdriving, if_true] at hresume
      cases exc with
      | none =>
          simp only [Prod.mk.injEq] at hresume
          obtain ⟨rfl, rfl, rfl⟩ := hresume
          refine ⟨hinvariant, rfl, .refl _, ?_⟩
          cases hdone : future.outcome with
          | none => exact .inl (by rw [KernelFuture.send, hdone]; rfl)
          | some outcome =>
              cases hthrown : future.thrown with
              | none =>
                  refine .inr ⟨outcome, ?_, fun _ => rfl⟩
                  rw [KernelFuture.send, hdone, hthrown]
                  exact signal_phase outcome
              | some exc =>
                  refine .inr ⟨exc.outcome, ?_, fun _ => rfl⟩
                  rw [KernelFuture.send, hdone, hthrown]
                  rfl
      | some exc =>
          simp only [Prod.mk.injEq] at hresume
          obtain ⟨rfl, rfl, rfl⟩ := hresume
          have hkeeps : (future.throw exc).2.2.outcome = future.outcome := by
            rw [KernelFuture.throw]
            split
            · rfl
            · rfl
          obtain ⟨hthrown, hlater⟩ := hinvariant.set hwaiting hkeeps
          refine ⟨hthrown.request .., (request_world ..).2, ?_, ?_⟩
          · rw [(request_world ..).1]
            exact hlater
          · cases hdone : future.outcome with
            | none => exact .inl (by rw [KernelFuture.throw, hdone]; rfl)
            | some outcome =>
                refine .inr ⟨exc.outcome, ?_, fun _ => rfl⟩
                rw [KernelFuture.throw, hdone]
                rfl

/-- The waiters with one of them in a new state. -/
theorem Invariant.setWaiter (hinvariant : Invariant state) {waiter : Waiter}
    (hkept : waiter.Kept state.world) (index : ℕ) :
    Invariant { state with waiters := state.waiters.set index waiter } where
  ledger := hinvariant.ledger
  handed := hinvariant.handed
  waiters other hother := by
    rcases List.mem_or_eq_of_mem_set hother with hother | rfl
    · exact hinvariant.waiters other hother
    · exact hkept

theorem Invariant.cancelTask (hinvariant : Invariant state) {after : State} {index : ℕ}
    (hcancel : state.cancelTask index = some after) : Invariant after := by
  simp only [State.cancelTask, Option.map_eq_some_iff] at hcancel
  obtain ⟨waiter, hget, rfl⟩ := hcancel
  have hkept := hinvariant.waiters waiter (List.mem_of_getElem? hget)
  have hmarked : waiter.task.isDone = false → ∀ {after : World}, after = state.world →
      Waiter.Kept after { waiter with task := { waiter.task with mustCancel := true } } := by
    rintro hgoing after rfl
    refine ⟨hkept.known, hkept.begun, fun hdone => ?_⟩
    rw [show waiter.task.isDone = true from hdone] at hgoing
    cases hgoing
  cases hphase : waiter.task.phase with
  | done outcome =>
      have hcancelled : waiter.cancel state = (waiter, state) := by
        simp [Waiter.cancel, Task.cancel, hphase]
      rw [hcancelled]
      exact hinvariant.setWaiter hkept index
  | created =>
      have hcancelled : waiter.cancel state =
          ({ waiter with task := { waiter.task with mustCancel := true } }, state) := by
        simp [Waiter.cancel, Task.cancel, hphase]
      rw [hcancelled]
      exact hinvariant.setWaiter (hmarked (by simp [Task.isDone, hphase]) rfl) index
  | waiting awaited =>
      have hcancelled : waiter.cancel state =
          ({ waiter with task := { waiter.task with mustCancel := true } },
            state.cancel waiter.future) := by
        simp [Waiter.cancel, Task.cancel, hphase]
      rw [hcancelled]
      exact (hinvariant.cancel waiter.future).setWaiter
        (hmarked (by simp [Task.isDone, hphase]) (cancel_world state waiter.future).1) index

theorem Invariant.turnTask (hinvariant : Invariant state) {after : State} {index : ℕ}
    (hturn : state.turnTask index = some after) : Invariant after := by
  simp only [State.turnTask, Option.bind_eq_some_iff, Option.map_eq_some_iff, Waiter.turn] at hturn
  obtain ⟨waiter, hget, turned, ⟨⟨task, stepped⟩, hrun, rfl⟩, rfl⟩ := hturn
  have hkept := hinvariant.waiters waiter (List.mem_of_getElem? hget)
  have hstep : ∃ exc, waiter.task.step waiter.resume exc state = (task, stepped) ∧
      (waiter.task.coro = true → (state.world.outcome waiter.future).isSome = true) := by
    cases hphase : waiter.task.phase with
    | done outcome => simp [Task.run, hphase] at hrun
    | created =>
        simp only [Task.run, hphase, Option.some.injEq] at hrun
        refine ⟨none, hrun, fun hstarted => ?_⟩
        rw [hkept.begun hphase] at hstarted
        cases hstarted
    | waiting awaited =>
        simp only [Task.run, hphase, Option.map_eq_some_iff] at hrun
        obtain ⟨outcome, houtcome, hstepped⟩ := hrun
        exact ⟨outcome.raises, hstepped, fun _ => by rw [houtcome]; rfl⟩
  obtain ⟨exc, hstepped, hstarted⟩ := hstep
  obtain ⟨signal, started, resumed, hresume⟩ : ∃ signal started resumed,
      waiter.resume (if waiter.task.mustCancel then some .cancelled else exc)
        waiter.task.coro state =
        (signal, started, resumed) := ⟨_, _, _, rfl⟩
  simp only [Task.step, hresume, Prod.mk.injEq] at hstepped
  obtain ⟨rfl, rfl⟩ := hstepped
  obtain ⟨hresumed, -, hlater, hends⟩ :=
    resume_kept hinvariant hkept.known _ hstarted hresume
  have hresumedKept : Waiter.Kept resumed.world
      { waiter with task := { coro := started, mustCancel := false, phase := signal.phase } } := by
    refine ⟨hkept.known.trans_le hlater.length, fun hcreated => ?_, fun hdone hstart => ?_⟩
    · rcases hends with hwaits | ⟨outcome, houtcome, -⟩
      · simp [hwaits] at hcreated
      · simp [houtcome] at hcreated
    · rcases hends with hwaits | ⟨outcome, -, hsettled⟩
      · simp [Task.isDone, hwaits] at hdone
      · exact hlater.isSome (hsettled hstart)
  exact hresumed.setWaiter hresumedKept index

theorem Invariant.step (hinvariant : Invariant state) {after : State} {move : Move}
    (hstep : state.step code move = some after) : Invariant after := by
  have hloop : ∀ {move : Move},
      (if state.unsubmitted = [] then state.loopStep code move else none) =
      some after → Invariant after := by
    intro move hstep
    split at hstep
    · next hidle =>
        have hledger := hinvariant.ledger
        rw [hidle] at hledger
        cases move with
        | submit op output =>
            obtain rfl := Option.some.inj hstep
            rw [hidle]
            exact hinvariant.later (.of_append rfl) (hledger.submit op output)
        | enter call =>
            simp only [State.loopStep] at hstep
            split at hstep
            · next hchunk =>
                obtain rfl := Option.some.inj hstep
                exact hinvariant.later (later_enter call state.world) (hledger.enter call hchunk)
            · cases hstep
        | post => cases hstep
        | callback index result data => cases hstep
        | deliver inline => exact hinvariant.deliver hidle hstep
        | turn index inline => exact hinvariant.turn hidle hstep
        | settleFrom index => exact hinvariant.settleFrom hstep
        | cancel future =>
            obtain rfl := Option.some.inj hstep
            exact hinvariant.cancel future
        | wait future driving =>
            simp only [State.loopStep, State.wait] at hstep
            split at hstep
            · next hknown =>
                obtain rfl := Option.some.inj hstep
                exact
                  { ledger := hinvariant.ledger
                    handed := hinvariant.handed
                    waiters := fun waiter hwaiter => by
                      rcases List.mem_append.mp hwaiter with hwaiter | hwaiter
                      · exact hinvariant.waiters waiter hwaiter
                      · obtain rfl := List.mem_singleton.mp hwaiter
                        exact ⟨hknown, fun _ => rfl, fun hdone => by cases hdone⟩ }
            · cases hstep
        | cancelTask index => exact hinvariant.cancelTask hstep
        | turnTask index => exact hinvariant.turnTask hstep
    · cases hstep
  cases move with
  | post =>
      simp only [State.step] at hstep
      split at hstep
      · cases hstep
      · next entry rest hunsubmitted =>
          obtain rfl := Option.some.inj hstep
          have hledger := hinvariant.ledger
          rw [hunsubmitted] at hledger
          have hlater : Later state.world (ParallelFill.post state.world entry) :=
            .of_same rfl fun _ => rfl
          exact hinvariant.later hlater hledger.post
  | callback index result data =>
      simp only [State.step, Option.map_eq_some_iff] at hstep
      obtain ⟨after, hcallback, rfl⟩ := hstep
      exact hinvariant.later (later_callback hcallback) (hinvariant.ledger.callback hcallback)
  | submit op output => exact hloop hstep
  | enter call => exact hloop hstep
  | deliver inline => exact hloop hstep
  | turn index inline => exact hloop hstep
  | settleFrom index => exact hloop hstep
  | cancel future => exact hloop hstep
  | wait future driving => exact hloop hstep
  | cancelTask index => exact hloop hstep
  | turnTask index => exact hloop hstep

theorem Invariant.init : Invariant {} where
  ledger :=
    { owed := fun future => rfl
      groups := fun index group hgroup => by cases hgroup
      known := fun entry hentry => by cases hentry
      chunks := fun entry hentry => by cases hentry
      settled := fun future => rfl }
  handed handed hhanded := by cases hhanded
  waiters waiter hwaiter := by cases hwaiter

theorem Invariant.of_reachable (hreach : (system code).Reachable state) : Invariant state := by
  refine hreach.invariant ?_ ?_
  · rintro _ rfl
    exact .init
  · intro _ _ _ _ hinvariant hstep
    exact hinvariant.step hstep

end Steps

end Turbofile.EventLoop
