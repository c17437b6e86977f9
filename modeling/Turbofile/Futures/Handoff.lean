import Turbofile.Futures.LargeRead

/-!
# The hand-off of a large read

At every moment the read has one future that is due: the one of `read_bytes`
before the hand-off, later the one its task waits for.  What is in flight or
queued is what will settle that future, so the task is always woken, and its
last await is that of the close.
-/

namespace Turbofile.LargeRead

open Turbofile.Core
open Turbofile.Asyncio
open Turbofile.Bridge

variable {code : Raised → ℕ}

/-! ## The future that is due -/

/-- A future that is not done. -/
def Pends (world : World) (future : FutureId) : Prop :=
  ∃ waiting, world.futures[future]? = some waiting ∧ waiting.outcome = none

/-- All that is outstanding settles one future, with a value from `allowed` or
with an error; only `handsOver` lets it end in a hand-off instead. -/
inductive Due (world : World) (future : FutureId) (handsOver : Bool)
    (allowed : Value → Prop) : Prop
  | inflight (op : Op) (output : Output)
      (hinflight : world.inflight = [⟨op, .complete future output⟩])
      (hqueue : world.queue = []) (hpends : Pends world future)
      (houtput : output = .wholeFile true → handsOver = true)
      (hallowed : ∀ reply data value, fits op (.ok reply) data = true →
        buildValue reply output = some value → allowed value)
  | chunks (group : GroupId) (state : ReadGroup)
      (hinflight : world.inflight ≠ [])
      (hchunks : ∀ entry ∈ world.inflight, ∃ start len, entry.onDone = .chunkDone group start len)
      (hgroup : world.groups[group]? = some state) (hfuture : state.future = future)
      (hremaining : state.remaining = world.inflight.length)
      (hqueue : world.queue = []) (hpends : Pends world future)
      (hallowed : ∀ value, allowed value)
  | queued (result : Core.Outcome) (output : Output) (hinflight : world.inflight = [])
      (hqueue : world.queue = [⟨future, result, output⟩]) (hpends : Pends world future)
      (houtput : output = .wholeFile true → handsOver = true)
      (hallowed : ∀ reply value, result = .ok reply →
        buildValue reply output = some value → allowed value)
  | settled (outcome : Asyncio.Outcome Value) (hinflight : world.inflight = [])
      (hqueue : world.queue = []) (houtcome : world.outcome future = some outcome)
      (hallowed : ∀ value, outcome = .result value → allowed value)

theorem outcome_settle (world : World) (future other : FutureId)
    (outcome : Asyncio.Outcome Value) (hother : other ≠ future) :
    (world.settle future outcome).outcome other = world.outcome other := by
  have hsame : (world.settle future outcome).futures[other]? = world.futures[other]? := by
    simp [World.settle, hother.symm]
  rw [World.outcome, World.outcome, hsame]

theorem Pends.outcome_settle {world : World} {future : FutureId} (hpends : Pends world future)
    (outcome : Asyncio.Outcome Value) :
    (world.settle future outcome).outcome future = some outcome := by
  obtain ⟨waiting, hwaiting, hnone⟩ := hpends
  simp [World.outcome, World.settle, hwaiting, hnone]

theorem Pends.outcome {world : World} {future : FutureId} (hpends : Pends world future) :
    world.outcome future = none := by
  obtain ⟨waiting, hwaiting, hnone⟩ := hpends
  simp [World.outcome, hwaiting, hnone]

/-- Two worlds that differ only in what is outstanding. -/
structure SameHistory (world next : World) : Prop where
  submitted : next.submitted = world.submitted
  futures : next.futures = world.futures
  settles : next.settles = world.settles

theorem SameHistory.outcome {world next : World} (hsame : SameHistory world next)
    (future : FutureId) : next.outcome future = world.outcome future := by
  rw [World.outcome, World.outcome, hsame.futures]

theorem SameHistory.pends {world next : World} (hsame : SameHistory world next)
    {future : FutureId} (hpends : Pends world future) : Pends next future := by
  rwa [Pends, hsame.futures]

theorem Due.callback {world next : World} {future : FutureId} {handsOver : Bool}
    {allowed : Value → Prop} (hdue : Due world future handsOver allowed) {index : ℕ}
    {result : Core.Outcome} {data : List Byte}
    (hfits : ∀ entry, world.inflight[index]? = some entry → fits entry.op result data = true)
    (hcallback : world.callback index result data = some next) :
    Due next future handsOver allowed ∧ SameHistory world next := by
  simp only [World.callback, Option.map_eq_some_iff] at hcallback
  obtain ⟨entry, hentry, rfl⟩ := hcallback
  cases hdue with
  | inflight op output hinflight hqueue hpends houtput hallowed =>
      obtain ⟨rfl, rfl⟩ : index = 0 ∧ entry = ⟨op, .complete future output⟩ := by
        rw [hinflight] at hentry
        cases index with
        | zero => exact ⟨rfl, (Option.some.inj hentry).symm⟩
        | succ index => cases hentry
      have hfits := hfits _ hentry
      refine ⟨.queued result output ?_ ?_ hpends houtput ?_, ⟨rfl, rfl, rfl⟩⟩
      · simp [hinflight]
      · simp [hqueue]
      · rintro reply value rfl hvalue
        exact hallowed reply data value hfits hvalue
  | chunks group state hinflight hchunks hgroup hfuture hremaining hqueue hpends hallowed =>
      obtain ⟨start, len, hdone⟩ := hchunks entry (List.mem_of_getElem? hentry)
      have hlength : (world.inflight.eraseIdx index).length = world.inflight.length - 1 :=
        List.length_eraseIdx_of_lt (List.getElem?_eq_some_iff.mp hentry).1
      have hlt := (List.getElem?_eq_some_iff.mp hgroup).1
      simp only [hdone, World.chunkDone, hgroup, ReadGroup.record_remaining,
        ReadGroup.record_future]
      have hpos : 0 < world.inflight.length := List.length_pos_iff.mpr hinflight
      rw [hremaining]
      split_ifs with hlast
      · refine ⟨.chunks group _ ?_ ?_ (List.getElem?_set_self hlt) ?_ ?_ hqueue hpends hallowed,
          ⟨rfl, rfl, rfl⟩⟩
        · rw [ne_eq, ← List.length_eq_zero_iff, hlength]
          omega
        · intro entry hmem
          exact hchunks entry (List.mem_of_mem_eraseIdx hmem)
        · exact hfuture
        · exact hlength.symm
      · have hnone : world.inflight.eraseIdx index = [] := by
          rw [← List.length_eq_zero_iff, hlength]
          omega
        rw [hfuture]
        exact ⟨.queued _ _ hnone (by rw [hqueue]; rfl) hpends (fun houtput => by cases houtput)
          (fun _ value _ _ => hallowed value), ⟨rfl, rfl, rfl⟩⟩
  | queued result output hinflight =>
      rw [hinflight] at hentry
      cases hentry
  | settled outcome hinflight =>
      rw [hinflight] at hentry
      cases hentry

theorem callback_inflight {world next : World} {index : ℕ} {result : Core.Outcome}
    {data : List Byte} (hcallback : world.callback index result data = some next) :
    next.inflight.length < world.inflight.length := by
  simp only [World.callback, Option.map_eq_some_iff] at hcallback
  obtain ⟨entry, hentry, rfl⟩ := hcallback
  have hlt := (List.getElem?_eq_some_iff.mp hentry).1
  have hlength : (world.inflight.eraseIdx index).length = world.inflight.length - 1 :=
    List.length_eraseIdx_of_lt hlt
  have hshort : (world.inflight.eraseIdx index).length < world.inflight.length := by omega
  cases entry.onDone with
  | complete future output => exact hshort
  | chunkDone group start len =>
      simp only [World.chunkDone]
      split
      · exact hshort
      · split_ifs <;> exact hshort

/-- A delivery settles the future of its completion, unless it is a hand-off. -/
theorem deliver_cases (code : Raised → ℕ) (world : World) (completion : Completion) :
    (∃ outcome, world.deliver code completion = (world.settle completion.future outcome, none) ∧
      ∀ value, outcome = .result value →
        ∃ reply, completion.result = .ok reply ∧ buildValue reply completion.output = some value) ∨
    (completion.output = .wholeFile true ∧
      ∃ handle fd, world.deliver code completion =
          (world, some (completion.future, handle, fd))) := by
  obtain ⟨future, result, output⟩ := completion
  cases result with
  | error error =>
      left
      simp only [World.deliver]
      split_ifs with hcancelled
      · exact ⟨_, rfl, fun value hvalue => by cases hvalue⟩
      · exact ⟨_, rfl, fun value hvalue => by cases hvalue⟩
  | ok reply =>
      by_cases hhook : output = .wholeFile true ∧ ∃ id size fd, reply = .handle id size fd
      · obtain ⟨rfl, id, size, fd, rfl⟩ := hhook
        exact .inr ⟨rfl, id, fd, rfl⟩
      · have hsettles : ∀ outcome,
            (buildValue reply output = none ∧ outcome = .failed (code .mismatchedReply) ∨
              ∃ value, buildValue reply output = some value ∧ outcome = .result value) →
            world.deliver code ⟨future, .ok reply, output⟩ =
              (world.settle future outcome, none) := by
          rintro outcome (⟨hbuilt, rfl⟩ | ⟨value, hbuilt, rfl⟩)
          all_goals
            simp only [World.deliver, hbuilt]
            split
            case h_1 =>
              cases reply with
              | handle id size fd => exact absurd ⟨rfl, id, size, fd, rfl⟩ hhook
              | bytes data => rfl
              | read n => rfl
              | written n fileEnd => rfl
              | size size => rfl
              | unit => rfl
            all_goals rfl
        left
        cases hbuilt : buildValue reply output with
        | none =>
            exact ⟨_, hsettles _ (.inl ⟨hbuilt, rfl⟩), fun value heq => by cases heq⟩
        | some built =>
            refine ⟨_, hsettles _ (.inr ⟨built, hbuilt, rfl⟩), fun value heq => ⟨reply, rfl, ?_⟩⟩
            rw [hbuilt, Asyncio.Outcome.result.inj heq]

theorem Due.deliver (code : Raised → ℕ) {world : World} {future : FutureId} {handsOver : Bool}
    {allowed : Value → Prop} (hdue : Due world future handsOver allowed)
    {completion : Completion} {rest : List Completion}
    (hqueue : world.queue = completion :: rest) :
    world.inflight = [] ∧ rest = [] ∧ completion.future = future ∧ Pends world future ∧
    ((∃ outcome,
      ({ world with queue := rest } : World).deliver code completion =
        (({ world with queue := rest } : World).settle future outcome, none) ∧
      Due (({ world with queue := rest } : World).settle future outcome) future handsOver
        allowed) ∨
    (handsOver = true ∧ ∃ handle fd,
      ({ world with queue := rest } : World).deliver code completion =
        ({ world with queue := rest }, some (future, handle, fd)))) := by
  cases hdue with
  | inflight op output hinflight hempty =>
      rw [hempty] at hqueue
      cases hqueue
  | chunks group state hinflight hchunks hgroup hfuture hremaining hempty =>
      rw [hempty] at hqueue
      cases hqueue
  | settled outcome hinflight hempty =>
      rw [hempty] at hqueue
      cases hqueue
  | queued result output hinflight hone hpends houtput hallowed =>
      rw [hone] at hqueue
      obtain ⟨rfl, rfl⟩ := List.cons.inj hqueue
      refine ⟨hinflight, rfl, rfl, hpends, ?_⟩
      have hpends' : Pends { world with queue := [] } future := hpends
      obtain ⟨outcome, hdeliver, hvalues⟩ | ⟨hhook, handle, fd, hdeliver⟩ :=
        deliver_cases code { world with queue := [] } ⟨future, result, output⟩
      · refine .inl ⟨outcome, hdeliver, .settled outcome hinflight rfl
          (hpends'.outcome_settle outcome) ?_⟩
        intro value hvalue
        obtain ⟨reply, hreply, hbuild⟩ := hvalues value hvalue
        exact hallowed reply value hreply hbuild
      · exact .inr ⟨houtput hhook, handle, fd, hdeliver⟩

/-! ## Submissions from an idle world -/

/-- Nothing is outstanding. -/
structure Idle (world : World) : Prop where
  inflight : world.inflight = []
  queue : world.queue = []

theorem Due.idle_of_done {world : World} {future : FutureId} {handsOver : Bool}
    {allowed : Value → Prop} (hdue : Due world future handsOver allowed)
    {outcome : Asyncio.Outcome Value} (hdone : world.outcome future = some outcome) :
    Idle world ∧ ∀ value, outcome = .result value → allowed value := by
  cases hdue with
  | inflight op output hinflight hqueue hpends =>
      rw [hpends.outcome] at hdone
      cases hdone
  | chunks group state hinflight hchunks hgroup hfuture hremaining hqueue hpends =>
      rw [hpends.outcome] at hdone
      cases hdone
  | queued result output hinflight hqueue hpends =>
      rw [hpends.outcome] at hdone
      cases hdone
  | settled settled hinflight hqueue houtcome hallowed =>
      obtain rfl : settled = outcome := Option.some.inj (houtcome.symm.trans hdone)
      exact ⟨⟨hinflight, hqueue⟩, hallowed⟩

/-- A world in which some futures are new and not done. -/
structure Extends (world next : World) : Prop where
  outcome : ∀ future < world.futures.length, next.futures[future]? = world.futures[future]?
  length : world.futures.length ≤ next.futures.length
  settles : next.settles = world.settles

theorem Extends.pends {world next : World} (hframe : Extends world next) {future : FutureId}
    (hpends : Pends world future) : Pends next future := by
  obtain ⟨waiting, hwaiting, hnone⟩ := hpends
  have hlt := (List.getElem?_eq_some_iff.mp hwaiting).1
  exact ⟨waiting, (hframe.outcome future hlt).trans hwaiting, hnone⟩

theorem submit_due {world : World} (hidle : Idle world) (op : Op) (output : Output)
    (handsOver : Bool) (allowed : Value → Prop)
    (houtput : output = .wholeFile true → handsOver = true)
    (hallowed : ∀ reply data value, fits op (.ok reply) data = true →
      buildValue reply output = some value → allowed value) :
    Due (world.submit op output).2 world.futures.length handsOver allowed ∧
      Extends world (world.submit op output).2 := by
  refine ⟨.inflight op output ?_ hidle.queue ⟨_, List.getElem?_concat_length, rfl⟩ houtput hallowed,
    ⟨?_, ?_, rfl⟩⟩
  · simp [World.submit, hidle.inflight]
  · intro future hfuture
    exact List.getElem?_append_left hfuture
  · simp [World.submit]

theorem readParallel_due {world : World} (hidle : Idle world) (handle : Handle)
    (pos len chunk : ℕ) (allowed : Value → Prop) (hallowed : ∀ value, allowed value) :
    Due (world.readParallel handle pos len chunk).2 world.futures.length false allowed ∧
      Extends world (world.readParallel handle pos len chunk).2 := by
  by_cases hempty : len = 0
  · -- The empty group counts its one chunk at once and queues its completion.
    subst hempty
    have hcount : max ((0 + chunk - 1) / chunk) 1 = 1 := by
      have hzero : (0 + chunk - 1) / chunk = 0 := by
        cases chunk with
        | zero => rfl
        | succ chunk => exact Nat.div_eq_of_lt (by omega)
      rw [hzero]
      rfl
    simp only [World.readParallel, hcount, if_true, World.chunkDone, List.getElem?_concat_length,
      ReadGroup.record_remaining, ReadGroup.record_future, ne_eq, not_true_eq_false, if_false]
    refine ⟨.queued _ _ hidle.inflight (congrArg (· ++ _) hidle.queue)
      ⟨_, List.getElem?_concat_length, rfl⟩
      (fun houtput => by cases houtput) (fun _ value _ _ => hallowed value), ⟨?_, ?_, rfl⟩⟩
    · intro future hfuture
      exact List.getElem?_append_left hfuture
    · simp
  · simp only [World.readParallel, hempty, if_false]
    refine ⟨.chunks world.groups.length _ ?_ ?_ List.getElem?_concat_length rfl ?_ hidle.queue
      ⟨_, List.getElem?_concat_length, rfl⟩ hallowed, ⟨?_, ?_, rfl⟩⟩
    · simp [hidle.inflight]
    · intro entry hmem
      simp only [hidle.inflight, List.nil_append, List.mem_map] at hmem
      obtain ⟨index, -, rfl⟩ := hmem
      exact ⟨_, _, rfl⟩
    · simp [hidle.inflight]
    · intro future hfuture
      exact List.getElem?_append_left hfuture
    · simp

/-- The chunks of a group are reads. -/
theorem readParallel_closes (world : World) (handle : Handle) (pos len chunk : ℕ)
    (other : Handle) :
    (world.readParallel handle pos len chunk).2.submitted.count (.close other) =
      world.submitted.count (.close other) := by
  by_cases hempty : len = 0
  · subst hempty
    simp only [World.readParallel, if_true, World.chunkDone, List.getElem?_concat_length]
    split_ifs <;> rfl
  · simp only [World.readParallel, hempty, if_false, List.count_append, Nat.add_eq_right]
    rw [List.count_eq_zero]
    intro hmem
    simp only [List.mem_reverse, List.mem_map, List.map_map] at hmem
    obtain ⟨index, -, hclose⟩ := hmem
    cases hclose

/-! ## One step of the task -/

namespace Reading

def awaits : Reading → Option FutureId
  | .sizing future | .filling future _ _ | .probing future _ _ | .closing future _ => some future
  | .start | .ended => none

def isClosing : Reading → Bool
  | .closing _ _ => true
  | .start | .sizing _ | .filling _ _ _ | .probing _ _ _ | .ended => false

/-- What the future it waits for may answer. -/
def Allows : Reading → Value → Prop
  | .probing _ _ offset, .bytes data => data = [] ∨ offset + data.length ≤ maxFileSize
  | _, _ => True

/-- A bound on the awaits that are left: each probe but the last has moved the
offset on, and no file goes beyond the largest. -/
def rank : Reading → ℕ
  | .start => maxFileSize + 5
  | .sizing _ => maxFileSize + 4
  | .filling _ _ _ => maxFileSize + 3
  | .probing _ _ offset => maxFileSize - offset + 2
  | .closing _ _ => 1
  | .ended => 0

end Reading

/-- A step that ends at its next await: it has submitted for a new future, and
closed the handle only to wait for that. -/
structure Suspends (handle : Handle) (reading : Reading) (world : World) (step : Step) : Prop where
  signal : step.1 = .waits world.futures.length
  awaits : step.2.1.awaits = some world.futures.length
  due : Due step.2.2 world.futures.length false step.2.1.Allows
  frame : Extends world step.2.2
  closes : step.2.2.submitted.count (.close handle) =
    world.submitted.count (.close handle) + step.2.1.isClosing.toNat
  rank : step.2.1.rank < reading.rank

section Suspends

variable {handle : Handle} {world : World} {reading : Reading}

theorem close_suspends (hidle : Idle world) (ending : Except Exc (List Byte))
    (hrank : 1 < reading.rank) : Suspends handle reading world (close handle ending world) := by
  obtain ⟨hdue, hframe⟩ := submit_due hidle (.close handle) .plain false
    (fun _ => True) (by rintro ⟨⟩) (fun _ _ _ _ _ => trivial)
  exact
    { signal := rfl
      awaits := rfl
      due := hdue
      frame := hframe
      closes := List.count_cons_self
      rank := hrank }

theorem probe_suspends (hidle : Idle world) (parts : List (List Byte)) (offset : ℕ)
    (hrank : maxFileSize - offset + 2 < reading.rank) :
    Suspends handle reading world (probe handle parts offset world) := by
  obtain ⟨hdue, hframe⟩ := submit_due hidle (.readToEnd handle offset) .plain false
    (Reading.probing world.futures.length parts offset).Allows (by rintro ⟨⟩) (by
      intro reply data value hfits hvalue
      cases reply with
      | bytes content =>
          obtain rfl : Value.bytes content = value := Option.some.inj hvalue
          simpa [fits, Reading.Allows] using hfits
      | handle id size fd => cases hfits
      | read n => cases hfits
      | written n fileEnd => cases hfits
      | size size => cases hfits
      | unit => cases hfits)
  exact
    { signal := rfl
      awaits := rfl
      due := hdue
      frame := hframe
      closes := by simp [probe, World.submit, Reading.isClosing]
      rank := hrank }

theorem fill_suspends (hidle : Idle world) (inline : Inline) (sizeNow : ℕ)
    (hrank : maxFileSize + 3 < reading.rank) :
    Suspends handle reading world (fill code handle inline sizeNow world) := by
  cases hmemory : inline.memory with
  | false =>
      simp only [fill, hmemory]
      exact close_suspends hidle _ (by omega)
  | true =>
      obtain ⟨hdue, hframe⟩ := readParallel_due hidle handle 0 (sizeNow - 0) PARALLEL_CHUNK
        (fun _ => True) (fun _ => trivial)
      have hcloses := readParallel_closes world handle 0 (sizeNow - 0) PARALLEL_CHUNK handle
      have hfuture : (world.readParallel handle 0 (sizeNow - 0) PARALLEL_CHUNK).1 =
          world.futures.length := by
        simp only [World.readParallel]
        split_ifs <;> rfl
      simp only [fill, hmemory, if_true, hfuture]
      exact
        { signal := rfl
          awaits := rfl
          due := hdue
          frame := hframe
          closes := hcloses
          rank := hrank }

/-- Every step before that of the close ends at an await. -/
theorem readHandleToEnd_suspends (hidle : Idle world) (inline : Inline) (exc : Option Exc)
    (hstart : reading = .start → exc = none) (hclosing : reading.isClosing = false)
    (hended : reading ≠ .ended)
    (hvalues : ∀ future value, reading.awaits = some future →
      world.outcome future = some (.result value) → reading.Allows value) :
    Suspends handle reading world (readHandleToEnd code handle inline exc reading world) := by
  have hreceived : ∀ future value, received exc future world = .ok value →
      world.outcome future = some (.result value) := by
    intro future value hvalue
    unfold received at hvalue
    split at hvalue
    · cases hvalue
    · split at hvalue
      · next hresult => rw [hresult, Except.ok.inj hvalue]
      · cases hvalue
      · cases hvalue
      · cases hvalue
  cases reading with
  | start =>
      obtain rfl := hstart rfl
      simp only [readHandleToEnd]
      split
      · exact fill_suspends hidle inline _ (by simp [Reading.rank])
      · obtain ⟨hdue, hframe⟩ := submit_due hidle (.size handle) .plain false
          (fun _ => True) (by rintro ⟨⟩) (fun _ _ _ _ _ => trivial)
        exact
          { signal := rfl
            awaits := rfl
            due := hdue
            frame := hframe
            closes := by simp [World.submit, Reading.isClosing]
            rank := by simp [Reading.rank] }
  | sizing future =>
      simp only [readHandleToEnd]
      split
      · exact close_suspends hidle _ (by simp [Reading.rank])
      · exact fill_suspends hidle inline _ (by simp [Reading.rank])
      · exact close_suspends hidle _ (by simp [Reading.rank])
  | filling future sizeNow remaining =>
      simp only [readHandleToEnd]
      split
      · exact close_suspends hidle _ (by simp [Reading.rank])
      · split_ifs
        · exact close_suspends hidle _ (by simp [Reading.rank])
        · exact close_suspends hidle _ (by simp [Reading.rank])
        · refine probe_suspends hidle _ _ ?_
          simp only [Reading.rank]
          omega
      · exact close_suspends hidle _ (by simp [Reading.rank])
  | probing future parts offset =>
      simp only [readHandleToEnd]
      split
      · exact close_suspends hidle _ (by simp [Reading.rank])
      · exact close_suspends hidle _ (by simp [Reading.rank])
      · next byte data hvalue =>
          -- The bytes read lie below the largest file, so the offset moves towards it.
          have hallowed := hvalues future _ rfl (hreceived future _ hvalue)
          refine probe_suspends hidle _ _ ?_
          simp only [Reading.Allows, reduceCtorEq, false_or, List.length_cons] at hallowed
          simp only [Reading.rank, List.length_cons]
          omega
      · exact close_suspends hidle _ (by simp [Reading.rank])
  | closing future ending => cases hclosing
  | ended => exact absurd rfl hended

/-- The step after the close ends the task. -/
theorem readHandleToEnd_closing (inline : Inline) (exc : Option Exc) (future : FutureId)
    (ending : Except Exc (List Byte)) (world : World) :
    ∃ signal, readHandleToEnd code handle inline exc (.closing future ending) world =
      (signal, .ended, world) ∧ ∃ outcome, signal.phase = .done outcome := by
  simp only [readHandleToEnd]
  split
  · exact ⟨_, rfl, _, rfl⟩
  · cases ending with
    | ok data => exact ⟨_, rfl, _, rfl⟩
    | error exc => exact ⟨_, rfl, _, rfl⟩

end Suspends

theorem pends_settle {world : World} {future : FutureId} (hfuture : 0 < future)
    (outcome : Asyncio.Outcome Value) (hpends : Pends world 0) :
    Pends (world.settle future outcome) 0 := by
  obtain ⟨waiting, hwaiting, hnone⟩ := hpends
  exact ⟨waiting, by simp [World.settle, hfuture.ne', hwaiting], hnone⟩

/-- The mark of `pending.continuation = task`. -/
def mark (world : World) : World :=
  { world with futures := world.futures.modify 0 fun pending =>
      { pending with continuation := true } }

theorem mark_pends {world : World} {future : FutureId} (hpends : Pends world future) :
    Pends (mark world) future := by
  obtain ⟨waiting, hwaiting, hnone⟩ := hpends
  by_cases hzero : 0 = future
  · exact ⟨{ waiting with continuation := true }, by simp [mark, ← hzero, hzero ▸ hwaiting], hnone⟩
  · exact ⟨waiting, by simp [mark, hzero, hwaiting], hnone⟩

theorem mark_outcome (world : World) (future : FutureId) :
    (mark world).outcome future = world.outcome future := by
  by_cases hzero : 0 = future
  · subst hzero
    cases hwaiting : world.futures[0]? <;> simp [mark, World.outcome, hwaiting]
  · simp [mark, World.outcome, hzero]

theorem mark_due {world : World} {future : FutureId} {handsOver : Bool} {allowed : Value → Prop}
    (hdue : Due world future handsOver allowed) :
    Due (mark world) future handsOver allowed := by
  cases hdue with
  | inflight op output hinflight hqueue hpends houtput hallowed =>
      exact .inflight op output hinflight hqueue (mark_pends hpends) houtput hallowed
  | chunks group state hinflight hchunks hgroup hfuture hremaining hqueue hpends hallowed =>
      exact .chunks group state hinflight hchunks hgroup hfuture hremaining hqueue
        (mark_pends hpends) hallowed
  | queued result output hinflight hqueue hpends houtput hallowed =>
      exact .queued result output hinflight hqueue (mark_pends hpends) houtput hallowed
  | settled outcome hinflight hqueue houtcome hallowed =>
      exact .settled outcome hinflight hqueue ((mark_outcome world future).trans houtcome) hallowed

/-! ## The run -/

namespace State

/-- What the calls that settle the future of `read_bytes` gave it. -/
def calls (state : State) : List (Asyncio.Outcome Value) :=
  (state.world.settles.filter fun call => call.1 == 0).map Prod.snd

def closes (state : State) (handle : Handle) : ℕ :=
  state.world.submitted.count (.close handle)

/-- The three shapes of a run: before the hand-off, while the task waits, and
once it is done. -/
inductive Shape (state : State) : Prop
  | asked (hcontinuation : state.continuation = none)
      (hdue : Due state.world 0 true fun _ => True)
      (hcloses : ∀ handle, state.closes handle = 0)
      (hcalls : state.calls = state.pending.toList)
  | reading (continuation : Continuation) (future : FutureId)
      (hcontinuation : state.continuation = some continuation)
      (hsettled : continuation.settled = false)
      (hphase : continuation.task.phase = .waiting future)
      (hawaits : continuation.task.coro.awaits = some future)
      (hfuture : 0 < future)
      (hdue : Due state.world future false continuation.task.coro.Allows)
      (hpends : Pends state.world 0)
      (hcloses : state.closes continuation.handle = continuation.task.coro.isClosing.toNat)
      (hcalls : state.calls = [])
  | ended (continuation : Continuation) (outcome : Asyncio.Outcome Value)
      (hcontinuation : state.continuation = some continuation)
      (hphase : continuation.task.phase = .done outcome)
      (hcoro : continuation.task.coro = .ended)
      (hidle : Idle state.world)
      (hcloses : state.closes continuation.handle = 1)
      (hpending : if continuation.settled
        then state.pending = some outcome ∧ state.calls = [outcome]
        else Pends state.world 0 ∧ state.calls = [])

/-- The awaits that are left, then the callbacks, then the completions. -/
def rank (state : State) : ℕ ×ₗ ℕ ×ₗ ℕ :=
  let stage :=
    match state.continuation with
    | none => maxFileSize + 6
    | some continuation => continuation.task.coro.rank + (!continuation.settled).toNat
  toLex (stage, toLex (state.world.inflight.length, state.world.queue.length))

theorem cancelFuture_eq (future : FutureId) (world : World) :
    World.cancelFuture future world = (false, world) := by
  unfold World.cancelFuture
  cases world.futures[future]? with
  | none => rfl
  | some future =>
      simp only [Futures.KernelFuture.cancel]
      split_ifs <;> rfl

/-- A request to cancel leaves a mark on the task at most. -/
theorem cancel_eq (state : State) :
    state.cancel = state ∨ ∃ continuation, state.continuation = some continuation ∧
      state.cancel = { state with
        continuation := some { continuation with
          task := { continuation.task with mustCancel := true } } } := by
  unfold cancel
  split
  · exact .inl rfl
  · split
    · next continuation _ hcontinuation =>
        cases hphase : continuation.task.phase with
        | done outcome =>
            left
            simp [Task.cancel, hphase, ← hcontinuation]
        | created => exact .inr ⟨continuation, hcontinuation, by simp [Task.cancel, hphase]⟩
        | waiting future =>
            exact .inr ⟨continuation, hcontinuation,
              by simp [Task.cancel, hphase, cancelFuture_eq]⟩
    · exact .inl rfl

theorem Shape.cancel {state : State} (hshape : Shape state) :
    Shape state.cancel ∧ state.cancel.rank = state.rank := by
  obtain hsame | ⟨continuation, hcontinuation, hmarked⟩ := state.cancel_eq
  · rw [hsame]
    exact ⟨hshape, rfl⟩
  · rw [hmarked]
    refine ⟨?_, by simp [rank, hcontinuation]⟩
    cases hshape with
    | asked hnone => rw [hnone] at hcontinuation; cases hcontinuation
    | reading same future hsame hsettled hphase hawaits hfuture hdue hpends hcloses hcalls =>
        obtain rfl := Option.some.inj (hsame.symm.trans hcontinuation)
        exact .reading _ future rfl hsettled hphase hawaits hfuture hdue hpends hcloses hcalls
    | ended same outcome hsame hphase hcoro hidle hcloses hpending =>
        obtain rfl := Option.some.inj (hsame.symm.trans hcontinuation)
        exact .ended _ outcome rfl hphase hcoro hidle hcloses hpending

theorem Shape.callback {state : State} (hshape : Shape state) {index : ℕ}
    {result : Core.Outcome} {data : List Byte} {world : World}
    (hfits : ∀ entry, state.world.inflight[index]? = some entry →
      fits entry.op result data = true)
    (hcallback : state.world.callback index result data = some world) :
    Shape { state with world := world } ∧
      ({ state with world := world } : State).rank < state.rank := by
  constructor
  · cases hshape with
    | asked hnone hdue hcloses hcalls =>
        obtain ⟨hdue, hsame⟩ := hdue.callback hfits hcallback
        refine .asked hnone hdue ?_ ?_
        · intro handle
          simpa only [closes, hsame.submitted] using hcloses handle
        · simpa only [calls, pending, hsame.settles, hsame.outcome] using hcalls
    | reading continuation future hcontinuation hsettled hphase hawaits hfuture hdue hpends
        hcloses hcalls =>
        obtain ⟨hdue, hsame⟩ := hdue.callback hfits hcallback
        refine .reading continuation future hcontinuation hsettled hphase hawaits hfuture hdue
          (hsame.pends hpends) ?_ ?_
        · simpa only [closes, hsame.submitted] using hcloses
        · simpa only [calls, hsame.settles] using hcalls
    | ended continuation outcome hcontinuation hphase hcoro hidle =>
        simp [World.callback, hidle.inflight] at hcallback
  · have hshort := callback_inflight hcallback
    simp [rank, Prod.Lex.toLex_lt_toLex, hshort]

theorem calls_settle (state : State) {future : FutureId} (hfuture : 0 < future)
    (outcome : Asyncio.Outcome Value) :
    ({ state with world := state.world.settle future outcome } : State).calls = state.calls := by
  have hne : (future == 0) = false := by simpa using hfuture.ne'
  simp [calls, World.settle, hne]

/-- The state of a task that has come to its next await. -/
theorem Shape.of_suspends {handle : Handle} {reading : Reading} {world : World} {step : Step}
    (hsuspends : Suspends handle reading world step) (hpends : Pends world 0)
    (hcloses : world.submitted.count (.close handle) = 0)
    (hcalls : ({ world := world } : State).calls = []) :
    Shape { world := step.2.2
            continuation := some
              { handle := handle
                task := { coro := step.2.1, mustCancel := false, phase := step.1.phase } } } := by
  have hlength : 0 < world.futures.length := by
    obtain ⟨waiting, hwaiting, -⟩ := hpends
    exact (List.getElem?_eq_some_iff.mp hwaiting).1
  refine .reading _ world.futures.length rfl rfl ?_ hsuspends.awaits hlength hsuspends.due
    (hsuspends.frame.pends hpends) ?_ ?_
  · rw [hsuspends.signal]
    rfl
  · simpa only [closes, hcloses, Nat.zero_add] using hsuspends.closes
  · simpa only [calls, hsuspends.frame.settles] using hcalls

theorem Shape.marked {state : State} (hshape : Shape state) (hsome : state.continuation ≠ none) :
    Shape { state with world := mark state.world } := by
  cases hshape with
  | asked hnone => exact absurd hnone hsome
  | reading continuation future hcontinuation hsettled hphase hawaits hfuture hdue hpends hcloses
      hcalls =>
      exact .reading continuation future hcontinuation hsettled hphase hawaits hfuture
        (mark_due hdue) (mark_pends hpends) hcloses hcalls
  | ended continuation outcome hcontinuation hphase hcoro hidle hcloses hpending =>
      refine .ended continuation outcome hcontinuation hphase hcoro
        ⟨hidle.inflight, hidle.queue⟩ hcloses ?_
      cases hsettled : continuation.settled with
      | true =>
          rw [hsettled] at hpending
          exact ⟨(mark_outcome _ 0).trans hpending.1, hpending.2⟩
      | false =>
          rw [hsettled] at hpending
          exact ⟨mark_pends hpending.1, hpending.2⟩

theorem Shape.handOff (code : Raised → ℕ) {world : World} (hidle : Idle world)
    (hpends : Pends world 0)
    (inline : Inline) (handle : Handle)
    (hcloses : world.submitted.count (.close handle) = 0)
    (hcalls : ({ world := world } : State).calls = []) :
    Shape (finishLargeRead code inline handle world) ∧
      ∀ queue inflight, (finishLargeRead code inline handle world).rank <
        toLex (maxFileSize + 6, toLex (inflight, queue)) := by
  have hsuspends : Suspends handle .start world
      (readHandleToEnd code handle inline none .start world) :=
    readHandleToEnd_suspends hidle inline none (fun _ => rfl) rfl (by rintro ⟨⟩)
      (fun _ _ hawaits => by cases hawaits)
  constructor
  · exact (Shape.of_suspends hsuspends hpends hcloses hcalls).marked (by rintro ⟨⟩)
  · intro queue inflight
    have hrank : _ < maxFileSize + 5 := hsuspends.rank
    refine Prod.Lex.toLex_lt_toLex.mpr (.inl ?_)
    change (readHandleToEnd code handle inline none .start world).2.1.rank + 1 < maxFileSize + 6
    omega

theorem Shape.deliver {state next : State} (hshape : Shape state) {inline : Inline}
    (hdeliver : state.deliver code inline = some next) :
    Shape next ∧ next.rank < state.rank := by
  unfold State.deliver at hdeliver
  split at hdeliver
  · cases hdeliver
  next completion rest hqueue =>
    cases hshape with
    | asked hnone hdue hcloses hcalls =>
        obtain ⟨hinflight, rfl, hfuture, hpends, hcase⟩ := hdue.deliver code hqueue
        have hnil : state.calls = [] := by simpa [pending, hpends.outcome] using hcalls
        obtain ⟨outcome, hsettle, hdue⟩ | ⟨-, handle, fd, hhand⟩ := hcase
        · rw [hsettle] at hdeliver
          obtain rfl := Option.some.inj hdeliver
          have hpends' : Pends { state.world with queue := [] } 0 := hpends
          refine ⟨.asked hnone hdue hcloses ?_, ?_⟩
          · rw [pending, hpends'.outcome_settle]
            simpa [calls, World.settle] using hnil
          · simp [rank, Prod.Lex.toLex_lt_toLex, World.settle, hqueue]
        · rw [hhand] at hdeliver
          obtain rfl := Option.some.inj hdeliver
          obtain ⟨hshape, hrank⟩ := Shape.handOff code
            (show Idle { state.world with queue := [] } from ⟨hinflight, rfl⟩) hpends inline handle
            (hcloses handle) hnil
          refine ⟨hshape, ?_⟩
          have hstage : state.rank = toLex (maxFileSize + 6,
              toLex (state.world.inflight.length, state.world.queue.length)) := by
            simp only [rank, hnone]
          rw [hstage]
          exact hrank _ _
    | reading continuation future hcontinuation hsettled hphase hawaits hfuture hdue hpends
        hcloses hcalls =>
        obtain ⟨hinflight, rfl, -, -, hcase⟩ := hdue.deliver code hqueue
        obtain ⟨outcome, hsettle, hdue⟩ | ⟨hhand, -⟩ := hcase
        · rw [hsettle] at hdeliver
          obtain rfl := Option.some.inj hdeliver
          refine ⟨.reading continuation future hcontinuation hsettled hphase hawaits hfuture hdue
            (pends_settle hfuture outcome hpends) hcloses ?_, ?_⟩
          · exact (calls_settle _ hfuture outcome).trans hcalls
          · simp [rank, Prod.Lex.toLex_lt_toLex, World.settle, hqueue]
        · cases hhand
    | ended continuation outcome hcontinuation hphase hcoro hidle =>
        rw [hidle.queue] at hqueue
        cases hqueue

/-- A task that runs was woken by its future. -/
theorem turn_cases {state next : State} {inline : Inline} {continuation : Continuation}
    {future : FutureId} (hcontinuation : state.continuation = some continuation)
    (hphase : continuation.task.phase = .waiting future)
    (hturn : state.turn code inline = some next) :
    ∃ outcome exc, state.world.outcome future = some outcome ∧
      next =
        { world := (readHandleToEnd code continuation.handle inline exc continuation.task.coro
            state.world).2.2
          continuation := some { continuation with
            task :=
              { coro := (readHandleToEnd code continuation.handle inline exc
                  continuation.task.coro state.world).2.1
                mustCancel := false
                phase := (readHandleToEnd code continuation.handle inline exc
                  continuation.task.coro state.world).1.phase } } } := by
  simp only [State.turn, hcontinuation, Option.bind_some, Task.run, hphase, Option.map_map,
    Option.map_eq_some_iff] at hturn
  obtain ⟨outcome, houtcome, rfl⟩ := hturn
  exact ⟨outcome, _, houtcome, rfl⟩

theorem Shape.turn {state next : State} (hshape : Shape state) {inline : Inline}
    (hturn : state.turn code inline = some next) : Shape next ∧ next.rank < state.rank := by
  cases hshape with
  | asked hnone => simp [State.turn, hnone] at hturn
  | ended continuation outcome hcontinuation hphase =>
      simp [State.turn, hcontinuation, Task.run, hphase] at hturn
  | reading continuation future hcontinuation hsettled hphase hawaits hfuture hdue hpends hcloses
      hcalls =>
      obtain ⟨outcome, exc, houtcome, rfl⟩ := turn_cases hcontinuation hphase hturn
      obtain ⟨hidle, hallowed⟩ := hdue.idle_of_done houtcome
      obtain ⟨handle, ⟨coro, mustCancel, phase⟩, settled⟩ := continuation
      simp only at hsettled hawaits hallowed hcloses
      subst hsettled
      have hstage : state.rank = toLex (coro.rank + 1,
          toLex (state.world.inflight.length, state.world.queue.length)) := by
        simp [rank, hcontinuation]
      rw [hstage]
      cases hclosing : coro.isClosing with
      | true =>
          cases coro with
          | closing awaited ending =>
              obtain ⟨signal, hstep, ended, hended⟩ :=
                @readHandleToEnd_closing code handle inline exc awaited ending state.world
              simp only [hstep]
              refine ⟨.ended _ ended rfl hended rfl hidle hcloses ⟨hpends, hcalls⟩, ?_⟩
              exact Prod.Lex.toLex_lt_toLex.mpr (.inl (by simp [Reading.rank]))
          | start => cases hclosing
          | sizing awaited => cases hclosing
          | filling awaited sizeNow remaining => cases hclosing
          | probing awaited parts offset => cases hclosing
          | ended => cases hclosing
      | false =>
          have hsuspends := @readHandleToEnd_suspends code handle state.world coro hidle inline
            exc (by rintro rfl; cases hawaits) hclosing (by rintro rfl; cases hawaits) (by
              intro awaited value hsame hvalue
              obtain rfl := Option.some.inj (hsame.symm.trans hawaits)
              rw [houtcome] at hvalue
              exact hallowed value (Option.some.inj hvalue))
          rw [hclosing] at hcloses
          refine ⟨Shape.of_suspends hsuspends hpends hcloses hcalls, ?_⟩
          have hrank := hsuspends.rank
          exact Prod.Lex.toLex_lt_toLex.mpr (.inl (by simpa using hrank))

theorem Shape.settleFrom {state next : State} (hshape : Shape state)
    (hsettle : state.settleFrom = some next) : Shape next ∧ next.rank < state.rank := by
  cases hshape with
  | asked hnone => simp [State.settleFrom, hnone] at hsettle
  | reading continuation future hcontinuation hsettled hphase =>
      simp [State.settleFrom, hcontinuation, hphase] at hsettle
  | ended continuation outcome hcontinuation hphase hcoro hidle hcloses hpending =>
      obtain ⟨handle, task, settled⟩ := continuation
      cases settled with
      | true => simp [State.settleFrom, hcontinuation] at hsettle
      | false =>
          simp only at hphase
          simp only [State.settleFrom, hcontinuation, hphase, Option.some.injEq] at hsettle
          subst hsettle
          obtain ⟨hpends, hcalls⟩ := hpending
          refine ⟨.ended _ outcome rfl hphase hcoro ⟨hidle.inflight, hidle.queue⟩ hcloses
            ⟨hpends.outcome_settle outcome, ?_⟩, ?_⟩
          · simpa [calls, World.settle] using hcalls
          · simp [rank, hcontinuation, Prod.Lex.toLex_lt_toLex]

theorem Shape.init {state : State} (hinit : (system code).init state) : Shape state := by
  obtain ⟨path, inlined, rfl⟩ := hinit
  cases inlined with
  | some data =>
      exact .asked rfl (.settled (.result (.bytes data)) rfl rfl rfl (fun _ _ => trivial))
        (fun _ => rfl) rfl
  | none =>
      exact .asked rfl (.inflight (.readFile path LARGE_READ) (.wholeFile true) rfl rfl
        ⟨_, rfl, rfl⟩ (fun _ => rfl) (fun _ _ _ _ _ => trivial)) (fun _ => rfl) rfl

/-- Every step keeps the shape of the run; all but the cancels lower its rank. -/
theorem Shape.step {state next : State} (hshape : Shape state) {move : Move}
    (hstep : State.step code state move = some next) :
    Shape next ∧ (move.progress → next.rank < state.rank) ∧
      (¬ move.progress → next.rank ≤ state.rank) := by
  cases move with
  | cancel =>
      obtain rfl := Option.some.inj hstep
      exact ⟨hshape.cancel.1, fun hprogress => hprogress.elim, fun _ => hshape.cancel.2.le⟩
  | callback index result data =>
      simp only [State.step] at hstep
      split_ifs at hstep with hfits
      obtain ⟨world, hcallback, rfl⟩ := Option.map_eq_some_iff.mp hstep
      have hfits' : ∀ entry, state.world.inflight[index]? = some entry →
          fits entry.op result data = true := by
        intro entry hentry
        simpa [hentry] using hfits
      obtain ⟨hnext, hrank⟩ := hshape.callback hfits' hcallback
      exact ⟨hnext, fun _ => hrank, fun hnot => (hnot trivial).elim⟩
  | deliver inline =>
      obtain ⟨hnext, hrank⟩ := hshape.deliver hstep
      exact ⟨hnext, fun _ => hrank, fun hnot => (hnot trivial).elim⟩
  | turn inline =>
      obtain ⟨hnext, hrank⟩ := hshape.turn hstep
      exact ⟨hnext, fun _ => hrank, fun hnot => (hnot trivial).elim⟩
  | settleFrom =>
      obtain ⟨hnext, hrank⟩ := hshape.settleFrom hstep
      exact ⟨hnext, fun _ => hrank, fun hnot => (hnot trivial).elim⟩

theorem Shape.of_reachable {state : State} (hreach : (system code).Reachable state) :
    Shape state := by
  refine hreach.invariant ?_ ?_
  · exact fun _ hinit => Shape.init hinit
  · intro _ _ _ _ hshape hstep
    exact (hshape.step hstep).1

/-- What is due can settle. -/
theorem live_of_due {state : State} {future : FutureId} {handsOver : Bool} {allowed : Value → Prop}
    (hdue : Due state.world future handsOver allowed)
    (hpending : state.world.outcome future = none) :
    ∃ move, Move.progress move ∧ (State.step code state move).isSome = true := by
  have hcallback : ∀ entry, state.world.inflight[0]? = some entry →
      ∃ move, Move.progress move ∧ (State.step code state move).isSome = true := by
    intro entry hentry
    refine ⟨.callback 0 (.error badHandle) [], trivial, ?_⟩
    simp [State.step, hentry, fits, World.callback]
  cases hdue with
  | inflight op output hinflight => exact hcallback _ (by rw [hinflight]; rfl)
  | chunks group chunk hinflight =>
      obtain ⟨entry, rest, hcons⟩ := List.exists_cons_of_ne_nil hinflight
      exact hcallback entry (by rw [hcons]; rfl)
  | queued result output hinflight hqueue =>
      refine ⟨.deliver ⟨none, true⟩, trivial, ?_⟩
      simp only [State.step, State.deliver, hqueue]
      split <;> rfl
  | settled outcome hinflight hqueue houtcome =>
      rw [houtcome] at hpending
      cases hpending

/-- While its future is not done, the read can go on. -/
theorem Shape.live {state : State} (hshape : Shape state) (hpending : state.pending = none) :
    ∃ move, Move.progress move ∧ (State.step code state move).isSome = true := by
  cases hshape with
  | asked hcontinuation hdue => exact live_of_due hdue hpending
  | reading continuation future hcontinuation hsettled hphase hawaits hfuture hdue =>
      cases houtcome : state.world.outcome future with
      | none => exact live_of_due hdue houtcome
      | some outcome =>
          refine ⟨.turn ⟨none, true⟩, trivial, ?_⟩
          simp [State.step, State.turn, hcontinuation, Task.run, hphase, houtcome]
  | ended continuation outcome hcontinuation hphase hcoro hidle hcloses hends =>
      refine ⟨.settleFrom, trivial, ?_⟩
      cases hsettled : continuation.settled with
      | true =>
          rw [hsettled] at hends
          rw [hends.1] at hpending
          cases hpending
      | false => simp [State.step, State.settleFrom, hcontinuation, hsettled, hphase]

/-- How a read stands: the calls that settled its future, the task that decided
its outcome, and the closes of the handle it was given. -/
structure HandedOver (state : State) : Prop where
  once : state.calls = state.pending.toList
  follows : ∀ continuation ∈ state.continuation, ∀ outcome ∈ state.pending,
    continuation.task.phase = .done outcome
  closes : ∀ continuation ∈ state.continuation, state.closes continuation.handle ≤ 1
  closed : ∀ continuation ∈ state.continuation, state.pending.isSome = true →
    state.closes continuation.handle = 1

theorem Shape.handedOver {state : State} (hshape : Shape state) : HandedOver state := by
  cases hshape with
  | asked hnone hdue hcloses hcalls =>
      exact
        { once := hcalls
          follows := fun continuation hmem => by rw [hnone] at hmem; cases hmem
          closes := fun continuation hmem => by rw [hnone] at hmem; cases hmem
          closed := fun continuation hmem => by rw [hnone] at hmem; cases hmem }
  | reading continuation future hcontinuation hsettled hphase hawaits hfuture hdue hpends hcloses
      hcalls =>
      have hpending : state.pending = none := hpends.outcome
      refine ⟨?_, ?_, ?_, ?_⟩
      · rw [hcalls, hpending]
        rfl
      · intro _ _ outcome hmem
        rw [hpending] at hmem
        cases hmem
      · intro same hsame
        obtain rfl := Option.some.inj (hcontinuation.symm.trans hsame)
        rw [hcloses]
        exact Bool.toNat_le _
      · intro _ _ hsome
        rw [hpending] at hsome
        cases hsome
  | ended continuation outcome hcontinuation hphase hcoro hidle hcloses hends =>
      have hpending : state.calls = state.pending.toList ∧
          ∀ other ∈ state.pending, other = outcome := by
        split_ifs at hends with hsettled
        · rw [hends.1, hends.2]
          exact ⟨rfl, fun other hmem => (Option.some.inj hmem).symm⟩
        · have hnone : state.pending = none := hends.1.outcome
          rw [hnone, hends.2]
          exact ⟨rfl, fun other hmem => by cases hmem⟩
      refine ⟨hpending.1, ?_, ?_, ?_⟩
      · intro same hsame other hmem
        obtain rfl := Option.some.inj (hcontinuation.symm.trans hsame)
        rw [hpending.2 other hmem]
        exact hphase
      · intro same hsame
        obtain rfl := Option.some.inj (hcontinuation.symm.trans hsame)
        exact hcloses.le
      · intro same hsame _
        obtain rfl := Option.some.inj (hcontinuation.symm.trans hsame)
        exact hcloses

end State

/-! ## The hand-off -/

/-- **A large read settles once and closes its handle.**  In every state of
every run the future was settled by one call if it is done and by none
otherwise; after a hand-off its outcome is that of the task, and the handle has
then had exactly one close submitted, never two.  Every run in which a callback,
a delivery or a turn of the loop is made again whenever one can be made brings
the future to its end, whatever is cancelled on the way. -/
theorem large_read_settles {state : State} (hreach : (system code).Reachable state) :
    state.HandedOver ∧
      ∀ run : System.Run (system code), run.state 0 = state → run.Fair Move.progress →
        ∃ time, (run.state time).pending.isSome = true := by
  refine ⟨(State.Shape.of_reachable hreach).handedOver, ?_⟩
  rintro run rfl hfair
  refine @System.Run.eventually _ _ _ _ _ _ run _ (fun state => state.pending.isSome = true)
    State.rank hreach hfair ?_ ?_ ?_
  · intro state hreach hpending
    have hshape := State.Shape.of_reachable hreach
    obtain ⟨move, hprogress, hsome⟩ := hshape.live (by simpa using hpending)
    obtain ⟨next, hnext⟩ := Option.isSome_iff_exists.mp hsome
    exact ⟨move, next, hprogress, hnext⟩
  · intro state move next hreach _ hprogress hstep
    exact ((State.Shape.of_reachable hreach).step hstep).2.1 hprogress
  · intro state move next hreach _ hprogress hstep
    exact ((State.Shape.of_reachable hreach).step hstep).2.2 hprogress

section CancelledForever

/-- A file that is truncated after it was opened; the read is cancelled while it
asks for the size. -/
def cancelledRun : List Move :=
  [.callback 0 (.ok (.handle 5 2000000 9)) [], .deliver ⟨none, true⟩, .cancel,
    .callback 0 (.ok (.size 0)) [], .deliver ⟨none, true⟩, .turn ⟨none, true⟩, .cancel,
    .callback 0 (.ok .unit) [], .deliver ⟨none, true⟩, .turn ⟨none, true⟩, .settleFrom]

/-- The run that takes these moves and then goes on with requests to cancel. -/
def cancelledForever : System.Run (system fun _ => 0) where
  state time := ((system fun _ => 0).exec { world := readBytes [] none }
    (cancelledRun.take time)).getD { world := readBytes [] none }
  label time := cancelledRun.getD time .cancel
  taken time := by
    by_cases hearly : time < 11
    · interval_cases time <;> rfl
    · have hlate : cancelledRun.length ≤ time := not_lt.mp hearly
      rw [List.take_of_length_le hlate, List.take_of_length_le (Nat.le_succ_of_le hlate),
        List.getD_eq_default _ _ hlate]
      rfl

theorem large_read_settles_cancelled :
    cancelledForever.state 0 = { world := readBytes [] none } ∧
      (cancelledForever.state 0).HandedOver ∧
      cancelledForever.Fair Move.progress ∧
      (∃ time, (cancelledForever.state time).pending.isSome = true) ∧
      (cancelledForever.state 11).pending = some .cancelled ∧
      (cancelledForever.state 11).closes 5 = 1 := by
  have hstart : (system fun _ => 0).Reachable (cancelledForever.state 0) :=
    .ofInit ⟨[], none, rfl⟩
  have hfair : cancelledForever.Fair Move.progress := by
    rintro time ⟨move, next, hprogress, hstep⟩
    by_cases hearly : time < 11
    · exact ⟨10, by omega, trivial⟩
    · have hlate : cancelledRun.length ≤ time := not_lt.mp hearly
      have hlast : cancelledForever.state time = cancelledForever.state 11 := by
        simp only [cancelledForever, List.take_of_length_le hlate]
        rfl
      rw [hlast] at hstep
      cases move with
      | cancel => cases hprogress
      | callback index result data => cases hstep
      | deliver inline => cases hstep
      | turn inline => cases hstep
      | settleFrom => cases hstep
  have hsettles := large_read_settles hstart
  exact ⟨rfl, hsettles.1, hfair, hsettles.2 cancelledForever rfl hfair, rfl, rfl⟩

end CancelledForever

end Turbofile.LargeRead
