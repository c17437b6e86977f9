import Turbofile.Bridge.Completion
import Turbofile.Library.System
import Turbofile.Library.Tiling

/-!
# One buffer filled by many reads

`read_parallel` makes a group for its bytes object and submits one read for each
chunk of it.  The driver thread runs the callbacks in any order, also while the
loop thread is still submitting; the last one pushes the completion.  Between
two calls the bridge serves other ops and drains its queue.
-/

namespace Turbofile.ParallelFill

open Turbofile.Core
open Turbofile.Asyncio
open Turbofile.Bridge
open Turbofile.Tiling

/-- The arguments of one `read_parallel`. -/
structure Call where
  handle : Handle
  pos : ℕ
  len : ℕ
  chunk : ℕ
  deriving DecidableEq

namespace Call

variable (call : Call)

/-- What `remaining` starts from. -/
def chunkCount : ℕ := max ((call.len + call.chunk - 1) / call.chunk) 1

def ops (group : GroupId) : List Inflight :=
  if call.len = 0 then []
  else
    (List.range call.chunkCount).map fun index =>
      World.chunkOp call.handle group call.pos call.len call.chunk (index * call.chunk)

/-- What has to be answered; an empty read has one piece, which `read_parallel`
answers itself. -/
def pieces : List Piece :=
  if call.len = 0 then [⟨0, 0⟩] else cut call.len call.chunk

def fresh (future : FutureId) : ReadGroup :=
  ⟨future, call.chunkCount, List.replicate call.len 0, call.len, none⟩

/-- `read_parallel` up to its first `submit`. -/
def enter (world : World) : World :=
  let made : World :=
    { world with
      groups := world.groups ++ [call.fresh world.futures.length] }
  if call.len = 0 then
    let empty : World := { made with futures := world.futures ++ [{ opIds := [] }] }
    empty.chunkDone world.groups.length 0 0 (.ok (.read 0)) []
  else
    { made with
      nextId := world.nextId + call.chunkCount
      futures := world.futures ++
        [{ opIds := (List.range call.chunkCount).map (world.nextId + ·) }] }

end Call

/-- One `submit` of its loop. -/
def post (world : World) (entry : Inflight) : World :=
  { world with
    submitted := entry.op :: world.submitted
    inflight := world.inflight ++ [entry] }

theorem foldl_post (entries : List Inflight) (world : World) :
    entries.foldl post world =
      { world with
        submitted := (entries.map Inflight.op).reverse ++ world.submitted
        inflight := world.inflight ++ entries } := by
  induction entries generalizing world with
  | nil => simp
  | cons entry rest ih =>
      rw [List.foldl_cons, ih]
      simp [post]

/-- Without callbacks in between, the parts make up `read_parallel`. -/
theorem readParallel_eq (call : Call) (world : World) :
    world.readParallel call.handle call.pos call.len call.chunk =
      (world.futures.length,
        (call.ops world.groups.length).foldl post (call.enter world)) := by
  rw [foldl_post]
  by_cases hlen : call.len = 0
  · simp [World.readParallel, Call.enter, Call.ops, Call.fresh, Call.chunkCount, hlen]
  · simp [World.readParallel, Call.enter, Call.ops, Call.fresh, Call.chunkCount, hlen]

/-! ## Runs -/

/-- The callback of one chunk. -/
structure Arrival where
  piece : Piece
  result : Core.Outcome
  data : List Byte

/-- `unsubmitted` is what the loop of the current call has left to do.  The last
four fields record the run. -/
structure State where
  world : World := {}
  unsubmitted : List Inflight := []
  calls : List Call := []
  posted : List Inflight := []
  arrivals : List (GroupId × Arrival) := []
  pushed : List (GroupId × Completion) := []

inductive Move
  | submit (op : Op) (output : Output)
  | enter (call : Call)
  | post
  | callback (index : ℕ) (result : Core.Outcome) (data : List Byte)
  | deliver

/-- A chunk is read in full, short by any amount, or not at all. -/
def answers (entry : Inflight) (result : Core.Outcome) (data : List Byte) : Bool :=
  match entry.onDone, result with
  | .chunkDone _ _ len, .ok (.read n) => n == data.length && n ≤ len
  | _, _ => true

namespace State

variable (code : Raised → ℕ) (state : State)

def enter (call : Call) : Option State :=
  if state.unsubmitted = [] ∧ 0 < call.chunk then
    let group := state.world.groups.length
    let world := call.enter state.world
    some
      { state with
        world := world
        unsubmitted := call.ops group
        calls := state.calls ++ [call]
        arrivals := state.arrivals ++
          if call.len = 0 then [(group, ⟨⟨0, 0⟩, .ok (.read 0), []⟩)] else []
        pushed := state.pushed ++
          (world.queue.drop state.world.queue.length).map (group, ·) }
  else none

def post : Option State :=
  match state.unsubmitted with
  | [] => none
  | entry :: rest =>
      some
        { state with
          world := ParallelFill.post state.world entry
          unsubmitted := rest
          posted := state.posted ++ [entry] }

def callback (index : ℕ) (result : Core.Outcome) (data : List Byte) : Option State :=
  (state.world.inflight[index]?).bind fun entry =>
    if answers entry result data then
      (state.world.callback index result data).map fun world =>
        match entry.onDone with
        | .complete _ _ => { state with world := world }
        | .chunkDone group start len =>
            { state with
              world := world
              arrivals := state.arrivals ++ [(group, ⟨⟨start, len⟩, result, data⟩)]
              pushed := state.pushed ++
                (world.queue.drop state.world.queue.length).map (group, ·) }
    else none

def deliver : Option State :=
  match state.unsubmitted, state.world.queue with
  | [], completion :: rest =>
      some
        { state with
          world := (({ state.world with queue := rest } : World).deliver code completion).1 }
  | _, _ => none

/-- A cancel is seen in how the callbacks answer. -/
def step (state : State) : Move → Option State
  | .submit op output =>
      if state.unsubmitted = [] then
        some { state with world := (state.world.submit op output).2 }
      else none
  | .enter call => state.enter call
  | .post => state.post
  | .callback index result data => state.callback index result data
  | .deliver => state.deliver code

end State

def system (code : Raised → ℕ) : System State Move where
  init state := state = {}
  step := State.step code

/-! ## One group of a state -/

def ofGroup (group : GroupId) (entry : Inflight) : Bool :=
  match entry.onDone with
  | .chunkDone owner _ _ => owner = group
  | .complete _ _ => false

/-- What the state holds and the run has seen of one group. -/
structure View where
  group : Option ReadGroup
  posted : List Inflight
  unsubmitted : List Inflight
  inflight : List Inflight
  arrived : List Arrival
  completions : List Completion

def State.view (state : State) (group : GroupId) : View where
  group := state.world.groups[group]?
  posted := state.posted.filter (ofGroup group)
  unsubmitted := state.unsubmitted.filter (ofGroup group)
  inflight := state.world.inflight.filter (ofGroup group)
  arrived := (state.arrivals.filter (·.1 = group)).map Prod.snd
  completions := (state.pushed.filter (·.1 = group)).map Prod.snd

def untouched : View := ⟨none, [], [], [], [], []⟩

/-- What a chunk's callback makes of its group, and what it pushes. -/
def count (group : ReadGroup) (arrival : Arrival) : ReadGroup × List Completion :=
  let state := group.record arrival.piece.start arrival.piece.len arrival.result arrival.data
  ({ state with remaining := state.remaining - 1 },
    if state.remaining = 1 then [⟨state.future, state.result, .fillBytes state.bytes⟩] else [])

theorem chunkDone_of_group {world : World} {group : GroupId} {state : ReadGroup}
    (hgroup : world.groups[group]? = some state) (arrival : Arrival) :
    world.chunkDone group arrival.piece.start arrival.piece.len arrival.result arrival.data =
      { world with
        groups := world.groups.set group (count state arrival).1
        queue := world.queue ++ (count state arrival).2 } := by
  by_cases hlast : state.remaining = 1
  · simp [World.chunkDone, hgroup, count, hlast]
  · simp [World.chunkDone, hgroup, count, hlast]

def pieceOf (entry : Inflight) : Piece :=
  match entry.onDone with
  | .chunkDone _ start len => ⟨start, len⟩
  | .complete _ _ => ⟨0, 0⟩

/-- What one step can do to a group that is there. -/
inductive Shifts : View → View → Prop
  | same (view : View) : Shifts view view
  | posts {view : View} {entry : Inflight} {rest : List Inflight}
      (hunsubmitted : view.unsubmitted = entry :: rest) :
      Shifts view
        { view with
          posted := view.posted ++ [entry]
          unsubmitted := rest
          inflight := view.inflight ++ [entry] }
  | answers {view : View} {state : ReadGroup} {entry : Inflight} {front back : List Inflight}
      {result : Core.Outcome} {data : List Byte}
      (hgroup : view.group = some state)
      (hinflight : view.inflight = front ++ entry :: back)
      (hanswers : answers entry result data) (howner : ∃ group start len,
        entry.onDone = .chunkDone group start len) :
      Shifts view
        { view with
          group := some (count state ⟨pieceOf entry, result, data⟩).1
          inflight := front ++ back
          arrived := view.arrived ++ [⟨pieceOf entry, result, data⟩]
          completions := view.completions ++
            (count state ⟨pieceOf entry, result, data⟩).2 }

/-- The view of a group that `read_parallel` has just made. -/
def Call.entered (call : Call) (group : GroupId) (future : FutureId) : View :=
  if call.len = 0 then
    let arrival : Arrival := ⟨⟨0, 0⟩, .ok (.read 0), []⟩
    { untouched with
      group := some (count (call.fresh future) arrival).1
      arrived := [arrival]
      completions := (count (call.fresh future) arrival).2 }
  else
    { untouched with
      group := some (call.fresh future)
      unsubmitted := call.ops group }

theorem split_at {entries : List Inflight} {index : ℕ} {entry : Inflight}
    (hentry : entries[index]? = some entry) :
    ∃ front back, entries = front ++ entry :: back ∧ entries.eraseIdx index = front ++ back := by
  obtain ⟨hindex, rfl⟩ := List.getElem?_eq_some_iff.mp hentry
  refine ⟨entries.take index, entries.drop (index + 1), ?_, List.eraseIdx_eq_take_drop_succ ..⟩
  rw [List.cons_getElem_drop_succ, List.take_append_drop]

section Views

variable {state : State} {group : GroupId}

theorem view_submit (op : Op) (output : Output) :
    ({ state with world := (state.world.submit op output).2 } : State).view group =
      state.view group := by
  simp [State.view, World.submit, ofGroup]

theorem groups_deliver (code : Raised → ℕ) (world : World) (completion : Completion) :
    (world.deliver code completion).1.groups = world.groups ∧
      (world.deliver code completion).1.inflight = world.inflight := by
  unfold World.deliver
  grind [World.settle]

theorem view_deliver {code : Raised → ℕ} {next : State}
    (hstep : state.deliver code = some next) :
    next.view group = state.view group ∧ next.calls = state.calls ∧
      next.world.groups.length = state.world.groups.length := by
  rw [State.deliver] at hstep
  split at hstep
  · cases hstep
    simp [State.view, groups_deliver]
  · cases hstep

theorem shifts_post {next : State} (hstep : state.post = some next) :
    Shifts (state.view group) (next.view group) ∧ next.calls = state.calls ∧
      next.world.groups.length = state.world.groups.length := by
  rw [State.post] at hstep
  split at hstep
  · cases hstep
  · rename_i entry rest hunsubmitted
    cases hstep
    refine ⟨?_, rfl, rfl⟩
    by_cases howner : ofGroup group entry
    · have hnext : (state.view group).unsubmitted = entry :: rest.filter (ofGroup group) := by
        simp [State.view, hunsubmitted, howner]
      simpa [State.view, post, howner] using Shifts.posts hnext
    · have hsame : Shifts (state.view group) (state.view group) := .same _
      simpa [State.view, post, howner, hunsubmitted] using hsame

/-- Everything a callback changes. -/
theorem callback_cases {next : State} {index : ℕ} {result : Core.Outcome} {data : List Byte}
    (hstep : state.callback index result data = some next) :
    ∃ front entry back, state.world.inflight = front ++ entry :: back ∧
      answers entry result data ∧
      ((∃ future output, entry.onDone = .complete future output ∧
          next = { state with world :=
            { state.world with
              inflight := front ++ back
              queue := state.world.queue ++ [⟨future, result, output⟩] } }) ∨
        ∃ owner start len, entry.onDone = .chunkDone owner start len ∧
          ∀ known, state.world.groups[owner]? = some known →
            next = { state with
              world :=
                { state.world with
                  inflight := front ++ back
                  groups := state.world.groups.set owner
                    (count known ⟨⟨start, len⟩, result, data⟩).1
                  queue := state.world.queue ++
                    (count known ⟨⟨start, len⟩, result, data⟩).2 }
              arrivals := state.arrivals ++ [(owner, ⟨⟨start, len⟩, result, data⟩)]
              pushed := state.pushed ++
                (count known ⟨⟨start, len⟩, result, data⟩).2.map (owner, ·) }) := by
  simp only [State.callback, World.callback, Option.bind_eq_some_iff] at hstep
  obtain ⟨entry, hentry, hstep⟩ := hstep
  split at hstep
  · rename_i hanswers
    obtain ⟨front, back, hinflight, hrest⟩ := split_at hentry
    simp only [hentry, Option.map_some, Option.some.injEq, hrest] at hstep
    refine ⟨front, entry, back, hinflight, hanswers, ?_⟩
    cases hdone : entry.onDone with
    | complete future output =>
        simp only [hdone] at hstep
        exact .inl ⟨future, output, rfl, hstep.symm⟩
    | chunkDone owner start len =>
        simp only [hdone] at hstep
        refine .inr ⟨owner, start, len, rfl, fun known hknown => ?_⟩
        have hworld := chunkDone_of_group
          (show ({ state.world with inflight := front ++ back } : World).groups[owner]? = _
            from hknown) ⟨⟨start, len⟩, result, data⟩
        simp only [hworld] at hstep
        simpa using hstep.symm
  · cases hstep

theorem shifts_callback {next : State} {index : ℕ} {result : Core.Outcome} {data : List Byte}
    (hknown : ∀ entry ∈ state.world.inflight, ∀ owner, ofGroup owner entry →
      owner < state.world.groups.length)
    (hstep : state.callback index result data = some next) :
    Shifts (state.view group) (next.view group) ∧ next.calls = state.calls ∧
      next.world.groups.length = state.world.groups.length := by
  obtain ⟨front, entry, back, hinflight, hanswers, hcases⟩ := callback_cases hstep
  have hsame : Shifts (state.view group) (state.view group) := .same _
  obtain ⟨future, output, hdone, rfl⟩ | ⟨owner, start, len, hdone, hnext⟩ := hcases
  · have hother : ofGroup group entry = false := by simp [ofGroup, hdone]
    refine ⟨?_, rfl, rfl⟩
    simpa [State.view, hinflight, hother] using hsame
  · have howner : owner < state.world.groups.length :=
      hknown entry (by simp [hinflight]) owner (by simp [ofGroup, hdone])
    have hgroup := List.getElem?_eq_getElem howner
    obtain rfl := hnext _ hgroup
    refine ⟨?_, rfl, by simp⟩
    by_cases hmine : owner = group
    · subst hmine
      have hof : ofGroup owner entry = true := by simp [ofGroup, hdone]
      have hfiltered : (state.view owner).inflight =
          front.filter (ofGroup owner) ++ entry :: back.filter (ofGroup owner) := by
        simp [State.view, hinflight, hof]
      have hpiece : pieceOf entry = ⟨start, len⟩ := by simp [pieceOf, hdone]
      simpa [State.view, howner, hpiece, List.filter_map, Function.comp_def] using
        Shifts.answers hgroup hfiltered hanswers ⟨_, _, _, hdone⟩
    · have hother : ofGroup group entry = false := by simp [ofGroup, hdone, hmine]
      simpa [State.view, hinflight, hother, hmine, List.filter_map, Function.comp_def] using hsame

theorem enter_eq_of_pos (call : Call) (world : World) (hlen : call.len ≠ 0) :
    call.enter world =
      { world with
        groups := world.groups ++ [call.fresh world.futures.length]
        nextId := world.nextId + call.chunkCount
        futures := world.futures ++
          [{ opIds := (List.range call.chunkCount).map (world.nextId + ·) }] } := by
  simp [Call.enter, hlen]

theorem enter_eq_of_empty (call : Call) (world : World) (hlen : call.len = 0) :
    call.enter world =
      { world with
        groups := world.groups ++
          [(count (call.fresh world.futures.length) ⟨⟨0, 0⟩, .ok (.read 0), []⟩).1]
        futures := world.futures ++ [{ opIds := [] }]
        queue := world.queue ++
          (count (call.fresh world.futures.length) ⟨⟨0, 0⟩, .ok (.read 0), []⟩).2 } := by
  have hgroup : ({ world with
      groups := world.groups ++ [call.fresh world.futures.length]
      futures := world.futures ++ [{ opIds := [] }] } : World).groups[world.groups.length]? =
        some (call.fresh world.futures.length) := by
    simp
  have hdone := chunkDone_of_group hgroup ⟨⟨0, 0⟩, .ok (.read 0), []⟩
  simp only [Call.enter, hlen]
  simpa [hlen] using hdone

theorem ofGroup_ops {call : Call} {owner : GroupId} {entry : Inflight}
    (hentry : entry ∈ call.ops owner) : ofGroup group entry = decide (owner = group) := by
  rw [Call.ops] at hentry
  split at hentry
  · cases hentry
  · obtain ⟨index, -, rfl⟩ := List.mem_map.mp hentry
    rfl

theorem view_enter {call : Call} {next : State} (hstep : state.enter call = some next) :
    (state.view state.world.groups.length = untouched →
      next.view state.world.groups.length =
        call.entered state.world.groups.length state.world.futures.length) ∧
    (group ≠ state.world.groups.length → next.view group = state.view group) ∧
    next.calls = state.calls ++ [call] ∧
    next.world.groups.length = state.world.groups.length + 1 ∧ 0 < call.chunk := by
  rw [State.enter] at hstep
  split at hstep
  · rename_i henabled
    obtain ⟨hunsubmitted, hchunk⟩ := henabled
    cases hstep
    have hops : ∀ owner, (call.ops state.world.groups.length).filter (ofGroup owner) =
        if state.world.groups.length = owner then call.ops state.world.groups.length else [] := by
      intro owner
      split
      · rename_i hmine
        refine List.filter_eq_self.mpr fun entry hentry => ?_
        simp [ofGroup_ops hentry, hmine]
      · rename_i hother
        refine List.filter_eq_nil_iff.mpr fun entry hentry => ?_
        simp [ofGroup_ops hentry, hother]
    by_cases hlen : call.len = 0
    · refine ⟨fun huntouched => ?_, fun hother => ?_, rfl, ?_, hchunk⟩
      · simp only [State.view, untouched, View.mk.injEq] at huntouched
        obtain ⟨-, hposted, -, hinflight, harrived, hcompletions⟩ := huntouched
        simp [State.view, Call.entered, enter_eq_of_empty, hlen, Call.ops, hposted,
          hinflight, harrived, hcompletions, untouched, List.filter_map, Function.comp_def]
      · have hget : (state.world.groups ++ [(count (call.fresh state.world.futures.length)
            ⟨⟨0, 0⟩, .ok (.read 0), []⟩).1])[group]? = state.world.groups[group]? := by
          grind
        simp [State.view, enter_eq_of_empty, hlen, Call.ops, hget, hunsubmitted, Ne.symm hother,
          List.filter_map, Function.comp_def]
      · simp [enter_eq_of_empty, hlen]
    · refine ⟨fun huntouched => ?_, fun hother => ?_, rfl, ?_, hchunk⟩
      · simp only [State.view, untouched, View.mk.injEq] at huntouched
        obtain ⟨-, hposted, -, hinflight, harrived, hcompletions⟩ := huntouched
        simp [State.view, Call.entered, enter_eq_of_pos, hlen, hops, hposted, hinflight,
          harrived, hcompletions, untouched]
      · have hget : (state.world.groups ++ [call.fresh state.world.futures.length])[group]? =
            state.world.groups[group]? := by
          grind
        simp [State.view, enter_eq_of_pos, hlen, hops, hget, hunsubmitted, Ne.symm hother]
      · simp [enter_eq_of_pos, hlen]
  · cases hstep

end Views

/-! ## What the answers add up to -/

/-- The chunk was not read. -/
def Arrival.Failed (arrival : Arrival) : Prop := ∀ n, arrival.result ≠ .ok (.read n)

def Arrival.Fits (arrival : Arrival) : Prop :=
  ∀ n, arrival.result = .ok (.read n) → n = arrival.data.length ∧ n ≤ arrival.piece.len

def Arrival.part (arrival : Arrival) : Part := ⟨arrival.piece, arrival.data.length⟩

def answered (group : ReadGroup) (arrivals : List Arrival) : ReadGroup :=
  arrivals.foldl (fun group arrival =>
    group.record arrival.piece.start arrival.piece.len arrival.result arrival.data) group

section Answers

variable (group : ReadGroup) (arrivals : List Arrival)

@[simp]
theorem answered_append_one (arrival : Arrival) :
    answered group (arrivals ++ [arrival]) =
      (answered group arrivals).record arrival.piece.start arrival.piece.len arrival.result
        arrival.data := by
  simp [answered]

@[simp]
theorem answered_future : (answered group arrivals).future = group.future := by
  induction arrivals using List.reverseRecOn with
  | nil => rfl
  | append_singleton front arrival ih => simp [ih]

@[simp]
theorem answered_remaining : (answered group arrivals).remaining = group.remaining := by
  induction arrivals using List.reverseRecOn with
  | nil => rfl
  | append_singleton front arrival ih => simp [ih]

theorem record_of_read {arrival : Arrival} {n : ℕ} (hread : arrival.result = .ok (.read n)) :
    group.record arrival.piece.start arrival.piece.len arrival.result arrival.data =
      { group with
        bytes := group.bytes.take arrival.piece.start ++ arrival.data ++
          group.bytes.drop (arrival.piece.start + arrival.data.length)
        nLimit := if n < arrival.piece.len then min group.nLimit (arrival.piece.start + n)
          else group.nLimit } := by
  rw [hread]
  rfl

theorem record_of_failed {arrival : Arrival} (hfailed : arrival.Failed) :
    (group.record arrival.piece.start arrival.piece.len arrival.result arrival.data).error ≠
      none := by
  cases hresult : arrival.result with
  | error error => simp [ReadGroup.record]
  | ok reply =>
      cases reply with
      | read n => exact absurd hresult (hfailed n)
      | _ => simp [ReadGroup.record]

theorem not_failed_iff {arrival : Arrival} :
    ¬ arrival.Failed ↔ ∃ n, arrival.result = .ok (.read n) := by
  simp [Arrival.Failed]

/-- One failed chunk is enough, and nothing else makes an error. -/
theorem answered_error_iff (hfresh : group.error = none) :
    (answered group arrivals).error = none ↔ ∀ arrival ∈ arrivals, ¬ arrival.Failed := by
  induction arrivals using List.reverseRecOn with
  | nil => simp [answered, hfresh]
  | append_singleton front arrival ih =>
      rw [answered_append_one]
      by_cases hfailed : arrival.Failed
      · simp [record_of_failed _ hfailed, hfailed]
      · obtain ⟨n, hread⟩ := not_failed_iff.mp hfailed
        rw [record_of_read _ hread]
        simp [ih, or_imp, forall_and, hfailed]

variable {group arrivals}

theorem answered_nLimit (hfits : ∀ arrival ∈ arrivals, arrival.Fits)
    (hread : ∀ arrival ∈ arrivals, ¬ arrival.Failed) :
    (answered group arrivals).nLimit = limit group.nLimit (arrivals.map Arrival.part) := by
  induction arrivals using List.reverseRecOn with
  | nil => rfl
  | append_singleton front arrival ih =>
      simp only [List.mem_append, List.mem_singleton, or_imp, forall_and, forall_eq] at hfits hread
      obtain ⟨n, hresult⟩ := not_failed_iff.mp hread.2
      obtain ⟨rfl, -⟩ := hfits.2 n hresult
      rw [answered_append_one, record_of_read _ hresult, List.map_append, List.map_singleton,
        limit_append_one, ← ih hfits.1 hread.1]
      rfl

theorem answered_length (hfits : ∀ arrival ∈ arrivals, arrival.Fits)
    (hread : ∀ arrival ∈ arrivals, ¬ arrival.Failed)
    (hwithin : ∀ arrival ∈ arrivals,
      arrival.piece.start + arrival.piece.len ≤ group.bytes.length) :
    (answered group arrivals).bytes.length = group.bytes.length := by
  induction arrivals using List.reverseRecOn with
  | nil => rfl
  | append_singleton front arrival ih =>
      simp only [List.mem_append, List.mem_singleton, or_imp, forall_and, forall_eq]
        at hfits hread hwithin
      obtain ⟨n, hresult⟩ := not_failed_iff.mp hread.2
      obtain ⟨rfl, hlen⟩ := hfits.2 n hresult
      have hroom := hwithin.2
      have hfront := ih hfits.1 hread.1 hwithin.1
      rw [answered_append_one, record_of_read _ hresult]
      simp only [List.length_append, List.length_take, List.length_drop, hfront]
      omega

/-- What a chunk put in its part stays there: the other chunks have other parts. -/
theorem answered_bytes (hfits : ∀ arrival ∈ arrivals, arrival.Fits)
    (hread : ∀ arrival ∈ arrivals, ¬ arrival.Failed)
    (hwithin : ∀ arrival ∈ arrivals,
      arrival.piece.start + arrival.piece.len ≤ group.bytes.length)
    (hapart : (arrivals.map Arrival.piece).Pairwise fun one other =>
      ∀ offset, one.Covers offset → ¬ other.Covers offset)
    {arrival : Arrival} (hmem : arrival ∈ arrivals) {offset : ℕ}
    (hoffset : offset < arrival.data.length) :
    (answered group arrivals).bytes[arrival.piece.start + offset]? = arrival.data[offset]? := by
  induction arrivals using List.reverseRecOn with
  | nil => cases hmem
  | append_singleton front last ih =>
      simp only [List.mem_append, List.mem_singleton, or_imp, forall_and, forall_eq]
        at hfits hread hwithin
      rw [List.map_append, List.map_singleton, List.pairwise_append] at hapart
      obtain ⟨hfront, -, hlast⟩ := hapart
      have hlength := answered_length hfits.1 hread.1 hwithin.1
      obtain ⟨n, hresult⟩ := not_failed_iff.mp hread.2
      obtain ⟨rfl, hlen⟩ := hfits.2 n hresult
      have hroom := hwithin.2
      rw [answered_append_one, record_of_read _ hresult]
      rcases List.mem_append.mp hmem with hbefore | hbefore
      · obtain ⟨m, hresult'⟩ := not_failed_iff.mp (hread.1 arrival hbefore)
        obtain ⟨rfl, hlen'⟩ := hfits.1 arrival hbefore m hresult'
        have hcovers : arrival.piece.Covers (arrival.piece.start + offset) :=
          ⟨by omega, by omega⟩
        have hnot := hlast _ (List.mem_map_of_mem hbefore) _ (List.mem_singleton_self _) _ hcovers
        rw [← ih hfits.1 hread.1 hwithin.1 hfront hbefore]
        simp only [Piece.Covers, not_and, not_lt] at hnot
        simp only [List.getElem?_append, List.length_append, List.length_take, hlength,
          List.getElem?_take, List.getElem?_drop]
        split
        · rename_i hwhere
          split
          · rw [if_pos (by omega)]
          · omega
        · rename_i hwhere
          congr 1
          omega
      · obtain rfl := List.mem_singleton.mp hbefore
        simp only [List.getElem?_append, List.length_append, List.length_take, hlength]
        rw [if_pos (by omega), if_neg (by omega)]
        congr 1
        omega

end Answers

/-! ## The countdown -/

/-- What is known of a group at every moment: its chunks are unsubmitted, in
flight or answered, and `remaining` counts the unanswered ones. -/
structure Holds (group : GroupId) (call : Call) (view : View) : Prop where
  submits : view.posted ++ view.unsubmitted = call.ops group
  account : (view.arrived.map Arrival.piece ++
    (view.inflight ++ view.unsubmitted).map pieceOf).Perm call.pieces
  fits : ∀ arrival ∈ view.arrived, arrival.Fits
  counted : ∃ future,
    view.group = some
      { answered (call.fresh future) view.arrived with
        remaining := call.chunkCount - view.arrived.length } ∧
    view.completions =
      if view.arrived.length = call.chunkCount then
        [⟨future, (answered (call.fresh future) view.arrived).result,
          .fillBytes (answered (call.fresh future) view.arrived).bytes⟩]
      else []

section Countdown

variable {group : GroupId} {call : Call} {view next : View}

theorem length_pieces (hchunk : 0 < call.chunk) : call.pieces.length = call.chunkCount := by
  rw [Call.pieces, Call.chunkCount]
  split
  · rename_i hlen
    have hzero : (call.len + call.chunk - 1) / call.chunk = 0 :=
      Nat.div_eq_of_lt (by omega)
    simp [hzero]
  · rename_i hlen
    have hpos : 0 < (call.len + call.chunk - 1) / call.chunk :=
      Nat.div_pos (by omega) hchunk
    rw [length_cut]
    omega

theorem tiles_pieces (hchunk : 0 < call.chunk) : Tiles call.len call.pieces := by
  rw [Call.pieces]
  split
  · rename_i hlen
    rw [hlen]
    constructor <;> simp
  · exact tiles_cut hchunk

theorem pieceOf_ops (hchunk : 0 < call.chunk) (hlen : call.len ≠ 0) :
    (call.ops group).map pieceOf = call.pieces := by
  have hpos : 0 < (call.len + call.chunk - 1) / call.chunk :=
    Nat.div_pos (by omega) hchunk
  rw [Call.ops, Call.pieces, if_neg hlen, if_neg hlen, cut, Call.chunkCount,
    max_eq_left (show 1 ≤ (call.len + call.chunk - 1) / call.chunk from hpos), List.map_map]
  rfl

/-- The countdown and what is counted do not look at each other. -/
theorem count_answered (group : ReadGroup) (arrivals : List Arrival) (remaining : ℕ)
    (arrival : Arrival) :
    count { answered group arrivals with remaining := remaining } arrival =
      ({ answered group (arrivals ++ [arrival]) with remaining := remaining - 1 },
        if remaining = 1 then
          [⟨group.future, (answered group (arrivals ++ [arrival])).result,
            .fillBytes (answered group (arrivals ++ [arrival])).bytes⟩]
        else []) := by
  rw [answered_append_one]
  rcases arrival with ⟨piece, result, data⟩
  cases result with
  | error error => simp [count, ReadGroup.record, ReadGroup.result]
  | ok reply => cases reply <;> simp [count, ReadGroup.record, ReadGroup.result]

theorem Holds.unanswered (hholds : Holds group call view) (hchunk : 0 < call.chunk) :
    view.arrived.length + (view.inflight ++ view.unsubmitted).length = call.chunkCount := by
  have hlength := hholds.account.length_eq
  simpa [length_pieces hchunk] using hlength

theorem Arrival.fits_of_answers {entry : Inflight} {result : Core.Outcome} {data : List Byte}
    (hanswers : answers entry result data)
    (howner : ∃ group start len, entry.onDone = .chunkDone group start len) :
    Arrival.Fits ⟨pieceOf entry, result, data⟩ := by
  obtain ⟨group, start, len, hdone⟩ := howner
  rintro n hread
  obtain rfl : result = .ok (.read n) := hread
  simpa [answers, pieceOf, hdone] using hanswers

theorem Holds.entered (hchunk : 0 < call.chunk) (future : FutureId) :
    Holds group call (call.entered group future) := by
  by_cases hlen : call.len = 0
  · have hcount : call.chunkCount = 1 := by
      simpa [Call.pieces, hlen] using (length_pieces hchunk).symm
    constructor
    · simp [Call.entered, hlen, untouched, Call.ops]
    · simp [Call.entered, hlen, untouched, Call.pieces]
    · simp [Call.entered, hlen, Arrival.Fits]
    · refine ⟨future, ?_, ?_⟩
      · simp [Call.entered, hlen, count, answered, hcount, Call.fresh]
      · simp [Call.entered, hlen, untouched, count, answered, hcount, Call.fresh]
  · have hcount : call.chunkCount ≠ 0 := by
      rw [Call.chunkCount]
      omega
    constructor
    · simp [Call.entered, hlen, untouched]
    · simp [Call.entered, hlen, untouched, pieceOf_ops hchunk hlen]
    · simp [Call.entered, hlen, untouched]
    · refine ⟨future, ?_, ?_⟩
      · simp [Call.entered, hlen, untouched, answered, Call.fresh]
      · simp [Call.entered, hlen, untouched, Ne.symm hcount]

theorem Holds.shift (hholds : Holds group call view) (hchunk : 0 < call.chunk)
    (hshift : Shifts view next) : Holds group call next := by
  cases hshift with
  | same => exact hholds
  | posts hunsubmitted =>
      refine ⟨?_, ?_, hholds.fits, hholds.counted⟩
      · simpa [hunsubmitted] using hholds.submits
      · simpa [hunsubmitted] using hholds.account
  | @answers state entry front back result data hgroup hinflight hanswers howner =>
      have hunanswered := hholds.unanswered hchunk
      obtain ⟨future, hstate, hcompletions⟩ := hholds.counted
      obtain rfl : state = _ := Option.some.inj (hgroup.symm.trans hstate)
      refine ⟨hholds.submits, ?_, ?_, future, ?_, ?_⟩
      · refine List.Perm.trans ?_ hholds.account
        rw [hinflight]
        have hmoved : (pieceOf entry :: (front ++ back).map pieceOf).Perm
            ((front ++ entry :: back).map pieceOf) := by
          simpa using List.perm_middle.symm
        simpa using (hmoved.append_right (view.unsubmitted.map pieceOf)).append_left
          (view.arrived.map Arrival.piece)
      · simp only [List.mem_append, List.mem_singleton]
        rintro arrival (hbefore | rfl)
        · exact hholds.fits arrival hbefore
        · exact Arrival.fits_of_answers hanswers howner
      · simp only [count_answered, List.length_append, List.length_singleton, Nat.sub_sub]
      · rw [hinflight] at hunanswered
        simp only [List.length_append, List.length_cons] at hunanswered
        have hbefore : view.arrived.length ≠ call.chunkCount := by omega
        have hlast : call.chunkCount - view.arrived.length = 1 ↔
            view.arrived.length + 1 = call.chunkCount := by omega
        simp only [hcompletions, if_neg hbefore, count_answered, List.nil_append,
          List.length_append, List.length_singleton, hlast]
        rfl

end Countdown

/-! ## Every run -/

/-- Every group that was made is accounted for, and there is no trace of others. -/
structure Tracked (state : State) : Prop where
  known : state.world.groups.length = state.calls.length
  chunked : ∀ call ∈ state.calls, 0 < call.chunk
  holds : ∀ (group : ℕ) call, state.calls[group]? = some call → Holds group call (state.view group)
  untouched : ∀ group : ℕ, state.calls.length ≤ group → state.view group = untouched

section Runs

variable {code : Raised → ℕ} {state next : State}

theorem Tracked.owner_known (htracked : Tracked state) :
    ∀ entry ∈ state.world.inflight, ∀ owner, ofGroup owner entry →
      owner < state.world.groups.length := by
  intro entry hentry owner howner
  by_contra hunknown
  have hview := htracked.untouched owner (htracked.known ▸ not_lt.mp hunknown)
  have hmem : entry ∈ (state.view owner).inflight := List.mem_filter.mpr ⟨hentry, howner⟩
  rw [hview] at hmem
  cases hmem

theorem Shifts.of_untouched {view after : View} (hshift : Shifts view after)
    (hview : view = untouched) : after = untouched := by
  subst hview
  cases hshift with
  | same => rfl
  | posts hunsubmitted => cases hunsubmitted
  | answers hgroup => cases hgroup

theorem Tracked.shift (htracked : Tracked state)
    (hshifts : ∀ group, Shifts (state.view group) (next.view group) ∧
      next.calls = state.calls ∧ next.world.groups.length = state.world.groups.length) :
    Tracked next where
  known := by rw [(hshifts 0).2.1, (hshifts 0).2.2, htracked.known]
  chunked := by
    rw [(hshifts 0).2.1]
    exact htracked.chunked
  holds group call hcall := by
    rw [(hshifts 0).2.1] at hcall
    exact (htracked.holds group call hcall).shift
      (htracked.chunked call (List.mem_of_getElem? hcall)) (hshifts group).1
  untouched group hgroup := by
    rw [(hshifts 0).2.1] at hgroup
    exact (hshifts group).1.of_untouched (htracked.untouched group hgroup)

theorem Tracked.enter (htracked : Tracked state) {call : Call}
    (hstep : state.enter call = some next) : Tracked next := by
  have hknown := htracked.known
  have hnew : state.view state.world.groups.length = ParallelFill.untouched :=
    htracked.untouched _ hknown.ge
  have hview := fun group => @view_enter state group _ _ hstep
  obtain ⟨hentered, -, hcalls, hlength, hchunk⟩ := hview 0
  refine ⟨?_, ?_, fun group other hother => ?_, fun group hgroup => ?_⟩
  · simp [hlength, hcalls, hknown]
  · rw [hcalls]
    simp only [List.mem_append, List.mem_singleton]
    rintro other (hbefore | rfl)
    · exact htracked.chunked other hbefore
    · exact hchunk
  · rw [hcalls] at hother
    by_cases hsame : group = state.world.groups.length
    · subst hsame
      rw [hknown, List.getElem?_append_right le_rfl] at hother
      obtain rfl : call = other := by simpa using hother
      rw [hentered hnew]
      exact Holds.entered hchunk _
    · rw [(hview group).2.1 hsame]
      refine htracked.holds group other ?_
      have hlt : group < state.calls.length := by
        have hbound := (List.getElem?_eq_some_iff.mp hother).1
        simp only [List.length_append, List.length_singleton] at hbound
        rw [hknown] at hsame
        omega
      rwa [List.getElem?_append_left hlt] at hother
  · rw [hcalls, List.length_append, List.length_singleton] at hgroup
    have hother : ¬ group = state.calls.length := by omega
    rw [(hview group).2.1 (hknown ▸ hother)]
    exact htracked.untouched group (by omega)

theorem Tracked.step (htracked : Tracked state) {move : Move}
    (hstep : state.step code move = some next) : Tracked next := by
  cases move with
  | submit op output =>
      simp only [State.step] at hstep
      split at hstep
      · cases hstep
        refine htracked.shift fun group => ⟨?_, rfl, rfl⟩
        rw [view_submit]
        exact .same _
      · cases hstep
  | enter call => exact htracked.enter hstep
  | post => exact htracked.shift fun group => shifts_post hstep
  | callback index result data =>
      exact htracked.shift fun group => shifts_callback htracked.owner_known hstep
  | deliver =>
      refine htracked.shift fun group => ?_
      obtain ⟨hview, hrest⟩ := @view_deliver state group _ _ hstep
      rw [hview]
      exact ⟨.same _, hrest⟩

theorem tracked (hreach : (system code).Reachable state) : Tracked state := by
  refine hreach.invariant ?_ ?_
  · rintro _ rfl
    refine ⟨rfl, by simp, by simp, fun group _ => rfl⟩
  · intro state move next _ htracked hstep
    exact htracked.step hstep

end Runs

/-! ## The result -/

/-- Some chunk of the group put a byte at this offset. -/
def Filled (arrivals : List Arrival) (offset : ℕ) : Prop :=
  ∃ arrival ∈ arrivals, ∃ n, arrival.result = .ok (.read n) ∧
    arrival.piece.start ≤ offset ∧ offset < arrival.piece.start + n

/-- The chunk's byte at this offset of the whole. -/
def Arrival.byte (arrival : Arrival) (offset : ℕ) : Option Byte :=
  arrival.data[offset - arrival.piece.start]?

namespace State

variable (state : State) (group : GroupId)

/-- The reads submitted for a group, in order. -/
def submissions : List Op := (state.view group).posted.map Inflight.op

/-- The chunks of a group whose callbacks have not run. -/
def outstanding : List Inflight :=
  (state.view group).inflight ++ (state.view group).unsubmitted

def arrived : List Arrival := (state.view group).arrived

def completions : List Completion := (state.view group).completions

end State

section Result

variable {code : Raised → ℕ} {state : State} {group : GroupId} {call : Call}

/-- The reads of a call: one for each piece, with the piece's offset in the file. -/
theorem ops_eq (hpos : call.pos + call.len < 2 ^ 63) (hchunk : 0 < call.chunk) :
    (call.ops group).map Inflight.op =
      (if call.len = 0 then [] else call.pieces).map fun piece =>
        .readAt call.handle (call.pos + piece.start) (.into piece.start piece.len) := by
  by_cases hlen : call.len = 0
  · simp [Call.ops, hlen]
  · rw [if_neg hlen, ← @pieceOf_ops group _ hchunk hlen, Call.ops, if_neg hlen,
      List.map_map, List.map_map, List.map_map]
    refine List.map_congr_left fun index hindex => ?_
    rw [List.mem_range, Call.chunkCount] at hindex
    have hstart : index * call.chunk < call.len := by
      refine (lt_count_iff hchunk index).mp ?_
      have hpos : 0 < (call.len + call.chunk - 1) / call.chunk :=
        Nat.div_pos (by omega) hchunk
      omega
    simp only [Function.comp_apply, World.chunkOp, pieceOf, u64Add]
    rw [Nat.mod_eq_of_lt (by omega)]

theorem Holds.arrived_tiles {view : View} (hholds : Holds group call view)
    (hchunk : 0 < call.chunk) (hall : view.inflight ++ view.unsubmitted = []) :
    Tiles call.len (view.arrived.map Arrival.piece) := by
  have haccount := hholds.account
  rw [hall, List.map_nil, List.append_nil] at haccount
  exact (tiles_pieces hchunk).perm haccount

theorem filled_iff {arrivals : List Arrival} (hfits : ∀ arrival ∈ arrivals, arrival.Fits)
    (hread : ∀ arrival ∈ arrivals, ¬ arrival.Failed) (offset : ℕ) :
    Filled arrivals offset ↔ ∃ part ∈ arrivals.map Arrival.part, part.Fills offset := by
  constructor
  · rintro ⟨arrival, hmem, n, hresult, hwhere⟩
    obtain ⟨rfl, -⟩ := hfits arrival hmem n hresult
    exact ⟨arrival.part, List.mem_map_of_mem hmem, hwhere⟩
  · rintro ⟨part, hpart, hfills⟩
    obtain ⟨arrival, hmem, rfl⟩ := List.mem_map.mp hpart
    obtain ⟨n, hresult⟩ := not_failed_iff.mp (hread arrival hmem)
    obtain ⟨rfl, -⟩ := hfits arrival hmem n hresult
    exact ⟨arrival, hmem, _, hresult, hfills⟩

/-- When every chunk was read, the limit is the longest filled prefix, and the
bytes below it are those of the chunks. -/
theorem answered_leading {future : FutureId} {arrivals : List Arrival}
    (htiles : Tiles call.len (arrivals.map Arrival.piece))
    (hfits : ∀ arrival ∈ arrivals, arrival.Fits)
    (hread : ∀ arrival ∈ arrivals, ¬ arrival.Failed) :
    IsGreatest {n | n ≤ call.len ∧ ∀ offset < n, Filled arrivals offset}
        (answered (call.fresh future) arrivals).nLimit ∧
      (answered (call.fresh future) arrivals).bytes.length = call.len ∧
      ∀ offset < (answered (call.fresh future) arrivals).nLimit,
        ∃ arrival ∈ arrivals, arrival.piece.Covers offset ∧
          (answered (call.fresh future) arrivals).bytes[offset]? = arrival.byte offset := by
  have hwithin : ∀ arrival ∈ arrivals, arrival.piece.start + arrival.piece.len ≤
      (call.fresh future).bytes.length := by
    intro arrival hmem
    simpa [Call.fresh] using htiles.within _ (List.mem_map_of_mem hmem)
  have hparts : (arrivals.map Arrival.part).map Part.piece = arrivals.map Arrival.piece := by
    rw [List.map_map]
    rfl
  have hgreatest := @isGreatest_limit call.len
    (arrivals.map Arrival.part) (hparts ▸ htiles) (by
      intro part hpart
      obtain ⟨arrival, hmem, rfl⟩ := List.mem_map.mp hpart
      obtain ⟨n, hresult⟩ := not_failed_iff.mp (hread arrival hmem)
      obtain ⟨rfl, hlen⟩ := hfits arrival hmem n hresult
      exact hlen)
  simp only [← filled_iff hfits hread] at hgreatest
  rw [answered_nLimit hfits hread]
  refine ⟨hgreatest, ?_, fun offset hoffset => ?_⟩
  · rw [answered_length hfits hread hwithin]
    simp [Call.fresh]
  · obtain ⟨arrival, hmem, n, hresult, hstart, hend⟩ := hgreatest.1.2 offset hoffset
    obtain ⟨rfl, hlen⟩ := hfits arrival hmem n hresult
    refine ⟨arrival, hmem, ⟨hstart, by omega⟩, ?_⟩
    have hbyte := answered_bytes hfits hread hwithin htiles.pairwise hmem
      (show offset - arrival.piece.start < arrival.data.length by omega)
    rwa [Nat.add_sub_cancel' hstart] at hbyte

/-- What `read_parallel` promises of one of its groups, at every moment. -/
structure Assembles (state : State) (group : GroupId) (call : Call) : Prop where
  /-- Its reads tile the bytes object, each at its offset in the file. -/
  tiles : ∃ pieces, Tiles call.len pieces ∧
    pieces.length = (if call.len = 0 then 0 else call.chunkCount) ∧
    state.submissions group ++ (state.view group).unsubmitted.map Inflight.op =
      pieces.map fun piece =>
        .readAt call.handle (call.pos + piece.start) (.into piece.start piece.len)
  /-- What `remaining` counts: a chunk is answered once or outstanding. -/
  unanswered : (state.arrived group).length + (state.outstanding group).length = call.chunkCount
  /-- The one completion is pushed with the last answer. -/
  once : (state.completions group).length = if state.outstanding group = [] then 1 else 0
  failed : ∀ completion ∈ state.completions group,
    (∃ arrival ∈ state.arrived group, arrival.Failed) → ∃ error, completion.result = .error error
  filled : ∀ completion ∈ state.completions group,
    (∀ arrival ∈ state.arrived group, ¬ arrival.Failed) →
      ∃ n data, completion.result = .ok (.read n) ∧
        IsGreatest {m | m ≤ call.len ∧ ∀ offset < m, Filled (state.arrived group) offset} n ∧
        buildValue (.read n) completion.output = some (.bytes data) ∧ data.length = n ∧
        ∀ offset < n, ∃ arrival ∈ state.arrived group,
          arrival.piece.Covers offset ∧ data[offset]? = arrival.byte offset

/-- In every run each group of chunks is assembled whatever order they end in. -/
theorem parallel_fill (hreach : (system code).Reachable state)
    (hcall : state.calls[group]? = some call) (hpos : call.pos + call.len < 2 ^ 63) :
    Assembles state group call := by
  have htracked := tracked hreach
  have hchunk := htracked.chunked call (List.mem_of_getElem? hcall)
  have hholds := htracked.holds group call hcall
  have hunanswered := hholds.unanswered hchunk
  obtain ⟨future, -, hcompletions⟩ := hholds.counted
  have hlast : (state.view group).arrived.length = call.chunkCount ↔
      state.outstanding group = [] := by
    rw [← List.length_eq_zero_iff]
    change _ ↔ ((state.view group).inflight ++ (state.view group).unsubmitted).length = 0
    omega
  refine ⟨?_, hunanswered, ?_, ?_, ?_⟩
  · refine ⟨if call.len = 0 then [] else call.pieces, ?_, ?_, ?_⟩
    · split
      · rename_i hlen
        rw [hlen]
        constructor <;> simp
      · exact tiles_pieces hchunk
    · split
      · rfl
      · exact length_pieces hchunk
    · rw [← @ops_eq group _ hpos hchunk, ← hholds.submits, List.map_append]
      rfl
  · change (state.view group).completions.length = _
    rw [hcompletions]
    simp only [hlast]
    split <;> rfl
  · rintro completion hmem ⟨arrival, harrival, hfailed⟩
    change completion ∈ (state.view group).completions at hmem
    rw [hcompletions] at hmem
    split at hmem
    · obtain rfl := List.mem_singleton.mp hmem
      have herror : (answered (call.fresh future) (state.view group).arrived).error ≠ none := by
        rw [ne_eq, answered_error_iff _ _ rfl]
        exact fun hnone => hnone arrival harrival hfailed
      obtain ⟨error, herror⟩ := Option.ne_none_iff_exists'.mp herror
      exact ⟨error, by simp [ReadGroup.result, herror]⟩
    · cases hmem
  · intro completion hmem hread
    change completion ∈ (state.view group).completions at hmem
    rw [hcompletions] at hmem
    split at hmem
    · rename_i hall
      obtain rfl := List.mem_singleton.mp hmem
      obtain ⟨hgreatest, hlength, hbytes⟩ := @answered_leading _ future _
        (hholds.arrived_tiles hchunk (hlast.mp hall)) hholds.fits hread
      have hnone : (answered (call.fresh future) (state.view group).arrived).error = none :=
        (answered_error_iff (call.fresh future) _ rfl).mpr hread
      refine ⟨_, (answered (call.fresh future) (state.view group).arrived).bytes.take
        (answered (call.fresh future) (state.view group).arrived).nLimit, ?_, hgreatest,
        ?_, ?_, fun offset hoffset => ?_⟩
      · simp [ReadGroup.result, hnone]
      · simp only [buildValue, hlength]
        split
        · rename_i hfull
          rw [← hfull, ← hlength, List.take_length]
        · rfl
      · rw [List.length_take, hlength]
        exact min_eq_left hgreatest.1.1
      · obtain ⟨arrival, harrival, hcovers, hbyte⟩ := hbytes offset hoffset
        refine ⟨arrival, harrival, hcovers, ?_⟩
        rw [List.getElem?_take_of_lt hoffset, hbyte]
    · cases hmem

/-- Two of three chunks end out of order, the middle one short. -/
theorem parallel_fill_reversed :
    ∃ state, Assembles state 0 ⟨7, 10, 5, 2⟩ ∧
      (state.completions 0).map Completion.result = [.ok (.read 3)] := by
  obtain ⟨state, hexec⟩ : ∃ state, (system fun _ => 0).exec {} [.enter ⟨7, 10, 5, 2⟩, .post, .post,
      .callback 1 (.ok (.read 1)) [3], .post, .callback 1 (.ok (.read 1)) [5],
      .callback 0 (.ok (.read 2)) [1, 2]] = some state := ⟨_, rfl⟩
  have hreach : (system fun _ => 0).Reachable state :=
    (System.Reachable.ofInit rfl).ofExec hexec
  refine ⟨state, parallel_fill hreach ?_ (by decide), ?_⟩
  · cases hexec
    rfl
  · cases hexec
    rfl

/-- An empty read submits nothing, although its countdown starts at one:
`read_parallel` takes that count itself. -/
theorem empty_submits_nothing :
    ∃ state call, (system fun _ => 0).Reachable state ∧ state.calls[0]? = some call ∧
      call.pos + call.len < 2 ^ 63 ∧ state.unsubmitted = [] ∧
      (state.submissions 0).length ≠ call.chunkCount := by
  obtain ⟨state, hexec⟩ : ∃ state,
      (system fun _ => 0).exec {} [.enter ⟨7, 0, 0, 4⟩] = some state := ⟨_, rfl⟩
  refine ⟨state, ⟨7, 0, 0, 4⟩, (System.Reachable.ofInit rfl).ofExec hexec, ?_, by decide, ?_, ?_⟩
  · cases hexec
    rfl
  · cases hexec
    rfl
  · cases hexec
    decide

end Result

end Turbofile.ParallelFill
