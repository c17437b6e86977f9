import Turbofile.Compio.ReadUpTo
import Turbofile.Compio.Runs

/-!
# A cancel that comes late

`read_up_to` looks at the cancel flag at the head of its loop, before it looks
at what it has read.  Here a run of the driver also records what the calls of
each read answered, so that a read whose chunks cover its request can be told
from one that still misses bytes.
-/

namespace Turbofile.Compio

open Turbofile.Core

/-! ## Chunks -/

/-- What the `read_at` calls of one op answered, in order. -/
abbrev Chunks := List (List Byte)

/-- The buffer after these calls. -/
def bufAfter (dest : Dest) (chunks : Chunks) : Buf := chunks.foldl Buf.fill (destBuf dest 0 [])

/-- The part of the request each call read: it was asked for the bytes after
those that counted as initialised. -/
def ranges (buf : Buf) : Chunks → List (ℕ × ℕ)
  | [] => []
  | data :: chunks => (buf.len, buf.len + data.length) :: ranges (buf.fill data) chunks

/-- The chunks cover the whole request. -/
def Covers (dest : Dest) (chunks : Chunks) : Prop :=
  ∀ offset < destLen dest,
    ∃ range ∈ ranges (destBuf dest 0 []) chunks, range.1 ≤ offset ∧ offset < range.2

theorem bufAfter_append_one (dest : Dest) (chunks : Chunks) (data : List Byte) :
    bufAfter dest (chunks ++ [data]) = (bufAfter dest chunks).fill data := by
  simp [bufAfter]

@[simp]
theorem fill_nil (buf : Buf) : buf.fill [] = buf := by
  simp [Buf.fill]

theorem ranges_append (buf : Buf) (chunks : Chunks) (data : List Byte) :
    ranges buf (chunks ++ [data]) =
      ranges buf chunks ++
        [((chunks.foldl Buf.fill buf).len, (chunks.foldl Buf.fill buf).len + data.length)] := by
  induction chunks generalizing buf with
  | nil => rfl
  | cons first rest ih => simp [ranges, ih]

/-- An empty answer covers nothing. -/
theorem covers_append_nil {dest : Dest} {chunks : Chunks} :
    Covers dest (chunks ++ [[]]) ↔ Covers dest chunks := by
  simp only [Covers, ranges_append, List.mem_append, List.mem_singleton]
  constructor
  · intro hcovers offset hoffset
    obtain ⟨range, hrange | rfl, hstart, hend⟩ := hcovers offset hoffset
    · exact ⟨range, hrange, hstart, hend⟩
    · simp only [List.length_nil, Nat.add_zero] at hend
      omega
  · intro hcovers offset hoffset
    obtain ⟨range, hrange, hwhere⟩ := hcovers offset hoffset
    exact ⟨range, .inl hrange, hwhere⟩

theorem covers_nil_iff {dest : Dest} : Covers dest [] ↔ destLen dest = 0 := by
  simp only [Covers, ranges, List.not_mem_nil, false_and, exists_false]
  constructor
  · intro hcovers
    by_contra hpos
    exact hcovers 0 (Nat.pos_of_ne_zero hpos)
  · intro hzero offset hoffset
    omega

/-! ## Runs with their chunks -/

abbrev Reads := OpId → Chunks

/-- A poll of a task that waits for `read_at` adds what the call answered. -/
def recordRead (state : State) (label : Label) (reads : Reads) : Reads :=
  match label with
  | .poll index ans =>
      match state.tasks[index]?, ans.data with
      | some ⟨id, .readAt _ _ _, _, _, .reading _ _⟩, .ok data =>
          Function.update reads id (reads id ++ [data])
      | _, _ => reads
  | .submit _ _ | .requestCancel _ | .dropSubmitters | .recv | .dropRuntime => reads

/-- The driver, and what its reads have read so far. -/
def traced : System (State × Reads) Label where
  init start := start = (.new, fun _ => [])
  step now label := (Compio.step now.1 label).map fun next => (next, recordRead now.1 label now.2)

theorem Traced.reachable {now : State × Reads} (hreach : traced.Reachable now) :
    driver.Reachable now.1 := by
  refine @System.Reachable.invariant _ _ _ (fun now => driver.Reachable now.1) ?_ ?_ _ hreach
  · rintro _ rfl
    exact .ofInit rfl
  · intro now label next _ hdriver hstep
    simp only [traced, Option.map_eq_some_iff] at hstep
    obtain ⟨state, hstate, rfl⟩ := hstep
    exact hdriver.next hstate

/-- The op of the task is settled and the task dropped. -/
structure Ends (state : State) (index : ℕ) (task : Task) (result : Outcome) (next : State) :
    Prop where
  tasks : next.tasks = state.tasks.eraseIdx index
  rx : next.rx = state.rx
  log : ∃ events, next.log = .settled task.cb result :: (events ++ state.log) ∧
    ∀ event ∈ events, event.isFile

theorem ends_finish (state : State) (index : ℕ) (task : Task) (held : Option Fd)
    (result : Outcome) : Ends state index task result (state.finish index task held result) := by
  cases held with
  | none => exact ⟨rfl, rfl, [], rfl, by simp⟩
  | some fd =>
      simp only [State.finish, State.release]
      split
      · exact ⟨rfl, rfl, [], rfl, by simp⟩
      · exact ⟨rfl, rfl, [.closed fd], rfl, by simp [Event.isFile]⟩

/-- What a read's task is doing, by what it has read. -/
def AtRead (dest : Dest) (chunks : Chunks) (stage : Stage) : Prop :=
  (stage = .spawned ∧ chunks = []) ∨ ∃ fd, stage = .reading fd (bufAfter dest chunks)

/-- One poll of a read; `after` are its chunks then. -/
inductive ReadPolled (state : State) (index : ℕ) (task : Task) (dest : Dest)
    (chunks after : Chunks) : State → Prop
  | cancelled {next : State} (hflag : state.cancelled task.id = true)
      (hends : Ends state index task (.error cancelledError) next) :
      ReadPolled state index task dest chunks after next
  | unknown {next : State} (hflag : state.cancelled task.id = false) (hnone : after = [])
      (hends : Ends state index task (.error badHandle) next) :
      ReadPolled state index task dest chunks after next
  | failed {next : State} (errno : Errno) (hreading : task.stage ≠ .spawned)
      (hsame : after = chunks)
      (hends : Ends state index task (.error (.os errno)) next) :
      ReadPolled state index task dest chunks after next
  | atEnd {next : State} (hreading : task.stage ≠ .spawned) (hlast : after = chunks ++ [[]])
      (hends : Ends state index task
        (.ok (destReply dest (bufAfter dest after).len (bufAfter dest after))) next) :
      ReadPolled state index task dest chunks after next
  | full {next : State} (hflag : state.cancelled task.id = false)
      (hfull : destLen dest ≤ (bufAfter dest after).len)
      (hends : Ends state index task
        (.ok (destReply dest (bufAfter dest after).len (bufAfter dest after))) next) :
      ReadPolled state index task dest chunks after next
  | reads (fd : Fd) (hflag : state.cancelled task.id = false)
      (hroom : (bufAfter dest after).len < destLen dest) :
      ReadPolled state index task dest chunks after
        (state.suspend index task (.reading fd (bufAfter dest after)))

theorem readPolled_readUpTo {state : State} {index : ℕ} {task : Task} {dest : Dest}
    {chunks after : Chunks} (fd : Fd) :
    ReadPolled state index task dest chunks after
      (state.readUpTo index task fd dest (bufAfter dest after)) := by
  by_cases hflag : state.cancelled task.id = true
  · have hfinish : state.readUpTo index task fd dest (bufAfter dest after) =
        state.finish index task (some fd) (.error cancelledError) := by
      cases dest <;> simp [State.readUpTo, hflag]
    rw [hfinish]
    exact .cancelled hflag (ends_finish ..)
  · rw [Bool.not_eq_true] at hflag
    by_cases hfull : destLen dest ≤ (bufAfter dest after).len
    · rw [State.readUpTo_full hflag hfull]
      exact .full hflag hfull (ends_finish ..)
    · rw [State.readUpTo_room hflag hfull]
      exact .reads fd hflag (not_le.mp hfull)

theorem readPolled_poll {state next : State} {index : ℕ} {task : Task} {ans : Answers}
    {handle : Handle} {pos : ℕ} {dest : Dest} {reads : Reads}
    (hget : state.tasks[index]? = some task) (hop : task.op = .readAt handle pos dest)
    (hat : AtRead dest (reads task.id) task.stage)
    (hpoll : state.poll ans index = some next) :
    ReadPolled state index task dest (reads task.id)
      (recordRead state (.poll index ans) reads task.id) next := by
  obtain ⟨id, op, openId, cb, stage⟩ := task
  obtain rfl : op = .readAt handle pos dest := hop
  change AtRead dest (reads id) stage at hat
  obtain ⟨rfl, hnone⟩ | ⟨fd, rfl⟩ := hat
  · have hafter : recordRead state (.poll index ans) reads id = [] := by
      simpa [recordRead, hget] using hnone
    rw [hafter]
    simp only [State.poll, hget, Option.some.injEq] at hpoll
    subst hpoll
    rw [State.execute]
    by_cases hflag : state.cancelled id = true
    · rw [if_pos hflag]
      exact .cancelled hflag (ends_finish ..)
    · rw [if_neg hflag]
      rw [Bool.not_eq_true] at hflag
      simp only [State.withFile]
      split
      · exact .unknown hflag rfl (ends_finish ..)
      · rename_i fd hlookup
        cases dest with
        | alloc len => exact @readPolled_readUpTo state index _ _ _ [] fd
        | into ptr len => exact @readPolled_readUpTo state index _ _ _ [] fd
  · simp only [State.poll, hget, Option.some.injEq] at hpoll
    subst hpoll
    cases hdata : ans.data with
    | error errno =>
        have hafter : recordRead state (.poll index ans) reads id = reads id := by
          simp [recordRead, hget, hdata]
        rw [hafter, State.orFail]
        exact .failed errno (by simp) rfl (ends_finish ..)
    | ok data =>
        have hafter : recordRead state (.poll index ans) reads id = reads id ++ [data] := by
          simp [recordRead, hget, hdata]
        rw [hafter, State.orFail]
        by_cases hnil : data = []
        · subst hnil
          have hsame : bufAfter dest (reads id ++ [[]]) = bufAfter dest (reads id) := by
            rw [bufAfter_append_one, fill_nil]
          rw [if_pos rfl]
          refine .atEnd (by simp) rfl ?_
          rw [hsame]
          cases dest <;> exact ends_finish ..
        · rw [if_neg hnil, ← bufAfter_append_one]
          exact readPolled_readUpTo fd

/-! ## What the record says -/

/-- The tasks and the record agree; `sent` ties a task to its submission. -/
structure Recorded (state : State) (reads : Reads) : Prop where
  stages : ∀ task ∈ state.tasks, ∀ handle pos dest, task.op = .readAt handle pos dest →
    AtRead dest (reads task.id) task.stage
  sent : ∀ task ∈ state.tasks, Event.sent (.submit task.id task.op task.id) ∈ state.log
  waiting : ∀ msg ∈ state.rx, Event.sent msg ∈ state.log
  fresh : ∀ id, id ∉ State.submittedIds state.log ∨ id ∈ waitingIds state.rx → reads id = []

section Steps

variable {state next : State} {index : ℕ} {task : Task} {reads : Reads}

def submittedId : Event → Option OpId
  | .sent (.submit id _ _) => some id
  | _ => none

theorem submittedIds_eq_filterMap (log : List Event) :
    State.submittedIds log = log.filterMap submittedId := by
  induction log with
  | nil => rfl
  | cons event log ih =>
      cases event with
      | sent msg =>
          cases msg with
          | submit id op cb => exact congrArg (id :: ·) ih
          | cancel id => exact ih
      | _ => exact ih

theorem mem_submittedIds {id : OpId} {op : Op} {cb : Callback} {log : List Event}
    (hsent : Event.sent (.submit id op cb) ∈ log) : id ∈ State.submittedIds log := by
  rw [submittedIds_eq_filterMap]
  exact List.mem_filterMap.mpr ⟨_, hsent, rfl⟩

/-- An id names one op. -/
theorem sent_unique {id : OpId} {op op' : Op} {cb cb' : Callback} {log : List Event}
    (hunique : (State.submittedIds log).Nodup) (hsent : Event.sent (.submit id op cb) ∈ log)
    (hsent' : Event.sent (.submit id op' cb') ∈ log) : op = op' := by
  rw [submittedIds_eq_filterMap, List.Nodup, List.pairwise_filterMap] at hunique
  have hsymm : Std.Symm fun one other : Event => ∀ id, submittedId one = some id →
      ∀ id', submittedId other = some id' → id ≠ id' :=
    ⟨fun one other hdiffer id hone id' hother => (hdiffer id' hother id hone).symm⟩
  by_contra hne
  exact hunique.forall hsent hsent' (by rintro ⟨⟩; exact hne rfl) id rfl id rfl rfl

/-- A poll adds to the record of the read it polls, if at all. -/
theorem recordRead_cases {ans : Answers} (hget : state.tasks[index]? = some task) :
    recordRead state (.poll index ans) reads = reads ∨
      (∃ handle pos dest, task.op = .readAt handle pos dest) ∧
        ∃ data, recordRead state (.poll index ans) reads =
          Function.update reads task.id (reads task.id ++ [data]) := by
  obtain ⟨id, op, openId, cb, stage⟩ := task
  cases hdata : ans.data with
  | error errno => exact .inl (by simp [recordRead, hget, hdata])
  | ok data =>
      cases op with
      | readAt handle pos dest =>
          cases stage with
          | reading fd buf =>
              exact .inr ⟨⟨handle, pos, dest, rfl⟩, data, by simp [recordRead, hget, hdata]⟩
          | _ => exact .inl (by simp [recordRead, hget, hdata])
      | _ => exact .inl (by simp [recordRead, hget, hdata])

theorem recordRead_other {ans : Answers} (hget : state.tasks[index]? = some task) {id : OpId}
    (hother : id ≠ task.id) : recordRead state (.poll index ans) reads id = reads id := by
  obtain hsame | ⟨-, data, hupdate⟩ := @recordRead_cases state index task reads ans hget
  · rw [hsame]
  · rw [hupdate, Function.update_of_ne hother]

/-- The other tasks have other ids, and the id of a task is not waiting. -/
theorem ids_apart (hinv : Invariant state) (hgoing : state.returned = false)
    (hget : state.tasks[index]? = some task) :
    (∀ other ∈ state.tasks.eraseIdx index, other ∈ state.tasks ∧ other.id ≠ task.id) ∧
      task.id ∉ waitingIds state.rx ∧ settledTimes task.id state.log = 0 := by
  have hbalance := hinv.balance hgoing task.id
  have hone := List.nodup_iff_count_le_one.mp hinv.unique task.id
  have herase := Polled.count_erase (·.id) hget task.id
  rw [if_pos (beq_self_eq_true _)] at herase
  simp only [State.pendingTimes] at hbalance
  refine ⟨fun other hother => ⟨List.mem_of_mem_eraseIdx hother, fun hsame => ?_⟩, ?_, by omega⟩
  · have hmem : task.id ∈ (state.tasks.eraseIdx index).map (·.id) :=
      List.mem_map.mpr ⟨other, hother, hsame⟩
    have := List.count_pos_iff.mpr hmem
    omega
  · rw [← List.count_eq_zero]
    omega

theorem not_settled {id : OpId} {log : List Event} (hnone : settledTimes id log = 0)
    (result : Outcome) : Event.settled id result ∉ log := by
  intro hmem
  rw [settledTimes, List.countP_eq_zero] at hnone
  exact hnone _ hmem (by simp)

/-- What any poll leaves as it is. -/
theorem Polled.quiet (hpolled : Polled state index task next)
    (hget : state.tasks[index]? = some task) :
    (∀ other ∈ next.tasks, other ∈ state.tasks.eraseIdx index ∨
      ∃ stage, other = { task with stage := stage }) ∧
    ∃ events, next.log = events ++ state.log ∧ (∀ msg, Event.sent msg ∉ events) ∧
      ∀ id result, Event.settled id result ∈ events → id = task.cb := by
  have hfiles : ∀ events : List Event, (∀ event ∈ events, event.isFile) →
      (∀ msg, Event.sent msg ∉ events) ∧ ∀ id result, Event.settled id result ∉ events :=
    fun events hevents => ⟨fun msg hmem => hevents _ hmem, fun id result hmem => hevents _ hmem⟩
  have hset : ∀ stage, ∀ other ∈ state.tasks.set index { task with stage := stage },
      other ∈ state.tasks.eraseIdx index ∨ ∃ stage, other = { task with stage := stage } := by
    intro stage other hother
    rcases List.mem_cons.mp ((Polled.perm_set hget _).mem_iff.mp hother) with hsame | hrest
    · exact .inr ⟨stage, hsame⟩
    · exact .inl hrest
  cases hpolled with
  | waits stage events hfits hopen hevents =>
      obtain ⟨hsent, hsettled⟩ := hfiles events hevents
      exact ⟨hset stage, events, rfl, hsent, fun id result hmem => absurd hmem (hsettled _ _)⟩
  | closes handle fd hop hlookup =>
      exact ⟨hset _, [], rfl, by simp, by simp⟩
  | settles events result hevents hclose =>
      obtain ⟨hsent, hsettled⟩ := hfiles events hevents
      refine ⟨fun other hother => .inl hother, .settled task.cb result :: events, rfl, ?_, ?_⟩
      · simpa using hsent
      · intro id result' hmem
        rcases List.mem_cons.mp hmem with hsame | hrest
        · cases hsame
          rfl
        · exact absurd hrest (hsettled _ _)
  | registers handle fd size hopenId =>
      exact ⟨fun other hother => .inl hother,
        [.settled task.cb (.ok (.handle handle size fd)), .registered handle fd], rfl,
        by simp, by simp⟩

/-- A step that runs no task: it may spawn one for a message, and nothing is
sent or settled. -/
def Idles (state next : State) : Prop :=
  (∀ other ∈ next.tasks, other ∈ state.tasks ∨ other.stage = .spawned ∧
    .submit other.id other.op other.cb ∈ state.rx) ∧
  (∀ msg ∈ next.rx, msg ∈ state.rx) ∧
  (∀ id ∈ waitingIds next.rx, id ∈ waitingIds state.rx) ∧
  ∃ events, next.log = events ++ state.log ∧ (∀ msg, Event.sent msg ∉ events) ∧
    ∀ id result, Event.settled id result ∉ events

/-- What the loop of `run` leaves as it is, and the task it may spawn. -/
theorem recv_quiet (hrecv : state.recv = some next) : Idles state next := by
  rw [State.recv] at hrecv
  split at hrecv
  · cases hrecv
  · split at hrecv
    · rename_i msg rx hrx
      cases hrecv
      rw [Idles, hrx]
      cases msg with
      | submit id op cb =>
          refine ⟨fun other hother => ?_, fun msg => List.mem_cons_of_mem _,
            fun id => List.mem_cons_of_mem _, [.handled (.submit id op cb)], rfl, by simp, by simp⟩
          rcases List.mem_append.mp hother with hold | hnew
          · exact .inl hold
          · rw [List.mem_singleton.mp hnew]
            exact .inr ⟨rfl, List.mem_cons_self⟩
      | cancel id =>
          have hnext : ∃ flags, ({ state with rx := rx } : State).handleMsg (.cancel id) =
              { state with
                rx := rx
                cancelFlags := flags
                log := .handled (.cancel id) :: state.log } := by
            simp only [State.handleMsg]
            split
            · exact ⟨_, rfl⟩
            · exact ⟨_, rfl⟩
          obtain ⟨flags, hnext⟩ := hnext
          rw [hnext]
          exact ⟨fun other hother => .inl hother, fun msg => List.mem_cons_of_mem _,
            fun id hid => hid, [.handled (.cancel id)], rfl, by simp, by simp⟩
    · cases hrecv

theorem dropRuntime_quiet (hdrop : state.dropRuntime = some next) : Idles state next := by
  obtain ⟨-, -, -, rfl⟩ := State.dropRuntime_eq hdrop
  exact ⟨by simp [State.dropped], fun msg hmsg => hmsg, fun id hid => hid, _, rfl, by simp,
    by simp⟩

theorem submittedIds_of_quiet {events : List Event} (hquiet : ∀ msg, Event.sent msg ∉ events)
    (log : List Event) : State.submittedIds (events ++ log) = State.submittedIds log := by
  rw [submittedIds_eq_filterMap, submittedIds_eq_filterMap, List.filterMap_append]
  rw [List.filterMap_eq_nil_iff.mpr, List.nil_append]
  intro event hevent
  cases event with
  | sent msg => exact absurd hevent (hquiet msg)
  | _ => rfl

theorem sent_of_quiet {events log : List Event} (hquiet : ∀ msg, Event.sent msg ∉ events)
    {msg : Msg} : Event.sent msg ∈ events ++ log ↔ Event.sent msg ∈ log := by
  simp [hquiet]

theorem ReadPolled.ends_or_reads {dest : Dest} {chunks after : Chunks}
    (hread : ReadPolled state index task dest chunks after next) :
    (∃ result, Ends state index task result next) ∨
      ∃ fd, next = state.suspend index task (.reading fd (bufAfter dest after)) := by
  cases hread with
  | cancelled _ hends => exact .inl ⟨_, hends⟩
  | unknown _ _ hends => exact .inl ⟨_, hends⟩
  | failed _ _ _ hends => exact .inl ⟨_, hends⟩
  | atEnd _ _ hends => exact .inl ⟨_, hends⟩
  | full _ _ hends => exact .inl ⟨_, hends⟩
  | reads fd _ _ => exact .inr ⟨fd, rfl⟩

namespace Recorded

theorem new : Recorded .new fun _ => [] where
  stages := by simp [State.new]
  sent := by simp [State.new]
  waiting := by simp [State.new]
  fresh _ _ := rfl

theorem poll (hrecorded : Recorded state reads) (hinv : Invariant state) {ans : Answers}
    (hpoll : state.poll ans index = some next) :
    Recorded next (recordRead state (.poll index ans) reads) := by
  obtain ⟨task, hget, hwell, hpolled⟩ := hinv.polled hpoll
  obtain ⟨hapart, hwaiting, -⟩ := ids_apart hinv (hinv.going_of_poll hpoll) hget
  obtain ⟨hothers, events, hlog, hsent, -⟩ := hpolled.quiet hget
  have hmem := List.mem_of_getElem? hget
  have hself := hrecorded.sent task hmem
  constructor
  · rintro other hother handle pos dest hop
    rcases hothers other hother with hrest | ⟨stage, rfl⟩
    · rw [recordRead_other hget (hapart other hrest).2]
      exact hrecorded.stages other (hapart other hrest).1 handle pos dest hop
    · have hread := readPolled_poll hget hop (hrecorded.stages task hmem handle pos dest hop) hpoll
      obtain ⟨result, hends⟩ | ⟨fd, rfl⟩ := hread.ends_or_reads
      · rw [hends.tasks] at hother
        exact absurd rfl (hapart _ hother).2
      · rcases List.mem_cons.mp ((Polled.perm_set hget _).mem_iff.mp hother) with hsame | hrest
        · cases hsame
          exact .inr ⟨fd, rfl⟩
        · exact absurd rfl (hapart _ hrest).2
  · intro other hother
    rw [hlog, sent_of_quiet hsent]
    rcases hothers other hother with hrest | ⟨stage, rfl⟩
    · exact hrecorded.sent other (hapart other hrest).1
    · exact hself
  · intro msg hmsg
    rw [hlog, sent_of_quiet hsent]
    exact hrecorded.waiting msg (hpolled.frame.1 ▸ hmsg)
  · intro id hid
    rw [hpolled.submittedIds_eq, hpolled.frame.1] at hid
    rw [recordRead_other hget, hrecorded.fresh id hid]
    rintro rfl
    rcases hid with hnot | hwait
    · exact hnot (mem_submittedIds hself)
    · exact hwaiting hwait

theorem mem_waitingIds {id : OpId} {op : Op} {cb : Callback} {rx : List Msg}
    (hmem : .submit id op cb ∈ rx) : id ∈ waitingIds rx := by
  induction rx with
  | nil => cases hmem
  | cons msg rx ih =>
      rcases List.mem_cons.mp hmem with rfl | hrest
      · exact List.mem_cons_self
      · cases msg with
        | submit other op' cb' => exact List.mem_cons_of_mem _ (ih hrest)
        | cancel other => exact ih hrest

theorem idles (hrecorded : Recorded state reads) (hinv : Invariant state)
    (hidles : Idles state next) : Recorded next reads := by
  obtain ⟨htasks, hrx, hids, events, hlog, hsent, -⟩ := hidles
  constructor
  · intro other hother handle pos dest hop
    rcases htasks other hother with hold | ⟨hstage, hmsg⟩
    · exact hrecorded.stages other hold handle pos dest hop
    · exact .inl ⟨hstage, hrecorded.fresh _ (.inr (mem_waitingIds hmsg))⟩
  · intro other hother
    rw [hlog, sent_of_quiet hsent]
    rcases htasks other hother with hold | ⟨-, hmsg⟩
    · exact hrecorded.sent other hold
    · have hown := hinv.rxOwn _ _ _ hmsg
      exact hrecorded.waiting _ (hown ▸ hmsg)
  · intro msg hmsg
    rw [hlog, sent_of_quiet hsent]
    exact hrecorded.waiting msg (hrx msg hmsg)
  · intro id hid
    rw [hlog, submittedIds_of_quiet hsent] at hid
    exact hrecorded.fresh id (hid.imp_right (hids id))

theorem send (hrecorded : Recorded state reads) {msg : Msg}
    (hnew : ∀ id op cb, msg = .submit id op cb → id ∉ State.submittedIds state.log)
    (hsend : state.send msg = some next) : Recorded next reads := by
  rw [State.send] at hsend
  split at hsend
  · cases hsend
  · cases hsend
    constructor
    · exact hrecorded.stages
    · intro other hother
      exact List.mem_cons_of_mem _ (hrecorded.sent other hother)
    · intro other hother
      rcases List.mem_append.mp hother with hold | hlast
      · exact List.mem_cons_of_mem _ (hrecorded.waiting other hold)
      · rw [List.mem_singleton.mp hlast]
        exact List.mem_cons_self
    · intro id hid
      cases msg with
      | submit other op cb =>
          by_cases hsame : id = other
          · subst hsame
            exact hrecorded.fresh id (.inl (hnew id op cb rfl))
          · refine hrecorded.fresh id (hid.imp ?_ ?_)
            · exact fun hnot hmem => hnot (List.mem_cons_of_mem _ hmem)
            · intro hwait
              simpa [State.emit, waitingIds_append, waitingIds, hsame] using hwait
      | cancel other =>
          refine hrecorded.fresh id (hid.imp_right ?_)
          intro hwait
          simpa [State.emit, waitingIds_append, waitingIds] using hwait

theorem step (hrecorded : Recorded state reads) (hinv : Invariant state) {label : Label}
    (hstep : Compio.step state label = some next) :
    Recorded next (recordRead state label reads) := by
  cases label with
  | submit id op =>
      simp only [Compio.step] at hstep
      split at hstep
      · cases hstep
      · rename_i hnew
        exact hrecorded.send (by rintro _ _ _ ⟨⟩; exact hnew) hstep
  | requestCancel id => exact hrecorded.send (by rintro _ _ _ ⟨⟩) hstep
  | dropSubmitters =>
      cases hstep
      exact ⟨hrecorded.stages, hrecorded.sent, hrecorded.waiting, hrecorded.fresh⟩
  | recv => exact hrecorded.idles hinv (recv_quiet hstep)
  | dropRuntime => exact hrecorded.idles hinv (dropRuntime_quiet hstep)
  | poll index ans => exact hrecorded.poll hinv hstep

end Recorded

end Steps

theorem Traced.recorded {now : State × Reads} (hreach : traced.Reachable now) :
    Recorded now.1 now.2 := by
  refine @System.Reachable.invariant _ _ _ (fun now => Recorded now.1 now.2) ?_ ?_ _ hreach
  · rintro _ rfl
    exact .new
  · intro now label next hreach hrecorded hstep
    simp only [traced, Option.map_eq_some_iff] at hstep
    obtain ⟨state, hstate, rfl⟩ := hstep
    exact hrecorded.step (Invariant.of_reachable (Traced.reachable hreach)) hstate

/-! ## Reads that have all their bytes -/

/-- A read whose chunks cover its request settles with what it has read, unless
it never had a file; it is not left reading. -/
structure Kept (state : State) (reads : Reads) : Prop where
  settled : ∀ id handle pos dest, Event.sent (.submit id (.readAt handle pos dest) id) ∈ state.log →
    ∀ result, Event.settled id result ∈ state.log → Covers dest (reads id) →
      result = .ok (destReply dest (bufAfter dest (reads id)).len (bufAfter dest (reads id))) ∨
        result = .error badHandle ∧ reads id = []
  reading : ∀ task ∈ state.tasks, ∀ handle pos dest, task.op = .readAt handle pos dest →
    task.stage ≠ .spawned → ¬ Covers dest (reads task.id)

/-- The poll that completes a read finds no cancel request, and a buffer that
counts all bytes of the request. -/
def Timely (now : State × Reads) (label : Label) : Prop :=
  ∀ index ans, label = .poll index ans → ∀ task handle pos dest,
    now.1.tasks[index]? = some task → task.op = .readAt handle pos dest →
    Covers dest (recordRead now.1 label now.2 task.id) →
      now.1.cancelled task.id = false ∧
        destLen dest ≤ (bufAfter dest (recordRead now.1 label now.2 task.id)).len

section Keeping

variable {state next : State} {index : ℕ} {task : Task} {reads : Reads}

/-- A poll that is in time keeps the result. -/
theorem ReadPolled.kept {dest : Dest} {chunks after : Chunks}
    (hread : ReadPolled state index task dest chunks after next)
    (hopen : task.stage ≠ .spawned → ¬ Covers dest chunks) (hcovers : Covers dest after)
    (hflag : state.cancelled task.id = false) (hfull : destLen dest ≤ (bufAfter dest after).len) :
    Ends state index task
        (.ok (destReply dest (bufAfter dest after).len (bufAfter dest after))) next ∨
      Ends state index task (.error badHandle) next ∧ after = [] := by
  cases hread with
  | cancelled hset hends => exact absurd (hset.symm.trans hflag) (by simp)
  | unknown _ hnone hends => exact .inr ⟨hends, hnone⟩
  | failed errno hreading hsame hends => exact absurd (hsame ▸ hcovers) (hopen hreading)
  | atEnd hreading hlast hends =>
      rw [hlast, covers_append_nil] at hcovers
      exact absurd hcovers (hopen hreading)
  | full _ _ hends => exact .inl hends
  | reads fd _ hroom => omega

/-- A poll that is not in time loses it. -/
theorem ReadPolled.lost {dest : Dest} {chunks after : Chunks}
    (hread : ReadPolled state index task dest chunks after next)
    (hopen : task.stage ≠ .spawned → ¬ Covers dest chunks) (hcovers : Covers dest after)
    (hlate : state.cancelled task.id = false → (bufAfter dest after).len < destLen dest) :
    Ends state index task (.error cancelledError) next ∨
      ∃ fd, next = state.suspend index task (.reading fd (bufAfter dest after)) := by
  cases hread with
  | cancelled _ hends => exact .inl hends
  | unknown hflag hnone hends =>
      have hlen := hlate hflag
      rw [hnone, covers_nil_iff] at hcovers
      omega
  | failed errno hreading hsame hends => exact absurd (hsame ▸ hcovers) (hopen hreading)
  | atEnd hreading hlast hends =>
      rw [hlast, covers_append_nil] at hcovers
      exact absurd hcovers (hopen hreading)
  | full hflag hfull _ => exact absurd hfull (not_le.mpr (hlate hflag))
  | reads fd _ _ => exact .inr ⟨fd, rfl⟩

theorem Ends.settled_iff {result : Outcome} (hends : Ends state index task result next)
    (hnone : ∀ other, Event.settled task.cb other ∉ state.log) (other : Outcome) :
    Event.settled task.cb other ∈ next.log ↔ other = result := by
  obtain ⟨events, hlog, hfiles⟩ := hends.log
  rw [hlog]
  constructor
  · intro hmem
    rcases List.mem_cons.mp hmem with hsame | hrest
    · cases hsame
      rfl
    · rcases List.mem_append.mp hrest with hevent | hold
      · exact absurd (hfiles _ hevent) id
      · exact absurd hold (hnone other)
  · rintro rfl
    exact List.mem_cons_self

namespace Kept

theorem poll (hkept : Kept state reads) (hinv : Invariant state) (hrecorded : Recorded state reads)
    {ans : Answers} (htimely : Timely (state, reads) (.poll index ans))
    (hpoll : state.poll ans index = some next) :
    Kept next (recordRead state (.poll index ans) reads) := by
  obtain ⟨task, hget, hwell, hpolled⟩ := hinv.polled hpoll
  obtain ⟨hapart, -, hpending⟩ := ids_apart hinv (hinv.going_of_poll hpoll) hget
  obtain ⟨hothers, events, hlog, hsent, hevents⟩ := hpolled.quiet hget
  have hmem := List.mem_of_getElem? hget
  have hnone : ∀ other, Event.settled task.cb other ∉ state.log :=
    hwell.own ▸ not_settled hpending
  -- what the poll does when it completes the read
  have hends : ∀ handle pos dest, task.op = .readAt handle pos dest →
      Covers dest (recordRead state (.poll index ans) reads task.id) → _ :=
    fun handle pos dest hop hcovers =>
      (readPolled_poll hget hop (hrecorded.stages task hmem handle pos dest hop) hpoll).kept
        (hkept.reading task hmem handle pos dest hop) hcovers
        (htimely index ans rfl task handle pos dest hget hop hcovers).1
        (htimely index ans rfl task handle pos dest hget hop hcovers).2
  constructor
  · intro id handle pos dest hsubmit result hsettled hcovers
    rw [hlog, sent_of_quiet hsent] at hsubmit
    by_cases hsame : id = task.id
    · subst hsame
      have hop := sent_unique hinv.unique (hrecorded.sent task hmem) hsubmit
      rw [← hwell.own] at hsettled
      obtain hdone | ⟨hdone, hnil⟩ := hends handle pos dest hop hcovers
      · exact .inl ((hdone.settled_iff hnone result).mp hsettled)
      · exact .inr ⟨(hdone.settled_iff hnone result).mp hsettled, hnil⟩
    · rw [recordRead_other hget hsame] at hcovers ⊢
      rw [hlog] at hsettled
      rcases List.mem_append.mp hsettled with hnew | hold
      · exact absurd ((hevents id result hnew).trans hwell.own) hsame
      · exact hkept.settled id handle pos dest hsubmit result hold hcovers
  · intro other hother handle pos dest hop hstage hcovers
    rcases hothers other hother with hrest | ⟨stage, rfl⟩
    · rw [recordRead_other hget (hapart other hrest).2] at hcovers
      exact hkept.reading other (hapart other hrest).1 handle pos dest hop hstage hcovers
    · have htasks : next.tasks = state.tasks.eraseIdx index := by
        obtain hdone | ⟨hdone, -⟩ := hends handle pos dest hop hcovers
        · exact hdone.tasks
        · exact hdone.tasks
      rw [htasks] at hother
      exact absurd rfl (hapart _ hother).2

theorem new : Kept .new fun _ => [] where
  settled := by simp [State.new]
  reading := by simp [State.new]

theorem idles (hkept : Kept state reads) (hidles : Idles state next) : Kept next reads := by
  obtain ⟨htasks, -, -, events, hlog, hsent, hsettled⟩ := hidles
  constructor
  · intro id handle pos dest hsubmit result hresult
    rw [hlog, sent_of_quiet hsent] at hsubmit
    rw [hlog] at hresult
    rcases List.mem_append.mp hresult with hnew | hold
    · exact absurd hnew (hsettled id result)
    · exact hkept.settled id handle pos dest hsubmit result hold
  · intro other hother handle pos dest hop hstage
    rcases htasks other hother with hold | ⟨hspawned, -⟩
    · exact hkept.reading other hold handle pos dest hop hstage
    · exact absurd hspawned hstage

theorem send (hkept : Kept state reads) (hinv : Invariant state) {msg : Msg}
    (hnew : ∀ id op cb, msg = .submit id op cb → id ∉ State.submittedIds state.log)
    (hsend : state.send msg = some next) : Kept next reads := by
  rw [State.send] at hsend
  split at hsend
  · cases hsend
  · rename_i hopen
    cases hsend
    refine ⟨?_, hkept.reading⟩
    intro id handle pos dest hsubmit result hresult hcovers
    have hold : Event.settled id result ∈ state.log := by
      simpa [State.emit] using hresult
    rcases List.mem_cons.mp hsubmit with hsame | hrest
    · -- an op that was just sent is not settled
      cases hsame
      have hgoing : state.returned = false := by
        by_contra hreturned
        exact hopen (hinv.ended (by simpa using hreturned)).2.1
      have hbalance := hinv.balance hgoing id
      rw [List.count_eq_zero.mpr (hnew id _ _ rfl)] at hbalance
      exact absurd hold (not_settled (by omega) result)
    · exact hkept.settled id handle pos dest hrest result hold hcovers

theorem step (hkept : Kept state reads) (hinv : Invariant state) (hrecorded : Recorded state reads)
    {label : Label} (htimely : Timely (state, reads) label)
    (hstep : Compio.step state label = some next) : Kept next (recordRead state label reads) := by
  cases label with
  | submit id op =>
      simp only [Compio.step] at hstep
      split at hstep
      · cases hstep
      · rename_i hnew
        exact hkept.send hinv (by rintro _ _ _ ⟨⟩; exact hnew) hstep
  | requestCancel id => exact hkept.send hinv (by rintro _ _ _ ⟨⟩) hstep
  | dropSubmitters =>
      cases hstep
      exact ⟨hkept.settled, hkept.reading⟩
  | recv => exact hkept.idles (recv_quiet hstep)
  | dropRuntime => exact hkept.idles (dropRuntime_quiet hstep)
  | poll index ans => exact hkept.poll hinv hrecorded htimely hstep

/-- The condition is needed: a poll that completes a read too late, or without
counting all of it, loses the data. -/
theorem timely (hkept : Kept state reads) (hinv : Invariant state)
    (hrecorded : Recorded state reads) {label : Label}
    (hstep : Compio.step state label = some next)
    (hnext : Kept next (recordRead state label reads)) : Timely (state, reads) label := by
  rintro index ans rfl task handle pos dest hget hop hcovers
  obtain ⟨found, hfound, hwell, hpolled⟩ := hinv.polled hstep
  obtain rfl : task = found := Option.some.inj (hget.symm.trans hfound)
  obtain ⟨-, events, hlog, hsent, -⟩ := hpolled.quiet hget
  have hmem := List.mem_of_getElem? hget
  have hread := readPolled_poll hget hop (hrecorded.stages task hmem handle pos dest hop) hstep
  by_contra hlate
  obtain hends | ⟨fd, rfl⟩ := hread.lost (hkept.reading task hmem handle pos dest hop) hcovers
    (fun hflag => not_le.mp fun hfull => hlate ⟨hflag, hfull⟩)
  · have hsubmit : Event.sent (.submit task.id (.readAt handle pos dest) task.id) ∈ next.log := by
      rw [hlog, sent_of_quiet hsent, ← hop]
      exact hrecorded.sent task hmem
    have hsettled : Event.settled task.id (.error cancelledError) ∈ next.log := by
      obtain ⟨closes, hlog', -⟩ := hends.log
      rw [hlog', hwell.own]
      exact List.mem_cons_self
    obtain hresult | ⟨hresult, -⟩ :=
      hnext.settled task.id handle pos dest hsubmit _ hsettled hcovers
    · cases hresult
    · cases hresult
  · obtain ⟨hindex, -⟩ := List.getElem?_eq_some_iff.mp hget
    exact hnext.reading _ (List.mem_of_getElem? (State.get_suspend hindex _)) handle pos dest hop
      (by simp) hcovers

end Kept

end Keeping

/-- **Late cancels.**  Runs in which every read is completed in time keep the
results of all of them, and a step that is not in time loses one. -/
theorem late_cancel {now : State × Reads} (hreach : traced.ReachableBy Timely now) :
    Kept now.1 now.2 ∧
      ∀ label next, traced.step now label = some next →
        (Kept next.1 next.2 ↔ Timely now label) := by
  have hkept : Kept now.1 now.2 := by
    refine @System.ReachableBy.invariant _ _ _ _ (fun now => Kept now.1 now.2) ?_ ?_ _ hreach
    · rintro _ rfl
      exact .new
    · intro now label next hreach hkept htimely hstep
      simp only [traced, Option.map_eq_some_iff] at hstep
      obtain ⟨state, hstate, rfl⟩ := hstep
      exact hkept.step (Invariant.of_reachable (Traced.reachable hreach.reachable))
        (Traced.recorded hreach.reachable) htimely hstate
  refine ⟨hkept, fun label next hstep => ?_⟩
  simp only [traced, Option.map_eq_some_iff] at hstep
  obtain ⟨state, hstate, rfl⟩ := hstep
  have hinv := Invariant.of_reachable (Traced.reachable hreach.reachable)
  have hrecorded := Traced.recorded hreach.reachable
  exact ⟨fun hnext => hkept.timely hinv hrecorded hstate hnext,
    fun htimely => hkept.step hinv hrecorded htimely hstate⟩

instance (dest : Dest) (chunks : Chunks) : Decidable (Covers dest chunks) :=
  inferInstanceAs (Decidable (∀ offset < destLen dest,
    ∃ range ∈ ranges (destBuf dest 0 []) chunks, range.1 ≤ offset ∧ offset < range.2))

def timelyTest (now : State × Reads) (label : Label) : Bool :=
  match label with
  | .poll index _ =>
      match now.1.tasks[index]? with
      | some ⟨id, .readAt _ _ dest, _, _, _⟩ =>
          decide (Covers dest (recordRead now.1 label now.2 id) →
            now.1.cancelled id = false ∧
              destLen dest ≤ (bufAfter dest (recordRead now.1 label now.2 id)).len)
      | _ => true
  | .submit _ _ | .requestCancel _ | .dropSubmitters | .recv | .dropRuntime => true

theorem timely_of_test (now : State × Reads) (label : Label) (htest : timelyTest now label) :
    Timely now label := by
  rintro index ans rfl ⟨id, op, openId, cb, stage⟩ handle pos dest hget hop
  obtain rfl : op = .readAt handle pos dest := hop
  simpa only [timelyTest, hget, decide_eq_true_eq] using htest

/-- A file that is opened as 1, and two of its bytes asked for. -/
def openAndRead : List Label :=
  [.submit 0 (.openFile [] {}), .recv, .poll 0 {}, .poll 0 { openFd := .ok 3 }, .poll 0 {},
    .submit 1 (.readAt 1 0 (.into 0 2)), .recv, .poll 0 {}]

/-- The cancel of a read is handled when the read is done. -/
theorem late_cancel_in_time :
    ∃ now : State × Reads, Event.settled 1 (.ok (.read 2)) ∈ now.1.log ∧
      Event.handled (.cancel 1) ∈ now.1.log ∧ Kept now.1 now.2 := by
  obtain ⟨now, hexec⟩ : ∃ now, traced.exec (.new, fun _ => [])
      (openAndRead ++ [.requestCancel 1, .poll 0 { data := .ok [1, 2] }, .recv]) = some now :=
    ⟨_, rfl⟩
  have hreach : traced.ReachableBy Timely now :=
    .ofExec timely_of_test (.init rfl) hexec (by decide)
  refine ⟨now, ?_, ?_, (late_cancel hreach).1⟩
  · cases hexec
    decide
  · cases hexec
    decide

/-- The cancel is handled between the last chunk and the next look at it. -/
theorem covered_read_cancelled :
    ∃ now : State × Reads, traced.Reachable now ∧
      Event.sent (.submit 1 (.readAt 1 0 (.into 0 2)) 1) ∈ now.1.log ∧
      Event.settled 1 (.error cancelledError) ∈ now.1.log ∧ Covers (.into 0 2) (now.2 1) := by
  obtain ⟨now, hexec⟩ : ∃ now, traced.exec (.new, fun _ => [])
      (openAndRead ++ [.requestCancel 1, .recv, .poll 0 { data := .ok [1, 2] }]) = some now :=
    ⟨_, rfl⟩
  refine ⟨now, (System.Reachable.ofInit rfl).ofExec hexec, ?_, ?_, ?_⟩
  · cases hexec
    decide
  · cases hexec
    decide
  · cases hexec
    decide

end Turbofile.Compio
