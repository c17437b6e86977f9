import Turbofile.Bridge.ParallelFill
import Turbofile.Library.Tally

/-!
# What a pending future waits for

Any number of ops, groups and completions are outstanding at once.  A future
that is not done is owed exactly one thing that will settle it: the callback of
its op, the last chunk of its group, a queued completion, or the task it was
handed over to.  A future that is done is owed nothing.
-/

namespace Turbofile.Bridge

open Turbofile.Core
open Turbofile.Asyncio
open Turbofile.Futures
open Turbofile.ParallelFill
open Turbofile.Tally

/-! ## Who settles a future -/

def Inflight.settles (future : ℕ) (entry : Inflight) : ℕ :=
  match entry.onDone with
  | .complete owner _ => if owner = future then 1 else 0
  | .chunkDone _ _ _ => 0

/-- The callback is one of the group's. -/
def Inflight.counts (group : ℕ) (entry : Inflight) : ℕ :=
  match entry.onDone with
  | .complete _ _ => 0
  | .chunkDone owner _ _ => if owner = group then 1 else 0

def ReadGroup.settles (future : ℕ) (group : ReadGroup) : ℕ :=
  if group.future = future ∧ 0 < group.remaining then 1 else 0

def Completion.settles (future : ℕ) (completion : Completion) : ℕ :=
  if completion.future = future then 1 else 0

namespace World

/-- How many things in the bridge will settle the future. -/
def sources (world : World) (future : ℕ) : ℕ :=
  ofList (Inflight.settles future) world.inflight +
    ofList (ReadGroup.settles future) world.groups +
    ofList (Completion.settles future) world.queue

/-- 1 for a future that is not done. -/
def pendingCount (world : World) (future : ℕ) : ℕ :=
  match world.futures[future]? with
  | none => 0
  | some waiting => if waiting.isDone then 0 else 1

def settleCount (world : World) (future : ℕ) : ℕ :=
  world.settles.countP fun call => call.1 = future

end World

/-- `due` counts what outside the bridge will settle a future. -/
structure Ledger (world : World) (unsubmitted : List Inflight) (due : ℕ → ℕ) : Prop where
  owed : ∀ future, world.sources future + due future = world.pendingCount future
  /-- A group waits for the callbacks of its chunks. -/
  groups : ∀ index group, world.groups[index]? = some group →
    group.remaining = ofList (Inflight.counts index) (world.inflight ++ unsubmitted)
  known : ∀ entry ∈ world.inflight ++ unsubmitted, ∀ index, 0 < entry.counts index →
    index < world.groups.length
  chunks : ∀ entry ∈ unsubmitted, ∀ future, entry.settles future = 0
  /-- Each future is settled once. -/
  settled : ∀ future, world.settleCount future + world.pendingCount future =
    if future < world.futures.length then 1 else 0

variable {world : World} {unsubmitted : List Inflight} {due : ℕ → ℕ}

theorem pendingCount_le (world : World) (future : ℕ) : world.pendingCount future ≤ 1 := by
  unfold World.pendingCount
  split
  · exact Nat.zero_le _
  · split_ifs
    · exact Nat.zero_le _
    · exact le_rfl

theorem pendingCount_new (world : World) {future : ℕ}
    (hnew : world.futures.length ≤ future) : world.pendingCount future = 0 := by
  simp only [World.pendingCount, List.getElem?_eq_none hnew]

/-- One more future that is not done. -/
theorem pendingCount_append {next : World} {made : KernelFuture Value}
    (hfutures : next.futures = world.futures ++ [made]) (hmade : made.outcome = none)
    (future : ℕ) :
    next.pendingCount future =
      world.pendingCount future + if world.futures.length = future then 1 else 0 := by
  rcases Nat.lt_trichotomy future world.futures.length with hlt | rfl | hgt
  · rw [if_neg (by omega), World.pendingCount, hfutures, List.getElem?_append_left hlt]
    rfl
  · rw [pendingCount_new world le_rfl, World.pendingCount, hfutures, List.getElem?_concat_length]
    simp [KernelFuture.isDone, hmade]
  · rw [if_neg (by omega), pendingCount_new world hgt.le, pendingCount_new]
    rw [hfutures, List.length_append, List.length_singleton]
    omega

namespace Ledger

/-- The callback of a chunk finds its group, which still waits for it. -/
theorem group_of_counts (hledger : Ledger world unsubmitted due) {entry : Inflight}
    (hentry : entry ∈ world.inflight ++ unsubmitted) {index : ℕ}
    (hcounts : 0 < entry.counts index) :
    ∃ group, world.groups[index]? = some group ∧ 0 < group.remaining := by
  have hlt := hledger.known entry hentry index hcounts
  refine ⟨_, List.getElem?_eq_getElem hlt, ?_⟩
  rw [hledger.groups index _ (List.getElem?_eq_getElem hlt)]
  exact hcounts.trans_le (weight_le_ofList _ hentry)

/-- A new future is owed nothing yet. -/
theorem fresh (hledger : Ledger world unsubmitted due) :
    world.sources world.futures.length = 0 ∧ due world.futures.length = 0 := by
  have howed := hledger.owed world.futures.length
  rw [pendingCount_new world le_rfl] at howed
  omega

theorem settled_append (hledger : Ledger world unsubmitted due) {next : World}
    {made : KernelFuture Value} (hfutures : next.futures = world.futures ++ [made])
    (hmade : made.outcome = none) (hsettles : next.settles = world.settles) (future : ℕ) :
    next.settleCount future + next.pendingCount future =
      if future < next.futures.length then 1 else 0 := by
  have hsettled := hledger.settled future
  have hcount : next.settleCount future = world.settleCount future := by
    rw [World.settleCount, hsettles]
    rfl
  rw [hcount, pendingCount_append hfutures hmade, hfutures, List.length_append,
    List.length_singleton]
  split_ifs at hsettled ⊢ <;> omega

/-- `submit`. -/
theorem submit (hledger : Ledger world [] due) (op : Op) (output : Output) :
    Ledger (world.submit op output).2 [] due where
  owed future := by
    have howed := hledger.owed future
    rw [pendingCount_append rfl rfl]
    simp only [World.sources, World.submit, ofList_append, ofList_cons, ofList_nil,
      Inflight.settles] at howed ⊢
    omega
  groups index group hgroup := by
    have hcount := hledger.groups index group hgroup
    rw [List.append_nil] at hcount
    simpa [World.submit, Inflight.counts] using hcount
  known entry hentry index hcounts := by
    simp only [World.submit, List.append_nil, List.mem_append, List.mem_singleton] at hentry
    rcases hentry with hentry | rfl
    · exact hledger.known entry (by simpa using hentry) index hcounts
    · exact absurd hcounts (Nat.lt_irrefl 0)
  chunks entry hentry := by cases hentry
  settled := hledger.settled_append rfl rfl rfl

/-- One `submit` of the loop of `read_parallel`. -/
theorem post {entry : Inflight} (hledger : Ledger world (entry :: unsubmitted) due) :
    Ledger (ParallelFill.post world entry) unsubmitted due where
  owed future := by
    have howed := hledger.owed future
    have hzero := hledger.chunks entry (List.mem_cons_self ..) future
    simp only [World.sources, ParallelFill.post, ofList_append, ofList_cons, ofList_nil] at howed ⊢
    rw [hzero]
    exact howed
  groups index group hgroup := by
    have hcount := hledger.groups index group hgroup
    simpa [ParallelFill.post] using hcount
  known member hmember := by
    refine hledger.known member ?_
    simpa [ParallelFill.post] using hmember
  chunks member hmember := hledger.chunks member (List.mem_cons_of_mem entry hmember)
  settled := hledger.settled

theorem congr_due {due' : ℕ → ℕ} (hledger : Ledger world unsubmitted due)
    (hdue : ∀ future, due future = due' future) : Ledger world unsubmitted due' := by
  obtain rfl : due = due' := funext hdue
  exact hledger

end Ledger

/-! ## Groups -/

/-- The last callback of a group hands its future over to the queue. -/
theorem settles_count {group : ReadGroup} (hremaining : 0 < group.remaining) (arrival : Arrival)
    (future : ℕ) :
    ReadGroup.settles future (count group arrival).1 +
        ofList (Completion.settles future) (count group arrival).2 =
      ReadGroup.settles future group := by
  simp only [count, ReadGroup.settles, ReadGroup.record_future, ReadGroup.record_remaining]
  by_cases hlast : group.remaining = 1
  · by_cases hmine : group.future = future
    · simp [hlast, hmine, Completion.settles]
    · simp [hlast, hmine, Completion.settles]
  · have hmore : 0 < group.remaining - 1 := by omega
    simp [hlast, hremaining, hmore]

theorem count_remaining (group : ReadGroup) (arrival : Arrival) :
    (count group arrival).1.remaining = group.remaining - 1 := by
  simp [count]

namespace Ledger

/-- The groups with one more. -/
theorem groups_append (hledger : Ledger world [] due) {made : ReadGroup}
    {entries : List Inflight} (hremaining : made.remaining = entries.length)
    (hentries : ∀ entry ∈ entries, ∀ index,
      entry.counts index = if world.groups.length = index then 1 else 0)
    {index : ℕ} {group : ReadGroup} (hgroup : (world.groups ++ [made])[index]? = some group) :
    group.remaining = ofList (Inflight.counts index) (world.inflight ++ entries) := by
  have hcounts : ofList (Inflight.counts index) entries =
      if world.groups.length = index then entries.length else 0 := by
    rw [ofList_congr fun entry hentry => hentries entry hentry index]
    simp [ofList]
  rw [ofList_append, hcounts]
  rcases Nat.lt_trichotomy index world.groups.length with hlt | rfl | hgt
  · rw [List.getElem?_append_left hlt] at hgroup
    have hcount := hledger.groups index group hgroup
    rw [List.append_nil] at hcount
    rw [if_neg hlt.ne', hcount, Nat.add_zero]
  · rw [List.getElem?_concat_length] at hgroup
    obtain rfl := Option.some.inj hgroup
    have hnone : ofList (Inflight.counts world.groups.length) world.inflight = 0 := by
      rw [ofList_eq_zero_iff]
      intro entry hentry
      by_contra hpos
      have hlt := hledger.known entry (by simpa using hentry) _ (Nat.pos_of_ne_zero hpos)
      exact Nat.lt_irrefl _ hlt
    rw [if_pos rfl, hnone, hremaining, Nat.zero_add]
  · rw [List.getElem?_eq_none] at hgroup
    · cases hgroup
    · rw [List.length_append, List.length_singleton]
      omega

/-- `read_parallel` up to its first `submit`. -/
theorem enter (hledger : Ledger world [] due) (call : ParallelFill.Call) (hchunk : 0 < call.chunk) :
    Ledger (call.enter world) (call.ops world.groups.length) due := by
  have hops : ∀ entry ∈ call.ops world.groups.length, ∀ index,
      entry.counts index = if world.groups.length = index then 1 else 0 := by
    intro entry hentry index
    rw [ParallelFill.Call.ops] at hentry
    split at hentry
    · cases hentry
    · obtain ⟨chunk, -, rfl⟩ := List.mem_map.mp hentry
      rfl
  have hpositive : 0 < (call.fresh world.futures.length).remaining := by
    change 0 < max ((call.len + call.chunk - 1) / call.chunk) 1
    omega
  have hknown : ∀ entry ∈ world.inflight ++ call.ops world.groups.length, ∀ index,
      0 < entry.counts index → index < world.groups.length + 1 := by
    intro entry hentry index hcounts
    rcases List.mem_append.mp hentry with hentry | hentry
    · exact (hledger.known entry (by simpa using hentry) index hcounts).trans (Nat.lt_succ_self _)
    · rw [hops entry hentry] at hcounts
      split_ifs at hcounts with hmine
      · omega
      · omega
  have hchunks : ∀ entry ∈ call.ops world.groups.length, ∀ future,
      entry.settles future = 0 := by
    intro entry hentry future
    have hone := hops entry hentry world.groups.length
    rw [if_pos rfl] at hone
    simp only [Inflight.settles, Inflight.counts] at hone ⊢
    cases hdone : entry.onDone with
    | complete owner output =>
        rw [hdone] at hone
        cases hone
    | chunkDone owner start len => rfl
  have hfresh : ∀ future, ReadGroup.settles future (call.fresh world.futures.length) =
      if world.futures.length = future then 1 else 0 := by
    intro future
    simp only [ReadGroup.settles, hpositive, and_true]
    rfl
  by_cases hlen : call.len = 0
  · have hone : (call.fresh world.futures.length).remaining = 1 := by
      change max ((call.len + call.chunk - 1) / call.chunk) 1 = 1
      rw [hlen, Nat.zero_add, Nat.div_eq_of_lt (by omega)]
      rfl
    have hnone : call.ops world.groups.length = [] := by rw [ParallelFill.Call.ops, if_pos hlen]
    rw [hnone] at hknown hchunks ⊢
    rw [enter_eq_of_empty call world hlen]
    exact
      { owed := fun future => by
          have howed := hledger.owed future
          have hcount := settles_count hpositive ⟨⟨0, 0⟩, .ok (.read 0), []⟩ future
          rw [hfresh] at hcount
          rw [pendingCount_append rfl rfl, ← howed, ← hcount]
          simp only [World.sources, ofList_append, ofList_cons, ofList_nil]
          omega
        groups := fun index group hgroup => hledger.groups_append
          (by rw [count_remaining, hone]; rfl) (fun entry hentry => (by cases hentry)) hgroup
        known := by
          rw [List.length_append]
          exact hknown
        chunks := hchunks
        settled := hledger.settled_append rfl rfl rfl }
  · rw [enter_eq_of_pos call world hlen]
    exact
      { owed := fun future => by
          have howed := hledger.owed future
          rw [pendingCount_append rfl rfl, ← howed, ← hfresh]
          simp only [World.sources, ofList_append, ofList_cons, ofList_nil]
          omega
        groups := fun index group hgroup => hledger.groups_append
          (by rw [ParallelFill.Call.ops, if_neg hlen, List.length_map, List.length_range]; rfl)
          hops hgroup
        known := by
          rw [List.length_append]
          exact hknown
        chunks := hchunks
        settled := hledger.settled_append rfl rfl rfl }

/-- The read of many chunks at once. -/
theorem readParallel (hledger : Ledger world [] due) (call : ParallelFill.Call)
    (hchunk : 0 < call.chunk) :
    Ledger (world.readParallel call.handle call.pos call.len call.chunk).2 [] due := by
  have hposts : ∀ (entries : List Inflight) (world : World), Ledger world entries due →
      Ledger (entries.foldl ParallelFill.post world) [] due := by
    intro entries
    induction entries with
    | nil => exact fun world hworld => hworld
    | cons entry entries ih => exact fun world hworld => ih _ hworld.post
  rw [readParallel_eq]
  exact hposts _ _ (hledger.enter call hchunk)

/-- The callback of an op, or of a chunk, moves what is owed on. -/
theorem callback (hledger : Ledger world unsubmitted due) {next : World} {index : ℕ}
    {result : Core.Outcome} {data : List Byte}
    (hcallback : world.callback index result data = some next) :
    Ledger next unsubmitted due := by
  simp only [World.callback, Option.map_eq_some_iff] at hcallback
  obtain ⟨entry, hentry, rfl⟩ := hcallback
  obtain ⟨front, back, hinflight, hrest⟩ := split_at hentry
  have hmember : entry ∈ world.inflight ++ unsubmitted := by
    rw [hinflight]
    simp
  have hothers : ∀ other ∈ (front ++ back) ++ unsubmitted,
      other ∈ world.inflight ++ unsubmitted := by
    intro other hother
    rw [hinflight]
    simp only [List.mem_append, List.mem_cons] at hother ⊢
    tauto
  have hcounts : ∀ group, ofList (Inflight.counts group) (world.inflight ++ unsubmitted) =
      entry.counts group + ofList (Inflight.counts group) ((front ++ back) ++ unsubmitted) := by
    intro group
    simp only [hinflight, ofList_append, ofList_cons]
    omega
  have hsources : ∀ future, ofList (Inflight.settles future) world.inflight =
      entry.settles future + ofList (Inflight.settles future) (front ++ back) := by
    intro future
    simp only [hinflight, ofList_append, ofList_cons]
    omega
  rw [hrest]
  cases hdone : entry.onDone with
  | complete owner output =>
      have hnone : ∀ group, entry.counts group = 0 := by
        intro group
        simp only [Inflight.counts, hdone]
      exact
        { owed := fun future => by
            have howed := hledger.owed future
            have hsettles : entry.settles future = Completion.settles future
                ⟨owner, result, output⟩ := by
              simp only [Inflight.settles, hdone, Completion.settles]
            simp only [World.sources, hsources future, hsettles] at howed
            simp only [World.sources, ofList_append _ world.queue, ofList_cons, ofList_nil]
            exact Eq.trans (by omega) howed
          groups := fun group state hgroup => by
            rw [hledger.groups group state hgroup, hcounts group, hnone, Nat.zero_add]
          known := fun other hother => hledger.known other (hothers other hother)
          chunks := hledger.chunks
          settled := hledger.settled }
  | chunkDone owner start len =>
      have howner : ∀ group, entry.counts group = if owner = group then 1 else 0 := by
        intro group
        simp only [Inflight.counts, hdone]
      have hmine : entry.counts owner = 1 := (howner owner).trans (if_pos rfl)
      have hnone : ∀ future, entry.settles future = 0 := by
        intro future
        simp only [Inflight.settles, hdone]
      obtain ⟨state, hstate, hremaining⟩ :=
        hledger.group_of_counts hmember (hmine ▸ Nat.one_pos)
      have hlt := (List.getElem?_eq_some_iff.mp hstate).1
      have hworld := chunkDone_of_group
        (show ({ world with inflight := front ++ back } : World).groups[owner]? = some state
          from hstate) ⟨⟨start, len⟩, result, data⟩
      simp only [hworld]
      exact
        { owed := fun future => by
            have howed := hledger.owed future
            have hset := ofList_set (ReadGroup.settles future) hstate
              (count state ⟨⟨start, len⟩, result, data⟩).1
            have hcount := settles_count hremaining ⟨⟨start, len⟩, result, data⟩ future
            simp only [World.sources, hsources future, hnone, Nat.zero_add] at howed
            simp only [World.sources, ofList_append _ world.queue]
            exact Eq.trans (by omega) howed
          groups := fun group known hgroup => by
            by_cases hsame : owner = group
            · subst hsame
              rw [List.getElem?_set_self hlt] at hgroup
              obtain rfl := Option.some.inj hgroup
              rw [count_remaining, hledger.groups owner state hstate, hcounts owner, hmine]
              exact Nat.add_sub_cancel_left ..
            · rw [List.getElem?_set_ne hsame] at hgroup
              rw [hledger.groups group known hgroup, hcounts group, howner, if_neg hsame,
                Nat.zero_add]
          known := fun other hother group hgroup => by
            rw [List.length_set]
            exact hledger.known other (hothers other hother) group hgroup
          chunks := hledger.chunks
          settled := hledger.settled }

/-! ### Settling -/

theorem isDone_settle (waiting : KernelFuture Value) (outcome : Asyncio.Outcome Value) :
    (waiting.settle outcome).isDone = true := by
  unfold KernelFuture.settle
  split
  · assumption
  · rfl

theorem pendingCount_settle (world : World) (future : ℕ) (outcome : Asyncio.Outcome Value)
    (other : ℕ) :
    (world.settle future outcome).pendingCount other =
      if future = other then 0 else world.pendingCount other := by
  split
  · next hsame =>
      subst hsame
      cases hwaiting : world.futures[future]? with
      | none => simp [World.pendingCount, World.settle, hwaiting]
      | some waiting => simp [World.pendingCount, World.settle, hwaiting, isDone_settle]
  · next hother => simp [World.pendingCount, World.settle, hother]

/-- What is owed to a future is paid. -/
theorem settle (hledger : Ledger world unsubmitted due) {future : ℕ} (hdue : 0 < due future)
    (outcome : Asyncio.Outcome Value) :
    Ledger (world.settle future outcome) unsubmitted
      (fun other => due other - if future = other then 1 else 0) where
  owed other := by
    have howed := hledger.owed other
    have hle := pendingCount_le world other
    rw [pendingCount_settle]
    change world.sources other + _ = _
    split_ifs with hsame
    · subst hsame
      omega
    · omega
  groups := hledger.groups
  known := hledger.known
  chunks := hledger.chunks
  settled other := by
    have howed := hledger.owed future
    have hsettled := hledger.settled other
    have hle := pendingCount_le world future
    have hlength : (world.settle future outcome).futures.length = world.futures.length := by
      simp [World.settle]
    have hcount : (world.settle future outcome).settleCount other =
        world.settleCount other + if future = other then 1 else 0 := by
      simp [World.settleCount, World.settle, List.countP_cons]
    rw [hlength, ← hsettled, hcount, pendingCount_settle]
    split_ifs with hsame
    · subst hsame
      omega
    · omega

/-- The drain takes a completion over. -/
theorem take (hledger : Ledger world unsubmitted due) {completion : Completion}
    {rest : List Completion} (hqueue : world.queue = completion :: rest) :
    Ledger { world with queue := rest } unsubmitted
      (fun future => completion.settles future + due future) where
  owed future := by
    have howed := hledger.owed future
    simp only [World.sources, hqueue, ofList_cons] at howed
    simp only [World.sources]
    exact Eq.trans (by omega) howed
  groups := hledger.groups
  known := hledger.known
  chunks := hledger.chunks
  settled := hledger.settled

/-- A change of the futures that settles none of them. -/
theorem same_futures (hledger : Ledger world unsubmitted due) {futures : List (KernelFuture Value)}
    (hlength : futures.length = world.futures.length)
    (hsame : ∀ future : ℕ, (futures[future]?).map (·.outcome) =
      (world.futures[future]?).map (·.outcome)) :
    Ledger { world with futures := futures } unsubmitted due := by
  have hpending : ∀ future, ({ world with futures := futures } : World).pendingCount future =
      world.pendingCount future := by
    intro future
    have hfuture := hsame future
    simp only [World.pendingCount]
    cases hnew : futures[future]? with
    | none =>
        cases hold : world.futures[future]? with
        | none => rfl
        | some before => simp [hnew, hold] at hfuture
    | some after =>
        cases hold : world.futures[future]? with
        | none => simp [hnew, hold] at hfuture
        | some before =>
            simp only [hnew, hold, Option.map_some, Option.some.injEq] at hfuture
            have hdone : after.isDone = before.isDone := by
              rw [KernelFuture.isDone, KernelFuture.isDone, hfuture]
            simp only [hdone]
  refine ⟨?_, hledger.groups, hledger.known, hledger.chunks, ?_⟩
  · intro future
    rw [hpending]
    exact hledger.owed future
  · intro future
    rw [hpending, hlength]
    exact hledger.settled future

end Ledger

end Turbofile.Bridge
