import Turbofile.Library.System
import Turbofile.Library.Tally

/-!
# The doorbell of a loop bridge

Driver threads push completions onto a queue and ring a pipe when they find
the bridge idle; the event loop's drain empties the pipe, delivers what is
queued and goes idle again.  Every atomic step of both sides is a step here,
and any number of calls of either side may be under way.  A completion is known
by the `complete` call that brought it.
-/

namespace Turbofile.Bridge

open Turbofile.Tally

/-- Where a `complete` call is; `load` reads `ALIVE`. -/
inductive Producer
  | push
  | swap
  | load
  | ring
  | returned
  deriving DecidableEq

/-- Where a `DrainHandle.__call__` is. -/
inductive Drain
  | quiet
  | take
  | deliver (batch : List ℕ)
  | disarm
  | recheck
  | rearm
  | returned
  deriving DecidableEq

structure LoopBridge where
  queue : List ℕ
  armed : Bool
  /-- The wake bytes in the pipe. -/
  pipe : ℕ
  alive : Bool
  producers : List Producer
  drains : List Drain
  delivered : List ℕ
  deriving DecidableEq

/-- How a `write` of the wake byte ends: `EAGAIN` is an answer of a full pipe. -/
inductive Ring
  | written
  | full
  | interrupted

inductive BridgeStep
  | complete
  | producer (index : ℕ) (answer : Ring)
  | call
  | drain (index : ℕ) (interrupted : Bool)
  | shutdown

/-- `sink.len()`. -/
def SINK : ℕ := 64

namespace LoopBridge

/-- `LoopBridge::complete` with `ring_pipe`, from one atomic step to the next. -/
def stepComplete (bridge : LoopBridge) (index : ℕ) (answer : Ring) :
    Producer → Option LoopBridge
  | .push => some
      { bridge with
        queue := bridge.queue ++ [index]
        producers := bridge.producers.set index .swap }
  | .swap => some
      { bridge with
        armed := true
        producers := bridge.producers.set index (if bridge.armed then .returned else .load) }
  | .load => some
      { bridge with
        producers := bridge.producers.set index (if bridge.alive then .ring else .returned) }
  | .ring =>
      match answer with
      | .written => some
          { bridge with
            pipe := bridge.pipe + 1
            producers := bridge.producers.set index .returned }
      | .full =>
          if bridge.pipe = 0 then none
          else some { bridge with producers := bridge.producers.set index .returned }
      | .interrupted => some bridge
  | .returned => none

/-- `DrainHandle::__call__` with `quiet_pipe`. -/
def stepDrain (bridge : LoopBridge) (index : ℕ) (interrupted : Bool) :
    Drain → Option LoopBridge
  | .quiet =>
      if interrupted then some bridge
      else if bridge.pipe = 0 then
        some { bridge with drains := bridge.drains.set index .take }
      else some { bridge with pipe := bridge.pipe - SINK }
  | .take => some
      { bridge with
        queue := []
        drains := bridge.drains.set index
          (if bridge.queue = [] then .disarm else .deliver bridge.queue) }
  | .deliver [] => some { bridge with drains := bridge.drains.set index .take }
  | .deliver (completion :: batch) => some
      { bridge with
        delivered := bridge.delivered ++ [completion]
        drains := bridge.drains.set index (.deliver batch) }
  | .disarm => some
      { bridge with armed := false, drains := bridge.drains.set index .recheck }
  | .recheck => some
      { bridge with
        drains := bridge.drains.set index (if bridge.queue = [] then .returned else .rearm) }
  | .rearm => some
      { bridge with
        armed := true
        drains := bridge.drains.set index (if bridge.armed then .returned else .take) }
  | .returned => none

/-- A step of any thread.  A callback that the drain delivers to may call
`complete` like a driver thread, and a drain may be called late or in vain. -/
def step (bridge : LoopBridge) : BridgeStep → Option LoopBridge
  | .complete => some { bridge with producers := bridge.producers ++ [.push] }
  | .producer index answer =>
      bridge.producers[index]?.bind fun producer => bridge.stepComplete index answer producer
  | .call => some { bridge with drains := bridge.drains ++ [.quiet] }
  | .drain index interrupted =>
      bridge.drains[index]?.bind fun drain => bridge.stepDrain index interrupted drain
  | .shutdown => some { bridge with alive := false }

def new : LoopBridge where
  queue := []
  armed := false
  pipe := 0
  alive := true
  producers := []
  drains := []
  delivered := []

end LoopBridge

def doorbell : System LoopBridge BridgeStep where
  init bridge := bridge = .new
  step := LoopBridge.step

/-! ## Where a wake is in progress -/

/-- It saw `armed = false` and has not rung yet. -/
def Producer.ringing : Producer → Bool
  | .load | .ring => true
  | _ => false

/-- It has not come to `take` with an empty queue and disarmed since. -/
def Drain.draining : Drain → Bool
  | .quiet | .take | .deliver _ | .disarm => true
  | _ => false

/-- It has disarmed and looks at the queue once more. -/
def Drain.checking : Drain → Bool
  | .recheck | .rearm => true
  | _ => false

/-- It will take the queue again: a drain that has disarmed does when it finds
the bridge still idle. -/
def Drain.willTake (armed : Bool) (drain : Drain) : Bool :=
  drain.draining || (drain.checking && !armed)

def Drain.batch : Drain → List ℕ
  | .deliver batch => batch
  | _ => []

def LoopBridge.Pushed (bridge : LoopBridge) (completion : ℕ) : Prop :=
  ∃ producer, bridge.producers[completion]? = some producer ∧ producer ≠ .push

/-- No call is under way and no wake byte will start one. -/
structure LoopBridge.Quiescent (bridge : LoopBridge) : Prop where
  pipe : bridge.pipe = 0
  producers : ∀ producer ∈ bridge.producers, producer = .returned
  drains : ∀ drain ∈ bridge.drains, drain = .returned

section Lists

variable {α : Type} {entries : List α} {index : ℕ} {old new : α} {holds : α → Prop}

theorem exists_set_of_new (hget : entries[index]? = some old) (hnew : holds new) :
    ∃ entry ∈ entries.set index new, holds entry := by
  obtain ⟨hlt, -⟩ := List.getElem?_eq_some_iff.mp hget
  exact ⟨new, List.mem_set hlt new, hnew⟩

theorem exists_set_of_old (hget : entries[index]? = some old) (hold : ¬holds old)
    (hexists : ∃ entry ∈ entries, holds entry) :
    ∃ entry ∈ entries.set index new, holds entry := by
  obtain ⟨entry, hmem, hentry⟩ := hexists
  obtain ⟨other, hother⟩ := List.getElem?_of_mem hmem
  have hne : index ≠ other := by
    rintro rfl
    rw [hget] at hother
    exact hold (Option.some.inj hother ▸ hentry)
  exact ⟨entry, List.mem_of_getElem? ((List.getElem?_set_ne hne).trans hother), hentry⟩

end Lists

/-! ## The invariant -/

/-- Once a call has pushed its completion, one completion with its number is on
the way or delivered. -/
def pushedCount (producers : List Producer) (completion : ℕ) : ℕ :=
  match producers[completion]? with
  | none | some .push => 0
  | some _ => 1

theorem pushedCount_le (producers : List Producer) (completion : ℕ) :
    pushedCount producers completion ≤ 1 := by
  unfold pushedCount
  split
  · exact Nat.zero_le _
  · exact Nat.zero_le _
  · exact Nat.le_refl _

theorem pushedCount_set {producers : List Producer} {index : ℕ} {old new : Producer}
    (hget : producers[index]? = some old) (hold : old ≠ .push) (hnew : new ≠ .push)
    (completion : ℕ) :
    pushedCount (producers.set index new) completion = pushedCount producers completion := by
  obtain ⟨hlt, -⟩ := List.getElem?_eq_some_iff.mp hget
  by_cases hsame : index = completion
  · subst hsame
    rw [pushedCount, pushedCount, List.getElem?_set_self hlt, hget]
    cases old <;> cases new <;> simp_all
  · rw [pushedCount, pushedCount, List.getElem?_set_ne hsame]

theorem pushedCount_push {producers : List Producer} {index : ℕ}
    (hget : producers[index]? = some .push) (completion : ℕ) :
    pushedCount (producers.set index .swap) completion =
      pushedCount producers completion + [index].count completion := by
  obtain ⟨hlt, -⟩ := List.getElem?_eq_some_iff.mp hget
  by_cases hsame : index = completion
  · subst hsame
    rw [pushedCount, pushedCount, List.getElem?_set_self hlt, hget, List.count_singleton_self]
  · rw [pushedCount, pushedCount, List.getElem?_set_ne hsame,
      List.count_singleton, if_neg (by simpa using hsame), Nat.add_zero]

theorem pushedCount_concat (producers : List Producer) (completion : ℕ) :
    pushedCount (producers ++ [.push]) completion = pushedCount producers completion := by
  rcases Nat.lt_trichotomy completion producers.length with hlt | rfl | hgt
  · rw [pushedCount, pushedCount, List.getElem?_append_left hlt]
  · rw [pushedCount, pushedCount, List.getElem?_concat_length,
      List.getElem?_eq_none (Nat.le_refl _)]
  · rw [pushedCount, pushedCount, List.getElem?_eq_none (by simpa using hgt),
      List.getElem?_eq_none (Nat.le_of_lt hgt)]

/-- While the bridge is alive, an armed bridge has a wake under way, and what is
queued on an idle one has been noticed. -/
structure Consistent (bridge : LoopBridge) : Prop where
  delivery : ∀ completion,
    bridge.delivered.count completion + bridge.queue.count completion +
      ofList (fun drain => drain.batch.count completion) bridge.drains =
        pushedCount bridge.producers completion
  rung : bridge.alive = true → bridge.armed = true →
    0 < bridge.pipe ∨ (∃ producer ∈ bridge.producers, producer.ringing = true) ∨
      ∃ drain ∈ bridge.drains, drain.draining = true
  noticed : bridge.alive = true → bridge.armed = false → bridge.queue ≠ [] →
    (∃ producer ∈ bridge.producers, producer = .swap) ∨
      ∃ drain ∈ bridge.drains, drain.checking = true

namespace Consistent

variable {bridge next : LoopBridge} {index : ℕ}

/-- A drain's step moves completions between the queue, its batch and the
deliveries. -/
theorem delivery_drain (hcons : Consistent bridge) {drain drain' : Drain}
    (hget : bridge.drains[index]? = some drain) {queue delivered : List ℕ}
    (hmove : ∀ completion,
      delivered.count completion + queue.count completion + drain'.batch.count completion =
        bridge.delivered.count completion + bridge.queue.count completion +
          drain.batch.count completion) (completion : ℕ) :
    delivered.count completion + queue.count completion +
        ofList (fun drain => drain.batch.count completion) (bridge.drains.set index drain') =
      pushedCount bridge.producers completion := by
  have hold := hcons.delivery completion
  have hset := ofList_set (fun drain => drain.batch.count completion) hget drain'
  have hmoved := hmove completion
  omega

theorem stepComplete (hcons : Consistent bridge) {answer : Ring} {producer : Producer}
    (hget : bridge.producers[index]? = some producer)
    (hstep : bridge.stepComplete index answer producer = some next) : Consistent next := by
  cases producer with
  | push =>
      obtain rfl := Option.some.inj hstep
      refine ⟨fun completion => ?_, fun halive harmed => ?_, fun _ _ _ => ?_⟩
      · have hold := hcons.delivery completion
        have hpush := pushedCount_push hget completion
        simp only [List.count_append]
        omega
      · refine (hcons.rung halive harmed).imp_right (Or.imp_left ?_)
        exact exists_set_of_old hget (by decide)
      · exact Or.inl (exists_set_of_new hget rfl)
  | swap =>
      obtain rfl := Option.some.inj hstep
      refine ⟨fun completion => ?_, fun halive _ => ?_, fun _ harmed => ?_⟩
      · have hnew : (if bridge.armed then Producer.returned else .load) ≠ .push := by
          split <;> decide
        have hsame := pushedCount_set hget (by decide) hnew completion
        exact (hcons.delivery completion).trans hsame.symm
      · -- an idle bridge makes this call ring, an armed one has a wake under way
        cases harmed : bridge.armed with
        | false => exact Or.inr (Or.inl (exists_set_of_new hget rfl))
        | true =>
            refine (hcons.rung halive harmed).imp_right (Or.imp_left ?_)
            exact exists_set_of_old hget (by decide)
      · cases harmed
  | load =>
      obtain rfl := Option.some.inj hstep
      refine ⟨fun completion => ?_, fun halive harmed => ?_, fun halive harmed hqueue => ?_⟩
      · have hnew : (if bridge.alive then Producer.ring else .returned) ≠ .push := by
          split <;> decide
        have hsame := pushedCount_set hget (by decide) hnew completion
        exact (hcons.delivery completion).trans hsame.symm
      · replace halive : bridge.alive = true := halive
        exact Or.inr (Or.inl (exists_set_of_new hget (by rw [halive]; rfl)))
      · refine (hcons.noticed halive harmed hqueue).imp_left ?_
        exact exists_set_of_old hget (by decide)
  | ring =>
      have hnew : Producer.returned ≠ .push := by decide
      have hsame := pushedCount_set hget (by decide) hnew
      cases answer with
      | written =>
          obtain rfl := Option.some.inj hstep
          refine ⟨fun completion => ?_, fun _ _ => ?_, fun halive harmed hqueue => ?_⟩
          · exact (hcons.delivery completion).trans (hsame completion).symm
          · exact Or.inl (Nat.succ_pos _)
          · refine (hcons.noticed halive harmed hqueue).imp_left ?_
            exact exists_set_of_old hget (by decide)
      | full =>
          simp only [LoopBridge.stepComplete] at hstep
          split at hstep
          · cases hstep
          · next hpipe =>
              obtain rfl := Option.some.inj hstep
              refine ⟨fun completion => ?_, fun _ _ => ?_, fun halive harmed hqueue => ?_⟩
              · exact (hcons.delivery completion).trans (hsame completion).symm
              · exact Or.inl (Nat.pos_of_ne_zero hpipe)
              · refine (hcons.noticed halive harmed hqueue).imp_left ?_
                exact exists_set_of_old hget (by decide)
      | interrupted =>
          obtain rfl := Option.some.inj hstep
          exact hcons
  | returned => cases hstep

theorem stepDrain (hcons : Consistent bridge) {interrupted : Bool} {drain : Drain}
    (hget : bridge.drains[index]? = some drain)
    (hstep : bridge.stepDrain index interrupted drain = some next) : Consistent next := by
  cases drain with
  | quiet =>
      simp only [LoopBridge.stepDrain] at hstep
      split at hstep
      · obtain rfl := Option.some.inj hstep
        exact hcons
      · split at hstep
        · obtain rfl := Option.some.inj hstep
          refine ⟨hcons.delivery_drain hget fun _ => rfl, fun _ _ => ?_,
            fun halive harmed hqueue => ?_⟩
          · exact Or.inr (Or.inr (exists_set_of_new hget rfl))
          · refine (hcons.noticed halive harmed hqueue).imp_right ?_
            exact exists_set_of_old hget (by decide)
        · obtain rfl := Option.some.inj hstep
          refine ⟨hcons.delivery, fun _ _ => ?_, hcons.noticed⟩
          exact Or.inr (Or.inr ⟨_, List.mem_of_getElem? hget, rfl⟩)
  | take =>
      obtain rfl := Option.some.inj hstep
      refine ⟨hcons.delivery_drain hget fun completion => ?_, fun _ _ => ?_,
        fun _ _ hqueue => absurd rfl hqueue⟩
      · cases hqueue : bridge.queue with
        | nil => rfl
        | cons first rest =>
            simp only [Drain.batch, List.count_nil, reduceCtorEq, if_false]
            omega
      · refine Or.inr (Or.inr (exists_set_of_new hget ?_))
        split <;> rfl
  | deliver batch =>
      cases batch with
      | nil =>
          obtain rfl := Option.some.inj hstep
          refine ⟨hcons.delivery_drain hget fun _ => rfl, fun _ _ => ?_,
            fun halive harmed hqueue => ?_⟩
          · exact Or.inr (Or.inr (exists_set_of_new hget rfl))
          · refine (hcons.noticed halive harmed hqueue).imp_right ?_
            exact exists_set_of_old hget Bool.false_ne_true
      | cons first batch =>
          obtain rfl := Option.some.inj hstep
          refine ⟨hcons.delivery_drain hget fun completion => ?_, fun _ _ => ?_,
            fun halive harmed hqueue => ?_⟩
          · have hbatch : (first :: batch).count completion =
                [first].count completion + batch.count completion := by
              rw [← List.count_append, List.singleton_append]
            simp only [Drain.batch, List.count_append]
            omega
          · exact Or.inr (Or.inr (exists_set_of_new hget rfl))
          · refine (hcons.noticed halive harmed hqueue).imp_right ?_
            exact exists_set_of_old hget Bool.false_ne_true
  | disarm =>
      obtain rfl := Option.some.inj hstep
      refine ⟨hcons.delivery_drain hget fun _ => rfl, fun _ harmed => ?_, fun _ _ _ => ?_⟩
      · cases harmed
      · exact Or.inr (exists_set_of_new hget rfl)
  | recheck =>
      obtain rfl := Option.some.inj hstep
      refine ⟨hcons.delivery_drain hget fun completion => ?_, fun halive harmed => ?_,
        fun _ _ hqueue => ?_⟩
      · split <;> rfl
      · refine (hcons.rung halive harmed).imp_right (Or.imp_right ?_)
        exact exists_set_of_old hget (by decide)
      · exact Or.inr (exists_set_of_new hget (by rw [if_neg hqueue]; rfl))
  | rearm =>
      obtain rfl := Option.some.inj hstep
      refine ⟨hcons.delivery_drain hget fun completion => ?_, fun halive _ => ?_,
        fun _ harmed => ?_⟩
      · split <;> rfl
      · -- an armed bridge has a wake of somebody else under way
        cases harmed : bridge.armed with
        | false => exact Or.inr (Or.inr (exists_set_of_new hget rfl))
        | true =>
            refine (hcons.rung halive harmed).imp_right (Or.imp_right ?_)
            exact exists_set_of_old hget (by decide)
      · cases harmed
  | returned => cases hstep

theorem step (hcons : Consistent bridge) {label : BridgeStep}
    (hstep : bridge.step label = some next) : Consistent next := by
  cases label with
  | complete =>
      obtain rfl := Option.some.inj hstep
      refine ⟨fun completion => ?_, fun halive harmed => ?_, fun halive harmed hqueue => ?_⟩
      · exact (hcons.delivery completion).trans (pushedCount_concat _ _).symm
      · refine (hcons.rung halive harmed).imp_right (Or.imp_left ?_)
        exact fun ⟨producer, hmem, hring⟩ => ⟨producer, List.mem_append_left _ hmem, hring⟩
      · refine (hcons.noticed halive harmed hqueue).imp_left ?_
        exact fun ⟨producer, hmem, hswap⟩ => ⟨producer, List.mem_append_left _ hmem, hswap⟩
  | producer index answer =>
      obtain ⟨producer, hget, hproducer⟩ := Option.bind_eq_some_iff.mp hstep
      exact hcons.stepComplete hget hproducer
  | call =>
      obtain rfl := Option.some.inj hstep
      refine ⟨fun completion => ?_, fun _ _ => ?_, fun halive harmed hqueue => ?_⟩
      · have hold := hcons.delivery completion
        rwa [ofList_append, ofList_cons, ofList_nil]
      · exact Or.inr (Or.inr ⟨.quiet, List.mem_append_right _ List.mem_cons_self, rfl⟩)
      · refine (hcons.noticed halive harmed hqueue).imp_right ?_
        exact fun ⟨drain, hmem, hcheck⟩ => ⟨drain, List.mem_append_left _ hmem, hcheck⟩
  | drain index interrupted =>
      obtain ⟨drain, hget, hdrain⟩ := Option.bind_eq_some_iff.mp hstep
      exact hcons.stepDrain hget hdrain
  | shutdown =>
      obtain rfl := Option.some.inj hstep
      refine ⟨hcons.delivery, fun halive => ?_, fun halive => ?_⟩
      · cases halive
      · cases halive

theorem of_reachable (hreach : doorbell.Reachable bridge) : Consistent bridge := by
  refine System.Reachable.invariant ?_ ?_ hreach
  · rintro _ rfl
    exact ⟨fun _ => rfl, fun _ harmed => (by cases harmed), fun _ _ hqueue => absurd rfl hqueue⟩
  · exact fun _ _ _ _ hcons hstep => hcons.step hstep

end Consistent

/-! ## A drain left to itself -/

/-- With no other thread in between, the drain takes these completions. -/
def Takes (index : ℕ) (queue : List ℕ) (bridge : LoopBridge) : Prop :=
  ∃ n next, doorbell.exec bridge (List.replicate n (.drain index false)) = some next ∧
    next.queue = [] ∧ next.drains[index]? = some (.deliver queue)

namespace Takes

variable {bridge next : LoopBridge} {index : ℕ} {queue : List ℕ}

theorem of_step {drain : Drain} (hget : bridge.drains[index]? = some drain)
    (hstep : bridge.stepDrain index false drain = some next) (htakes : Takes index queue next) :
    Takes index queue bridge := by
  obtain ⟨n, last, hexec, hlast⟩ := htakes
  refine ⟨n + 1, last, ?_, hlast⟩
  have hfirst : doorbell.step bridge (.drain index false) = some next := by
    change bridge.drains[index]?.bind _ = _
    rw [hget]
    exact hstep
  rw [List.replicate_succ, System.exec, hfirst]
  exact hexec

theorem get_set {drains : List Drain} {old : Drain} (hget : drains[index]? = some old)
    (new : Drain) : (drains.set index new)[index]? = some new := by
  obtain ⟨hlt, -⟩ := List.getElem?_eq_some_iff.mp hget
  exact List.getElem?_set_self hlt

theorem of_take (hget : bridge.drains[index]? = some .take) (hqueue : bridge.queue ≠ []) :
    Takes index bridge.queue bridge := by
  refine of_step hget rfl ⟨0, _, rfl, rfl, ?_⟩
  rw [if_neg hqueue]
  exact get_set hget _

theorem of_quiet (hget : bridge.drains[index]? = some .quiet) (hqueue : bridge.queue ≠ []) :
    Takes index bridge.queue bridge := by
  induction hpipe : bridge.pipe using Nat.strong_induction_on generalizing bridge with
  | _ pipe ih =>
      by_cases hempty : bridge.pipe = 0
      · have hstep : bridge.stepDrain index false .quiet =
            some { bridge with drains := bridge.drains.set index .take } := by
          rw [LoopBridge.stepDrain, if_neg Bool.false_ne_true, if_pos hempty]
        exact of_step hget hstep (of_take (get_set hget _) hqueue)
      · have hstep : bridge.stepDrain index false .quiet =
            some { bridge with pipe := bridge.pipe - SINK } := by
          rw [LoopBridge.stepDrain, if_neg Bool.false_ne_true, if_neg hempty]
        have hless : bridge.pipe - SINK < pipe :=
          hpipe ▸ Nat.sub_lt (Nat.pos_of_ne_zero hempty) (by decide)
        exact of_step hget hstep (ih _ hless hget hqueue rfl)

theorem of_deliver {batch : List ℕ} (hget : bridge.drains[index]? = some (.deliver batch))
    (hqueue : bridge.queue ≠ []) : Takes index bridge.queue bridge := by
  induction batch generalizing bridge with
  | nil => exact of_step hget rfl (of_take (get_set hget _) hqueue)
  | cons completion batch ih => exact of_step hget rfl (ih (get_set hget _) hqueue)

theorem of_rearm (hget : bridge.drains[index]? = some .rearm) (hidle : bridge.armed = false)
    (hqueue : bridge.queue ≠ []) : Takes index bridge.queue bridge := by
  refine of_step hget rfl (of_take ?_ hqueue)
  rw [hidle]
  exact get_set hget _

theorem of_recheck (hget : bridge.drains[index]? = some .recheck) (hidle : bridge.armed = false)
    (hqueue : bridge.queue ≠ []) : Takes index bridge.queue bridge := by
  refine of_step hget rfl (of_rearm ?_ hidle hqueue)
  rw [if_neg hqueue]
  exact get_set hget _

/-- Every point that counts as one leads to the queue. -/
theorem of_willTake {drain : Drain} (hget : bridge.drains[index]? = some drain)
    (hwill : drain.willTake bridge.armed = true) (hqueue : bridge.queue ≠ []) :
    Takes index bridge.queue bridge := by
  cases drain with
  | quiet => exact of_quiet hget hqueue
  | take => exact of_take hget hqueue
  | deliver batch => exact of_deliver hget hqueue
  | disarm => exact of_step hget rfl (of_recheck (get_set hget _) rfl hqueue)
  | recheck =>
      have hidle : bridge.armed = false := (Bool.not_eq_true' _).mp hwill
      exact of_recheck hget hidle hqueue
  | rearm =>
      have hidle : bridge.armed = false := (Bool.not_eq_true' _).mp hwill
      exact of_rearm hget hidle hqueue
  | returned => cases hwill

end Takes

/-! ## No lost and no duplicated completion -/

section Guarantees

variable {bridge : LoopBridge}

/-- What is queued has a wake on its way to it. -/
theorem Consistent.awake (hcons : Consistent bridge) (halive : bridge.alive = true)
    (hqueue : bridge.queue ≠ []) :
    0 < bridge.pipe ∨ (∃ producer ∈ bridge.producers, producer.ringing = true) ∨
      (∃ producer ∈ bridge.producers, producer = .swap) ∨
      ∃ drain ∈ bridge.drains, drain.willTake bridge.armed = true := by
  cases harmed : bridge.armed with
  | true =>
      refine (hcons.rung halive harmed).imp_right (Or.imp_right fun hdrain => Or.inr ?_)
      obtain ⟨drain, hmem, hdraining⟩ := hdrain
      exact ⟨drain, hmem, by rw [Drain.willTake, hdraining, Bool.true_or]⟩
  | false =>
      refine Or.inr (Or.inr ((hcons.noticed halive harmed hqueue).imp_right ?_))
      rintro ⟨drain, hmem, hchecking⟩
      exact ⟨drain, hmem, by rw [Drain.willTake, hchecking]; exact Bool.or_true _⟩

theorem Consistent.delivered_of_quiescent (hcons : Consistent bridge)
    (halive : bridge.alive = true) (hquiet : bridge.Quiescent) {completion : ℕ}
    (hpushed : bridge.Pushed completion) : completion ∈ bridge.delivered := by
  have hqueue : bridge.queue = [] := by
    by_contra hqueue
    rcases hcons.awake halive hqueue with hpipe | ⟨producer, hmem, hring⟩ |
      ⟨producer, hmem, hswap⟩ | ⟨drain, hmem, hwill⟩
    · exact absurd hquiet.pipe (Nat.ne_of_gt hpipe)
    · rw [hquiet.producers producer hmem] at hring
      cases hring
    · rw [hquiet.producers producer hmem] at hswap
      cases hswap
    · rw [hquiet.drains drain hmem] at hwill
      cases hwill
  have hbatches : ofList (fun drain => drain.batch.count completion) bridge.drains = 0 := by
    rw [ofList_eq_zero_iff]
    intro drain hmem
    rw [hquiet.drains drain hmem]
    rfl
  have hcount : pushedCount bridge.producers completion = 1 := by
    obtain ⟨producer, hget, hproducer⟩ := hpushed
    rw [pushedCount, hget]
    cases producer <;> simp_all
  have hdelivery := hcons.delivery completion
  rw [hqueue, hbatches, hcount, List.count_nil] at hdelivery
  exact List.count_pos_iff.mp (by omega)

/-- What the protocol guarantees.  A wake is on its way to a queued completion
when there is a byte in the pipe, a call that saw the bridge idle and has not
rung, a call that has pushed and not come to its swap, or a drain that will
take the queue; such a drain takes it unless another thread comes first. -/
structure Delivers (bridge : LoopBridge) : Prop where
  once : ∀ completion, bridge.delivered.count completion ≤ 1
  awake : bridge.alive = true → bridge.queue ≠ [] →
    0 < bridge.pipe ∨ (∃ producer ∈ bridge.producers, producer.ringing = true) ∨
      (∃ producer ∈ bridge.producers, producer = .swap) ∨
      ∃ drain ∈ bridge.drains, drain.willTake bridge.armed = true
  takes : ∀ index drain, bridge.drains[index]? = some drain →
    drain.willTake bridge.armed = true → bridge.queue ≠ [] → Takes index bridge.queue bridge
  settled : bridge.alive = true → bridge.Quiescent → ∀ completion,
    bridge.Pushed completion → completion ∈ bridge.delivered

/-- Whatever the interleaving, no completion is delivered twice and none is left
behind. -/
theorem doorbell_delivers (hreach : doorbell.Reachable bridge) : Delivers bridge where
  once completion := by
    have hdelivery := (Consistent.of_reachable hreach).delivery completion
    have hle := pushedCount_le bridge.producers completion
    omega
  awake := (Consistent.of_reachable hreach).awake
  takes _ _ hget hwill hqueue := Takes.of_willTake hget hwill hqueue
  settled halive hquiet _ hpushed :=
    (Consistent.of_reachable hreach).delivered_of_quiescent halive hquiet hpushed

end Guarantees

/-- One completion from its push to its delivery, its wake byte interrupted once. -/
theorem doorbell_delivers_one :
    Delivers ⟨[], false, 0, true, [.returned], [.returned], [0]⟩ := by
  have hexec : doorbell.exec .new
      [.complete, .producer 0 .written, .producer 0 .written, .producer 0 .written,
        .producer 0 .interrupted, .producer 0 .written, .call, .drain 0 false, .drain 0 false,
        .drain 0 false, .drain 0 false, .drain 0 false, .drain 0 false, .drain 0 false,
        .drain 0 false] =
      some ⟨[], false, 0, true, [.returned], [.returned], [0]⟩ := by decide
  exact doorbell_delivers ((System.Reachable.ofInit rfl).ofExec hexec)

/-- Right after its push, a call from idle has neither seen the bridge idle nor
rung, and no drain is under way. -/
theorem pushed_before_swap :
    ∃ bridge, doorbell.Reachable bridge ∧ bridge.alive = true ∧ bridge.queue ≠ [] ∧
      ¬(0 < bridge.pipe ∨ (∃ producer ∈ bridge.producers, producer.ringing = true) ∨
        ∃ drain ∈ bridge.drains, drain.willTake bridge.armed = true) := by
  have hexec : doorbell.exec .new [.complete, .producer 0 .written] =
      some ⟨[0], false, 0, true, [.swap], [], []⟩ := by decide
  exact ⟨_, (System.Reachable.ofInit rfl).ofExec hexec, rfl, by decide, by decide⟩

end Turbofile.Bridge
