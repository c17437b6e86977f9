import Turbofile.Library.Coroutine

/-!
# Coroutines on one event loop

A pool of coroutines that share a state.  One of them runs at a time, until it
ends or makes a call it has to await; calls under way may be answered in any
order.  When no coroutine is started while another is under way, a pool does
what its calls do one after the other (`Pool.serial_of_run`).
-/

namespace Turbofile.Coroutine

open Relation

/-- How far a coroutine is. -/
inductive Stage (ι : Interface) (σ ε α : Type) : Type 1
  | fresh
  | running (prog : Prog ι σ ε α)
  | waiting (c : ι.Call) (k : Except ε (ι.Answer c) → Prog ι σ ε α)
  | ready (prog : Prog ι σ ε α)
  | returned (result : Except ε α)

/-- Each coroutine makes the call it is listed with. -/
structure Pool (ι : Interface) (σ ε ω α κ : Type) : Type 1 where
  tasks : List (κ × Stage ι σ ε α)
  state : σ
  world : ω

namespace Stage

variable {ι : Interface} {σ ε ω α : Type}

def isRunning : Stage ι σ ε α → Bool
  | .running _ => true
  | _ => false

/-- Not under way: not started yet, or at its end. -/
def isIdle : Stage ι σ ε α → Bool
  | .fresh | .returned _ => true
  | _ => false

def isReturned : Stage ι σ ε α → Bool
  | .returned _ => true
  | _ => false

def result : Stage ι σ ε α → Option (Except ε α)
  | .returned result => some result
  | _ => none

/-- A coroutine under way ends well, if nobody else interferes. -/
def IsSafe (env : Env ι ε ω) (post : Post σ ε ω α) : Stage ι σ ε α → σ → ω → Prop
  | .running prog | .ready prog => Safe env post prog
  | .waiting c k => fun state world =>
      ∀ answer next, env c world answer next → Safe env post (k answer) state next
  | .fresh | .returned _ => fun _ _ => False

theorem IsSafe.not_isIdle {env : Env ι ε ω} {post : Post σ ε ω α} {stage : Stage ι σ ε α}
    {state : σ} {world : ω} (hsafe : stage.IsSafe env post state world) :
    stage.isIdle = false := by
  cases stage with
  | fresh => exact absurd hsafe id
  | returned result => exact absurd hsafe id
  | running prog => rfl
  | waiting c k => rfl
  | ready prog => rfl

theorem result_of_not_isIdle {stage : Stage ι σ ε α} (hidle : stage.isIdle = false) :
    stage.result = none := by
  cases stage with
  | returned result => cases hidle
  | fresh => rfl
  | running prog => rfl
  | waiting c k => rfl
  | ready prog => rfl

end Stage

namespace Pool

variable {ι : Interface} {σ ε ω α κ : Type}

def init (calls : List κ) (state : σ) (world : ω) : Pool ι σ ε ω α κ where
  tasks := calls.map fun call => (call, .fresh)
  state := state
  world := world

/-- The event loop has the thread: no coroutine runs. -/
def Free (pool : Pool ι σ ε ω α κ) : Prop :=
  ∀ task ∈ pool.tasks, task.2.isRunning = false

/-- No coroutine is under way. -/
def Quiet (pool : Pool ι σ ε ω α κ) : Prop := ∀ task ∈ pool.tasks, task.2.isIdle = true

def Finished (pool : Pool ι σ ε ω α κ) : Prop :=
  ∀ task ∈ pool.tasks, task.2.isReturned = true

/-- The calls that ended, with their results. -/
def returned (pool : Pool ι σ ε ω α κ) : List (κ × Except ε α) :=
  pool.tasks.filterMap fun task => task.2.result.map (task.1, ·)

def put (pool : Pool ι σ ε ω α κ) (index : ℕ) (call : κ) (stage : Stage ι σ ε α) :
    Pool ι σ ε ω α κ :=
  { pool with tasks := pool.tasks.set index (call, stage) }

/-! ## Steps -/

inductive Start (prog : κ → Prog ι σ ε α) (pool : Pool ι σ ε ω α κ) :
    Pool ι σ ε ω α κ → Prop
  | start (index : ℕ) {call : κ} (hfree : pool.Free)
      (htask : pool.tasks[index]? = some (call, .fresh)) :
      Start prog pool (pool.put index call (.running (prog call)))

/-- The steps of the coroutines that have been started.  A call that is not
awaited is answered at once; an awaited one is answered at some later time,
and its coroutine goes on when the loop comes to it. -/
inductive Advance (awaited : ι.Call → Bool) (env : Env ι ε ω) (pool : Pool ι σ ε ω α κ) :
    Pool ι σ ε ω α κ → Prop
  | silent (index : ℕ) {call : κ} {prog prog' : Prog ι σ ε α} {state : σ}
      (htask : pool.tasks[index]? = some (call, .running prog))
      (hstep : prog.step pool.state = .silent prog' state) :
      Advance awaited env pool { pool.put index call (.running prog') with state := state }
  | inline (index : ℕ) {call : κ} {prog : Prog ι σ ε α} {c : ι.Call}
      {k : Except ε (ι.Answer c) → Prog ι σ ε α} {answer : Except ε (ι.Answer c)} {next : ω}
      (htask : pool.tasks[index]? = some (call, .running prog))
      (hstep : prog.step pool.state = .asks c k) (hc : awaited c = false)
      (hanswer : env c pool.world answer next) :
      Advance awaited env pool { pool.put index call (.running (k answer)) with world := next }
  | suspend (index : ℕ) {call : κ} {prog : Prog ι σ ε α} {c : ι.Call}
      {k : Except ε (ι.Answer c) → Prog ι σ ε α}
      (htask : pool.tasks[index]? = some (call, .running prog))
      (hstep : prog.step pool.state = .asks c k) (hc : awaited c = true) :
      Advance awaited env pool (pool.put index call (.waiting c k))
  | complete (index : ℕ) {call : κ} {c : ι.Call} {k : Except ε (ι.Answer c) → Prog ι σ ε α}
      {answer : Except ε (ι.Answer c)} {next : ω}
      (htask : pool.tasks[index]? = some (call, .waiting c k))
      (hanswer : env c pool.world answer next) :
      Advance awaited env pool { pool.put index call (.ready (k answer)) with world := next }
  | resume (index : ℕ) {call : κ} {prog : Prog ι σ ε α} (hfree : pool.Free)
      (htask : pool.tasks[index]? = some (call, .ready prog)) :
      Advance awaited env pool (pool.put index call (.running prog))
  | finish (index : ℕ) {call : κ} {prog : Prog ι σ ε α} {result : Except ε α}
      (htask : pool.tasks[index]? = some (call, .running prog))
      (hstep : prog.step pool.state = .returned result) :
      Advance awaited env pool (pool.put index call (.returned result))

/-- Any interleaving. -/
def Step (prog : κ → Prog ι σ ε α) (awaited : ι.Call → Bool) (env : Env ι ε ω)
    (pool next : Pool ι σ ε ω α κ) : Prop :=
  pool.Start prog next ∨ pool.Advance awaited env next

/-- The interleavings in which no call overlaps another. -/
def SerialStep (prog : κ → Prog ι σ ε α) (awaited : ι.Call → Bool) (env : Env ι ε ω)
    (pool next : Pool ι σ ε ω α κ) : Prop :=
  (pool.Quiet ∧ pool.Start prog next) ∨ pool.Advance awaited env next

/-! ## Tasks one by one -/

theorem getElem?_put {pool : Pool ι σ ε ω α κ} {index : ℕ} {call : κ}
    {stage stage' : Stage ι σ ε α} (htask : pool.tasks[index]? = some (call, stage)) :
    (pool.put index call stage').tasks[index]? = some (call, stage') := by
  obtain ⟨hlt, -⟩ := List.getElem?_eq_some_iff.mp htask
  exact List.getElem?_set_self hlt

theorem getElem?_put_ne {pool : Pool ι σ ε ω α κ} {index other : ℕ} {call : κ}
    {stage : Stage ι σ ε α} (hne : other ≠ index) :
    (pool.put index call stage).tasks[other]? = pool.tasks[other]? :=
  List.getElem?_set_ne (Ne.symm hne)

theorem map_fst_put {pool : Pool ι σ ε ω α κ} {index : ℕ} {call : κ}
    {stage stage' : Stage ι σ ε α} (htask : pool.tasks[index]? = some (call, stage)) :
    (pool.put index call stage').tasks.map Prod.fst = pool.tasks.map Prod.fst := by
  obtain ⟨hlt, hget⟩ := List.getElem?_eq_some_iff.mp htask
  have hlt' : index < (pool.tasks.map Prod.fst).length := by rwa [List.length_map]
  have hcall : (pool.tasks.map Prod.fst)[index] = call := by rw [List.getElem_map, hget]
  rw [put, List.map_set, ← hcall, List.set_getElem_self]

/-- What a step of one coroutine does to the list of results. -/
theorem returned_put {pool : Pool ι σ ε ω α κ} {index : ℕ} {call : κ}
    {stage : Stage ι σ ε α} (stage' : Stage ι σ ε α)
    (htask : pool.tasks[index]? = some (call, stage)) (hstage : stage.result = none) :
    (pool.put index call stage').returned.Perm
      (pool.returned ++ (stage'.result.map (call, ·)).toList) := by
  obtain ⟨hlt, hget⟩ := List.getElem?_eq_some_iff.mp htask
  have hold : pool.tasks =
      pool.tasks.take index ++ (call, stage) :: pool.tasks.drop (index + 1) := by
    rw [← hget, List.getElem_cons_drop, List.take_append_drop]
  have hnew : (pool.put index call stage').tasks =
      pool.tasks.take index ++ (call, stage') :: pool.tasks.drop (index + 1) :=
    List.set_eq_take_append_cons_drop.trans (if_pos hlt)
  rw [returned, returned, hnew]
  conv_rhs => rw [hold]
  simp only [List.filterMap_append, List.filterMap_cons, hstage, Option.map_none,
    List.append_assoc]
  apply List.Perm.append_left
  cases stage'.result with
  | none => simp only [Option.map_none, Option.toList_none, List.append_nil, List.Perm.refl]
  | some result => exact @List.perm_append_comm _ [(call, result)] _

theorem quiet_of_finished {pool : Pool ι σ ε ω α κ} (hdone : pool.Finished) :
    pool.Quiet := by
  intro task hmem
  have hreturned := hdone task hmem
  obtain ⟨call, stage⟩ := task
  cases stage with
  | returned result => rfl
  | fresh => cases hreturned
  | running prog => cases hreturned
  | waiting c k => cases hreturned
  | ready prog => cases hreturned

theorem map_fst_returned {pool : Pool ι σ ε ω α κ} (hdone : pool.Finished) :
    pool.returned.map Prod.fst = pool.tasks.map Prod.fst := by
  obtain ⟨tasks, state, world⟩ := pool
  change (tasks.filterMap _).map Prod.fst = tasks.map Prod.fst
  induction tasks with
  | nil => rfl
  | cons task tasks ih =>
      obtain ⟨call, stage⟩ := task
      have hhead := hdone (call, stage) List.mem_cons_self
      have htail := ih fun task hmem => hdone task (List.mem_cons_of_mem _ hmem)
      cases stage with
      | returned result => exact congrArg (call :: ·) htail
      | fresh => cases hhead
      | running prog => cases hhead
      | waiting c k => cases hhead
      | ready prog => cases hhead

theorem Step.map_fst {prog : κ → Prog ι σ ε α} {awaited : ι.Call → Bool} {env : Env ι ε ω}
    {pool next : Pool ι σ ε ω α κ} (hstep : Step prog awaited env pool next) :
    next.tasks.map Prod.fst = pool.tasks.map Prod.fst := by
  rcases hstep with hstart | hadvance
  · cases hstart with
    | start _ _ htask => exact map_fst_put htask
  · cases hadvance with
    | silent _ htask => exact map_fst_put htask
    | inline _ htask => exact map_fst_put htask
    | suspend _ htask => exact map_fst_put htask
    | complete _ htask => exact map_fst_put htask
    | resume _ _ htask => exact map_fst_put htask
    | finish _ htask => exact map_fst_put htask

theorem SerialStep.step {prog : κ → Prog ι σ ε α} {awaited : ι.Call → Bool} {env : Env ι ε ω}
    {pool next : Pool ι σ ε ω α κ} (hstep : SerialStep prog awaited env pool next) :
    Step prog awaited env pool next :=
  hstep.imp And.right id

/-! ## Runs without overlaps -/

section Serial

variable {ρ : Type}

/-- What is known of a call: from an abstract state it ends in one related to it. -/
def Behaves (abs : ρ → σ → ω → Prop) (rel : κ → ρ → Except ε α → ρ → Prop) (call : κ)
    (before : ρ) : Post σ ε ω α :=
  fun result state world => ∃ after, rel call before result after ∧ abs after state world

/-- The calls that ended were a sequential run, and at most one is under way. -/
inductive Serial (env : Env ι ε ω) (abs : ρ → σ → ω → Prop)
    (rel : κ → ρ → Except ε α → ρ → Prop) (run : List (κ × Except ε α) → ρ → Prop)
    (pool : Pool ι σ ε ω α κ) : Prop
  | quiet {calls : List (κ × Except ε α)} {now : ρ} (hquiet : pool.Quiet)
      (hcalls : calls.Perm pool.returned) (hrun : run calls now)
      (habs : abs now pool.state pool.world) : Serial env abs rel run pool
  | busy {calls : List (κ × Except ε α)} {now : ρ} {index : ℕ} {call : κ}
      {stage : Stage ι σ ε α} (htask : pool.tasks[index]? = some (call, stage))
      (hothers : ∀ other task, other ≠ index → pool.tasks[other]? = some task →
        task.2.isIdle = true)
      (hcalls : calls.Perm pool.returned) (hrun : run calls now)
      (hsafe : stage.IsSafe env (Behaves abs rel call now) pool.state pool.world) :
      Serial env abs rel run pool

variable {prog : κ → Prog ι σ ε α} {awaited : ι.Call → Bool} {env : Env ι ε ω}
variable {abs : ρ → σ → ω → Prop} {rel : κ → ρ → Except ε α → ρ → Prop}
variable {run : List (κ × Except ε α) → ρ → Prop} {pool next : Pool ι σ ε ω α κ}

/-- The started call goes on. -/
theorem Serial.goOn {calls : List (κ × Except ε α)} {now : ρ} {index : ℕ} {call : κ}
    {stage stage' : Stage ι σ ε α} {state : σ} (world : ω)
    (htask : pool.tasks[index]? = some (call, stage))
    (hothers : ∀ other task, other ≠ index → pool.tasks[other]? = some task →
      task.2.isIdle = true)
    (hcalls : calls.Perm pool.returned) (hrun : run calls now) (hnone : stage.result = none)
    (hsafe : stage'.IsSafe env (Behaves abs rel call now) state world) :
    Serial env abs rel run
      { pool.put index call stage' with state := state, world := world } := by
  refine .busy (getElem?_put htask) ?_ ?_ hrun hsafe
  · intro other task hne hother
    exact hothers other task hne ((getElem?_put_ne hne).symm.trans hother)
  · have hreturned := returned_put stage' htask hnone
    rw [Stage.result_of_not_isIdle hsafe.not_isIdle, Option.map_none, Option.toList_none,
      List.append_nil] at hreturned
    exact hcalls.trans hreturned.symm

/-- The started call is the only one that can make a step. -/
theorem same_of_not_isIdle {index other : ℕ} {task : κ × Stage ι σ ε α}
    (hothers : ∀ other task, other ≠ index → pool.tasks[other]? = some task →
      task.2.isIdle = true)
    (hother : pool.tasks[other]? = some task) (hidle : task.2.isIdle = false) :
    other = index := by
  by_contra hne
  rw [hothers other task hne hother] at hidle
  cases hidle

/-- A step of the only call under way. -/
theorem Serial.advance {calls : List (κ × Except ε α)} {now : ρ} {index : ℕ} {call : κ}
    {stage : Stage ι σ ε α}
    (hsnoc : ∀ calls before call result after, run calls before →
      rel call before result after → run (calls ++ [(call, result)]) after)
    (htask : pool.tasks[index]? = some (call, stage))
    (hothers : ∀ other task, other ≠ index → pool.tasks[other]? = some task →
      task.2.isIdle = true)
    (hcalls : calls.Perm pool.returned) (hrun : run calls now)
    (hsafe : stage.IsSafe env (Behaves abs rel call now) pool.state pool.world)
    (hstep : pool.Advance awaited env next) : Serial env abs rel run next := by
  have hnone := Stage.result_of_not_isIdle hsafe.not_isIdle
  -- the step is one of the call under way
  have hsame : ∀ other call' stage', pool.tasks[other]? = some (call', stage') →
      stage'.isIdle = false → other = index ∧ call' = call ∧ stage' = stage := by
    intro other call' stage' hother hidle
    obtain rfl := same_of_not_isIdle hothers hother hidle
    rw [htask] at hother
    cases hother
    exact ⟨rfl, rfl, rfl⟩
  cases hstep with
  | silent moved hother hsilent =>
      obtain ⟨rfl, rfl, rfl⟩ := hsame _ _ _ hother rfl
      exact goOn _ htask hothers hcalls hrun hnone (Safe.of_silent hsafe hsilent)
  | inline moved hother hasks hc hanswer =>
      obtain ⟨rfl, rfl, rfl⟩ := hsame _ _ _ hother rfl
      exact goOn _ htask hothers hcalls hrun hnone (Safe.of_asks hsafe hasks hanswer)
  | suspend moved hother hasks hc =>
      obtain ⟨rfl, rfl, rfl⟩ := hsame _ _ _ hother rfl
      exact goOn pool.world htask hothers hcalls hrun hnone
        fun answer next hanswer => Safe.of_asks hsafe hasks hanswer
  | complete moved hother hanswer =>
      obtain ⟨rfl, rfl, rfl⟩ := hsame _ _ _ hother rfl
      exact goOn _ htask hothers hcalls hrun hnone (hsafe _ _ hanswer)
  | resume moved hfree hother =>
      obtain ⟨rfl, rfl, rfl⟩ := hsame _ _ _ hother rfl
      exact goOn _ htask hothers hcalls hrun hnone hsafe
  | finish moved hother hreturned =>
      obtain ⟨rfl, rfl, rfl⟩ := hsame _ _ _ hother rfl
      obtain ⟨after, hrel, habs⟩ := Safe.of_returned hsafe hreturned
      refine .quiet ?_ ((hcalls.append_right _).trans (returned_put _ htask hnone).symm)
        (hsnoc _ _ _ _ _ hrun hrel) habs
      intro task hmem
      obtain ⟨other, hother'⟩ := List.getElem?_of_mem hmem
      by_cases heq : other = moved
      · rw [heq, getElem?_put htask] at hother'
        cases hother'
        rfl
      · exact hothers other task heq ((getElem?_put_ne heq).symm.trans hother')

/-- One step of a run without overlaps. -/
theorem Serial.step
    (hspec : ∀ call before state world, abs before state world →
      Safe env (Behaves abs rel call before) (prog call) state world)
    (hsnoc : ∀ calls before call result after, run calls before →
      rel call before result after → run (calls ++ [(call, result)]) after)
    (hserial : Serial env abs rel run pool) (hstep : SerialStep prog awaited env pool next) :
    Serial env abs rel run next := by
  rcases hstep with ⟨hquiet, hstart⟩ | hadvance
  · have hothers : ∀ (index : ℕ) other task, other ≠ index →
        pool.tasks[other]? = some task → task.2.isIdle = true :=
      fun _ _ task _ hother => hquiet task (List.mem_of_getElem? hother)
    cases hserial with
    | busy htask _ _ _ hsafe =>
        have hidle := hquiet _ (List.mem_of_getElem? htask)
        rw [hsafe.not_isIdle] at hidle
        cases hidle
    | quiet _ hcalls hrun habs =>
        cases hstart with
        | start _ _ htask =>
            exact goOn _ htask (hothers _) hcalls hrun rfl (hspec _ _ _ _ habs)
  · cases hserial with
    | busy htask hothers hcalls hrun hsafe =>
        exact advance hsnoc htask hothers hcalls hrun hsafe hadvance
    | quiet hquiet _ _ _ =>
        -- every step but a start is one of a call under way
        have hnever : ∀ (index : ℕ) call (stage : Stage ι σ ε α),
            pool.tasks[index]? = some (call, stage) → stage.isIdle = true :=
          fun _ call stage htask => hquiet (call, stage) (List.mem_of_getElem? htask)
        cases hadvance with
        | silent _ htask => cases hnever _ _ _ htask
        | inline _ htask => cases hnever _ _ _ htask
        | suspend _ htask => cases hnever _ _ _ htask
        | complete _ htask => cases hnever _ _ _ htask
        | resume _ _ htask => cases hnever _ _ _ htask
        | finish _ htask => cases hnever _ _ _ htask

theorem Serial.init {calls : List κ} {state : σ} {world : ω} {start : ρ}
    (hrun : run [] start) (habs : abs start state world) :
    Serial env abs rel run (Pool.init calls state world : Pool ι σ ε ω α κ) := by
  refine .quiet ?_ ?_ hrun habs
  · intro task hmem
    obtain ⟨call, -, rfl⟩ := List.mem_map.mp hmem
    rfl
  · rw [returned, Pool.init, List.filterMap_map]
    exact List.Perm.of_eq (List.filterMap_eq_nil_iff.mpr fun _ _ => rfl).symm

/-- A finished run without overlaps is a sequential run of its calls. -/
theorem serial_of_run
    (hspec : ∀ call before state world, abs before state world →
      Safe env (Behaves abs rel call before) (prog call) state world)
    (hsnoc : ∀ calls before call result after, run calls before →
      rel call before result after → run (calls ++ [(call, result)]) after)
    {calls : List κ} {state : σ} {world : ω} {start : ρ} (hnil : run [] start)
    (habs : abs start state world)
    (hrun : ReflTransGen (SerialStep prog awaited env) (Pool.init calls state world) pool)
    (hdone : pool.Finished) :
    ∃ sequence now, sequence.Perm pool.returned ∧ (sequence.map Prod.fst).Perm calls ∧
      run sequence now ∧ abs now pool.state pool.world := by
  have hserial : Serial env abs rel run pool ∧ pool.tasks.map Prod.fst = calls := by
    clear hdone
    induction hrun with
    | refl =>
        refine ⟨Serial.init hnil habs, ?_⟩
        rw [Pool.init, List.map_map]
        exact List.map_id calls
    | tail _ hstep ih =>
        exact ⟨ih.1.step hspec hsnoc hstep, hstep.step.map_fst.trans ih.2⟩
  obtain ⟨hserial, hfst⟩ := hserial
  cases hserial with
  | quiet _ hcalls hsequence hnow =>
      refine ⟨_, _, hcalls, ?_, hsequence, hnow⟩
      have hperm := hcalls.map Prod.fst
      rwa [map_fst_returned hdone, hfst] at hperm
  | busy htask _ _ _ hsafe =>
      have hidle := quiet_of_finished hdone _ (List.mem_of_getElem? htask)
      rw [hsafe.not_isIdle] at hidle
      cases hidle

end Serial

end Pool

end Turbofile.Coroutine
