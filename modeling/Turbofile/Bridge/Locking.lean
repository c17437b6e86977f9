import Mathlib
import Turbofile.Library.System

/-!
# The mutexes of the bridge and the interpreter lock

Every bridge call runs with the GIL and takes the Rust mutexes while it holds
it.  The GIL can pass to another thread at any call into Python code, and some
of these calls are made while a mutex is held.
-/

namespace Turbofile.Bridge

abbrev ThreadId := ℕ
abbrev LoopKey := ℕ
abbrev Pid := ℕ

inductive Mutex
  | driver
  | bridges
  deriving DecidableEq

/-- What a bridge call goes through.  `python` is a call into Python code, by
name or by the drop of a last reference. -/
inductive Instr
  | lock (mutex : Mutex)
  | unlock (mutex : Mutex)
  | python
  | checkDriver
  | storeDriver
  | clearBridges
  | findBridge
  | retainOpen
  | insertBridge
  | removeBridge (key : LoopKey)
  deriving DecidableEq

inductive Call
  /-- `submit` and `read_parallel` -/
  | submit
  /-- `cancel_ops` and `backend_name` -/
  | driverOnly
  /-- `probe_resolved_future` -/
  | bridgeOnly
  /-- `ring_call_soon` on the driver thread, for a loop that is closed -/
  | ringCallSoon (key : LoopKey)
  deriving DecidableEq

def driverCode : List Instr := [.lock .driver, .checkDriver]

/-- `get_running_loop` is looked up and called before the mutex is taken. -/
def bridgeForRunningLoop : List Instr :=
  [.python, .python, .lock .bridges, .findBridge]

/-- A submission also makes the future and sets its `op_ids`. -/
def Call.code : Call → List Instr
  | .submit => driverCode ++ bridgeForRunningLoop ++ [.python, .python]
  | .driverOnly => driverCode
  | .bridgeOnly => bridgeForRunningLoop
  | .ringCallSoon key => [.python, .lock .bridges, .removeBridge key, .unlock .bridges]

structure Locks where
  gil : Option ThreadId
  holder : Mutex → Option ThreadId
  code : ThreadId → List Instr
  running : ThreadId → LoopKey
  known : List LoopKey
  closed : LoopKey → Bool
  pid : Pid
  stored : Option Pid

namespace Locks

def continueWith (thread : ThreadId) (rest : List Instr) (locks : Locks) : Locks :=
  { locks with code := Function.update locks.code thread rest }

/-- One instruction of the thread that holds the GIL; `none` while it blocks. -/
def exec (thread : ThreadId) (locks : Locks) : Option Locks :=
  match locks.code thread with
  | [] => none
  | .lock mutex :: rest =>
      match locks.holder mutex with
      | some _ => none
      | none =>
          some (({ locks with
            holder := Function.update locks.holder mutex (some thread) }).continueWith thread rest)
  | .unlock mutex :: rest =>
      some (({ locks with
        holder := Function.update locks.holder mutex none }).continueWith thread rest)
  | .python :: rest => some (locks.continueWith thread rest)
  | .checkDriver :: rest =>
      -- a driver of another process is replaced, and its bridges are dropped
      if locks.stored = some locks.pid then
        some (locks.continueWith thread (.unlock .driver :: rest))
      else if locks.stored = none then
        some (locks.continueWith thread (.storeDriver :: .unlock .driver :: rest))
      else
        some (locks.continueWith thread
          ([.lock .bridges, .clearBridges] ++ List.replicate locks.known.length .python ++
            [.unlock .bridges, .storeDriver, .unlock .driver] ++ rest))
  | .storeDriver :: rest =>
      some (({ locks with stored := some locks.pid }).continueWith thread rest)
  | .clearBridges :: rest => some (({ locks with known := [] }).continueWith thread rest)
  | .findBridge :: rest =>
      if locks.running thread ∈ locks.known then
        some (locks.continueWith thread (.unlock .bridges :: rest))
      else
        -- `is_closed` and perhaps the drop of each known loop, then the class,
        -- `partial`, the drain and `add_reader`
        some (locks.continueWith thread
          (List.replicate (2 * locks.known.length) .python ++
            [.retainOpen, .python, .python, .python, .python, .insertBridge,
              .unlock .bridges] ++ rest))
  | .retainOpen :: rest =>
      some (({ locks with
        known := locks.known.filter fun key => !locks.closed key }).continueWith thread rest)
  | .insertBridge :: rest =>
      some (({ locks with
        known := locks.running thread :: locks.known }).continueWith thread rest)
  | .removeBridge key :: rest =>
      some (({ locks with known := locks.known.erase key }).continueWith thread rest)

/-- An exception leaves the call, and the guards it holds are dropped. -/
def fail (thread : ThreadId) (locks : Locks) : Locks :=
  ({ locks with
    holder := fun mutex =>
      if locks.holder mutex = some thread then none else locks.holder mutex }).continueWith
    thread []

end Locks

inductive LockStep
  | acquire (thread : ThreadId)
  | release (thread : ThreadId)
  | call (thread : ThreadId) (call : Call) (key : LoopKey)
  | exec (thread : ThreadId)
  | fail (thread : ThreadId)
  | closeLoop (key : LoopKey)

/-- Where the GIL may pass on: outside bridge calls and in Python code. -/
def Locks.inPython (locks : Locks) (thread : ThreadId) : Bool :=
  match locks.code thread with
  | [] => true
  | instr :: _ => instr = .python

/-- A Python exception, or a driver that cannot be built. -/
def Locks.mayFail (locks : Locks) (thread : ThreadId) : Bool :=
  match locks.code thread with
  | [] => false
  | instr :: _ => instr = .python || instr = .storeDriver

def Locks.step (locks : Locks) : LockStep → Option Locks
  | .acquire thread =>
      if locks.gil = none then some { locks with gil := some thread } else none
  | .release thread =>
      if locks.gil = some thread ∧ locks.inPython thread then some { locks with gil := none }
      else none
  | .call thread call key =>
      if locks.gil = some thread ∧ locks.code thread = [] then
        some (({ locks with
          running := Function.update locks.running thread key }).continueWith thread call.code)
      else none
  | .exec thread => if locks.gil = some thread then locks.exec thread else none
  | .fail thread =>
      if locks.gil = some thread ∧ locks.mayFail thread then some (locks.fail thread)
      else none
  | .closeLoop key => some { locks with closed := Function.update locks.closed key true }

/-- Any number of threads, in a process that may have inherited a driver and
bridges, before their first calls. -/
def locking : System Locks LockStep where
  init locks := locks.gil = none ∧ (∀ mutex, locks.holder mutex = none) ∧
    ∀ thread, locks.code thread = []
  step := Locks.step

/-- One thread holds the mutex and waits for the GIL, another holds the GIL and
waits for the mutex. -/
def Locks.Cycle (locks : Locks) (mutex : Mutex) : Prop :=
  ∃ holder waiter, holder ≠ waiter ∧
    locks.holder mutex = some holder ∧ locks.code holder ≠ [] ∧
    locks.gil = some waiter ∧ ∃ rest, locks.code waiter = .lock mutex :: rest

/-- A thread that holds one of the mutexes keeps the GIL. -/
def KeepsGil (locks : Locks) (step : LockStep) : Prop :=
  ∀ thread, step = .release thread → ∀ mutex, locks.holder mutex ≠ some thread

/-! ## Without handing the GIL on -/

namespace Locks

variable {locks next : Locks} {thread : ThreadId}

/-- A mutex that is held is held by the thread with the GIL. -/
def HeldWithGil (locks : Locks) : Prop :=
  ∀ mutex holder, locks.holder mutex = some holder → locks.gil = some holder

theorem HeldWithGil.no_cycle (hheld : HeldWithGil locks) (mutex : Mutex) :
    ¬ locks.Cycle mutex := by
  rintro ⟨holder, waiter, hne, hholder, -, hgil, -⟩
  have hsame := hheld mutex holder hholder
  rw [hgil, Option.some.injEq] at hsame
  exact hne hsame.symm

/-- An instruction leaves the GIL where it is and takes no mutex for another
thread. -/
theorem exec_frame (hexec : locks.exec thread = some next) :
    next.gil = locks.gil ∧ ∀ mutex holder, next.holder mutex = some holder →
      locks.holder mutex = some holder ∨ holder = thread := by
  unfold exec at hexec
  split at hexec
  · cases hexec
  · next taken rest hcode =>
      split at hexec
      · cases hexec
      · obtain rfl := Option.some.inj hexec
        refine ⟨rfl, fun mutex holder hholder => ?_⟩
        simp only [continueWith, Function.update_apply] at hholder
        split at hholder
        · exact Or.inr (Option.some.inj hholder).symm
        · exact Or.inl hholder
  · next freed rest hcode =>
      obtain rfl := Option.some.inj hexec
      refine ⟨rfl, fun mutex holder hholder => ?_⟩
      simp only [continueWith, Function.update_apply] at hholder
      split at hholder
      · cases hholder
      · exact Or.inl hholder
  all_goals
    first
      | (obtain rfl := Option.some.inj hexec
         exact ⟨rfl, fun _ _ hholder => Or.inl hholder⟩)
      | (split_ifs at hexec <;>
          (obtain rfl := Option.some.inj hexec
           exact ⟨rfl, fun _ _ hholder => Or.inl hholder⟩))

theorem HeldWithGil.step (hheld : HeldWithGil locks) {move : LockStep}
    (hkeeps : KeepsGil locks move) (hstep : locks.step move = some next) :
    HeldWithGil next := by
  cases move with
  | acquire thread =>
      simp only [Locks.step] at hstep
      split at hstep
      · next hfree =>
          obtain rfl := Option.some.inj hstep
          intro mutex holder hholder
          have hgil := hheld mutex holder hholder
          rw [hfree] at hgil
          cases hgil
      · cases hstep
  | release thread =>
      simp only [Locks.step] at hstep
      split at hstep
      · next hgil =>
          obtain rfl := Option.some.inj hstep
          intro mutex holder hholder
          have hsame := hheld mutex holder hholder
          rw [hgil.1, Option.some.injEq] at hsame
          exact absurd (hsame ▸ hholder) (hkeeps thread rfl mutex)
      · cases hstep
  | call thread call key =>
      simp only [Locks.step] at hstep
      split at hstep
      · obtain rfl := Option.some.inj hstep
        exact hheld
      · cases hstep
  | exec thread =>
      simp only [Locks.step] at hstep
      split at hstep
      · next hgil =>
          obtain ⟨hsame, hholders⟩ := exec_frame hstep
          intro mutex holder hholder
          rw [hsame]
          rcases hholders mutex holder hholder with hold | rfl
          · exact hheld mutex holder hold
          · exact hgil
      · cases hstep
  | fail thread =>
      simp only [Locks.step] at hstep
      split at hstep
      · obtain rfl := Option.some.inj hstep
        intro mutex holder hholder
        simp only [fail, continueWith] at hholder
        split at hholder
        · cases hholder
        · exact hheld mutex holder hholder
      · cases hstep
  | closeLoop key =>
      obtain rfl := Option.some.inj hstep
      exact hheld

end Locks

/-! ## With it -/

/-- The next bridge call of any other thread closes the cycle. -/
def closingCycle (thread : ThreadId) (key : LoopKey) : List LockStep :=
  [.acquire thread, .call thread .bridgeOnly key, .exec thread, .exec thread]

theorem cycle_of_handover {locks : Locks} {holder thread : ThreadId} (key : LoopKey)
    (hholder : locks.holder .bridges = some holder) (hinside : locks.code holder ≠ [])
    (hfree : locks.gil = none) (hne : holder ≠ thread) (houtside : locks.code thread = []) :
    ∃ next, locking.exec locks (closingCycle thread key) = some next ∧
      next.Cycle .bridges := by
  have hrun : locking.exec locks (closingCycle thread key) = some { locks with
      gil := some thread
      running := Function.update locks.running thread key
      code := Function.update locks.code thread [.lock .bridges, .findBridge] } := by
    simp [System.exec, closingCycle, locking, Locks.step, Locks.exec, Locks.continueWith,
      Call.code, bridgeForRunningLoop, hfree, houtside]
  refine ⟨_, hrun, holder, thread, hne, hholder, ?_, rfl, [.findBridge], ?_⟩
  · simpa [Function.update_of_ne hne] using hinside
  · simp

/-- **Lock cycles.**  In every run in which no thread hands the GIL on while it
holds one of the two mutexes there is no cycle through either of them.  Once
the holder of the bridges mutex has handed the GIL on, the next bridge call of
any other thread closes the cycle. -/
theorem no_cycle_of_keepsGil {locks : Locks} (hreach : locking.Reachable locks) :
    (locking.ReachableBy KeepsGil locks → ∀ mutex, ¬ locks.Cycle mutex) ∧
    ∀ (holder thread : ThreadId) (key : LoopKey),
      locks.holder .bridges = some holder → locks.code holder ≠ [] → locks.gil = none →
      holder ≠ thread → locks.code thread = [] →
      ∃ next, locking.exec locks (closingCycle thread key) = some next ∧
        next.Cycle .bridges ∧ locking.Reachable next := by
  constructor
  · intro hkeeps
    have hheld : Locks.HeldWithGil locks := by
      refine hkeeps.invariant ?_ ?_
      · rintro locks ⟨-, hfree, -⟩ mutex holder hholder
        rw [hfree] at hholder
        cases hholder
      · intro _ _ _ _ hheld hkeeps hstep
        exact hheld.step hkeeps hstep
    exact hheld.no_cycle
  · intro holder thread key hholder hinside hfree hne houtside
    obtain ⟨next, hexec, hcycle⟩ :=
      cycle_of_handover key hholder hinside hfree hne houtside
    exact ⟨next, hexec, hcycle, hreach.ofExec hexec⟩

/-- Before the first call of a process. -/
def Locks.fresh : Locks where
  gil := none
  holder _ := none
  code _ := []
  running _ := 0
  known := []
  closed _ := false
  pid := 1
  stored := none

/-- A test for `KeepsGil`. -/
def keepsGil (locks : Locks) : LockStep → Bool
  | .release thread =>
      locks.holder .driver ≠ some thread && locks.holder .bridges ≠ some thread
  | _ => true

theorem keepsGil_of_test (locks : Locks) (step : LockStep) (htest : keepsGil locks step = true) :
    KeepsGil locks step := by
  rintro thread rfl mutex
  simp only [keepsGil, Bool.and_eq_true, decide_eq_true_eq] at htest
  cases mutex with
  | driver => exact htest.1
  | bridges => exact htest.2

/-- A thread hands the GIL on on its way to the mutex, and another one takes it. -/
def overtakes : List LockStep :=
  [.acquire 0, .call 0 .bridgeOnly 7, .exec 0, .release 0, .acquire 1, .call 1 .bridgeOnly 8] ++
    List.replicate 3 (.exec 1)

/-- The second thread leaves the mutex, and the first one takes it. -/
def follows : List LockStep :=
  List.replicate 8 (.exec 1) ++ [.release 1, .acquire 0, .exec 0, .exec 0]

/-- Two threads in turn at the mutex of the bridges. -/
theorem no_cycle_of_keepsGil_turns :
    ∃ taken locks, locking.exec .fresh overtakes = some taken ∧
      taken.holder .bridges = some 1 ∧
      taken.code 0 = [.python, .lock .bridges, .findBridge] ∧ ¬ taken.Cycle .bridges ∧
      locking.exec taken follows = some locks ∧
      locks.holder .bridges = some 0 ∧ ¬ locks.Cycle .bridges := by
  have hstart : locking.ReachableBy KeepsGil .fresh := .init ⟨rfl, fun _ => rfl, fun _ => rfl⟩
  have htaken := hstart.ofExec keepsGil_of_test
    (rfl : locking.exec .fresh overtakes = some _) rfl
  have hlocks := htaken.ofExec keepsGil_of_test
    (rfl : locking.exec _ follows = some _) rfl
  exact ⟨_, _, rfl, rfl, rfl, (no_cycle_of_keepsGil htaken.reachable).1 htaken .bridges, rfl, rfl,
    (no_cycle_of_keepsGil hlocks.reachable).1 hlocks .bridges⟩

/-- Two first calls: the GIL passes on at the import of the future class, while
the bridges mutex is held. -/
theorem first_calls_deadlock :
    ∃ locks, locking.exec .fresh
        ([.acquire 0, .call 0 .submit 7] ++ List.replicate 9 (.exec 0) ++
          [.release 0, .acquire 1, .call 1 .submit 8] ++ List.replicate 5 (.exec 1)) =
        some locks ∧
      locks.Cycle .bridges :=
  ⟨_, rfl, 0, 1, by decide, rfl, by decide, rfl, _, rfl⟩

end Turbofile.Bridge
