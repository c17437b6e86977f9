import Turbofile.Library.CoroutineRuns
import Turbofile.Library.Pool

/-!
# Rights that a shared state holds

Calls that are not awaited may be made only by right.  The state says who has
it: a coroutine that has looked at the state and finds the right there may make
such a call before it lets another run.  Some awaited call revokes the right,
once the state has given it up.  Coroutines that look before they call never
call without it (`Pool.rightful_of_run`), unless one has looked before an await
and calls after it.
-/

namespace Turbofile.Coroutine

open Relation

variable {ι : Interface} {σ ε ω κ : Type} {α β γ : Type} {awaited : ι.Call → Bool}

/-! ## Calls made without a look -/

/-- The next thing the program does is a call that is not awaited; it does not
look at the state before. -/
inductive Poised (awaited : ι.Call → Bool) : Prog ι σ ε α → Prop
  | call {c : ι.Call} {k : Except ε (ι.Answer c) → Prog ι σ ε α} (hc : awaited c = false) :
      Poised awaited (.call c k)
  | loop {β γ : Type} {body : β → Prog ι σ ε (β ⊕ γ)} {start : β} {k : γ → Prog ι σ ε α}
      (hround : Poised awaited ((body start).bind (Prog.unroll body k))) :
      Poised awaited (.loop body start k)

namespace Poised

@[simp]
theorem not_done (value : α) : ¬Poised awaited (.done value : Prog ι σ ε α) := by
  rintro ⟨⟩

@[simp]
theorem not_raise (error : ε) : ¬Poised awaited (.raise error : Prog ι σ ε α) := by
  rintro ⟨⟩

@[simp]
theorem not_get (k : σ → Prog ι σ ε α) : ¬Poised awaited (.get k) := by
  rintro ⟨⟩

@[simp]
theorem not_set (state : σ) (k : Prog ι σ ε α) : ¬Poised awaited (.set state k) := by
  rintro ⟨⟩

@[simp]
theorem call_iff (c : ι.Call) (k : Except ε (ι.Answer c) → Prog ι σ ε α) :
    Poised awaited (.call c k) ↔ awaited c = false := by
  constructor
  · rintro ⟨hc⟩
    exact hc
  · exact .call

theorem of_step {prog : Prog ι σ ε α} {state : σ} {c : ι.Call}
    {k : Except ε (ι.Answer c) → Prog ι σ ε α} (hstep : prog.step state = .asks c k)
    (hc : awaited c = false) : Poised awaited prog := by
  cases prog with
  | call c k =>
      cases hstep
      exact .call hc
  | _ => cases hstep

/-- What is poised with something after it is so by itself, or what comes after
it is. -/
theorem of_bind {prog : Prog ι σ ε α} {f : α → Prog ι σ ε β}
    (hpoised : Poised awaited (prog.bind f)) :
    Poised awaited prog ∨ ∃ value, Poised awaited (f value) := by
  generalize heq : prog.bind f = whole at hpoised
  induction hpoised generalizing prog with
  | @call c k hc =>
      cases prog with
      | done value =>
          refine .inr ⟨value, ?_⟩
          change f value = _ at heq
          rw [heq]
          exact .call hc
      | call c' k' =>
          cases heq
          exact .inl (.call hc)
      | _ => cases heq
  | @loop _ _ body start k hround ih =>
      cases prog with
      | done value =>
          refine .inr ⟨value, ?_⟩
          change f value = _ at heq
          rw [heq]
          exact .loop hround
      | loop body' start' k' =>
          cases heq
          rcases ih (Prog.unroll_bind body k' f start) with hleft | hright
          · exact .inl (.loop hleft)
          · exact .inr hright
      | _ => cases heq

theorem not_bind {prog : Prog ι σ ε α} {f : α → Prog ι σ ε β} (hprog : ¬Poised awaited prog)
    (hf : ∀ value, ¬Poised awaited (f value)) : ¬Poised awaited (prog.bind f) := by
  intro hpoised
  rcases hpoised.of_bind with hleft | ⟨value, hright⟩
  · exact hprog hleft
  · exact hf value hright

/-- A loop whose rounds look at the state first, or await. -/
theorem not_loop {body : β → Prog ι σ ε (β ⊕ γ)} {k : γ → Prog ι σ ε α}
    (hbody : ∀ value, ¬Poised awaited (body value)) (hk : ∀ value, ¬Poised awaited (k value))
    (start : β) : ¬Poised awaited (.loop body start k) := by
  have hrounds : ∀ (whole : Prog ι σ ε α), Poised awaited whole →
      ∀ prog : Prog ι σ ε (β ⊕ γ), prog.bind (Prog.unroll body k) = whole →
        ¬Poised awaited prog → False := by
    intro whole hpoised
    induction hpoised with
    | @call c k' hc =>
        intro prog heq hprog
        cases prog with
        | done value =>
            cases value with
            | inl next => cases heq
            | inr last =>
                change k last = _ at heq
                exact hk last (heq ▸ .call hc)
        | call c' k'' =>
            cases heq
            exact hprog (.call hc)
        | _ => cases heq
    | @loop _ _ body' start' k' hround ih =>
        intro prog heq hprog
        cases prog with
        | done value =>
            cases value with
            | inl next =>
                cases heq
                exact ih (body next) rfl (hbody next)
            | inr last =>
                change k last = _ at heq
                exact hk last (heq ▸ .loop hround)
        | loop body'' start'' k'' =>
            cases heq
            refine ih _ (Prog.unroll_bind body' k'' (Prog.unroll body k) start') ?_
            exact fun hpoised => hprog (.loop hpoised)
        | _ => cases heq
  intro hpoised
  cases hpoised with
  | loop hround => exact hrounds _ hround (body start) rfl (hbody start)

end Poised

/-! ## Entitled programs -/

/-- What a program may go on with after an await although it makes a call first
that it has not looked at the state for. -/
structure Late (ι : Interface) (σ ε : Type) where
  Is : ∀ {α : Type}, Prog ι σ ε α → Prop
  bind : ∀ {α β : Type} {prog : Prog ι σ ε α} (f : α → Prog ι σ ε β), Is prog → Is (prog.bind f)
  calls : ∀ {α : Type} {prog : Prog ι σ ε α}, Is prog → ∃ c k, prog = .call c k

variable {own : σ → Prop} {revokes : ι.Call → Prop} {late : Late ι σ ε}

/-- Up to its next await the program calls by right of what it finds in the
state; it never gives the state the right back, and it revokes the right only
where the state has given it up.  At an await any state may follow, and there nothing is
known of the right: an error does not lead on to a call, and any other answer
only to what may come late. -/
def Prog.Entitled (own : σ → Prop) (awaited : ι.Call → Bool) (revokes : ι.Call → Prop)
    (late : Late ι σ ε) {α : Type} : Prog ι σ ε α → σ → Prop
  | .done _, _ => True
  | .raise _, _ => True
  | .get k, state => (Poised awaited (k state) → own state) ∧
      (k state).Entitled own awaited revokes late state
  | .set next k, state => (own next → own state) ∧ (Poised awaited k → own next) ∧
      k.Entitled own awaited revokes late next
  | .call c k, state =>
      if awaited c then
        (revokes c → ¬own state ∧ ∀ answer, ¬Poised awaited (k answer)) ∧
          (∀ error, ¬Poised awaited (k (.error error))) ∧
          (∀ answer, Poised awaited (k answer) → late.Is (k answer)) ∧
          ∀ answer next, (k answer).Entitled own awaited revokes late next
      else ∀ answer, (Poised awaited (k answer) → own state) ∧
        (k answer).Entitled own awaited revokes late state
  | .loop body _ k, _ => (∀ value, ¬Poised awaited (body value)) ∧
      (∀ value, ¬Poised awaited (k value)) ∧
      (∀ value state, (body value).Entitled own awaited revokes late state) ∧
      ∀ value state, (k value).Entitled own awaited revokes late state

/-- In whatever state it starts. -/
def Prog.EntitledAlways (own : σ → Prop) (awaited : ι.Call → Bool) (revokes : ι.Call → Prop)
    (late : Late ι σ ε) (prog : Prog ι σ ε α) : Prop :=
  ∀ state, prog.Entitled own awaited revokes late state

namespace Prog

theorem Entitled.bind {prog : Prog ι σ ε α} {f : α → Prog ι σ ε β} {state : σ}
    (hprog : prog.Entitled own awaited revokes late state)
    (hf : ∀ value, (f value).EntitledAlways own awaited revokes late)
    (hlooks : ∀ value, ¬Poised awaited (f value)) :
    (prog.bind f).Entitled own awaited revokes late state := by
  induction prog generalizing state with
  | done value => exact hf value state
  | raise error => trivial
  | get k ih =>
      refine ⟨fun hpoised => ?_, ih state hprog.2 hf hlooks⟩
      rcases hpoised.of_bind with hleft | ⟨value, hright⟩
      · exact hprog.1 hleft
      · exact absurd hright (hlooks value)
  | set next k ih =>
      refine ⟨hprog.1, fun hpoised => ?_, ih hprog.2.2 hf hlooks⟩
      rcases hpoised.of_bind with hleft | ⟨value, hright⟩
      · exact hprog.2.1 hleft
      · exact absurd hright (hlooks value)
  | call c k ih =>
      cases hc : awaited c with
      | true =>
          rw [Entitled, if_pos hc] at hprog
          obtain ⟨hrevokes, herror, hlate, hk⟩ := hprog
          rw [Prog.bind, Entitled, if_pos hc]
          refine ⟨fun hrevoked => ⟨(hrevokes hrevoked).1, fun answer => ?_⟩, fun error => ?_,
            fun answer hpoised => ?_, ?_⟩
          · exact Poised.not_bind ((hrevokes hrevoked).2 answer) hlooks
          · exact Poised.not_bind (herror error) hlooks
          · rcases hpoised.of_bind with hleft | ⟨value, hright⟩
            · exact late.bind f (hlate answer hleft)
            · exact absurd hright (hlooks value)
          · exact fun answer next => ih answer (hk answer next) hf hlooks
      | false =>
          rw [Entitled, if_neg (by rw [hc]; exact Bool.false_ne_true)] at hprog
          rw [Prog.bind, Entitled, if_neg (by rw [hc]; exact Bool.false_ne_true)]
          refine fun answer => ⟨fun hpoised => ?_, ih answer (hprog answer).2 hf hlooks⟩
          rcases hpoised.of_bind with hleft | ⟨value, hright⟩
          · exact (hprog answer).1 hleft
          · exact absurd hright (hlooks value)
  | loop body start k hbody hk =>
      obtain ⟨hrounds, hafter, hbodies, hlast⟩ := hprog
      refine ⟨hrounds, fun value => Poised.not_bind (hafter value) hlooks, hbodies, ?_⟩
      exact fun value next => hk value (hlast value next) hf hlooks

/-- A loop is entitled round by round. -/
theorem Entitled.unroll {body : β → Prog ι σ ε (β ⊕ γ)} {start : β} {k : γ → Prog ι σ ε α}
    {state : σ} (hloop : (Prog.loop body start k).Entitled own awaited revokes late state) :
    ((body start).bind (unroll body k)).Entitled own awaited revokes late state := by
  obtain ⟨hrounds, hafter, hbodies, hlast⟩ := hloop
  refine Entitled.bind (hbodies start state) (fun value => ?_) fun value => ?_
  · cases value with
    | inl next => exact fun _ => ⟨hrounds, hafter, hbodies, hlast⟩
    | inr last => exact hlast last
  · cases value with
    | inl next => exact Poised.not_loop hrounds hafter next
    | inr last => exact hafter last

/-- A step that makes no call. -/
theorem Entitled.silent {prog prog' : Prog ι σ ε α} {state state' : σ}
    (hprog : prog.Entitled own awaited revokes late state)
    (hstep : prog.step state = .silent prog' state') :
    (own state' → own state) ∧ prog'.Entitled own awaited revokes late state' ∧
      (Poised awaited prog' →
        own state' ∨ state' = state ∧ Poised awaited prog ∧ ¬late.Is prog) := by
  cases prog with
  | get k =>
      cases hstep
      exact ⟨id, hprog.2, fun hpoised => .inl (hprog.1 hpoised)⟩
  | set next k =>
      cases hstep
      exact ⟨hprog.1, hprog.2.2, fun hpoised => .inl (hprog.2.1 hpoised)⟩
  | loop body start k =>
      cases hstep
      refine ⟨id, hprog.unroll, fun hpoised => .inr ⟨rfl, .loop hpoised, fun hlate => ?_⟩⟩
      obtain ⟨c, k', hcall⟩ := late.calls hlate
      cases hcall
  | _ => cases hstep

/-- A call that is answered at once. -/
theorem Entitled.inline {prog : Prog ι σ ε α} {state : σ} {c : ι.Call}
    {k : Except ε (ι.Answer c) → Prog ι σ ε α}
    (hprog : prog.Entitled own awaited revokes late state)
    (hstep : prog.step state = .asks c k) (hc : awaited c = false)
    (answer : Except ε (ι.Answer c)) :
    (Poised awaited (k answer) → own state) ∧
      (k answer).Entitled own awaited revokes late state := by
  cases prog with
  | call c k =>
      cases hstep
      rw [Entitled, if_neg (by rw [hc]; exact Bool.false_ne_true)] at hprog
      exact hprog answer
  | _ => cases hstep

theorem Entitled.suspend {prog : Prog ι σ ε α} {state : σ} {c : ι.Call}
    {k : Except ε (ι.Answer c) → Prog ι σ ε α}
    (hprog : prog.Entitled own awaited revokes late state)
    (hstep : prog.step state = .asks c k) (hc : awaited c = true) :
    (revokes c → ¬own state ∧ ∀ answer, ¬Poised awaited (k answer)) ∧
      (∀ error, ¬Poised awaited (k (.error error))) ∧
      (∀ answer, Poised awaited (k answer) → late.Is (k answer)) ∧
      ∀ answer, (k answer).EntitledAlways own awaited revokes late := by
  cases prog with
  | call c k =>
      cases hstep
      rw [Entitled, if_pos hc] at hprog
      exact hprog
  | _ => cases hstep

end Prog

/-! ## Pools -/

namespace Stage

/-- The coroutine goes on with a call it has not looked at the state for. -/
def Poised (awaited : ι.Call → Bool) : Stage ι σ ε α → Prop
  | .running prog | .ready prog => Coroutine.Poised awaited prog
  | _ => False

/-- It goes on late. -/
def GoesLate (late : Late ι σ ε) : Stage ι σ ε α → Prop
  | .running prog | .ready prog => late.Is prog
  | _ => False

/-- What is known of a coroutine while the right may have been revoked. -/
def Rightful (own : σ → Prop) (awaited : ι.Call → Bool) (revokes : ι.Call → Prop)
    (late : Late ι σ ε) (revoked : Prop) : Stage ι σ ε α → σ → Prop
  | .running prog, state => prog.Entitled own awaited revokes late state ∧
      (Coroutine.Poised awaited prog → own state ∨ ¬revoked ∧ late.Is prog)
  | .ready prog, _ => prog.EntitledAlways own awaited revokes late ∧
      (Coroutine.Poised awaited prog → ¬revoked ∧ late.Is prog)
  | .waiting c k, state => awaited c = true ∧
      (revokes c → ¬own state ∧ ∀ answer, ¬Coroutine.Poised awaited (k answer)) ∧
        (∀ error, ¬Coroutine.Poised awaited (k (.error error))) ∧
        (∀ answer, Coroutine.Poised awaited (k answer) → late.Is (k answer)) ∧
        ∀ answer, (k answer).EntitledAlways own awaited revokes late
  | .fresh, _ | .returned _, _ => True

/-- The right is given up, or revoked, while the coroutine does nothing. -/
theorem Rightful.mono {stage : Stage ι σ ε α} {revoked revoked' : Prop} {state state' : σ}
    (hrightful : stage.Rightful own awaited revokes late revoked state)
    (hown : own state' → own state) (hsame : stage.isRunning = true → state' = state)
    (hrevoked : revoked' → revoked ∨ ¬stage.Poised awaited) :
    stage.Rightful own awaited revokes late revoked' state' := by
  cases stage with
  | fresh => trivial
  | returned result => trivial
  | running prog =>
      rw [hsame rfl]
      refine ⟨hrightful.1, fun hpoised => (hrightful.2 hpoised).imp_right fun hnot => ?_⟩
      exact ⟨fun hnow => (hrevoked hnow).elim hnot.1 fun hcalm => hcalm hpoised, hnot.2⟩
  | ready prog =>
      refine ⟨hrightful.1, fun hpoised => ⟨fun hnow => ?_, (hrightful.2 hpoised).2⟩⟩
      exact (hrevoked hnow).elim (hrightful.2 hpoised).1 fun hcalm => hcalm hpoised
  | waiting c k =>
      obtain ⟨hc, hrevokes, hrest⟩ := hrightful
      refine ⟨hc, fun hrevoking => ⟨fun hown' => ?_, (hrevokes hrevoking).2⟩, hrest⟩
      exact (hrevokes hrevoking).1 (hown hown')

end Stage

/-- How calls bear on the right: only the calls that revoke it do, and a call
awaited where it is revoked is refused. -/
structure Revoking (env : Env ι ε ω) (awaited : ι.Call → Bool) (revokes : ι.Call → Prop)
    (revoked : ω → Prop) : Prop where
  inline : ∀ {c world answer next}, awaited c = false → env c world answer next →
    revoked next → revoked world
  others : ∀ {c world answer next}, ¬revokes c → env c world answer next →
    revoked next → revoked world
  refuses : ∀ {c world answer next}, awaited c = true → ¬revokes c → env c world answer next →
    revoked world → ∃ error, answer = .error error

namespace Pool

/-- Where the right is revoked, the state has given it up. -/
structure Rightful (own : σ → Prop) (awaited : ι.Call → Bool) (revokes : ι.Call → Prop)
    (late : Late ι σ ε) (revoked : ω → Prop) (pool : Pool ι σ ε ω α κ) : Prop where
  single : ∀ {index other : ℕ} {task task' : κ × Stage ι σ ε α},
    pool.tasks[index]? = some task → task.2.isRunning = true →
    pool.tasks[other]? = some task' → task'.2.isRunning = true → other = index
  givenUp : revoked pool.world → ¬own pool.state
  tasks : ∀ {index : ℕ} {task : κ × Stage ι σ ε α}, pool.tasks[index]? = some task →
    task.2.Rightful own awaited revokes late (revoked pool.world) pool.state

/-- A step that revokes the right does so while no coroutine is about to call
without a look at the state. -/
def Calm (awaited : ι.Call → Bool) (revoked : ω → Prop) (pool next : Pool ι σ ε ω α κ) : Prop :=
  revoked next.world → ¬revoked pool.world →
    ∀ (index : ℕ) (task : κ × Stage ι σ ε α), pool.tasks[index]? = some task →
      ¬task.2.Poised awaited

/-- Some coroutine makes a call that is not awaited. -/
def Calls (awaited : ι.Call → Bool) (pool : Pool ι σ ε ω α κ) : Prop :=
  ∃ (index : ℕ) (call : κ) (prog : Prog ι σ ε α) (c : ι.Call)
    (k : Except ε (ι.Answer c) → Prog ι σ ε α), pool.tasks[index]? = some (call, .running prog) ∧
    prog.step pool.state = .asks c k ∧ awaited c = false

section Rights

variable {env : Env ι ε ω} {revoked : ω → Prop} {pool next : Pool ι σ ε ω α κ}

/-- One coroutine moves. -/
theorem Rightful.move (hpool : pool.Rightful own awaited revokes late revoked)
    {index : ℕ} {call : κ} {stage stage' : Stage ι σ ε α} {state : σ} {world : ω}
    (htask : pool.tasks[index]? = some (call, stage))
    (hstage : stage'.Rightful own awaited revokes late (revoked world) state)
    (hown : own state → own pool.state) (hgiven : revoked world → ¬own state)
    (hothers : ∀ other task, other ≠ index → pool.tasks[other]? = some task →
      (task.2.isRunning = true → state = pool.state ∧ stage'.isRunning = false) ∧
        (revoked world → revoked pool.world ∨ ¬task.2.Poised awaited)) :
    ({ pool.put index call stage' with state := state, world := world } :
      Pool ι σ ε ω α κ).Rightful own awaited revokes late revoked where
  single := by
    intro first second task task' hfirst hrun hsecond hrun'
    by_cases heq : first = index
    · by_cases heq' : second = index
      · rw [heq, heq']
      · subst heq
        have hput := hfirst.symm.trans (getElem?_put htask)
        cases hput
        have hother := (getElem?_put_ne heq').symm.trans hsecond
        rw [((hothers second task' heq' hother).1 hrun').2] at hrun
        cases hrun
    · have hother := (getElem?_put_ne heq).symm.trans hfirst
      by_cases heq' : second = index
      · subst heq'
        have hput := hsecond.symm.trans (getElem?_put htask)
        cases hput
        rw [((hothers first task heq hother).1 hrun).2] at hrun'
        cases hrun'
      · have hother' := (getElem?_put_ne heq').symm.trans hsecond
        exact hpool.single hother hrun hother' hrun'
  givenUp := hgiven
  tasks := by
    intro other task hother
    by_cases heq : other = index
    · subst heq
      have hput := hother.symm.trans (getElem?_put htask)
      cases hput
      exact hstage
    · have hold := (getElem?_put_ne heq).symm.trans hother
      have hkept := hothers other task heq hold
      exact (hpool.tasks hold).mono hown (fun hrun => (hkept.1 hrun).1) hkept.2

theorem Rightful.init {calls : List κ} {state : σ} {world : ω}
    (hgiven : revoked world → ¬own state) :
    (Pool.init calls state world : Pool ι σ ε ω α κ).Rightful own awaited revokes late revoked := by
  have hfresh : ∀ {index : ℕ} {task : κ × Stage ι σ ε α},
      (Pool.init calls state world : Pool ι σ ε ω α κ).tasks[index]? = some task →
        task.2 = .fresh := by
    intro index task htask
    obtain ⟨call, -, rfl⟩ := List.mem_map.mp (List.mem_of_getElem? htask)
    rfl
  refine ⟨fun htask hrun => ?_, hgiven, fun htask => ?_⟩
  · rw [hfresh htask] at hrun
    cases hrun
  · rw [hfresh htask]
    trivial

variable {prog : κ → Prog ι σ ε α}

theorem Rightful.start (hprog : ∀ call, (prog call).EntitledAlways own awaited revokes late)
    (hlooks : ∀ call, ¬Poised awaited (prog call))
    (hpool : pool.Rightful own awaited revokes late revoked) (hstep : pool.Start prog next) :
    next.Rightful own awaited revokes late revoked := by
  cases hstep with
  | start index hfree htask =>
      refine hpool.move htask ⟨hprog _ _, fun hpoised => absurd hpoised (hlooks _)⟩ id
        hpool.givenUp fun other task _ hother => ⟨fun hrun => ?_, .inl⟩
      rw [hfree task (List.mem_of_getElem? hother)] at hrun
      cases hrun

theorem Rightful.advance (hrevoking : Revoking env awaited revokes revoked)
    (hpool : pool.Rightful own awaited revokes late revoked)
    (hcalm : pool.Calm awaited revoked next)
    (hstep : pool.Advance awaited env next) : next.Rightful own awaited revokes late revoked := by
  cases hstep with
  | silent index htask hstep =>
      obtain ⟨hentitled, hright⟩ := hpool.tasks htask
      obtain ⟨hown, hentitled', hpoised⟩ := hentitled.silent hstep
      refine hpool.move htask ⟨hentitled', fun hnow => ?_⟩ hown
        (fun hrevoked hown' => hpool.givenUp hrevoked (hown hown'))
        fun other task hne hother => ⟨fun hrun => ?_, .inl⟩
      · rcases hpoised hnow with hown' | ⟨rfl, hbefore, hnot⟩
        · exact .inl hown'
        · exact (hright hbefore).imp_right fun hlate => absurd hlate.2 hnot
      · exact absurd (hpool.single htask rfl hother hrun) hne
  | inline index htask hstep hc hanswer =>
      obtain ⟨hentitled, -⟩ := hpool.tasks htask
      obtain ⟨hown, hentitled'⟩ := hentitled.inline hstep hc _
      have hback := hrevoking.inline hc hanswer
      refine hpool.move htask ⟨hentitled', fun hnow => .inl (hown hnow)⟩ id
        (fun hrevoked => hpool.givenUp (hback hrevoked))
        fun other task hne hother => ⟨fun hrun => ?_, fun hrevoked => .inl (hback hrevoked)⟩
      exact absurd (hpool.single htask rfl hother hrun) hne
  | suspend index htask hstep hc =>
      obtain ⟨hentitled, -⟩ := hpool.tasks htask
      refine hpool.move htask ⟨hc, hentitled.suspend hstep hc⟩ id hpool.givenUp
        fun other task hne hother => ⟨fun hrun => ?_, .inl⟩
      exact absurd (hpool.single htask rfl hother hrun) hne
  | @complete index call c k answer world htask hanswer =>
      obtain ⟨hawaited, hrevokes, herror, hlate, hentitled⟩ := hpool.tasks htask
      refine hpool.move htask
        ⟨hentitled answer, fun hnow => ⟨fun hrevoked => ?_, hlate answer hnow⟩⟩ id
        (fun hrevoked => ?_) fun other task _ hother => ⟨fun _ => ⟨rfl, rfl⟩, fun hrevoked => ?_⟩
      · -- Where the right was revoked before, the answer is an error.
        by_cases hc : revokes c
        · exact (hrevokes hc).2 answer hnow
        · have hbefore := hrevoking.others hc hanswer hrevoked
          obtain ⟨error, rfl⟩ := hrevoking.refuses hawaited hc hanswer hbefore
          exact herror error hnow
      · by_cases hc : revokes c
        · exact (hrevokes hc).1
        · exact hpool.givenUp (hrevoking.others hc hanswer hrevoked)
      · by_cases hbefore : revoked pool.world
        · exact .inl hbefore
        · exact .inr (hcalm hrevoked hbefore other task hother)
  | resume index hfree htask =>
      obtain ⟨hentitled, hright⟩ := hpool.tasks htask
      refine hpool.move htask ⟨hentitled _, fun hnow => .inr (hright hnow)⟩ id hpool.givenUp
        fun other task _ hother => ⟨fun hrun => ?_, .inl⟩
      rw [hfree task (List.mem_of_getElem? hother)] at hrun
      cases hrun
  | finish index htask hstep =>
      refine hpool.move htask trivial id hpool.givenUp
        fun other task hne hother => ⟨fun hrun => ?_, .inl⟩
      exact absurd (hpool.single htask rfl hother hrun) hne

/-- A step that revokes the right while some coroutine is about to call without
a look finds one that goes on late. -/
theorem Rightful.late_of_not_calm (hrevoking : Revoking env awaited revokes revoked)
    (hpool : pool.Rightful own awaited revokes late revoked) (hstep : pool.Advance awaited env next)
    (hloud : ¬pool.Calm awaited revoked next) :
    ∃ (index : ℕ) (task : κ × Stage ι σ ε α), pool.tasks[index]? = some task ∧
      task.2.GoesLate late := by
  simp only [Calm, not_forall, not_not] at hloud
  obtain ⟨hrevoked, hbefore, index, ⟨call, stage⟩, htask, hpoised⟩ := hloud
  -- Only a call that revokes the right does so, and then the state has given it up.
  have hgiven : ¬own pool.state := by
    cases hstep with
    | inline other hother _ hc hanswer =>
        exact absurd (hrevoking.inline hc hanswer hrevoked) hbefore
    | @complete other _ c _ _ _ hother hanswer =>
        by_cases hc : revokes c
        · exact ((hpool.tasks hother).2.1 hc).1
        · exact absurd (hrevoking.others hc hanswer hrevoked) hbefore
    | _ => exact absurd hrevoked hbefore
  refine ⟨index, (call, stage), htask, ?_⟩
  cases stage with
  | running prog => exact (((hpool.tasks htask).2 hpoised).resolve_left hgiven).2
  | ready prog => exact ((hpool.tasks htask).2 hpoised).2
  | _ => cases hpoised

/-- In a run whose steps revoke the right only while no coroutine is about to
call without a look, no coroutine calls where it is revoked. -/
theorem rightful_of_run (hrevoking : Revoking env awaited revokes revoked)
    (hprog : ∀ call, (prog call).EntitledAlways own awaited revokes late)
    (hlooks : ∀ call, ¬Poised awaited (prog call))
    (hpool : pool.Rightful own awaited revokes late revoked)
    (hrun : ReflTransGen (fun pool next => Step prog awaited env pool next ∧
      pool.Calm awaited revoked next) pool next) :
    next.Rightful own awaited revokes late revoked := by
  induction hrun with
  | refl => exact hpool
  | tail _ hstep ih =>
      obtain ⟨hstart | hadvance, hcalm⟩ := hstep
      · exact ih.start hprog hlooks hstart
      · exact ih.advance hrevoking hcalm hadvance

end Rights

end Pool

end Turbofile.Coroutine
