import Mathlib

/-!
# Programs that make calls

A program reads and writes a state, makes calls that an environment answers
with a value or an error, raises errors and loops.  `wp` is total correctness
against an environment that may answer in several ways: every run ends, and in
a result that satisfies the postcondition.  `Safe` says the same of the
programs' single steps, and `wp_safe` connects the two.
-/

namespace Turbofile.Coroutine

/-- The calls a program can make and the type of each answer. -/
structure Interface where
  Call : Type
  Answer : Call → Type

inductive Prog (ι : Interface) (σ ε : Type) : Type → Type 1
  | done {α : Type} (value : α) : Prog ι σ ε α
  | raise {α : Type} (error : ε) : Prog ι σ ε α
  | get {α : Type} (k : σ → Prog ι σ ε α) : Prog ι σ ε α
  | set {α : Type} (state : σ) (k : Prog ι σ ε α) : Prog ι σ ε α
  | call {α : Type} (c : ι.Call) (k : Except ε (ι.Answer c) → Prog ι σ ε α) : Prog ι σ ε α
  | loop {α β γ : Type} (body : β → Prog ι σ ε (β ⊕ γ)) (start : β) (k : γ → Prog ι σ ε α) :
      Prog ι σ ε α

namespace Prog

variable {ι : Interface} {σ ε ω : Type} {α β γ : Type}

def bind {α β : Type} : Prog ι σ ε α → (α → Prog ι σ ε β) → Prog ι σ ε β
  | .done value, f => f value
  | .raise error, _ => .raise error
  | .get k, f => .get fun state => (k state).bind f
  | .set state k, f => .set state (k.bind f)
  | .call c k, f => .call c fun answer => (k answer).bind f
  | .loop body start k, f => .loop body start fun value => (k value).bind f

instance : Monad (Prog ι σ ε) where
  pure := .done
  bind := .bind

theorem bind_done (prog : Prog ι σ ε α) : prog.bind .done = prog := by
  induction prog with
  | done value => rfl
  | raise error => rfl
  | get k ih => simp only [bind, ih]
  | set state k ih => simp only [bind, ih]
  | call c k ih => simp only [bind, ih]
  | loop body start k _ ih => simp only [bind, ih]

/-- The state now. -/
def state : Prog ι σ ε σ := .get .done

def modify (f : σ → σ) : Prog ι σ ε Unit := .get fun state => .set (f state) (.done ())

/-- Make a call; an error it answers is raised. -/
def await (c : ι.Call) : Prog ι σ ε (ι.Answer c) :=
  .call c fun answer =>
    match answer with
    | .ok value => .done value
    | .error error => .raise error

/-- Run `body` from `start` until it ends with a right value. -/
def repeatUntil (body : β → Prog ι σ ε (β ⊕ γ)) (start : β) : Prog ι σ ε γ :=
  .loop body start .done

/-- A loop that an error ends. -/
def endOnError : Except ε (β ⊕ γ) → β ⊕ Except ε γ
  | .ok (.inl next) => .inl next
  | .ok (.inr last) => .inr (.ok last)
  | .error error => .inr (.error error)

/-- Run a program and hand on an error it raises as a value. -/
def attempt {α : Type} : Prog ι σ ε α → Prog ι σ ε (Except ε α)
  | .done value => .done (.ok value)
  | .raise error => .done (.error error)
  | .get k => .get fun state => (k state).attempt
  | .set state k => .set state k.attempt
  | .call c k => .call c fun answer => (k answer).attempt
  | .loop body start k =>
      .loop (fun value => (body value).attempt.bind fun result => .done (endOnError result))
        start fun result =>
          match result with
          | Except.ok last => (k last).attempt
          | Except.error error => .done (.error error)

end Prog

/-! ## Programs on a part of the state -/

/-- A part of a state that can be read and replaced. -/
structure Part (τ σ : Type) where
  get : τ → σ
  put : σ → τ → τ
  get_put : ∀ part state, get (put part state) = part
  put_get : ∀ state, put (get state) state = state
  put_put : ∀ part other state, put part (put other state) = put part state

namespace Prog

variable {ι : Interface} {σ τ ε : Type} {α β γ : Type}

/-- The program, run on a part of a larger state. -/
def zoom (part : Part τ σ) {α : Type} : Prog ι σ ε α → Prog ι τ ε α
  | .done value => .done value
  | .raise error => .raise error
  | .get k => .get fun state => (k (part.get state)).zoom part
  | .set next k => .get fun state => .set (part.put next state) (k.zoom part)
  | .call c k => .call c fun answer => (k answer).zoom part
  | .loop body start k =>
      .loop (fun value => (body value).zoom part) start fun value => (k value).zoom part

end Prog

/-! ## Total correctness -/

/-- What an environment in some world may answer to a call, and the world then. -/
abbrev Env (ι : Interface) (ε ω : Type) : Type :=
  (c : ι.Call) → ω → Except ε (ι.Answer c) → ω → Prop

abbrev Post (σ ε ω α : Type) : Type := Except ε α → σ → ω → Prop

namespace Prog

variable {ι : Interface} {σ ε ω : Type} {α β γ : Type}

/-- The states and worlds from which every run ends, with `post` at its end.  A
loop is the least solution of its unfolding. -/
def wp (env : Env ι ε ω) {α : Type} : Prog ι σ ε α → Post σ ε ω α → σ → ω → Prop
  | .done value, post => post (.ok value)
  | .raise error, post => post (.error error)
  | .get k, post => fun state => (k state).wp env post state
  | .set state k, post => fun _ => k.wp env post state
  | .call c k, post => fun state world =>
      ∀ answer next, env c world answer next → (k answer).wp env post state next
  | .loop (β := β) body start k, post => fun state world =>
      ∀ ends : β → σ → ω → Prop,
        (∀ value state world,
          (body value).wp env
            (fun result =>
              match result with
              | .ok (.inl next) => ends next
              | .ok (.inr last) => (k last).wp env post
              | .error error => post (.error error))
            state world → ends value state world) →
        ends start state world

variable {env : Env ι ε ω}

theorem wp_mono (prog : Prog ι σ ε α) {post post' : Post σ ε ω α}
    (himp : ∀ result state world, post result state world → post' result state world)
    {state : σ} {world : ω} (hwp : prog.wp env post state world) :
    prog.wp env post' state world := by
  induction prog generalizing state world with
  | done value => exact himp _ _ _ hwp
  | raise error => exact himp _ _ _ hwp
  | get k ih => exact ih state himp hwp
  | set next k ih => exact ih himp hwp
  | call c k ih =>
      intro answer next hanswer
      exact ih answer himp (hwp answer next hanswer)
  | loop body start k hbody hk =>
      intro ends hends
      apply hwp ends
      intro value state world hround
      apply hends
      refine hbody value ?_ hround
      intro result state world hresult
      match result with
      | .ok (.inl next) => exact hresult
      | .ok (.inr last) => exact hk last himp hresult
      | .error error => exact himp _ _ _ hresult

/-- What comes after a program is part of its postcondition. -/
def after (env : Env ι ε ω) (f : α → Prog ι σ ε β) (post : Post σ ε ω β) :
    Post σ ε ω α
  | .ok value => (f value).wp env post
  | .error error => post (.error error)

@[simp]
theorem wp_bind (prog : Prog ι σ ε α) (f : α → Prog ι σ ε β) (post : Post σ ε ω β) :
    (prog.bind f).wp env post = prog.wp env (after env f post) := by
  induction prog with
  | done value => rfl
  | raise error => rfl
  | get k ih =>
      funext state world
      exact congrFun (congrFun (ih state f) state) world
  | set state k ih =>
      funext _ world
      exact congrFun (congrFun (ih f) state) world
  | call c k ih =>
      funext state world
      simp only [bind, wp, ih]
  | loop body start k _ ih =>
      funext state world
      simp only [bind, wp, ih]
      rfl

@[simp]
theorem pure_eq_done (value : α) : (pure value : Prog ι σ ε α) = .done value := rfl

@[simp]
theorem bind_eq_bind (prog : Prog ι σ ε α) (f : α → Prog ι σ ε β) :
    prog >>= f = prog.bind f := rfl

@[simp]
theorem after_ok (f : α → Prog ι σ ε β) (post : Post σ ε ω β) (value : α) :
    after env f post (.ok value) = (f value).wp env post := rfl

@[simp]
theorem after_error (f : α → Prog ι σ ε β) (post : Post σ ε ω β) (error : ε) :
    after env f post (.error error) = post (.error error) := rfl

@[simp]
theorem wp_done (value : α) (post : Post σ ε ω α) :
    (Prog.done value : Prog ι σ ε α).wp env post = post (.ok value) := rfl

@[simp]
theorem wp_raise (error : ε) (post : Post σ ε ω α) :
    (Prog.raise error : Prog ι σ ε α).wp env post = post (.error error) := rfl

@[simp]
theorem wp_state (post : Post σ ε ω σ) (state : σ) (world : ω) :
    (Prog.state : Prog ι σ ε σ).wp env post state world ↔ post (.ok state) state world :=
  Iff.rfl

@[simp]
theorem wp_modify (f : σ → σ) (post : Post σ ε ω Unit) (state : σ) (world : ω) :
    (Prog.modify f : Prog ι σ ε Unit).wp env post state world ↔
      post (.ok ()) (f state) world := Iff.rfl

@[simp]
theorem wp_await (c : ι.Call) (post : Post σ ε ω (ι.Answer c)) (state : σ) (world : ω) :
    (Prog.await c : Prog ι σ ε (ι.Answer c)).wp env post state world ↔
      ∀ answer next, env c world answer next → post answer state next := by
  have hanswer : ∀ (answer : Except ε (ι.Answer c)) (next : ω),
      (match answer with
        | .ok value => (.done value : Prog ι σ ε (ι.Answer c))
        | .error error => .raise error).wp env post state next ↔ post answer state next := by
    intro answer next
    cases answer <;> exact Iff.rfl
  simp only [Prog.await, wp, hanswer]

/-- A loop whose rounds keep an invariant and shrink a measure ends. -/
theorem wp_loop {body : β → Prog ι σ ε (β ⊕ γ)} {k : γ → Prog ι σ ε α}
    {post : Post σ ε ω α} (inv : β → σ → ω → Prop) (measure : β → σ → ω → ℕ)
    (hround : ∀ value state world, inv value state world →
      (body value).wp env
        (fun result state' world' =>
          match result with
          | .ok (.inl next) => inv next state' world' ∧
              measure next state' world' < measure value state world
          | .ok (.inr last) => (k last).wp env post state' world'
          | .error error => post (.error error) state' world')
        state world)
    {start : β} {state : σ} {world : ω} (hstart : inv start state world) :
    (Prog.loop body start k).wp env post state world := by
  intro ends hends
  induction hsize : measure start state world using Nat.strong_induction_on
    generalizing start state world with
  | _ size ih =>
      subst hsize
      apply hends
      refine wp_mono _ ?_ (hround start state world hstart)
      intro result state' world' hresult
      match result with
      | .ok (.inl next) => exact ih _ hresult.2 hresult.1 rfl
      | .ok (.inr last) => exact hresult
      | .error error => exact hresult

/-- A loop ends well if its first round leads on to a loop that does. -/
theorem wp_round {body : β → Prog ι σ ε (β ⊕ γ)} {k : γ → Prog ι σ ε α}
    {post : Post σ ε ω α} {start : β} {state : σ} {world : ω}
    (hround : (body start).wp env
      (fun result =>
        match result with
        | .ok (.inl next) => (Prog.loop body next k).wp env post
        | .ok (.inr last) => (k last).wp env post
        | .error error => post (.error error))
      state world) :
    (Prog.loop body start k).wp env post state world := by
  intro ends hends
  apply hends
  refine wp_mono _ ?_ hround
  intro result state' world' hresult
  match result with
  | .ok (.inl next) => exact hresult ends hends
  | .ok (.inr last) => exact hresult
  | .error error => exact hresult

/-- What a program does to its part; the rest of the state stays. -/
theorem wp_zoom {τ : Type} (part : Part τ σ) (prog : Prog ι σ ε α) {post : Post τ ε ω α}
    {state : τ} {world : ω}
    (hwp : prog.wp env (fun result next => post result (part.put next state))
      (part.get state) world) :
    (prog.zoom part).wp env post state world := by
  induction prog generalizing state world with
  | done value =>
      have hpost : post (.ok value) (part.put (part.get state) state) world := hwp
      rwa [part.put_get] at hpost
  | raise error =>
      have hpost : post (.error error) (part.put (part.get state) state) world := hwp
      rwa [part.put_get] at hpost
  | get k ih => exact ih (part.get state) hwp
  | set next k ih =>
      have hk : k.wp env (fun result next => post result (part.put next state)) next world := hwp
      change (k.zoom part).wp env post (part.put next state) world
      apply ih
      simpa only [part.get_put, part.put_put] using hk
  | call c k ih =>
      intro answer next hanswer
      exact ih answer (hwp answer next hanswer)
  | loop body start k hbody hk =>
      intro ends hends
      -- The solution for the part, with the rest of the state as it is.
      have hpart := hwp fun value next world => ends value (part.put next state) world
      rw [part.put_get] at hpart
      apply hpart
      intro value next world hround
      apply hends
      apply hbody value
      rw [part.get_put]
      refine wp_mono _ ?_ hround
      intro result last world hresult
      match result with
      | .ok (.inl value) => simpa only [part.put_put] using hresult
      | .ok (.inr value) =>
          rw [part.put_put]
          apply hk value
          simpa only [part.get_put, part.put_put] using hresult
      | .error error => simpa only [part.put_put] using hresult

/-- An error caught is a value. -/
@[simp]
theorem wp_attempt (prog : Prog ι σ ε α) (post : Post σ ε ω (Except ε α)) :
    prog.attempt.wp env post = prog.wp env fun result => post (.ok result) := by
  induction prog with
  | done value => rfl
  | raise error => rfl
  | get k ih =>
      funext state world
      exact congrFun (congrFun (ih state post) state) world
  | set state k ih =>
      funext _ world
      exact congrFun (congrFun (ih post) state) world
  | call c k ih =>
      funext state world
      simp only [attempt, wp, ih]
  | loop body start k hbody hk =>
      funext state world
      simp only [attempt, wp, wp_bind, hbody]
      refine forall_congr fun ends => ?_
      refine congrArg (· → ends start state world) ?_
      refine forall_congr fun value => forall_congr fun state => forall_congr fun world => ?_
      refine congrArg (fun round => (body value).wp env round state world →
        ends value state world) ?_
      funext result
      match result with
      | .ok (.inl next) => rfl
      | .ok (.inr last) => exact hk last post
      | .error error => rfl

end Prog

/-! ## Programs that make only some calls -/

namespace Prog

variable {ι : Interface} {σ ε ω : Type} {α β γ : Type}

/-- Whatever is answered, the program makes no other calls. -/
def Only (calls : ι.Call → Prop) {α : Type} : Prog ι σ ε α → Prop
  | .done _ => True
  | .raise _ => True
  | .get k => ∀ state, (k state).Only calls
  | .set _ k => k.Only calls
  | .call c k => calls c ∧ ∀ answer, (k answer).Only calls
  | .loop body _ k => (∀ value, (body value).Only calls) ∧ ∀ value, (k value).Only calls

variable {calls : ι.Call → Prop}

theorem Only.bind {prog : Prog ι σ ε α} {f : α → Prog ι σ ε β} (hprog : prog.Only calls)
    (hf : ∀ value, (f value).Only calls) : (prog.bind f).Only calls := by
  induction prog with
  | done value => exact hf value
  | raise error => trivial
  | get k ih => exact fun state => ih state (hprog state) hf
  | set state k ih => exact ih hprog hf
  | call c k ih => exact ⟨hprog.1, fun answer => ih answer (hprog.2 answer) hf⟩
  | loop body start k _ ih => exact ⟨hprog.1, fun value => ih value (hprog.2 value) hf⟩

theorem only_await {c : ι.Call} (hcall : calls c) :
    (Prog.await c : Prog ι σ ε (ι.Answer c)).Only calls := by
  refine ⟨hcall, fun answer => ?_⟩
  cases answer with
  | ok value => trivial
  | error error => trivial

/-- What holds against an environment holds against one that answers these
calls alike, or in fewer ways. -/
theorem Only.wp {env env' : Env ι ε ω} {prog : Prog ι σ ε α} (honly : prog.Only calls)
    (hsub : ∀ c, calls c → ∀ world answer next, env' c world answer next →
      env c world answer next)
    {post : Post σ ε ω α} {state : σ} {world : ω} (hwp : prog.wp env post state world) :
    prog.wp env' post state world := by
  induction prog generalizing state world with
  | done value => exact hwp
  | raise error => exact hwp
  | get k ih => exact ih state (honly state) hwp
  | set next k ih => exact ih honly hwp
  | call c k ih =>
      intro answer next hanswer
      exact ih answer (honly.2 answer) (hwp answer next (hsub c honly.1 _ _ _ hanswer))
  | loop body start k hbody hk =>
      intro ends hends
      apply hwp ends
      intro value state world hround
      apply hends
      refine wp_mono _ ?_ (hbody value (honly.1 value) hround)
      intro result state world hresult
      match result with
      | .ok (.inl next) => exact hresult
      | .ok (.inr last) => exact hk last (honly.2 last) hresult
      | .error error => exact hresult

end Prog

/-! ## Single steps -/

inductive Next (ι : Interface) (σ ε α : Type) : Type 1
  | returned (result : Except ε α)
  | silent (prog : Prog ι σ ε α) (state : σ)
  | asks (c : ι.Call) (k : Except ε (ι.Answer c) → Prog ι σ ε α)

namespace Prog

variable {ι : Interface} {σ ε ω : Type} {α β γ : Type}

/-- One round of a loop, and what comes after it. -/
def unroll (body : β → Prog ι σ ε (β ⊕ γ)) (k : γ → Prog ι σ ε α) :
    β ⊕ γ → Prog ι σ ε α
  | .inl next => .loop body next k
  | .inr last => k last

def step : Prog ι σ ε α → σ → Next ι σ ε α
  | .done value, _ => .returned (.ok value)
  | .raise error, _ => .returned (.error error)
  | .get k, state => .silent (k state) state
  | .set state k, _ => .silent k state
  | .call c k, _ => .asks c k
  | .loop body start k, state => .silent ((body start).bind (unroll body k)) state

end Prog

section Safe

variable {ι : Interface} {σ ε ω : Type} {α β γ : Type}

/-- Every run by single steps ends, and in a result that satisfies `post`. -/
inductive Safe (env : Env ι ε ω) (post : Post σ ε ω α) : Prog ι σ ε α → σ → ω → Prop
  | returned {prog : Prog ι σ ε α} {state : σ} {world : ω} {result : Except ε α}
      (hstep : prog.step state = .returned result) (hpost : post result state world) :
      Safe env post prog state world
  | silent {prog prog' : Prog ι σ ε α} {state state' : σ} {world : ω}
      (hstep : prog.step state = .silent prog' state') (hrest : Safe env post prog' state' world) :
      Safe env post prog state world
  | asks {prog : Prog ι σ ε α} {state : σ} {world : ω} {c : ι.Call}
      {k : Except ε (ι.Answer c) → Prog ι σ ε α} (hstep : prog.step state = .asks c k)
      (hrest : ∀ answer next, env c world answer next → Safe env post (k answer) state next) :
      Safe env post prog state world

variable {env : Env ι ε ω}

theorem Safe.of_returned {post : Post σ ε ω α} {prog : Prog ι σ ε α} {state : σ} {world : ω}
    (hsafe : Safe env post prog state world) {result : Except ε α}
    (hstep : prog.step state = .returned result) : post result state world := by
  cases hsafe with
  | returned hstep' hpost =>
      rw [hstep] at hstep'
      cases hstep'
      exact hpost
  | silent hstep' =>
      rw [hstep] at hstep'
      cases hstep'
  | asks hstep' =>
      rw [hstep] at hstep'
      cases hstep'

theorem Safe.of_silent {post : Post σ ε ω α} {prog prog' : Prog ι σ ε α} {state state' : σ}
    {world : ω} (hsafe : Safe env post prog state world)
    (hstep : prog.step state = .silent prog' state') : Safe env post prog' state' world := by
  cases hsafe with
  | returned hstep' =>
      rw [hstep] at hstep'
      cases hstep'
  | silent hstep' hrest =>
      rw [hstep] at hstep'
      cases hstep'
      exact hrest
  | asks hstep' =>
      rw [hstep] at hstep'
      cases hstep'

theorem Safe.of_asks {post : Post σ ε ω α} {prog : Prog ι σ ε α} {state : σ} {world : ω}
    (hsafe : Safe env post prog state world) {c : ι.Call}
    {k : Except ε (ι.Answer c) → Prog ι σ ε α} (hstep : prog.step state = .asks c k)
    {answer : Except ε (ι.Answer c)} {next : ω} (hanswer : env c world answer next) :
    Safe env post (k answer) state next := by
  cases hsafe with
  | returned hstep' =>
      rw [hstep] at hstep'
      cases hstep'
  | silent hstep' =>
      rw [hstep] at hstep'
      cases hstep'
  | asks hstep' hrest =>
      rw [hstep] at hstep'
      cases hstep'
      exact hrest answer next hanswer

/-- A run by single steps, from its start to its result. -/
inductive Ends (env : Env ι ε ω) :
    Prog ι σ ε α → σ → ω → Except ε α → σ → ω → Prop
  | returned {prog : Prog ι σ ε α} {state : σ} {world : ω} {result : Except ε α}
      (hstep : prog.step state = .returned result) : Ends env prog state world result state world
  | silent {prog prog' : Prog ι σ ε α} {state state' last : σ} {world final : ω}
      {result : Except ε α} (hstep : prog.step state = .silent prog' state')
      (hrest : Ends env prog' state' world result last final) :
      Ends env prog state world result last final
  | asks {prog : Prog ι σ ε α} {state last : σ} {world next final : ω} {result : Except ε α}
      {c : ι.Call} {k : Except ε (ι.Answer c) → Prog ι σ ε α} {answer : Except ε (ι.Answer c)}
      (hstep : prog.step state = .asks c k) (hanswer : env c world answer next)
      (hrest : Ends env (k answer) state next result last final) :
      Ends env prog state world result last final

/-- The result of a run satisfies what every run satisfies. -/
theorem Safe.ends {post : Post σ ε ω α} {prog : Prog ι σ ε α} {state last : σ} {world final : ω}
    {result : Except ε α} (hsafe : Safe env post prog state world)
    (hends : Ends env prog state world result last final) : post result last final := by
  induction hends with
  | returned hstep => exact hsafe.of_returned hstep
  | silent hstep _ ih => exact ih (hsafe.of_silent hstep)
  | asks hstep hanswer _ ih => exact ih (hsafe.of_asks hstep hanswer)

/-- Where every call has an answer there is a run. -/
theorem Safe.exists_ends {post : Post σ ε ω α} {prog : Prog ι σ ε α} {state : σ} {world : ω}
    (htotal : ∀ c world, ∃ answer next, env c world answer next)
    (hsafe : Safe env post prog state world) :
    ∃ result last final, Ends env prog state world result last final := by
  induction hsafe with
  | returned hstep => exact ⟨_, _, _, .returned hstep⟩
  | silent hstep _ ih =>
      obtain ⟨result, last, final, hends⟩ := ih
      exact ⟨result, last, final, .silent hstep hends⟩
  | asks hstep _ ih =>
      obtain ⟨answer, next, hanswer⟩ := htotal _ _
      obtain ⟨result, last, final, hends⟩ := ih answer next hanswer
      exact ⟨result, last, final, .asks hstep hanswer hends⟩

/-- A program that ends well, followed by one that then does. -/
theorem Prog.wp_safe_bind {post : Post σ ε ω α} {last : Post σ ε ω β} (prog : Prog ι σ ε α)
    (f : α → Prog ι σ ε β)
    (hok : ∀ value state world, post (.ok value) state world →
      Safe env last (f value) state world)
    (herror : ∀ error state world, post (.error error) state world →
      last (.error error) state world)
    {state : σ} {world : ω} (hwp : prog.wp env post state world) :
    Safe env last (prog.bind f) state world := by
  induction prog generalizing state world with
  | done value => exact hok value state world hwp
  | raise error => exact .returned rfl (herror error state world hwp)
  | get k ih => exact .silent rfl (ih state f hok herror hwp)
  | set next k ih => exact .silent rfl (ih f hok herror hwp)
  | call c k ih =>
      exact .asks rfl fun answer next hanswer =>
        ih answer f hok herror (hwp answer next hanswer)
  | loop body start k hbody hk =>
      apply hwp fun value => Safe env last (.loop body value fun value => (k value).bind f)
      intro value state world hround
      refine .silent rfl ?_
      apply hbody value _ _ _ hround
      · intro result state world hresult
        match result with
        | .inl next => exact hresult
        | .inr value => exact hk value f hok herror hresult
      · exact fun error state world hresult => herror error state world hresult

theorem Prog.wp_safe {post : Post σ ε ω α} (prog : Prog ι σ ε α) {state : σ} {world : ω}
    (hwp : prog.wp env post state world) : Safe env post prog state world := by
  have hsafe : Safe env post (prog.bind .done) state world :=
    prog.wp_safe_bind .done (fun _ _ _ hpost => .returned rfl hpost)
      (fun _ _ _ hpost => hpost) hwp
  rwa [prog.bind_done] at hsafe

end Safe

/-! ## Partial correctness -/

namespace Prog

variable {ι : Interface} {σ ε ω : Type} {α β γ : Type} {env : Env ι ε ω}

/-- The states and worlds from which every run that ends, ends with `post`.  A
loop is as good as the invariant it has. -/
def wlp (env : Env ι ε ω) {α : Type} : Prog ι σ ε α → Post σ ε ω α → σ → ω → Prop
  | .done value, post => post (.ok value)
  | .raise error, post => post (.error error)
  | .get k, post => fun state world => (k state).wlp env post state world
  | .set state k, post => fun _ => k.wlp env post state
  | .call c k, post => fun state world =>
      ∀ answer next, env c world answer next → (k answer).wlp env post state next
  | .loop (β := β) body start k, post => fun state world =>
      ∃ inv : β → σ → ω → Prop, inv start state world ∧
        ∀ value state world, inv value state world →
          (body value).wlp env
            (fun result =>
              match result with
              | .ok (.inl next) => inv next
              | .ok (.inr last) => (k last).wlp env post
              | .error error => post (.error error))
            state world

theorem wlp_mono (prog : Prog ι σ ε α) {post post' : Post σ ε ω α}
    (himp : ∀ result state world, post result state world → post' result state world)
    {state : σ} {world : ω} (hwlp : prog.wlp env post state world) :
    prog.wlp env post' state world := by
  induction prog generalizing state world with
  | done value => exact himp _ _ _ hwlp
  | raise error => exact himp _ _ _ hwlp
  | get k ih => exact ih state himp hwlp
  | set next k ih => exact ih himp hwlp
  | call c k ih =>
      intro answer next hanswer
      exact ih answer himp (hwlp answer next hanswer)
  | loop body start k hbody hk =>
      obtain ⟨inv, hstart, hround⟩ := hwlp
      refine ⟨inv, hstart, fun value state world hinv => ?_⟩
      refine hbody value ?_ (hround value state world hinv)
      intro result state world hresult
      match result with
      | .ok (.inl next) => exact hresult
      | .ok (.inr last) => exact hk last himp hresult
      | .error error => exact himp _ _ _ hresult

/-- `after` for runs that may not end. -/
def afterwards (env : Env ι ε ω) (f : α → Prog ι σ ε β) (post : Post σ ε ω β) :
    Post σ ε ω α
  | .ok value => (f value).wlp env post
  | .error error => post (.error error)

@[simp]
theorem wlp_bind (prog : Prog ι σ ε α) (f : α → Prog ι σ ε β) (post : Post σ ε ω β) :
    (prog.bind f).wlp env post = prog.wlp env (afterwards env f post) := by
  induction prog with
  | done value => rfl
  | raise error => rfl
  | get k ih =>
      funext state world
      exact congrFun (congrFun (ih state f) state) world
  | set state k ih =>
      funext _ world
      exact congrFun (congrFun (ih f) state) world
  | call c k ih =>
      funext state world
      simp only [bind, wlp, ih]
  | loop body start k _ ih =>
      funext state world
      simp only [bind, wlp, ih]
      rfl

@[simp]
theorem afterwards_ok (f : α → Prog ι σ ε β) (post : Post σ ε ω β) (value : α) :
    afterwards env f post (.ok value) = (f value).wlp env post := rfl

@[simp]
theorem afterwards_error (f : α → Prog ι σ ε β) (post : Post σ ε ω β) (error : ε) :
    afterwards env f post (.error error) = post (.error error) := rfl

@[simp]
theorem wlp_done (value : α) (post : Post σ ε ω α) :
    (Prog.done value : Prog ι σ ε α).wlp env post = post (.ok value) := rfl

@[simp]
theorem wlp_raise (error : ε) (post : Post σ ε ω α) :
    (Prog.raise error : Prog ι σ ε α).wlp env post = post (.error error) := rfl

@[simp]
theorem wlp_state (post : Post σ ε ω σ) (state : σ) (world : ω) :
    (Prog.state : Prog ι σ ε σ).wlp env post state world ↔ post (.ok state) state world :=
  Iff.rfl

@[simp]
theorem wlp_modify (f : σ → σ) (post : Post σ ε ω Unit) (state : σ) (world : ω) :
    (Prog.modify f : Prog ι σ ε Unit).wlp env post state world ↔
      post (.ok ()) (f state) world := Iff.rfl

@[simp]
theorem wlp_await (c : ι.Call) (post : Post σ ε ω (ι.Answer c)) (state : σ) (world : ω) :
    (Prog.await c : Prog ι σ ε (ι.Answer c)).wlp env post state world ↔
      ∀ answer next, env c world answer next → post answer state next := by
  have hanswer : ∀ (answer : Except ε (ι.Answer c)) (next : ω),
      (match answer with
        | .ok value => (.done value : Prog ι σ ε (ι.Answer c))
        | .error error => .raise error).wlp env post state next ↔ post answer state next := by
    intro answer next
    cases answer <;> exact Iff.rfl
  simp only [Prog.await, wlp, hanswer]

/-- A loop whose rounds keep an invariant. -/
theorem wlp_loop {body : β → Prog ι σ ε (β ⊕ γ)} {post : Post σ ε ω γ}
    (inv : β → σ → ω → Prop)
    (hround : ∀ value state world, inv value state world →
      (body value).wlp env
        (fun result state' world' =>
          match result with
          | .ok (.inl next) => inv next state' world'
          | .ok (.inr last) => post (.ok last) state' world'
          | .error error => post (.error error) state' world')
        state world)
    {start : β} {state : σ} {world : ω} (hstart : inv start state world) :
    (Prog.repeatUntil body start).wlp env post state world := by
  refine ⟨inv, hstart, fun value state world hinv => ?_⟩
  refine wlp_mono _ ?_ (hround value state world hinv)
  intro result state' world' hresult
  match result with
  | .ok (.inl next) => exact hresult
  | .ok (.inr last) => exact hresult
  | .error error => exact hresult

/-- A run that ends satisfies what all such runs satisfy. -/
theorem wlp_ends {prog : Prog ι σ ε α} {post : Post σ ε ω α} {state last : σ} {world final : ω}
    {result : Except ε α} (hends : Ends env prog state world result last final)
    (hwlp : prog.wlp env post state world) : post result last final := by
  induction hends with
  | @returned prog state world result hstep =>
      cases prog with
      | done value =>
          cases hstep
          exact hwlp
      | raise error =>
          cases hstep
          exact hwlp
      | _ => cases hstep
  | @silent prog prog' state state' last world final result hstep _ ih =>
      cases prog with
      | get k =>
          cases hstep
          exact ih hwlp
      | set next k =>
          cases hstep
          exact ih hwlp
      | loop body start k =>
          cases hstep
          obtain ⟨inv, hstart, hround⟩ := hwlp
          apply ih
          rw [wlp_bind]
          refine wlp_mono _ ?_ (hround start _ _ hstart)
          intro value state world hresult
          match value with
          | .ok (.inl next) => exact ⟨inv, hresult, hround⟩
          | .ok (.inr value) => exact hresult
          | .error error => exact hresult
      | _ => cases hstep
  | @asks prog state last world next final result c k answer hstep hanswer _ ih =>
      cases prog with
      | call c k =>
          cases hstep
          exact ih (hwlp answer next hanswer)
      | _ => cases hstep

end Prog

end Turbofile.Coroutine
