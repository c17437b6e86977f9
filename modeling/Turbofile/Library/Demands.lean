import Turbofile.Library.Coroutine

/-!
# Demands on calls

Partial correctness speaks of the runs that end.  Here something is demanded of
each call a program makes, in the world in which it makes it; a program that
meets the demand does so in every run, whether it ends or goes on for ever
(`Prog.meets_reaches`).
-/

namespace Turbofile.Coroutine

variable {ι : Interface} {σ ε ω : Type} {α β γ : Type}

/-- A run comes to the call `c`, and makes it in the world `mid`. -/
inductive Reaches (env : Env ι ε ω) (c : ι.Call) (mid : ω) : Prog ι σ ε α → σ → ω → Prop
  | here {prog : Prog ι σ ε α} {state : σ} {k : Except ε (ι.Answer c) → Prog ι σ ε α}
      (hstep : prog.step state = .asks c k) : Reaches env c mid prog state mid
  | silent {prog prog' : Prog ι σ ε α} {state state' : σ} {world : ω}
      (hstep : prog.step state = .silent prog' state')
      (hrest : Reaches env c mid prog' state' world) : Reaches env c mid prog state world
  | answered {prog : Prog ι σ ε α} {state : σ} {world next : ω} {c' : ι.Call}
      {k : Except ε (ι.Answer c') → Prog ι σ ε α} {answer : Except ε (ι.Answer c')}
      (hstep : prog.step state = .asks c' k) (hanswer : env c' world answer next)
      (hrest : Reaches env c mid (k answer) state next) : Reaches env c mid prog state world

namespace Prog

variable {env : Env ι ε ω} {demand : ι.Call → ω → Prop}

/-- Every call of every run is as demanded, and every run that ends satisfies
`post` at its end. -/
def meets (env : Env ι ε ω) (demand : ι.Call → ω → Prop) {α : Type} :
    Prog ι σ ε α → Post σ ε ω α → σ → ω → Prop
  | .done value, post => post (.ok value)
  | .raise error, post => post (.error error)
  | .get k, post => fun state world => (k state).meets env demand post state world
  | .set state k, post => fun _ => k.meets env demand post state
  | .call c k, post => fun state world => demand c world ∧
      ∀ answer next, env c world answer next → (k answer).meets env demand post state next
  | .loop (β := β) body start k, post => fun state world =>
      ∃ inv : β → σ → ω → Prop, inv start state world ∧
        ∀ value state world, inv value state world →
          (body value).meets env demand
            (fun result =>
              match result with
              | .ok (.inl next) => inv next
              | .ok (.inr last) => (k last).meets env demand post
              | .error error => post (.error error))
            state world

theorem meets_mono (prog : Prog ι σ ε α) {post post' : Post σ ε ω α}
    (himp : ∀ result state world, post result state world → post' result state world)
    {state : σ} {world : ω} (hmeets : prog.meets env demand post state world) :
    prog.meets env demand post' state world := by
  induction prog generalizing state world with
  | done value => exact himp _ _ _ hmeets
  | raise error => exact himp _ _ _ hmeets
  | get k ih => exact ih state himp hmeets
  | set next k ih => exact ih himp hmeets
  | call c k ih =>
      refine ⟨hmeets.1, fun answer next hanswer => ?_⟩
      exact ih answer himp (hmeets.2 answer next hanswer)
  | loop body start k hbody hk =>
      obtain ⟨inv, hstart, hround⟩ := hmeets
      refine ⟨inv, hstart, fun value state world hinv => ?_⟩
      refine hbody value ?_ (hround value state world hinv)
      intro result state world hresult
      match result with
      | .ok (.inl next) => exact hresult
      | .ok (.inr last) => exact hk last himp hresult
      | .error error => exact himp _ _ _ hresult

/-- What a program does before another, for runs that meet a demand. -/
def leadsTo (env : Env ι ε ω) (demand : ι.Call → ω → Prop) (f : α → Prog ι σ ε β)
    (post : Post σ ε ω β) : Post σ ε ω α
  | .ok value => (f value).meets env demand post
  | .error error => post (.error error)

@[simp]
theorem meets_bind (prog : Prog ι σ ε α) (f : α → Prog ι σ ε β) (post : Post σ ε ω β) :
    (prog.bind f).meets env demand post = prog.meets env demand (leadsTo env demand f post) := by
  induction prog with
  | done value => rfl
  | raise error => rfl
  | get k ih =>
      funext state world
      exact congrFun (congrFun (ih state f) state) world
  | set state k ih =>
      funext _ world
      exact congrFun (congrFun (ih f) state) world
  | call c k ih =>
      funext state world
      simp only [bind, meets, ih]
  | loop body start k _ ih =>
      funext state world
      simp only [bind, meets, ih]
      rfl

@[simp]
theorem leadsTo_ok (f : α → Prog ι σ ε β) (post : Post σ ε ω β) (value : α) :
    leadsTo env demand f post (.ok value) = (f value).meets env demand post := rfl

@[simp]
theorem leadsTo_error (f : α → Prog ι σ ε β) (post : Post σ ε ω β) (error : ε) :
    leadsTo env demand f post (.error error) = post (.error error) := rfl

@[simp]
theorem meets_done (value : α) (post : Post σ ε ω α) :
    (Prog.done value : Prog ι σ ε α).meets env demand post = post (.ok value) := rfl

@[simp]
theorem meets_state (post : Post σ ε ω σ) (state : σ) (world : ω) :
    (Prog.state : Prog ι σ ε σ).meets env demand post state world ↔
      post (.ok state) state world := Iff.rfl

@[simp]
theorem meets_await (c : ι.Call) (post : Post σ ε ω (ι.Answer c)) (state : σ) (world : ω) :
    (Prog.await c : Prog ι σ ε (ι.Answer c)).meets env demand post state world ↔
      demand c world ∧ ∀ answer next, env c world answer next → post answer state next := by
  refine and_congr_right fun _ => forall_congr' fun answer => forall_congr' fun next => ?_
  cases answer with
  | ok value => exact Iff.rfl
  | error error => exact Iff.rfl

/-- What a round of a loop comes to: the next round, or the end of the loop. -/
def rounds (inv : β → σ → ω → Prop) (post : Post σ ε ω γ) : Post σ ε ω (β ⊕ γ)
  | .ok (.inl next) => inv next
  | .ok (.inr last) => post (.ok last)
  | .error error => post (.error error)

/-- A loop whose rounds keep an invariant. -/
theorem meets_loop {body : β → Prog ι σ ε (β ⊕ γ)} {post : Post σ ε ω γ}
    (inv : β → σ → ω → Prop)
    (hround : ∀ value state world, inv value state world →
      (body value).meets env demand (rounds inv post) state world)
    {start : β} {state : σ} {world : ω} (hstart : inv start state world) :
    (Prog.repeatUntil body start).meets env demand post state world := by
  refine ⟨inv, hstart, fun value state world hinv => ?_⟩
  refine meets_mono _ ?_ (hround value state world hinv)
  intro result state' world' hresult
  match result with
  | .ok (.inl next) => exact hresult
  | .ok (.inr last) => exact hresult
  | .error error => exact hresult

/-- The rule for loops without a demand. -/
theorem wlp_repeatUntil {body : β → Prog ι σ ε (β ⊕ γ)} {post : Post σ ε ω γ}
    (inv : β → σ → ω → Prop)
    (hround : ∀ value state world, inv value state world →
      (body value).wlp env (rounds inv post) state world)
    {start : β} {state : σ} {world : ω} (hstart : inv start state world) :
    (Prog.repeatUntil body start).wlp env post state world := by
  refine wlp_loop inv (fun value state world hinv => ?_) hstart
  refine wlp_mono _ ?_ (hround value state world hinv)
  intro result state' world' hresult
  match result with
  | .ok (.inl next) => exact hresult
  | .ok (.inr last) => exact hresult
  | .error error => exact hresult

/-- A program meets a demand that the only calls it makes do. -/
theorem Only.meets {calls : ι.Call → Prop} {prog : Prog ι σ ε α} (honly : prog.Only calls)
    (inv : ω → Prop) (hdemand : ∀ c world, calls c → inv world → demand c world)
    (hkeep : ∀ c world answer next, calls c → inv world → env c world answer next → inv next)
    {state : σ} {world : ω} (hinv : inv world) :
    prog.meets env demand (fun _ _ world => inv world) state world := by
  induction prog generalizing state world with
  | done value => exact hinv
  | raise error => exact hinv
  | get k ih => exact ih state (honly state) hinv
  | set next k ih => exact ih honly hinv
  | call c k ih =>
      refine ⟨hdemand c world honly.1 hinv, fun answer next hanswer => ?_⟩
      exact ih answer (honly.2 answer) (hkeep c world answer next honly.1 hinv hanswer)
  | loop body start k hbody hk =>
      refine ⟨fun _ _ world => inv world, hinv, fun value state world hinv => ?_⟩
      refine meets_mono _ ?_ (hbody value (honly.1 value) hinv)
      intro result state world hresult
      match result with
      | .ok (.inl next) => exact hresult
      | .ok (.inr last) => exact hk last (honly.2 last) hresult
      | .error error => exact hresult

theorem Only.mono {calls calls' : ι.Call → Prop} {prog : Prog ι σ ε α} (honly : prog.Only calls)
    (himp : ∀ c, calls c → calls' c) : prog.Only calls' := by
  induction prog with
  | done value => trivial
  | raise error => trivial
  | get k ih => exact fun state => ih state (honly state)
  | set next k ih => exact ih honly
  | call c k ih => exact ⟨himp c honly.1, fun answer => ih answer (honly.2 answer)⟩
  | loop body start k hbody hk =>
      exact ⟨fun value => hbody value (honly.1 value), fun value => hk value (honly.2 value)⟩

theorem Only.attempt {calls : ι.Call → Prop} {prog : Prog ι σ ε α} (honly : prog.Only calls) :
    prog.attempt.Only calls := by
  induction prog with
  | done value => trivial
  | raise error => trivial
  | get k ih => exact fun state => ih state (honly state)
  | set next k ih => exact ih honly
  | call c k ih => exact ⟨honly.1, fun answer => ih answer (honly.2 answer)⟩
  | loop body start k hbody hk =>
      rw [Prog.attempt, Only]
      constructor
      · exact fun value => (hbody value (honly.1 value)).bind fun _ => trivial
      · intro value
        cases value with
        | ok last => exact hk last (honly.2 last)
        | error error => trivial

/-- The demand aside, this is partial correctness. -/
theorem wlp_of_meets (prog : Prog ι σ ε α) {post : Post σ ε ω α} {state : σ} {world : ω}
    (hmeets : prog.meets env demand post state world) : prog.wlp env post state world := by
  induction prog generalizing state world with
  | done value => exact hmeets
  | raise error => exact hmeets
  | get k ih => exact ih state hmeets
  | set next k ih => exact ih hmeets
  | call c k ih => exact fun answer next hanswer => ih answer (hmeets.2 answer next hanswer)
  | loop body start k hbody hk =>
      obtain ⟨inv, hstart, hround⟩ := hmeets
      refine ⟨inv, hstart, fun value state world hinv => ?_⟩
      refine wlp_mono _ ?_ (hbody value (hround value state world hinv))
      intro result state world hresult
      match result with
      | .ok (.inl next) => exact hresult
      | .ok (.inr last) => exact hk last hresult
      | .error error => exact hresult

/-- What total correctness says and what a demand says hold together. -/
theorem wp_and_meets (prog : Prog ι σ ε α) {post post' : Post σ ε ω α} {state : σ} {world : ω}
    (hwp : prog.wp env post state world) (hmeets : prog.meets env demand post' state world) :
    prog.wp env (fun result state world => post result state world ∧ post' result state world)
      state world := by
  induction prog generalizing state world with
  | done value => exact ⟨hwp, hmeets⟩
  | raise error => exact ⟨hwp, hmeets⟩
  | get k ih => exact ih state hwp hmeets
  | set next k ih => exact ih hwp hmeets
  | call c k ih =>
      intro answer next hanswer
      exact ih answer (hwp answer next hanswer) (hmeets.2 answer next hanswer)
  | loop body start k hbody hk =>
      obtain ⟨inv, hstart, hround⟩ := hmeets
      intro ends hends
      refine hwp (fun value state world => inv value state world → ends value state world) ?_
        hstart
      intro value state world hended hinv
      apply hends
      refine wp_mono _ ?_ (hbody value hended (hround value state world hinv))
      rintro result state world ⟨hresult, hkept⟩
      match result with
      | .ok (.inl next) => exact hresult hkept
      | .ok (.inr last) => exact hk last hresult hkept
      | .error error => exact ⟨hresult, hkept⟩

/-- Every call a run comes to is as demanded. -/
theorem meets_reaches {prog : Prog ι σ ε α} {post : Post σ ε ω α} {state : σ} {world mid : ω}
    {c : ι.Call} (hreach : Reaches env c mid prog state world)
    (hmeets : prog.meets env demand post state world) : demand c mid := by
  induction hreach with
  | @here prog state k hstep =>
      cases prog with
      | call c k =>
          cases hstep
          exact hmeets.1
      | _ => cases hstep
  | @silent prog prog' state state' world hstep _ ih =>
      cases prog with
      | get k =>
          cases hstep
          exact ih hmeets
      | set next k =>
          cases hstep
          exact ih hmeets
      | loop body start k =>
          cases hstep
          obtain ⟨inv, hstart, hround⟩ := hmeets
          apply ih
          rw [meets_bind]
          refine meets_mono _ ?_ (hround start _ _ hstart)
          intro value state world hresult
          match value with
          | .ok (.inl next) => exact ⟨inv, hresult, hround⟩
          | .ok (.inr value) => exact hresult
          | .error error => exact hresult
      | _ => cases hstep
  | @answered prog state world next c' k answer hstep hanswer _ ih =>
      cases prog with
      | call c k =>
          cases hstep
          exact ih (hmeets.2 answer next hanswer)
      | _ => cases hstep

/-! ## Programs that end -/

/-- Every run ends, from wherever it starts. -/
def Halts (env : Env ι ε ω) (prog : Prog ι σ ε α) : Prop :=
  ∀ state world, prog.wp env (fun _ _ _ => True) state world

theorem halts_done (value : α) : Halts env (.done value : Prog ι σ ε α) :=
  fun _ _ => trivial

theorem halts_state : Halts env (Prog.state : Prog ι σ ε σ) := fun _ _ => trivial

theorem halts_modify (f : σ → σ) : Halts env (Prog.modify f : Prog ι σ ε Unit) :=
  fun _ _ => trivial

theorem halts_await (c : ι.Call) : Halts env (Prog.await c : Prog ι σ ε (ι.Answer c)) := by
  intro state world
  rw [wp_await]
  exact fun _ _ _ => trivial

theorem Halts.bind {prog : Prog ι σ ε α} {f : α → Prog ι σ ε β} (hprog : Halts env prog)
    (hf : ∀ value, Halts env (f value)) : Halts env (prog.bind f) := by
  intro state world
  rw [wp_bind]
  refine wp_mono prog ?_ (hprog state world)
  rintro (error | value) state world -
  · trivial
  · exact hf value state world

/-- The next round of a loop is a smaller one. -/
def shrinks (measure : β → ℕ) (value : β) : Post σ ε ω (β ⊕ γ)
  | .ok (.inl next), _, _ => measure next < measure value
  | _, _, _ => True

theorem Halts.loop {body : β → Prog ι σ ε (β ⊕ γ)} (measure : β → ℕ)
    (hround : ∀ value state world, (body value).wp env (shrinks measure value) state world)
    (start : β) : Halts env (Prog.repeatUntil body start) := by
  intro state world
  refine wp_loop (fun _ _ _ => True) (fun value _ _ => measure value) ?_ trivial
  intro value state world _
  refine wp_mono _ ?_ (hround value state world)
  intro result state world hresult
  match result with
  | .ok (.inl next) => exact ⟨trivial, hresult⟩
  | .ok (.inr last) => trivial
  | .error error => trivial

end Prog

/-! ## Worlds that move one way -/

section Leads

variable {env : Env ι ε ω} {rel : ω → ω → Prop} {state : σ} {world : ω}
  {holds : α → ω → Prop} {holds' : β → ω → Prop}

/-- The world has moved on from `world`, and the answer is true of where it is. -/
def Leads (rel : ω → ω → Prop) (world : ω) (holds : α → ω → Prop) : Post σ ε ω α :=
  fun result _ next => rel world next ∧ ∀ answer, result = .ok answer → holds answer next

theorem leads_done [Std.Refl rel] {value : α} (hvalue : holds value world) :
    (Prog.done value : Prog ι σ ε α).wlp env (Leads rel world holds) state world := by
  refine ⟨Std.Refl.refl world, ?_⟩
  rintro _ ⟨⟩
  exact hvalue

/-- What one program says of where it leads is what the next starts from. -/
theorem Leads.bind [IsTrans ω rel] {prog : Prog ι σ ε α} {f : α → Prog ι σ ε β}
    (hprog : prog.wlp env (Leads rel world holds) state world)
    (hf : ∀ value state' next, rel world next → holds value next →
      (f value).wlp env (Leads rel next holds') state' next) :
    (prog.bind f).wlp env (Leads rel world holds') state world := by
  rw [Prog.wlp_bind]
  refine Prog.wlp_mono _ ?_ hprog
  rintro (error | value) state' next ⟨hrel, hholds⟩
  · refine ⟨hrel, ?_⟩
    rintro _ ⟨⟩
  · refine Prog.wlp_mono _ ?_ (hf value state' next hrel (hholds value rfl))
    rintro result state'' last ⟨hrel', hholds'⟩
    exact ⟨IsTrans.trans _ _ _ hrel hrel', hholds'⟩

theorem Leads.mono {holds'' : α → ω → Prop} {result : Except ε α} {next : ω}
    (himp : ∀ answer, holds answer next → holds'' answer next)
    (hleads : Leads rel world holds result state next) :
    Leads rel world holds'' result state next :=
  ⟨hleads.1, fun answer hanswer => himp answer (hleads.2 answer hanswer)⟩

end Leads

end Turbofile.Coroutine
