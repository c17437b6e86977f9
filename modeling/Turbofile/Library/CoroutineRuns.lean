import Turbofile.Library.Coroutine

/-!
# Runs of programs that make calls

Partial correctness says exactly what holds at the end of every run, so runs
can be taken apart and put together like postconditions.  A run against any
environment is one against a script of the answers to come.  A program is blind
to a difference of two states when each run from the one has its like from the
other.
-/

namespace Turbofile.Coroutine

variable {ι : Interface} {σ τ ε ω : Type} {α β γ : Type} {env : Env ι ε ω}

/-! ## Runs after runs -/

theorem Prog.bind_assoc (prog : Prog ι σ ε α) (f : α → Prog ι σ ε β) (g : β → Prog ι σ ε γ) :
    (prog.bind f).bind g = prog.bind fun value => (f value).bind g := by
  induction prog with
  | done value => rfl
  | raise error => rfl
  | get k ih => simp only [bind, ih]
  | set state k ih => simp only [bind, ih]
  | call c k ih => simp only [bind, ih]
  | loop body start k _ ih => simp only [bind, ih]

theorem Prog.unroll_bind (body : β → Prog ι σ ε (β ⊕ γ)) {δ : Type} (k : γ → Prog ι σ ε α)
    (f : α → Prog ι σ ε δ) (start : β) :
    ((body start).bind (unroll body k)).bind f =
      (body start).bind (unroll body fun value => (k value).bind f) := by
  rw [bind_assoc]
  congr 1
  funext value
  cases value <;> rfl

/-- The first call of a run and its answer. -/
theorem Ends.answered {prog : Prog ι σ ε α} {state last : σ} {world next final : ω}
    {result : Except ε α} (c : ι.Call) (answer : Except ε (ι.Answer c))
    {k : Except ε (ι.Answer c) → Prog ι σ ε α} (hstep : prog.step state = .asks c k)
    (hanswer : env c world answer next)
    (hrest : Ends env (k answer) state next result last final) :
    Ends env prog state world result last final :=
  .asks hstep hanswer hrest

/-- What comes after a run with this result, up to the end. -/
def GoesOn (env : Env ι ε ω) (f : α → Prog ι σ ε β) (mid : σ) (between : ω)
    (result : Except ε β) (last : σ) (final : ω) : Except ε α → Prop
  | .ok value => Ends env (f value) mid between result last final
  | .error error => result = .error error ∧ last = mid ∧ final = between

theorem Ends.bind {prog : Prog ι σ ε α} {f : α → Prog ι σ ε β} {state mid last : σ}
    {world between final : ω} {first : Except ε α} {result : Except ε β}
    (hprog : Ends env prog state world first mid between)
    (hf : GoesOn env f mid between result last final first) :
    Ends env (prog.bind f) state world result last final := by
  induction hprog with
  | @returned prog state world first hstep =>
      cases prog with
      | done value =>
          cases hstep
          exact hf
      | raise error =>
          cases hstep
          obtain ⟨rfl, rfl, rfl⟩ := hf
          exact .returned rfl
      | _ => cases hstep
  | @silent prog prog' state state' last world final first hstep _ ih =>
      cases prog with
      | get k =>
          cases hstep
          exact .silent rfl (ih hf)
      | set next k =>
          cases hstep
          exact .silent rfl (ih hf)
      | loop body start k =>
          cases hstep
          refine .silent rfl ?_
          rw [← Prog.unroll_bind]
          exact ih hf
      | _ => cases hstep
  | @asks prog state last world next final first c k answer hstep hanswer _ ih =>
      cases prog with
      | call c k =>
          cases hstep
          exact .asks rfl hanswer (ih hf)
      | _ => cases hstep

/-- One round of a loop and what comes after it. -/
theorem Ends.round {body : β → Prog ι σ ε (β ⊕ γ)} {k : γ → Prog ι σ ε α} {start : β}
    {state mid last : σ} {world between final : ω} {first : Except ε (β ⊕ γ)}
    {result : Except ε α} (hround : Ends env (body start) state world first mid between)
    (hrest : GoesOn env (Prog.unroll body k) mid between result last final first) :
    Ends env (.loop body start k) state world result last final :=
  .silent rfl (hround.bind hrest)

namespace Prog

/-- What holds at the end of every run is a partial postcondition. -/
theorem wlp_of_ends (prog : Prog ι σ ε α) {post : Post σ ε ω α} {state : σ} {world : ω}
    (hpost : ∀ result last final, Ends env prog state world result last final →
      post result last final) :
    prog.wlp env post state world := by
  induction prog generalizing state world with
  | done value => exact hpost _ _ _ (.returned rfl)
  | raise error => exact hpost _ _ _ (.returned rfl)
  | get k ih => exact ih state fun _ _ _ hends => hpost _ _ _ (.silent rfl hends)
  | set next k ih => exact ih fun _ _ _ hends => hpost _ _ _ (.silent rfl hends)
  | call c k ih =>
      intro answer next hanswer
      exact ih answer fun _ _ _ hends => hpost _ _ _ (.asks rfl hanswer hends)
  | loop body start k hbody hk =>
      -- The loop may go on from wherever its runs from there end well.
      refine ⟨fun value state world => ∀ result last final,
        Ends env (.loop body value k) state world result last final → post result last final,
        hpost, fun value state world hinv => hbody value fun result mid between hround => ?_⟩
      rcases result with error | next | last
      · exact hinv _ _ _ (.round hround ⟨rfl, rfl, rfl⟩)
      · exact fun _ _ _ hrest => hinv _ _ _ (.round hround hrest)
      · exact hk last fun _ _ _ hrest => hinv _ _ _ (.round hround hrest)

/-- Partial correctness is what holds at the end of every run. -/
theorem wlp_iff_ends (prog : Prog ι σ ε α) (post : Post σ ε ω α) (state : σ) (world : ω) :
    prog.wlp env post state world ↔
      ∀ result last final, Ends env prog state world result last final →
        post result last final :=
  ⟨fun hwlp _ _ _ hends => wlp_ends hends hwlp, wlp_of_ends prog⟩

/-- Total correctness is partial correctness. -/
theorem wlp_of_wp (prog : Prog ι σ ε α) {post : Post σ ε ω α} {state : σ} {world : ω}
    (hwp : prog.wp env post state world) : prog.wlp env post state world :=
  wlp_of_ends prog fun _ _ _ hends => (wp_safe prog hwp).ends hends

/-- A program that ends well keeps what its runs keep. -/
theorem wp_and_wlp (prog : Prog ι σ ε α) {post post' : Post σ ε ω α} {state : σ} {world : ω}
    (hwp : prog.wp env post state world) (hwlp : prog.wlp env post' state world) :
    prog.wp env (fun result state world => post result state world ∧ post' result state world)
      state world := by
  induction prog generalizing state world with
  | done value => exact ⟨hwp, hwlp⟩
  | raise error => exact ⟨hwp, hwlp⟩
  | get k ih => exact ih state hwp hwlp
  | set next k ih => exact ih hwp hwlp
  | call c k ih =>
      intro answer next hanswer
      exact ih answer (hwp answer next hanswer) (hwlp answer next hanswer)
  | loop body start k hbody hk =>
      obtain ⟨inv, hstart, hround⟩ := hwlp
      intro ends hends
      -- The loop ends where its invariant holds.
      refine hwp (fun value state world => inv value state world → ends value state world) ?_
        hstart
      intro value state world hrest hinv
      apply hends
      refine wp_mono _ ?_ (hbody value hrest (hround value state world hinv))
      rintro (error | next | last) state world ⟨htotal, hpartial⟩
      · exact ⟨htotal, hpartial⟩
      · exact htotal hpartial
      · exact hk last htotal hpartial

end Prog

/-- The two runs that a run of two programs is made of. -/
theorem Ends.of_bind {prog : Prog ι σ ε α} {f : α → Prog ι σ ε β} {state last : σ}
    {world final : ω} {result : Except ε β}
    (hends : Ends env (prog.bind f) state world result last final) :
    ∃ first mid between, Ends env prog state world first mid between ∧
      GoesOn env f mid between result last final first := by
  have hwlp : (prog.bind f).wlp env (fun result last final =>
      ∃ first mid between, Ends env prog state world first mid between ∧
        GoesOn env f mid between result last final first) state world := by
    rw [Prog.wlp_bind]
    refine Prog.wlp_of_ends prog fun first mid between hprog => ?_
    cases first with
    | ok value =>
        exact Prog.wlp_of_ends _ fun result last final hf =>
          ⟨.ok value, mid, between, hprog, hf⟩
    | error error => exact ⟨.error error, mid, between, hprog, rfl, rfl, rfl⟩
  exact Prog.wlp_ends hends hwlp

/-! ## Runs on a part of the state -/

namespace Prog

/-- What a program does to its part, and what it does to the whole. -/
theorem wlp_zoom (part : Part τ σ) (prog : Prog ι σ ε α) (post : Post τ ε ω α) (state : τ)
    (world : ω) :
    (prog.zoom part).wlp env post state world ↔
      prog.wlp env (fun result next => post result (part.put next state)) (part.get state)
        world := by
  induction prog generalizing state world with
  | done value =>
      change post (.ok value) state world ↔
        post (.ok value) (part.put (part.get state) state) world
      rw [part.put_get]
  | raise error =>
      change post (.error error) state world ↔
        post (.error error) (part.put (part.get state) state) world
      rw [part.put_get]
  | get k ih => exact ih (part.get state) post state world
  | set next k ih =>
      change (k.zoom part).wlp env post (part.put next state) world ↔
        k.wlp env (fun result next => post result (part.put next state)) next world
      rw [ih, part.get_put]
      simp only [part.put_put]
  | call c k ih =>
      change (∀ answer next, env c world answer next → _) ↔
        (∀ answer next, env c world answer next → _)
      simp only [ih]
  | loop body start k hbody hk =>
      constructor
      · rintro ⟨inv, hstart, hround⟩
        refine ⟨fun value next world => inv value (part.put next state) world, ?_, ?_⟩
        · change inv start (part.put (part.get state) state) world
          rwa [part.put_get]
        · intro value next world hinv
          have hvalue := (hbody value _ _ _).mp (hround value _ _ hinv)
          rw [part.get_put] at hvalue
          refine wlp_mono _ ?_ hvalue
          intro result last world hresult
          rcases result with error | value | value
          · simpa only [part.put_put] using hresult
          · simpa only [part.put_put] using hresult
          · have hlast := (hk value _ _ _).mp hresult
            simpa only [part.put_put, part.get_put] using hlast
      · rintro ⟨inv, hstart, hround⟩
        refine ⟨fun value whole world => ∃ next, whole = part.put next state ∧
          inv value next world, ⟨_, (part.put_get state).symm, hstart⟩, ?_⟩
        rintro value _ world ⟨next, rfl, hinv⟩
        refine (hbody value _ _ _).mpr ?_
        rw [part.get_put]
        refine wlp_mono _ ?_ (hround value next world hinv)
        intro result last world hresult
        rcases result with error | value | value
        · simpa only [part.put_put] using hresult
        · exact ⟨last, part.put_put _ _ _, hresult⟩
        · rw [part.put_put]
          refine (hk value _ _ _).mpr ?_
          rw [part.get_put]
          simpa only [part.put_put] using hresult

end Prog

theorem ends_zoom_iff (part : Part τ σ) {prog : Prog ι σ ε α} {state last : τ} {world final : ω}
    {result : Except ε α} :
    Ends env (prog.zoom part) state world result last final ↔
      ∃ next, last = part.put next state ∧
        Ends env prog (part.get state) world result next final := by
  constructor
  · intro hends
    have hwlp : (prog.zoom part).wlp env (fun result last final =>
        ∃ next, last = part.put next state ∧
          Ends env prog (part.get state) world result next final) state world := by
      rw [Prog.wlp_zoom]
      exact Prog.wlp_of_ends prog fun result next final hprog => ⟨next, rfl, hprog⟩
    exact (Prog.wlp_iff_ends ..).mp hwlp _ _ _ hends
  · rintro ⟨next, rfl, hprog⟩
    have hwlp : (prog.zoom part).wlp env (Ends env (prog.zoom part) state world) state world :=
      Prog.wlp_of_ends _ fun _ _ _ hends => hends
    rw [Prog.wlp_zoom] at hwlp
    exact (Prog.wlp_iff_ends ..).mp hwlp _ _ _ hprog

/-! ## Errors caught -/

namespace Prog

@[simp]
theorem wlp_attempt (prog : Prog ι σ ε α) (post : Post σ ε ω (Except ε α)) :
    prog.attempt.wlp env post = prog.wlp env fun result => post (.ok result) := by
  induction prog with
  | done value => rfl
  | raise error => rfl
  | get k ih =>
      funext state world
      exact congrFun (congrFun (ih state post) state) world
  | set state k ih =>
      funext _ world
      exact congrFun (congrFun (ih post) state) world
  | call c k ih =>
      funext state world
      simp only [attempt, wlp, ih]
  | loop body start k hbody hk =>
      funext state world
      simp only [attempt, wlp, wlp_bind, hbody]
      refine congrArg Exists (funext fun inv => ?_)
      refine congrArg (inv start state world ∧ ·) ?_
      refine forall_congr fun value => forall_congr fun state => forall_congr fun world => ?_
      refine congrArg (fun round => inv value state world →
        (body value).wlp env round state world) ?_
      funext result
      rcases result with error | next | last
      · rfl
      · rfl
      · exact hk last post

end Prog

theorem ends_attempt_iff {prog : Prog ι σ ε α} {state last : σ} {world final : ω}
    {result : Except ε (Except ε α)} :
    Ends env prog.attempt state world result last final ↔
      ∃ first, result = .ok first ∧ Ends env prog state world first last final := by
  constructor
  · intro hends
    have hwlp : prog.attempt.wlp env (fun result last final =>
        ∃ first, result = .ok first ∧ Ends env prog state world first last final)
        state world := by
      rw [Prog.wlp_attempt]
      exact Prog.wlp_of_ends prog fun first _ _ hprog => ⟨first, rfl, hprog⟩
    exact (Prog.wlp_iff_ends ..).mp hwlp _ _ _ hends
  · rintro ⟨first, rfl, hprog⟩
    have hwlp : prog.attempt.wlp env (Ends env prog.attempt state world) state world :=
      Prog.wlp_of_ends _ fun _ _ _ hends => hends
    rw [Prog.wlp_attempt] at hwlp
    exact (Prog.wlp_iff_ends ..).mp hwlp _ _ _ hprog

/-! ## Scripts -/

/-- Calls and their answers, in the order they come. -/
abbrev Script (ι : Interface) (ε : Type) : Type := List (Σ c : ι.Call, Except ε (ι.Answer c))

/-- The environment that answers from a script. -/
def scripted : Env ι ε (Script ι ε) := fun c script answer rest => script = ⟨c, answer⟩ :: rest

/-- A run against any environment is one against the script of its answers. -/
theorem Ends.exists_script {prog : Prog ι σ ε α} {state last : σ} {world final : ω}
    {result : Except ε α} (hends : Ends env prog state world result last final) :
    ∃ script, Ends scripted prog state script result last [] := by
  induction hends with
  | returned hstep => exact ⟨[], .returned hstep⟩
  | silent hstep _ ih =>
      obtain ⟨script, hrest⟩ := ih
      exact ⟨script, .silent hstep hrest⟩
  | @asks _ _ _ _ _ _ _ c _ answer hstep _ _ ih =>
      obtain ⟨script, hrest⟩ := ih
      exact ⟨⟨c, answer⟩ :: script, .asks hstep rfl hrest⟩

/-- A script has one run. -/
theorem Ends.script_unique {prog : Prog ι σ ε α} {state last last' : σ}
    {script rest rest' : Script ι ε} {result result' : Except ε α}
    (hends : Ends scripted prog state script result last rest)
    (hends' : Ends scripted prog state script result' last' rest') :
    result = result' ∧ last = last' ∧ rest = rest' := by
  induction hends with
  | returned hstep =>
      cases hends' with
      | returned hstep' =>
          rw [hstep] at hstep'
          cases hstep'
          exact ⟨rfl, rfl, rfl⟩
      | silent hstep' =>
          rw [hstep] at hstep'
          cases hstep'
      | asks hstep' =>
          rw [hstep] at hstep'
          cases hstep'
  | silent hstep _ ih =>
      cases hends' with
      | returned hstep' =>
          rw [hstep] at hstep'
          cases hstep'
      | silent hstep' hrest' =>
          rw [hstep] at hstep'
          cases hstep'
          exact ih hrest'
      | asks hstep' =>
          rw [hstep] at hstep'
          cases hstep'
  | asks hstep hanswer _ ih =>
      cases hends' with
      | returned hstep' =>
          rw [hstep] at hstep'
          cases hstep'
      | silent hstep' =>
          rw [hstep] at hstep'
          cases hstep'
      | asks hstep' hanswer' hrest' =>
          rw [hstep] at hstep'
          cases hstep'
          obtain ⟨hhead, rfl⟩ := List.cons.inj (hanswer.symm.trans hanswer')
          cases hhead
          exact ih hrest'

/-! ## Blindness -/

/-- Runs from states alike end alike, with the same result in the same world. -/
def Blind (env : Env ι ε ω) (alike : σ → σ → Prop) (prog : Prog ι σ ε α) : Prop :=
  ∀ ⦃state other last : σ⦄ ⦃world final : ω⦄ ⦃result : Except ε α⦄, alike state other →
    Ends env prog state world result last final →
    ∃ last', alike last last' ∧ Ends env prog other world result last' final

variable {alike : σ → σ → Prop}

theorem blind_done (value : α) : Blind env alike (.done value) := by
  intro state other last world final result halike hends
  cases hends with
  | returned hstep =>
      cases hstep
      exact ⟨other, halike, .returned rfl⟩
  | silent hstep => cases hstep
  | asks hstep => cases hstep

theorem blind_raise (error : ε) : Blind env alike (.raise error : Prog ι σ ε α) := by
  intro state other last world final result halike hends
  cases hends with
  | returned hstep =>
      cases hstep
      exact ⟨other, halike, .returned rfl⟩
  | silent hstep => cases hstep
  | asks hstep => cases hstep

theorem Blind.bind {prog : Prog ι σ ε α} {f : α → Prog ι σ ε β}
    (hprog : Blind env alike prog) (hf : ∀ value, Blind env alike (f value)) :
    Blind env alike (prog.bind f) := by
  intro state other last world final result halike hends
  obtain ⟨first, mid, between, hfirst, hrest⟩ := hends.of_bind
  obtain ⟨mid', hmid, hfirst'⟩ := hprog halike hfirst
  cases first with
  | ok value =>
      obtain ⟨last', hlast, hrest'⟩ := hf value hmid hrest
      exact ⟨last', hlast, hfirst'.bind hrest'⟩
  | error error =>
      obtain ⟨rfl, rfl, rfl⟩ := hrest
      exact ⟨mid', hmid, hfirst'.bind ⟨rfl, rfl, rfl⟩⟩

/-- A program that looks at the state, but not at what may differ. -/
theorem blind_state {f : σ → Prog ι σ ε α}
    (hf : ∀ {state other}, alike state other → f other = f state)
    (hblind : ∀ state, Blind env alike (f state)) : Blind env alike (Prog.state.bind f) := by
  intro state other last world final result halike hends
  cases hends with
  | returned hstep => cases hstep
  | asks hstep => cases hstep
  | silent hstep hrest =>
      cases hstep
      obtain ⟨last', hlast, hrest'⟩ := hblind state halike hrest
      refine ⟨last', hlast, .silent rfl ?_⟩
      change Ends env (f other) other world result last' final
      rwa [hf halike]

theorem blind_modify {f : σ → σ}
    (hf : ∀ {state other}, alike state other → alike (f state) (f other)) :
    Blind env alike (.modify f : Prog ι σ ε Unit) := by
  intro state other last world final result halike hends
  obtain ⟨rfl, rfl, rfl⟩ := Prog.wlp_ends hends
    (show (Prog.modify f : Prog ι σ ε Unit).wlp env
      (fun result last final => result = .ok () ∧ last = f state ∧ final = world) state world
      from ⟨rfl, rfl, rfl⟩)
  exact ⟨f other, hf halike, .silent rfl (.silent rfl (.returned rfl))⟩

/-- A program with one outcome from states alike. -/
theorem blind_of_wp {prog : Prog ι σ ε α}
    (htotal : ∀ c world, ∃ answer next, env c world answer next)
    (hprog : ∀ state world, ∃ result last final, ∀ other, alike state other ∨ other = state →
      prog.wp env (fun result' last' final' => result' = result ∧ alike last last' ∧
        final' = final) other world)
    (hsym : ∀ {one two three}, alike one two → alike one three → alike two three) :
    Blind env alike prog := by
  intro state other last world final result halike hends
  obtain ⟨result', mid, final', hwp⟩ := hprog state world
  obtain ⟨rfl, hmid, rfl⟩ := (Prog.wp_safe _ (hwp state (.inr rfl))).ends hends
  have hsafe := Prog.wp_safe _ (hwp other (.inl halike))
  obtain ⟨result, last', final, hends'⟩ := hsafe.exists_ends htotal
  obtain ⟨rfl, hlast, rfl⟩ := hsafe.ends hends'
  exact ⟨last', hsym hmid hlast, hends'⟩

/-- The rounds of a loop go along with those from a state alike. -/
theorem Blind.repeatUntil {body : β → Prog ι σ ε (β ⊕ γ)}
    (hbody : ∀ value, Blind env alike (body value)) (start : β) :
    Blind env alike (Prog.repeatUntil body start) := by
  intro state other last world final result halike hends
  suffices hwlp : (Prog.repeatUntil body start).wlp env (fun result last final =>
      ∃ last', alike last last' ∧
        Ends env (Prog.repeatUntil body start) other world result last' final) state world from
    (Prog.wlp_iff_ends ..).mp hwlp _ _ _ hends
  refine Prog.wlp_loop
    (fun value now between => ∃ now', alike now now' ∧ ∀ result last final,
      Ends env (Prog.repeatUntil body value) now' between result last final →
      Ends env (Prog.repeatUntil body start) other world result last final)
    ?_ ⟨other, halike, fun _ _ _ hrest => hrest⟩
  rintro value now between ⟨now', halike, hcome⟩
  refine Prog.wlp_of_ends _ fun round mid after hround => ?_
  obtain ⟨mid', hmid, hround'⟩ := hbody value halike hround
  rcases round with error | next | value
  · exact ⟨mid', hmid, hcome _ _ _ (hround'.round ⟨rfl, rfl, rfl⟩)⟩
  · exact ⟨mid', hmid, fun _ _ _ hrest => hcome _ _ _ (hround'.round hrest)⟩
  · exact ⟨mid', hmid, hcome _ _ _ (hround'.round (.returned rfl))⟩

theorem Blind.attempt {prog : Prog ι σ ε α} (hprog : Blind env alike prog) :
    Blind env alike prog.attempt := by
  intro state other last world final result halike hends
  obtain ⟨first, rfl, hfirst⟩ := ends_attempt_iff.mp hends
  obtain ⟨last', hlast, hfirst'⟩ := hprog halike hfirst
  exact ⟨last', hlast, ends_attempt_iff.mpr ⟨first, rfl, hfirst'⟩⟩

/-- A difference in a part, and one of the whole. -/
theorem Blind.zoom {part : Part τ σ} {prog : Prog ι σ ε α} (hprog : Blind env alike prog)
    {whole : τ → τ → Prop} (hget : ∀ {state other}, whole state other →
      alike (part.get state) (part.get other))
    (hput : ∀ {state other next next'}, whole state other → alike next next' →
      whole (part.put next state) (part.put next' other)) :
    Blind env whole (prog.zoom part) := by
  intro state other last world final result halike hends
  obtain ⟨next, rfl, hprog'⟩ := (ends_zoom_iff part).mp hends
  obtain ⟨next', hnext, hother⟩ := hprog (hget halike) hprog'
  exact ⟨_, hput halike hnext, (ends_zoom_iff part).mpr ⟨next', rfl, hother⟩⟩

end Turbofile.Coroutine
