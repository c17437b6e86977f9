import Turbofile.Darwin.Chunks
import Turbofile.Darwin.Closing
import Turbofile.Library.Logs

/-!
# What becomes of a message

A message stays in the channel until it is handled.  An op on a handle is
handled where its handle is open or where it is not, and in the second case it
is refused: its callback gets `badHandle` and no call is made for it.
-/

namespace Turbofile.Darwin

open Turbofile.Core
open Turbofile.Tally
open Turbofile.Logs
open State

section Actions

variable {ans : Answers} {hand hand' : Hand} {state next : State}

/-- Neither side of the channel. -/
def Event.plain : Event → Prop
  | .sent _ | .handled _ => False
  | .opened .. | .closed .. | .syscall .. | .registered .. | .settled .. => True

/-- The log has grown, and not by messages. -/
def Grown (log grown : List Event) : Prop :=
  ∃ events, grown = events ++ log ∧ ∀ event ∈ events, event.plain

theorem Grown.refl (log : List Event) : Grown log log := ⟨[], rfl, by simp⟩

theorem Grown.trans {log mid grown : List Event} (hfirst : Grown log mid)
    (hsecond : Grown mid grown) : Grown log grown := by
  obtain ⟨front, rfl, hfront⟩ := hfirst
  obtain ⟨back, rfl, hback⟩ := hsecond
  refine ⟨back ++ front, by rw [List.append_assoc], fun event hmem => ?_⟩
  exact (List.mem_append.mp hmem).elim (hback event) (hfront event)

theorem Grown.cons {log grown : List Event} {event : Event} (hgrown : Grown log grown)
    (hplain : event.plain) : Grown log (event :: grown) :=
  hgrown.trans ⟨[event], rfl, fun _ hmem => List.mem_singleton.mp hmem ▸ hplain⟩

theorem Grown.two {log grown : List Event} {one other : Event} (hgrown : Grown log grown)
    (hone : one.plain) (hother : other.plain) : Grown log (other :: one :: grown) :=
  (hgrown.cons hone).cons hother

theorem Grown.chores {id : OpId} {log grown : List Event} (hchores : Chores id log grown) :
    Grown log grown := by
  obtain ⟨events, rfl, hevents⟩ := hchores
  refine ⟨events, rfl, fun event hmem => ?_⟩
  have hchore := hevents event hmem
  cases event with
  | sent msg => exact hchore
  | handled msg => exact hchore
  | registered handle fd => exact hchore.elim
  | settled cb result => exact hchore.elim
  | opened fd path flags => trivial
  | closed fd carriers => trivial
  | syscall other fd call => trivial

/-- What an action does to the channel. -/
inductive Passes (state next : State) : Prop
  | keeps (hrx : next.rx = state.rx) (hgrown : Grown state.log next.log)
  | takes {msg : Msg} {rx : List Msg} (hrx : state.rx = msg :: rx) (hrest : next.rx = rx)
      (hgrown : Grown (.handled msg :: state.log) next.log)
  | sends {msg : Msg} (hrx : next.rx = state.rx ++ [msg]) (hlog : next.log = .sent msg :: state.log)

theorem stepJob_keeps {job job' : Job} {transferred : Transferred} {reply : Option Outcome}
    (hstep : state.stepJob ans transferred job = (job', reply, next)) :
    next.rx = state.rx ∧ Grown state.log next.log := by
  have hcontrol := control_stepJob ans transferred job state
  rw [hstep] at hcontrol
  exact ⟨congrArg Control.rx hcontrol, .chores (Chores.stepJob hstep)⟩

theorem finish_passes (job : Job) (result : Outcome) :
    Passes state (state.finish ans job result) := by
  obtain ⟨grown, hgrown, hlog⟩ := Chores.finish ans state job result
  have hrx : (state.finish ans job result).rx = state.rx :=
    congrArg Control.rx (control_finish ans job result state)
  have hsettled : Grown state.log (.settled job.cb result :: grown) :=
    (Grown.chores hgrown).cons trivial
  refine .keeps hrx ?_
  rcases hlog with hlog | ⟨handle, entry, cb, carriers, -, -, hlog⟩
  · rw [hlog]
    exact hsettled
  · rw [hlog]
    exact hsettled.two trivial trivial

theorem Act.passes (hact : Act ans hand state hand' next) : Passes state next := by
  have hsame : ∀ log : List Event, Grown log log := .refl
  have hissue : ∀ id fd call, Grown state.log (state.issue id fd call).log :=
    fun id fd call => (hsame _).cons trivial
  have hsettle : ∀ cb result, Grown state.log (state.settle cb result).log :=
    fun cb result => (hsame _).cons trivial
  cases hact with
  | still hview =>
      simp only [State.view, View.mk.injEq] at hview
      refine .keeps hview.1 ?_
      rw [hview.2.2.2.2.2.2.2.2.2.2.2]
      exact hsame _
  | sent msg hown =>
      exact .sends rfl rfl
  | nop hrx => exact .takes hrx rfl ((hsame _).cons trivial)
  | refused hrx htarget hbad => exact .takes hrx rfl ((hsame _).cons trivial)
  | @answered _ id op cb rx handle fd result calls hrx htarget hclose hopen hcalls =>
      have hcalled : Grown (state.received (.submit id op cb) rx).log
          (calls.foldr (State.issue id fd) (state.received (.submit id op cb) rx)).log :=
        .chores (Chores.issues id fd calls hcalls)
      rw [issues_eq] at hcalled ⊢
      exact .takes hrx rfl (hcalled.cons trivial)
  | @enqueued _ id op cb rx handle kind asks hrx =>
      cases asks with
      | false => exact .takes hrx rfl (hsame _)
      | true => exact .takes hrx rfl ((hsame _).cons trivial)
  | closeDeferred hrx hlookup hopen hbusy => exact .takes hrx rfl (hsame _)
  | closeNow hrx hlookup hopen hidle =>
      exact .takes hrx rfl ((hsame _).two trivial trivial)
  | @openedHere _ id op cb rx path spec after hrx =>
      have hopened : Grown (state.received (.submit id op cb) rx).log
          ((state.received (.submit id op cb) rx).openFor ans path spec ⟨id, after, cb⟩).2.log :=
        .chores (Chores.openFor path spec ⟨id, after, cb⟩)
      refine .takes hrx ?_ hopened
      rw [openFor_snd]
      rfl
  | sentOpen path spec after hrx => exact .takes hrx rfl (hsame _)
  | cancelQueued hrx hfind => exact .takes hrx rfl (hsame _)
  | cancelInflight hrx hnone hget hid => exact .takes hrx rfl ((hsame _).cons trivial)
  | cancelOpening hrx hnone hflying hpending => exact .takes hrx rfl (hsame _)
  | cancelNothing hrx hnone hflying hpending => exact .takes hrx rfl (hsame _)
  | openFailed => exact .keeps rfl (hsettle _ _)
  | registered => exact .keeps rfl ((hsame _).two trivial trivial)
  | enqueuedOwned htask hhandle howned hfd hstarts => exact .keeps rfl (hsame _)
  | tookOpened hback hkept => exact .keeps rfl (hsame _)
  | @openCancelled _ message back hback hcancelled =>
      cases hresult : message.result with
      | ok opened => exact .keeps rfl ((hsame _).two trivial trivial)
      | error error => exact .keeps rfl ((hsame _).cons trivial)
  | chunkFailed hpoint hget haio => exact .keeps rfl (hsame _)
  | chunkReplied hget hstep hdone =>
      exact .keeps (stepJob_keeps hstep).1 (stepJob_keeps hstep).2
  | chunkFlagged hget hstep hflag hdone =>
      exact .keeps (stepJob_keeps hstep).1 (stepJob_keeps hstep).2
  | chunkRequeued htask hget hstep hflag hdone =>
      exact .keeps (stepJob_keeps hstep).1 (stepJob_keeps hstep).2
  | submitInflight htask hqueue => exact .keeps rfl (hissue _ _ _)
  | submitFull htask hqueue => exact .keeps rfl (hissue _ _ _)
  | submitSync htask hqueue => exact .keeps rfl (hissue _ _ _)
  | submitFailed htask hqueue hfails => exact .keeps rfl (hissue _ _ _)
  | execFailed htask hfails => exact .keeps rfl (hissue _ _ _)
  | @execReplied _ _ job job' transferred reply htask hstep hdone =>
      obtain ⟨hrx, hgrown⟩ := stepJob_keeps hstep
      exact .keeps hrx ((hissue job.id job.fd (syncCall job)).trans hgrown)
  | @execAgain _ _ job job' transferred htask hstep hdone =>
      obtain ⟨hrx, hgrown⟩ := stepJob_keeps hstep
      exact .keeps hrx ((hissue job.id job.fd (syncCall job)).trans hgrown)
  | ended => exact finish_passes _ _
  | helperTook hget hqueue => exact .keeps rfl (hsame _)
  | helperExited hget => exact .keeps rfl (hsame _)
  | helperClosed hget => exact .keeps rfl ((hsame _).cons trivial)
  | @helperOpened _ index path spec pending hget hfresh =>
      refine .keeps ?_ (.chores (@Chores.openFor state ans path spec pending))
      exact congrArg Control.rx (control_openFor ans path spec pending state)
  | helperSent hget => exact .keeps rfl (hsame _)

end Actions

section Runs

variable {state next : State} {label : Label}

theorem Passes.suffix (hpasses : Passes state next) : state.log <:+ next.log := by
  cases hpasses with
  | keeps hrx hgrown =>
      obtain ⟨events, hlog, -⟩ := hgrown
      exact ⟨events, hlog.symm⟩
  | takes hrx hrest hgrown =>
      obtain ⟨events, hlog, -⟩ := hgrown
      exact (List.suffix_cons _ _).trans ⟨events, hlog.symm⟩
  | sends hrx hlog => exact ⟨[_], hlog.symm⟩

/-- A step adds to the log. -/
theorem step_suffix (hinv : Invariant state) (hstep : Darwin.step state label = some next) :
    state.log <:+ next.log :=
  @Acts.keep label.answers (fun _ mid => state.log <:+ mid.log)
    (fun _ _ _ _ _ hact hpassed => hpassed.trans hact.passes.suffix) _ _ _ (step_acts hinv hstep)
    (.empty hinv.ledger) (List.suffix_refl _)

def sentTimes (msg : Msg) (log : List Event) : ℕ :=
  log.countP fun event =>
    match event with
    | .sent other => other = msg
    | _ => false

def handledTimes (msg : Msg) (log : List Event) : ℕ :=
  log.countP fun event =>
    match event with
    | .handled other => other = msg
    | _ => false

theorem plain_append {events : List Event} (hevents : ∀ event ∈ events, event.plain)
    (log : List Event) (msg : Msg) :
    sentTimes msg (events ++ log) = sentTimes msg log ∧
      handledTimes msg (events ++ log) = handledTimes msg log := by
  induction events with
  | nil => exact ⟨rfl, rfl⟩
  | cons event events ih =>
      obtain ⟨hsent, hhandled⟩ := ih fun other hmem => hevents other (List.mem_cons_of_mem _ hmem)
      have hplain := hevents event List.mem_cons_self
      rw [← hsent, ← hhandled]
      cases event with
      | sent other => exact hplain.elim
      | handled other => exact hplain.elim
      | _ => simp [sentTimes, handledTimes]

/-- A message is in the channel or handled as often as it was sent, and
handled only after it was sent. -/
structure Accounted (state : State) : Prop where
  balance : ∀ msg,
    state.rx.count msg + handledTimes msg state.log = sentTimes msg state.log
  order : ∀ msg, Event.handled msg ∈ state.log →
    Precedes (.sent msg) (.handled msg) state.log

theorem sent_of_times {msg : Msg} {log : List Event} (hpos : 0 < sentTimes msg log) :
    Event.sent msg ∈ log := by
  obtain ⟨event, hmem, hsame⟩ := List.countP_pos_iff.mp hpos
  cases event with
  | sent other =>
      obtain rfl : other = msg := by simpa using hsame
      exact hmem
  | _ => simp at hsame

theorem handled_of_times {msg : Msg} {log : List Event} (hpos : 0 < handledTimes msg log) :
    Event.handled msg ∈ log := by
  obtain ⟨event, hmem, hsame⟩ := List.countP_pos_iff.mp hpos
  cases event with
  | handled other =>
      obtain rfl : other = msg := by simpa using hsame
      exact hmem
  | _ => simp at hsame

namespace Accounted

/-- A message that was sent is in the channel, or has been handled. -/
theorem waits (haccounted : Accounted state) {msg : Msg} (hsent : Event.sent msg ∈ state.log) :
    msg ∈ state.rx ∨ Event.handled msg ∈ state.log := by
  have hbalance := haccounted.balance msg
  have hpos : 0 < sentTimes msg state.log :=
    List.countP_pos_iff.mpr ⟨_, hsent, by simp⟩
  rcases Nat.eq_zero_or_pos (state.rx.count msg) with hnone | hsome
  · exact .inr (handled_of_times (by omega))
  · exact .inl (List.count_pos_iff.mp hsome)

theorem passes (haccounted : Accounted state) (hpasses : Passes state next) :
    Accounted next := by
  have hmono : ∀ msg, Event.handled msg ∈ state.log →
      Precedes (.sent msg) (.handled msg) next.log :=
    fun msg hmem => (haccounted.order msg hmem).mono hpasses.suffix
  cases hpasses with
  | keeps hrx hgrown =>
      obtain ⟨events, hlog, hevents⟩ := hgrown
      refine ⟨fun msg => ?_, fun msg hmem => hmono msg ?_⟩
      · obtain ⟨hsent, hhandled⟩ := plain_append hevents state.log msg
        rw [hrx, hlog, hsent, hhandled]
        exact haccounted.balance msg
      · rw [hlog] at hmem
        exact (List.mem_append.mp hmem).resolve_left fun hnew => hevents _ hnew
  | @takes taken rx hrx hrest hgrown =>
      obtain ⟨events, hlog, hevents⟩ := hgrown
      have hbalance := haccounted.balance
      rw [hrx] at hbalance
      refine ⟨fun msg => ?_, fun msg hmem => ?_⟩
      · obtain ⟨hsent, hhandled⟩ := plain_append hevents (.handled taken :: state.log) msg
        have hmsg := hbalance msg
        rw [hrest, hlog, hsent, hhandled]
        simp only [List.count_cons, beq_iff_eq] at hmsg
        simp only [handledTimes, sentTimes, List.countP_cons, decide_eq_true_eq] at hmsg ⊢
        simpa [Nat.add_assoc, Nat.add_comm, Nat.add_left_comm] using hmsg
      · rw [hlog] at hmem
        have hbehind := (List.mem_append.mp hmem).resolve_left fun hnew => hevents _ hnew
        rcases List.mem_cons.mp hbehind with hnow | hearlier
        · cases hnow
          have hmsg := hbalance taken
          rw [List.count_cons_self] at hmsg
          have hpos : 0 < sentTimes taken state.log := by omega
          have hsent := sent_of_times hpos
          rw [hlog]
          exact (Precedes.head hsent).mono (List.suffix_append _ _)
        · exact hmono msg hearlier
  | @sends sent hrx hlog =>
      refine ⟨fun msg => ?_, fun msg hmem => hmono msg ?_⟩
      · have hmsg := haccounted.balance msg
        rw [hrx, hlog, List.count_append, List.count_singleton]
        simp only [handledTimes, sentTimes, List.countP_cons, beq_iff_eq,
          decide_eq_true_eq] at hmsg ⊢
        simp only [Bool.false_eq_true, if_false, Nat.add_zero]
        omega
      · rw [hlog] at hmem
        exact (List.mem_cons.mp hmem).resolve_left (by rintro ⟨⟩)

theorem of_reachable (hreach : driver.Reachable state) : Accounted state := by
  refine hreach.invariant ?_ ?_
  · rintro _ ⟨hardware, maxInflight, -, rfl⟩
    exact ⟨fun _ => rfl, fun _ hmem => by cases hmem⟩
  · intro state label next hprev haccounted hstep
    have hinv := Invariant.of_reachable hprev
    exact @Acts.keep label.answers (fun _ mid => Accounted mid)
      (fun _ _ _ _ _ hact hkept => hkept.passes hact.passes) _ _ _ (step_acts hinv hstep)
      (.empty hinv.ledger) haccounted

end Accounted

theorem sent_waits (hreach : driver.Reachable state) {msg : Msg}
    (hsent : Event.sent msg ∈ state.log) : msg ∈ state.rx ∨ Event.handled msg ∈ state.log :=
  (Accounted.of_reachable hreach).waits hsent

theorem sentTimes_le (id : OpId) (op : Op) (cb : Callback) (log : List Event) :
    sentTimes (.submit id op cb) log ≤ (submittedIds log).count id := by
  induction log with
  | nil => exact le_refl _
  | cons event log ih =>
      cases event with
      | sent msg =>
          cases msg with
          | cancel other => simpa [sentTimes, submittedIds] using ih
          | submit other op' cb' =>
              simp only [sentTimes, submittedIds, List.countP_cons, List.count_cons, beq_iff_eq,
                decide_eq_true_eq] at ih ⊢
              by_cases hsame : Msg.submit other op' cb' = .submit id op cb
              · rw [if_pos hsame, if_pos (Msg.submit.inj hsame).1]
                omega
              · rw [if_neg hsame]
                omega
      | _ => simpa [sentTimes, submittedIds] using ih

/-- An op is sent once and handled once. -/
theorem once (hreach : driver.Reachable state) (id : OpId) (op : Op) (cb : Callback) :
    ¬Precedes (Event.sent (.submit id op cb)) (.sent (.submit id op cb)) state.log ∧
      ¬Precedes (Event.handled (.submit id op cb)) (.handled (.submit id op cb)) state.log := by
  have hle := sentTimes_le id op cb state.log
  have hunique := List.nodup_iff_count_le_one.mp (Invariant.of_reachable hreach).ledger.unique id
  have hbalance := (Accounted.of_reachable hreach).balance (.submit id op cb)
  constructor
  · intro htwice
    have htwo : 2 ≤ sentTimes (.submit id op cb) state.log := htwice.two_le_countP (by simp)
    omega
  · intro htwice
    have htwo : 2 ≤ handledTimes (.submit id op cb) state.log := htwice.two_le_countP (by simp)
    omega

/-- The callback of an op in the channel has not run. -/
theorem unsettled_of_rx (hreach : driver.Reachable state) {id : OpId} {op : Op} {cb : Callback}
    (hrx : Msg.submit id op cb ∈ state.rx) (result : Outcome) :
    Event.settled id result ∉ state.log := by
  intro hmem
  have hcons := (Invariant.of_reachable hreach).ledger
  have hplaces : Place.channel ∈ state.places id := by
    have hfound : Msg.submit id op cb ∈ state.rx.filter (Msg.submits id) :=
      List.mem_filter.mpr ⟨hrx, by simp [Msg.submits]⟩
    simp only [State.places, List.mem_append]
    exact .inl (.inl (.inl (.inl (.inl (List.mem_map.mpr ⟨_, hfound, rfl⟩)))))
  have hpos := List.length_pos_of_mem hplaces
  have hbalance := (Accounted.of_reachable hreach).balance (.submit id op cb)
  have hcount := List.count_pos_iff.mpr hrx
  have hsent := sent_of_times (show 0 < sentTimes (.submit id op cb) state.log by omega)
  have hone := hcons.places_add_settled (Sent.submitted ⟨cb, hsent⟩)
  have hnone : settledTimes id state.log = 0 := by omega
  rw [settledTimes, List.countP_eq_zero] at hnone
  exact absurd (hnone _ hmem) (by simp)

/-! ## Ops on a number that is not open -/

/-- The ops, closes included, that were handled while their handle was open. -/
def takenOn : Handle → List Event → List OpId :=
  handledOn fun _ standing => standing.isOpen

theorem handled_of_taken {id : OpId} {handle : Handle} {log : List Event}
    (htaken : id ∈ takenOn handle log) : ∃ op cb, Event.handled (.submit id op cb) ∈ log := by
  induction log with
  | nil => cases htaken
  | cons event log ih =>
      have htail : id ∈ takenOn handle log →
          ∃ op cb, Event.handled (.submit id op cb) ∈ event :: log := by
        intro hearlier
        obtain ⟨op, cb, hmem⟩ := ih hearlier
        exact ⟨op, cb, List.mem_cons_of_mem _ hmem⟩
      cases event with
      | handled msg =>
          cases msg with
          | cancel other => exact htail htaken
          | submit other op cb =>
              simp only [takenOn, handledOn] at htaken
              split at htaken
              · rcases List.mem_cons.mp htaken with rfl | hearlier
                · exact ⟨op, cb, List.mem_cons_self⟩
                · exact htail hearlier
              · exact htail htaken
      | sent msg => exact htail htaken
      | opened fd path flags => exact htail htaken
      | closed fd carriers => exact htail htaken
      | syscall other fd call => exact htail htaken
      | registered other fd => exact htail htaken
      | settled cb result => exact htail htaken

/-- An op on the handle was sent under the id. -/
def Sends (id : OpId) (handle : Handle) (state : State) : Prop :=
  ∃ op cb, Op.target op = some handle ∧ Event.sent (.submit id op cb) ∈ state.log

theorem takenOn_submit {id : OpId} {op : Op} {handle : Handle}
    (hstep : Darwin.step state (.submit id op) = some next) :
    takenOn handle next.log = takenOn handle state.log := by
  simp only [Darwin.step, State.send] at hstep
  split at hstep
  · cases hstep
  · split at hstep
    · cases hstep
    · cases hstep
      rfl

/-- An op that has just been sent has not been taken. -/
theorem sends_of_submit (hreach : driver.Reachable state) {id : OpId} {op : Op} {handle : Handle}
    (htarget : Op.target op = some handle)
    (hstep : Darwin.step state (.submit id op) = some next) :
    Sends id handle next ∧ id ∉ takenOn handle next.log := by
  simp only [Darwin.step, State.send] at hstep
  split at hstep
  · cases hstep
  · next hnew =>
      split at hstep
      · cases hstep
      · cases hstep
        refine ⟨⟨op, id, htarget, List.mem_cons_self⟩, fun htaken => hnew ?_⟩
        have hearlier : id ∈ takenOn handle state.log := htaken
        obtain ⟨op', cb, hhandled⟩ := handled_of_taken hearlier
        exact Sent.submitted ⟨cb, ((Accounted.of_reachable hreach).order _ hhandled).mem.1⟩

theorem Sends.step {id : OpId} {handle : Handle} (hsends : Sends id handle state)
    (hinv : Invariant state) (hstep : Darwin.step state label = some next) :
    Sends id handle next := by
  obtain ⟨op, cb, htarget, hsent⟩ := hsends
  exact ⟨op, cb, htarget, (step_suffix hinv hstep).subset hsent⟩

/-- A handled op was handled where the handle was open or where it was not. -/
theorem taken_or_refused {id : OpId} {op : Op} {cb : Callback} {handle : Handle}
    {log : List Event} (htarget : Op.target op = some handle)
    (hhandled : Event.handled (.submit id op cb) ∈ log) :
    id ∈ takenOn handle log ∨ id ∈ refusedOn handle log := by
  induction log with
  | nil => cases hhandled
  | cons event log ih =>
      rcases List.mem_cons.mp hhandled with rfl | hearlier
      · cases hopen : (standing handle log).isOpen with
        | true => exact .inl (by simp [takenOn, handledOn, htarget, hopen])
        | false => exact .inr (by simp [refusedOn, handledOn, htarget, hopen])
      · have hmore : ∀ holds,
            handledOn holds handle log ⊆ handledOn holds handle (event :: log) := by
          intro holds other hmem
          cases event with
          | handled msg =>
              cases msg with
              | submit id op cb =>
                  simp only [handledOn]
                  split
                  · exact List.mem_cons_of_mem _ hmem
                  · exact hmem
              | cancel id => exact hmem
          | sent msg => exact hmem
          | opened fd path flags => exact hmem
          | closed fd carriers => exact hmem
          | syscall id fd call => exact hmem
          | registered other fd => exact hmem
          | settled cb result => exact hmem
        exact (ih hearlier).imp (fun hmem => hmore _ hmem) (fun hmem => hmore _ hmem)

theorem settled_once {id : OpId} {log : List Event} (honce : settledTimes id log = 1)
    {result other : Outcome} (hresult : Event.settled id result ∈ log)
    (hother : Event.settled id other ∈ log) : result = other := by
  have hsame := eq_of_countP_le_one honce.le hresult hother (by simp) (by simp)
  exact (Event.settled.inj hsame).2

/-- A number at which an op was taken has been registered. -/
theorem standing_of_taken {id : OpId} {handle : Handle} {log : List Event}
    (htaken : id ∈ takenOn handle log) : standing handle log ≠ .unregistered := by
  induction log with
  | nil => cases htaken
  | cons event log ih =>
      cases event with
      | handled msg =>
          cases msg with
          | cancel other => exact ih htaken
          | submit other op cb =>
              have hstood : standing handle log ≠ .unregistered := by
                intro hnew
                refine ih ?_ hnew
                simpa [takenOn, handledOn, hnew, Standing.isOpen] using htaken
              simp only [standing]
              split
              · cases hstanding : standing handle log with
                | unregistered => exact absurd hstanding hstood
                | opened fd => simp [Standing.beginClose]
                | closing fd cb => simp [Standing.beginClose]
                | released cb => simp [Standing.beginClose]
                | closed => simp [Standing.beginClose]
              · exact hstood
      | registered other fd =>
          simp only [standing]
          split
          · simp
          · exact ih htaken
      | closed fd carriers =>
          have hstood := ih htaken
          simp only [standing]
          cases hstanding : standing handle log with
          | unregistered => exact absurd hstanding hstood
          | closing own cb =>
              simp only [Standing.release]
              split <;> simp
          | opened own => simp [Standing.release]
          | released cb => simp [Standing.release]
          | closed => simp [Standing.release]
      | settled cb result =>
          have hstood := ih htaken
          simp only [standing]
          cases hstanding : standing handle log with
          | unregistered => exact absurd hstanding hstood
          | released own =>
              simp only [Standing.endClose]
              split <;> simp
          | opened fd => simp [Standing.endClose]
          | closing fd cb => simp [Standing.endClose]
          | closed => simp [Standing.endClose]
      | sent msg => exact ih htaken
      | opened fd path flags => exact ih htaken
      | syscall other fd call => exact ih htaken

theorem registered_of_standing {handle : Handle} {log : List Event}
    (hstood : standing handle log ≠ .unregistered) : ∃ fd, Event.registered handle fd ∈ log := by
  induction log with
  | nil => exact absurd rfl hstood
  | cons event log ih =>
      have htail : standing handle log ≠ .unregistered →
          ∃ fd, Event.registered handle fd ∈ event :: log := by
        intro hearlier
        obtain ⟨fd, hmem⟩ := ih hearlier
        exact ⟨fd, List.mem_cons_of_mem _ hmem⟩
      cases event with
      | registered other fd =>
          by_cases hsame : other = handle
          · subst hsame
            exact ⟨fd, List.mem_cons_self⟩
          · refine htail ?_
            simpa [standing, hsame] using hstood
      | handled msg =>
          refine htail fun hnew => hstood ?_
          cases msg with
          | cancel other => exact hnew
          | submit other op cb =>
              simp only [standing, hnew]
              split <;> rfl
      | closed fd carriers =>
          refine htail fun hnew => hstood ?_
          simp [standing, hnew, Standing.release]
      | settled cb result =>
          refine htail fun hnew => hstood ?_
          simp [standing, hnew, Standing.endClose]
      | sent msg => exact htail hstood
      | opened fd path flags => exact htail hstood
      | syscall other fd call => exact htail hstood

/-- The number of an op that was taken has been given out. -/
theorem handle_lt_of_taken (hreach : driver.Reachable state) {id : OpId} {handle : Handle}
    (htaken : id ∈ takenOn handle state.log) : handle < state.nextId := by
  have hcons := (Invariant.of_reachable hreach).ledger
  have hagrees := (Hand.Protocol.of_reachable hreach).kept.table handle
  have hstood := standing_of_taken htaken
  unfold Standing.Agrees at hagrees
  split at hagrees
  · next hnew => exact absurd hnew hstood
  · obtain ⟨ops, hlookup⟩ := hagrees
    exact hcons.fresh handle _ hlookup
  · obtain ⟨ops, hlookup⟩ := hagrees
    exact hcons.fresh handle _ hlookup
  · exact hagrees.elim
  · exact hagrees.2

/-- An op that was not taken where its handle was open makes no call, and its
callback gets nothing but `badHandle`. -/
theorem refused_of_untaken (hreach : driver.Reachable state) {id : OpId} {handle : Handle}
    (hsends : Sends id handle state) (huntaken : id ∉ takenOn handle state.log) :
    (∀ fd call, Event.syscall id fd call ∉ state.log) ∧
      ∀ result, Event.settled id result ∈ state.log → result = .error badHandle := by
  obtain ⟨op, cb, htarget, hsent⟩ := hsends
  have hcons := (Invariant.of_reachable hreach).ledger
  have hprot := (Hand.Protocol.of_reachable hreach).kept
  rcases sent_waits hreach hsent with hrx | hhandled
  · exact ⟨fun fd call hcall => (hprot.asked id fd call hcall).2 op cb hrx,
      fun result hmem => absurd hmem (unsettled_of_rx hreach hrx result)⟩
  · obtain ⟨hbad, hcalls⟩ :=
      hprot.refused handle id ((taken_or_refused htarget hhandled).resolve_left huntaken)
    exact ⟨hcalls, fun result hmem => settled_once (hcons.settledTimes_of_mem hbad) hmem hbad⟩

end Runs

end Turbofile.Darwin
