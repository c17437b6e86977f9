import Turbofile.Darwin.Flags
import Turbofile.Darwin.Settlement

/-!
# The opens the loop waits for

`pending_opens` gets an id when its open goes to a helper and loses it when the
`Opened` message is taken.  The ledger says that the opens on their way are
among the ids; here it is shown that every id has its open on the way, so that
an op in the queue or in flight is none of them.
-/

namespace Turbofile.Darwin

open Turbofile.Core
open State

variable {ans : Answers} {hand hand' : Hand} {state next : State}

/-- Every open the loop waits for is with the helpers or on its way back. -/
def OpensOut (state : State) : Prop :=
  ∀ id ∈ state.pendingOpens, ∃ pending ∈ state.pendings, pending.id = id

namespace OpensOut

theorem same (hout : OpensOut state) (hopens : next.pendingOpens = state.pendingOpens)
    (hpendings : next.pendings = state.pendings) : OpensOut next := by
  intro id hmem
  rw [hopens] at hmem
  rw [hpendings]
  exact hout id hmem

/-- No job of the driver changes what the helpers have. -/
theorem held (hout : OpensOut state) (hsame : next.holdings = state.holdings) :
    OpensOut next := by
  simp only [State.holdings, Holdings.mk.injEq] at hsame
  exact hout.same hsame.2.2.2.2.1 hsame.2.2.2.2.2.1

/-- What one thread gives up another takes. -/
theorem moved (hout : OpensOut state) (hopens : next.pendingOpens = state.pendingOpens)
    (hkept : ∀ pending ∈ state.pendings, pending ∈ next.pendings) : OpensOut next := by
  intro id hmem
  obtain ⟨pending, hpending, hid⟩ := hout id (hopens ▸ hmem)
  exact ⟨pending, hkept pending hpending, hid⟩

/-- The head of the channel of opened files is taken. -/
theorem takeBack (hout : OpensOut state) {message : Opened} {back : List Opened}
    (hback : state.back = message :: back) {cancelled : Finset OpId} :
    OpensOut { state with
      back := back
      progress := true
      pendingOpens := state.pendingOpens.erase message.pending.id
      cancelledOpens := cancelled } := by
  intro id hmem
  obtain ⟨hne, hold⟩ := Finset.mem_erase.mp hmem
  obtain ⟨pending, hpending, rfl⟩ := hout id hold
  refine ⟨pending, ?_, rfl⟩
  simp only [State.pendings, hback, List.map_cons, List.mem_append, List.mem_cons] at hpending ⊢
  rcases hpending with hhelpers | rfl | hrest
  · exact .inl hhelpers
  · exact absurd rfl hne
  · exact .inr hrest

end OpensOut

/-! ## What a helper hands on -/

theorem kept_setHelper {index : ℕ} {old : Helper} (hget : state.helpers[index]? = some old)
    (new : Helper) {pending : PendingOpen} (hmem : pending ∈ state.pendings) :
    pending ∈ old.pendings ∨
      pending ∈ ({ state with helpers := state.helpers.set index new } : State).pendings := by
  simp only [State.pendings, List.mem_append, List.mem_flatMap] at hmem ⊢
  rcases hmem with (hqueue | ⟨helper, hhelper, hin⟩) | hback
  · exact .inr (.inl (.inl hqueue))
  · obtain ⟨position, hposition⟩ := List.mem_iff_getElem?.mp hhelper
    by_cases hsame : index = position
    · subst hsame
      obtain rfl := Option.some.inj (hget.symm.trans hposition)
      exact .inl hin
    · refine .inr (.inl (.inr ⟨helper, List.mem_iff_getElem?.mpr ⟨position, ?_⟩, hin⟩))
      rw [List.getElem?_set_ne hsame]
      exact hposition
  · exact .inr (.inr hback)

/-- The new value of a slot that was set. -/
theorem mem_pendings_set {index : ℕ} {old new : Helper}
    (hget : state.helpers[index]? = some old) {pending : PendingOpen}
    (hin : pending ∈ new.pendings) :
    pending ∈ ({ state with helpers := state.helpers.set index new } : State).pendings := by
  obtain ⟨hbound, -⟩ := List.getElem?_eq_some_iff.mp hget
  exact Invariant.mem_pendings_of_helper (List.getElem?_set_self hbound) hin

/-- A slot changes and keeps its open. -/
theorem OpensOut.setHelper (hout : OpensOut state) {index : ℕ} {old new : Helper}
    (hget : state.helpers[index]? = some old)
    (hkept : ∀ pending ∈ old.pendings, pending ∈ new.pendings) :
    OpensOut { state with helpers := state.helpers.set index new } := by
  refine hout.moved rfl fun pending hmem => ?_
  rcases kept_setHelper hget new hmem with hold | hrest
  · exact mem_pendings_set hget (hkept pending hold)
  · exact hrest

theorem OpensOut.helperTook (hout : OpensOut state) {index : ℕ} {job : HelperJob}
    {queue : List HelperJob} (hget : state.helpers[index]? = some .idle)
    (hqueue : state.helperQueue = job :: queue) :
    OpensOut { state with
      helperQueue := queue
      helpers := state.helpers.set index (.running job) } := by
  refine hout.moved rfl fun pending hmem => ?_
  have htaken : pending ∈ job.pendings ∨
      pending ∈ ({ state with helperQueue := queue } : State).pendings := by
    simp only [State.pendings, hqueue, List.flatMap_cons, List.mem_append] at hmem ⊢
    tauto
  rcases htaken with hjob | hrest
  · exact @mem_pendings_set { state with helperQueue := queue } _ _ _ hget _ hjob
  · rcases @kept_setHelper { state with helperQueue := queue } _ _ hget (.running job) _ hrest
      with hnone | hkept
    · cases hnone
    · exact hkept

theorem OpensOut.helperSent (hout : OpensOut state) {index : ℕ} {message : Opened}
    (hget : state.helpers[index]? = some (.sending message)) :
    OpensOut { state with
      helpers := state.helpers.set index .idle
      back := state.back ++ [message] } := by
  refine hout.moved rfl fun pending hmem => ?_
  have hkept := kept_setHelper hget .idle hmem
  simp only [Helper.pendings, List.mem_singleton] at hkept
  simp only [State.pendings, List.map_append, List.map_cons, List.map_nil, List.mem_append,
    List.mem_singleton] at hkept ⊢
  tauto

/-! ## Every action -/

theorem Act.opensOut (hact : Act ans hand state hand' next) (hout : OpensOut state) :
    OpensOut next := by
  -- a job takes in a chunk
  have hchunk : ∀ {mid next : State} {transferred : Transferred} {job job' : Job}
      {reply : Option Outcome}, mid.stepJob ans transferred job = (job', reply, next) →
      mid.pendingOpens = state.pendingOpens → mid.pendings = state.pendings → OpensOut next :=
    fun hstep hopens hpendings =>
      (hout.same hopens hpendings).held (State.holdings_stepJob hstep).1
  cases hact with
  | still hview => exact hout.held (State.holdings_view hview)
  | sent msg hown => exact hout.same rfl rfl
  | nop hrx => exact hout.same rfl rfl
  | refused hrx htarget hbad => exact hout.same rfl rfl
  | answered calls hrx htarget hclose hopen hcalls hresult hreply =>
      refine hout.held ?_
      rw [issues_eq]
      rfl
  | enqueued asks hrx htask => cases asks <;> exact hout.same rfl rfl
  | closeDeferred hrx hlookup hopen hbusy => exact hout.same rfl rfl
  | closeNow hrx hlookup hopen hidle => exact hout.same rfl rfl
  | openedHere path spec after hrx =>
      exact hout.held ((State.holdings_openFor path spec _ _).trans rfl)
  | @sentOpen _ id op cb rx path spec after hrx htarget hafter =>
      intro other hmem
      have hlisted : ∀ pending ∈ ⟨id, after, cb⟩ :: state.pendings,
          pending ∈ ({ state.received (.submit id op cb) rx with
            pendingOpens := insert id state.pendingOpens
            helperQueue := state.helperQueue ++
              [.openFile path spec ⟨id, after, cb⟩] } : State).pendings := by
        intro pending hpending
        simp only [State.pendings, State.received, State.emit, List.flatMap_append,
          List.flatMap_singleton, HelperJob.pendings, List.mem_append, List.mem_cons,
          List.not_mem_nil, or_false] at hpending ⊢
        tauto
      rcases Finset.mem_insert.mp hmem with rfl | hold
      · exact ⟨_, hlisted _ List.mem_cons_self, rfl⟩
      · obtain ⟨pending, hpending, hid⟩ := hout other hold
        exact ⟨pending, hlisted pending (List.mem_cons_of_mem _ hpending), hid⟩
  | cancelQueued hrx hfind => exact hout.same rfl rfl
  | cancelInflight hrx hnone hget hid => exact hout.same rfl rfl
  | cancelOpening hrx hnone hflying hpending => exact hout.same rfl rfl
  | cancelNothing hrx hnone hflying hpending => exact hout.same rfl rfl
  | openFailed => exact hout.same rfl rfl
  | registered => exact hout.same rfl rfl
  | enqueuedOwned htask hhandle howned hfd hstarts => exact hout.same rfl rfl
  | tookOpened hback hkept => exact hout.takeBack hback
  | @openCancelled _ message back hback hcancelled =>
      have htaken := @OpensOut.takeBack _ hout _ _ hback
        (state.cancelledOpens.erase message.pending.id)
      refine htaken.held ?_
      rw [closeOpened_eq]
      rfl
  | chunkFailed hpoint hget haio => exact hout.same rfl rfl
  | chunkReplied hget hstep hdone => exact hchunk hstep rfl rfl
  | chunkFlagged hget hstep hflag hdone => exact hchunk hstep rfl rfl
  | chunkRequeued htask hget hstep hflag hdone =>
      exact (hchunk hstep rfl rfl).same rfl rfl
  | submitInflight htask hqueue => exact hout.same rfl rfl
  | submitFull htask hqueue => exact hout.same rfl rfl
  | submitSync htask hqueue => exact hout.same rfl rfl
  | submitFailed htask hqueue hfails => exact hout.same rfl rfl
  | execFailed htask hfails => exact hout.same rfl rfl
  | execReplied htask hstep hdone => exact (hchunk hstep rfl rfl).same rfl rfl
  | execAgain htask hstep hdone => exact (hchunk hstep rfl rfl).same rfl rfl
  | ended => exact hout.held (State.holdings_finish _ _ _)
  | helperTook hget hqueue => exact hout.helperTook hget hqueue
  | helperExited hget => exact hout.setHelper hget fun _ hmem => by cases hmem
  | helperClosed hget =>
      have hidle := @OpensOut.setHelper _ hout _ _ .idle hget fun _ hmem => by cases hmem
      exact hidle.same rfl rfl
  | @helperOpened _ index path spec pending hget hfresh =>
      have hopened : OpensOut (state.openFor ans path spec pending).2 :=
        hout.held (State.holdings_openFor path spec pending state)
      have hkept : (state.openFor ans path spec pending).2.helpers = state.helpers :=
        congrArg Control.helpers (State.control_openFor ans path spec pending state)
      rw [← hkept] at hget ⊢
      exact hopened.setHelper hget fun _ hmem => hmem
  | helperSent hget => exact hout.helperSent hget

namespace OpensOut

theorem of_reachable (hreach : driver.Reachable state) : OpensOut state := by
  refine hreach.invariant ?_ ?_
  · rintro _ ⟨hardware, maxInflight, -, rfl⟩ id hmem
    cases hmem
  · intro state label next hprev hout hstep
    have hinv := Invariant.of_reachable hprev
    have hacts := step_acts hinv hstep
    have hkept : ∀ hand state hand' next, hand.Ledger state →
        Act label.answers hand state hand' next → OpensOut state → OpensOut next :=
      fun _ _ _ _ _ hact => hact.opensOut
    exact hacts.keep hkept (.empty hinv.ledger) hout

/-- An op without an open on its way is none the loop waits for. -/
theorem unlisted (hout : OpensOut state) {id : OpId}
    (hnone : ∀ pending ∈ state.pendings, pending.id ≠ id) : id ∉ state.pendingOpens := by
  intro hmem
  obtain ⟨pending, hpending, hid⟩ := hout id hmem
  exact hnone pending hpending hid

end OpensOut

/-- The ids the loop waits for are those of the opens with the helpers. -/
theorem mem_pendingOpens_iff (hreach : driver.Reachable state) {id : OpId} :
    id ∈ state.pendingOpens ↔ Place.helper ∈ state.places id := by
  refine ⟨fun hmem => ?_, (Invariant.of_reachable hreach).ledger.mem_pendingOpens⟩
  obtain ⟨pending, hpending, hid⟩ := OpensOut.of_reachable hreach id hmem
  have hlisted : pending ∈ state.pendings.filter fun pending => pending.id = id := by
    simp [hpending, hid]
  have hplace : Place.helper ∈
      (state.pendings.filter fun pending => pending.id = id).map fun _ => Place.helper :=
    List.mem_map.mpr ⟨pending, hlisted, rfl⟩
  simp only [State.places, List.mem_append]
  exact .inl (.inl (.inl (.inl (.inr hplace))))

end Turbofile.Darwin
