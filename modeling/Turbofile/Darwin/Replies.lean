import Turbofile.Darwin.Channel

/-!
# Numbers and replies

A number comes into use in the step that calls the callback of its open with
it, so every registered number was the reply to one op.
-/

namespace Turbofile.Darwin

open Turbofile.Core
open Turbofile.Tally
open State

/-- Every number that came into use was given out in a reply. -/
def Numbered (log : List Event) : Prop :=
  ∀ handle fd, Event.registered handle fd ∈ log →
    ∃ cb size, Event.settled cb (.ok (.handle handle size fd)) ∈ log

/-- It brings no number into use. -/
def Event.nameless : Event → Prop
  | .registered .. => False
  | .sent _ | .handled _ | .opened .. | .closed .. | .syscall .. | .settled .. => True

namespace Numbered

variable {log grown : List Event}

theorem cons (hnumbered : Numbered log) {event : Event} (hevent : event.nameless) :
    Numbered (event :: log) := by
  intro handle fd hmem
  rcases List.mem_cons.mp hmem with rfl | hearlier
  · exact hevent.elim
  · obtain ⟨cb, size, hsettled⟩ := hnumbered handle fd hearlier
    exact ⟨cb, size, List.mem_cons_of_mem _ hsettled⟩

theorem two (hnumbered : Numbered log) {one other : Event} (hone : one.nameless)
    (hother : other.nameless) : Numbered (other :: one :: log) :=
  (hnumbered.cons hone).cons hother

theorem chores (hnumbered : Numbered log) {id : OpId} (hgrown : Chores id log grown) :
    Numbered grown := by
  obtain ⟨events, rfl, hevents⟩ := hgrown
  induction events with
  | nil => exact hnumbered
  | cons event events ih =>
      refine (ih fun other hmem => hevents other (List.mem_cons_of_mem _ hmem)).cons ?_
      have hchore := hevents event List.mem_cons_self
      cases event with
      | registered handle fd => exact hchore
      | _ => trivial

theorem register (hnumbered : Numbered log) (cb : Callback) (handle : Handle) (size : ℕ) (fd : Fd) :
    Numbered (.settled cb (.ok (.handle handle size fd)) :: .registered handle fd :: log) := by
  intro other fd' hmem
  rcases List.mem_cons.mp hmem with hnow | hlater
  · cases hnow
  · rcases List.mem_cons.mp hlater with hnow | hearlier
    · cases hnow
      exact ⟨cb, size, List.mem_cons_self⟩
    · obtain ⟨cb', size', hsettled⟩ := hnumbered other fd' hearlier
      exact ⟨cb', size', List.mem_cons_of_mem _ (List.mem_cons_of_mem _ hsettled)⟩

end Numbered

section Actions

variable {ans : Answers} {hand hand' : Hand} {state next : State}

theorem finish_numbered (job : Job) (result : Outcome) (hnumbered : Numbered state.log) :
    Numbered (state.finish ans job result).log := by
  obtain ⟨grown, hgrown, hlog⟩ := Chores.finish ans state job result
  have hsettled : Numbered (.settled job.cb result :: grown) :=
    (hnumbered.chores hgrown).cons trivial
  rcases hlog with hlog | ⟨handle, entry, cb, carriers, -, -, hlog⟩
  · rw [hlog]
    exact hsettled
  · rw [hlog]
    exact hsettled.two trivial trivial

theorem stepJob_numbered {job job' : Job} {transferred : Transferred} {reply : Option Outcome}
    (hstep : state.stepJob ans transferred job = (job', reply, next))
    (hnumbered : Numbered state.log) : Numbered next.log :=
  hnumbered.chores (Chores.stepJob hstep)

theorem Act.numbered (hact : Act ans hand state hand' next) (hnumbered : Numbered state.log) :
    Numbered next.log := by
  have hhandled : ∀ msg, Numbered (.handled msg :: state.log) := fun msg => hnumbered.cons trivial
  cases hact with
  | still hview =>
      simp only [State.view, View.mk.injEq] at hview
      rw [hview.2.2.2.2.2.2.2.2.2.2.2]
      exact hnumbered
  | sent msg hown => exact hnumbered.cons trivial
  | nop hrx => exact hnumbered.two trivial trivial
  | refused hrx htarget hbad => exact hnumbered.two trivial trivial
  | @answered _ id op cb rx handle fd result calls hrx htarget hclose hopen hcalls =>
      have hgrown : Chores id (state.received (.submit id op cb) rx).log
          (calls.foldr (State.issue id fd) (state.received (.submit id op cb) rx)).log :=
        Chores.issues id fd calls hcalls
      exact ((hhandled _).chores hgrown).cons trivial
  | @enqueued _ id op cb rx handle kind asks hrx =>
      have hgrown : Chores id (state.received (.submit id op cb) rx).log
          ((state.received (.submit id op cb) rx).asked asks id (Job.mk id false kind cb).fd).log :=
        Chores.asked asks id _
      exact (hhandled (.submit id op cb)).chores hgrown
  | closeDeferred hrx hlookup hopen hbusy => exact hhandled _
  | closeNow hrx hlookup hopen hidle => exact (hhandled _).two trivial trivial
  | @openedHere _ id op cb rx path spec after hrx =>
      have hgrown : Chores id (state.received (.submit id op cb) rx).log
          ((state.received (.submit id op cb) rx).openFor ans path spec ⟨id, after, cb⟩).2.log :=
        Chores.openFor path spec ⟨id, after, cb⟩
      exact (hhandled (.submit id op cb)).chores hgrown
  | sentOpen path spec after hrx => exact hhandled _
  | cancelQueued hrx hfind => exact hhandled _
  | cancelInflight hrx hnone hget hid => exact hnumbered.two trivial trivial
  | cancelOpening hrx hnone hflying hpending => exact hhandled _
  | cancelNothing hrx hnone hflying hpending => exact hhandled _
  | openFailed => exact hnumbered.cons trivial
  | registered => exact hnumbered.register _ _ _ _
  | enqueuedOwned htask hhandle howned hfd hstarts => exact hnumbered
  | tookOpened hback hkept => exact hnumbered
  | @openCancelled _ message back hback hcancelled =>
      cases hresult : message.result with
      | ok opened => exact hnumbered.two trivial trivial
      | error error => exact hnumbered.cons trivial
  | chunkFailed hpoint hget haio => exact hnumbered
  | chunkReplied hget hstep hdone => exact stepJob_numbered hstep hnumbered
  | chunkFlagged hget hstep hflag hdone => exact stepJob_numbered hstep hnumbered
  | chunkRequeued htask hget hstep hflag hdone =>
      have hnext := stepJob_numbered hstep hnumbered
      exact hnext
  | submitInflight htask hqueue => exact hnumbered.cons trivial
  | submitFull htask hqueue => exact hnumbered.cons trivial
  | submitSync htask hqueue => exact hnumbered.cons trivial
  | submitFailed htask hqueue hfails => exact hnumbered.cons trivial
  | execFailed htask hfails => exact hnumbered.cons trivial
  | @execReplied _ _ job job' transferred reply htask hstep hdone =>
      have hissued : Numbered (state.issue job.id job.fd (syncCall job)).log :=
        hnumbered.cons trivial
      have hnext := stepJob_numbered hstep hissued
      exact hnext
  | @execAgain _ _ job job' transferred htask hstep hdone =>
      have hissued : Numbered (state.issue job.id job.fd (syncCall job)).log :=
        hnumbered.cons trivial
      have hnext := stepJob_numbered hstep hissued
      exact hnext
  | ended => exact finish_numbered _ _ hnumbered
  | helperTook hget hqueue => exact hnumbered
  | helperExited hget => exact hnumbered
  | helperClosed hget => exact hnumbered.cons trivial
  | @helperOpened _ index path spec pending hget hfresh =>
      exact hnumbered.chores (Chores.openFor path spec pending)
  | helperSent hget => exact hnumbered

end Actions

theorem Numbered.of_reachable {state : State} (hreach : driver.Reachable state) :
    Numbered state.log := by
  refine @System.Reachable.invariant _ _ _ (fun state => Numbered state.log) ?_ ?_ _ hreach
  · rintro _ ⟨hardware, maxInflight, -, rfl⟩ handle fd hmem
    cases hmem
  · intro state label next hprev hnumbered hstep
    have hinv := Invariant.of_reachable hprev
    exact @Acts.keep label.answers (fun _ mid => Numbered mid.log)
      (fun _ _ _ _ _ hact hkept => hact.numbered hkept) _ _ _ (step_acts hinv hstep)
      (.empty hinv.ledger) hnumbered

end Turbofile.Darwin
