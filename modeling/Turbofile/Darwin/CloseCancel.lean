import Turbofile.Darwin.Channel

/-!
# A close on the darwin driver

A close that is handled is done at once or waits in the entry of its file; no
cancel request finds it there.
-/

namespace Turbofile.Darwin

open Turbofile.Core
open Turbofile.Tally
open Turbofile.Logs
open State

variable {state : State}

/-- Where a handle stands that was registered and whose close is still to come. -/
theorem standing_of_registered {handle : Handle} {fd : Fd} {log : List Event}
    (horderly : Orderly handle log) (hregistered : Event.registered handle fd ∈ log)
    (hnone : ∀ id cb, Event.handled (.submit id (.close handle) cb) ∉ log) :
    standing handle log = .opened fd := by
  induction log with
  | nil => cases hregistered
  | cons event log ih =>
      have hlater : ∀ id cb, Event.handled (.submit id (.close handle) cb) ∉ log :=
        fun id cb hmem => hnone id cb (List.mem_cons_of_mem _ hmem)
      rcases List.mem_cons.mp hregistered with rfl | hearlier
      · simp [standing]
      · have hopen := ih horderly.tail hearlier hlater
        cases event with
        | registered other fd' =>
            have hne : other ≠ handle := by
              intro hsame
              have hnew := horderly.1 hsame
              rw [hopen] at hnew
              cases hnew
            simp [standing, hne, hopen]
        | handled msg =>
            cases msg with
            | cancel id => simpa [standing] using hopen
            | submit id op cb =>
                have hother : ¬(Op.target op = some handle ∧ Op.isClose op = true) := by
                  rintro ⟨htarget, hclose⟩
                  cases op with
                  | close on =>
                      cases htarget
                      exact hnone id cb List.mem_cons_self
                  | _ => cases hclose
                simp only [standing, if_neg hother, hopen]
        | closed fd' carriers => simp [standing, hopen, Standing.release]
        | settled cb result => simp [standing, hopen, Standing.endClose]
        | sent msg => simpa [standing] using hopen
        | opened fd' path flags => simpa [standing] using hopen
        | syscall id fd' call => simpa [standing] using hopen

/-- Once the callback of its only close has run, a registered handle is out of
the table and its descriptor has been closed. -/
theorem shut_of_settled (hreach : driver.Reachable state) {id : OpId} {handle : Handle} {fd : Fd}
    (hasked : Precedes (.registered handle fd) (.sent (.submit id (.close handle) id)) state.log)
    (hsingle : ∀ other cb, Event.sent (.submit other (.close handle) cb) ∈ state.log →
      other = id)
    {result : Outcome} (hsettled : Event.settled id result ∈ state.log) :
    state.files.lookup handle = none ∧
      ∃ carriers, Precedes (.registered handle fd) (.closed fd carriers) state.log := by
  have hprot := (Hand.Protocol.of_reachable hreach).kept
  have hcons := (Invariant.of_reachable hreach).ledger
  obtain ⟨hsent, hhandledOnce⟩ := once hreach id (.close handle) id
  have hhandled : Event.handled (.submit id (.close handle) id) ∈ state.log :=
    (sent_waits hreach hasked.mem.2).resolve_left fun hrx =>
      unsettled_of_rx hreach hrx result hsettled
  have horder := (Accounted.of_reachable hreach).order
  obtain ⟨later, earlier, hlog, hregistered⟩ := hasked.trans (horder _ hhandled) hsent
  -- no other close came before this one
  have hnone : ∀ other cb, Event.handled (.submit other (.close handle) cb) ∉ earlier := by
    intro other cb hmem
    have hother : Event.handled (.submit other (.close handle) cb) ∈ state.log := by
      rw [hlog]
      exact List.mem_append_right _ (List.mem_cons_of_mem _ hmem)
    have hsame := (horder _ hother).mem.1
    obtain rfl := hsingle other cb hsame
    obtain rfl := hcons.ownCb other _ cb hsame
    exact (split_of_unique hhandledOnce hlog).2 hmem
  have horderly : Orderly handle (later ++ .handled (.submit id (.close handle) id) :: earlier) :=
    hlog ▸ hprot.orderly handle
  have hopen := standing_of_registered horderly.suffix.tail hregistered hnone
  have hagrees := hprot.table handle
  rw [hlog] at hagrees
  rcases horderly.after_close (standing_close id id hopen) with
    hawaiting | ⟨hstanding, -⟩ | ⟨hstanding, front, back, last, rfl, hreleased⟩
  · -- the close waits in the table, so its callback has not run
    rw [hawaiting.standing] at hagrees
    obtain ⟨ops, hlookup⟩ := hagrees
    have hmem : (⟨handle, ⟨fd, ops, some id⟩⟩ : Sigma fun _ => FileEntry) ∈ state.files.entries :=
      AList.mem_lookup_iff.mp hlookup
    have hplaces : Place.closing handle ∈ state.places id := by
      simp only [State.places, List.mem_append]
      exact .inr (List.mem_map.mpr ⟨_, List.mem_filter.mpr ⟨hmem, by simp⟩, rfl⟩)
    have hpos := List.length_pos_of_mem hplaces
    have hone := hcons.places_add_settled (Sent.submitted ⟨id, hasked.mem.2⟩)
    have hran := hcons.settledTimes_of_mem hsettled
    omega
  · rw [hstanding] at hagrees
    exact hagrees.elim
  · rw [hstanding] at hagrees
    obtain ⟨front', back', carriers, rfl, -⟩ := hreleased
    refine ⟨hagrees.1, carriers, ?_⟩
    refine ⟨front ++ .settled id last :: front',
      back' ++ .handled (.submit id (.close handle) id) :: earlier, ?_, ?_⟩
    · rw [hlog]
      simp
    · exact List.mem_append_right _ (List.mem_cons_of_mem _ hregistered)

end Turbofile.Darwin
