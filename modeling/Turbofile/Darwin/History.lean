import Turbofile.Darwin.Actions

/-!
# The history of a handle

What the log says of a handle: whether it is open, closing or closed, and which
ops were accepted on it or refused.  A log is orderly for a handle when the
handle is registered once and its descriptor is closed on behalf of a close,
behind the last callback; what follows an accepted close can be read off it.
-/

namespace Turbofile.Darwin

open Turbofile.Core
open Turbofile.Tally
open State

/-! ## Standings -/

/-- Where a handle stands.  A released one has lost its descriptor, and the
callback of its close is due. -/
inductive Standing
  | unregistered
  | opened (fd : Fd)
  | closing (fd : Fd) (cb : Callback)
  | released (cb : Callback)
  | closed
  deriving DecidableEq

namespace Standing

def isOpen : Standing → Bool
  | .opened _ => true
  | .unregistered | .closing _ _ | .released _ | .closed => false

/-- A close of the handle is handled; the first one counts. -/
def beginClose (cb : Callback) : Standing → Standing
  | .opened fd => .closing fd cb
  | standing => standing

/-- A descriptor is closed. -/
def release (fd : Fd) : Standing → Standing
  | .closing own cb => if own = fd then .released cb else .closing own cb
  | standing => standing

/-- A callback runs. -/
def endClose (cb : Callback) : Standing → Standing
  | .released own => if own = cb then .closed else .released own
  | standing => standing

end Standing

def standing (handle : Handle) : List Event → Standing
  | [] => .unregistered
  | .registered other fd :: log =>
      if other = handle then .opened fd else standing handle log
  | .handled (.submit _ op cb) :: log =>
      if Op.target op = some handle ∧ Op.isClose op = true then
        (standing handle log).beginClose cb
      else standing handle log
  | .closed fd _ :: log => (standing handle log).release fd
  | .settled cb _ :: log => (standing handle log).endClose cb
  | _ :: log => standing handle log

/-- The ops on a handle, newest first, that were handled where it stood so. -/
def handledOn (holds : Op → Standing → Bool) (handle : Handle) : List Event → List OpId
  | [] => []
  | .handled (.submit id op _) :: log =>
      if Op.target op = some handle ∧ holds op (standing handle log) then
        id :: handledOn holds handle log
      else handledOn holds handle log
  | _ :: log => handledOn holds handle log

/-- The ops, closes apart, that were handled while their handle was open. -/
def acceptedOn : Handle → List Event → List OpId :=
  handledOn fun op standing => !Op.isClose op && standing.isOpen

/-- The ops, closes included, that were handled while their handle was not open. -/
def refusedOn : Handle → List Event → List OpId :=
  handledOn fun _ standing => !standing.isOpen

/-- The callbacks of the closes that were handled while their handle was open. -/
def closeCallbacks : List Event → List Callback
  | [] => []
  | .handled (.submit _ (.close handle) cb) :: log =>
      if (standing handle log).isOpen then cb :: closeCallbacks log else closeCallbacks log
  | _ :: log => closeCallbacks log

def registrations : List Event → List Handle
  | [] => []
  | .registered handle _ :: log => handle :: registrations log
  | _ :: log => registrations log

/-- The callbacks came before now. -/
def AllSettled (ids : List OpId) (log : List Event) : Prop :=
  ∀ id ∈ ids, ∃ result, Event.settled id result ∈ log

/-- A handle is registered once; its descriptor is closed only on behalf of a
close of the handle, when every op accepted on it has settled; and the callback
of that close waits for the descriptor. -/
def Orderly (handle : Handle) : List Event → Prop
  | [] => True
  | .registered other _ :: log =>
      (other = handle → standing handle log = .unregistered) ∧ Orderly handle log
  | .closed fd _ :: log =>
      standing handle log ≠ .opened fd ∧ (∀ cb, standing handle log ≠ .released cb) ∧
        (∀ cb, standing handle log = .closing fd cb → AllSettled (acceptedOn handle log) log) ∧
        Orderly handle log
  | .settled cb _ :: log => (∀ fd, standing handle log ≠ .closing fd cb) ∧ Orderly handle log
  | _ :: log => Orderly handle log

/-! ## What order gives -/

section Order

variable {handle : Handle} {event : Event} {log later earlier : List Event} {fd : Fd}
  {id : OpId} {op : Op} {cb : Callback}

theorem Orderly.tail (horderly : Orderly handle (event :: log)) : Orderly handle log := by
  cases event with
  | registered other fd => exact horderly.2
  | closed fd carriers => exact horderly.2.2.2
  | settled cb result => exact horderly.2
  | sent msg => exact horderly
  | handled msg => exact horderly
  | opened fd path flags => exact horderly
  | syscall id fd call => exact horderly

theorem Orderly.suffix (horderly : Orderly handle (later ++ earlier)) : Orderly handle earlier := by
  induction later with
  | nil => exact horderly
  | cons event later ih => exact ih horderly.tail

/-- A closing handle keeps its descriptor and its callback until the close. -/
theorem Orderly.of_closing (horderly : Orderly handle (event :: log))
    (hstanding : standing handle log = .closing fd cb) :
    (∃ carriers, event = .closed fd carriers ∧ standing handle (event :: log) = .released cb) ∨
      ((∀ carriers, event ≠ .closed fd carriers) ∧ (∀ result, event ≠ .settled cb result) ∧
        standing handle (event :: log) = .closing fd cb) := by
  cases event with
  | registered other fd =>
      have hne : other ≠ handle := by
        intro hsame
        have hnew := horderly.1 hsame
        rw [hstanding] at hnew
        cases hnew
      simp [standing, hne, hstanding]
  | closed other carriers =>
      by_cases hsame : fd = other
      · subst hsame
        exact Or.inl ⟨carriers, rfl, by simp [standing, hstanding, Standing.release]⟩
      · have hne : other ≠ fd := fun h => hsame h.symm
        simp [standing, hstanding, Standing.release, hsame, hne]
  | settled other result =>
      have hne : other ≠ cb := by
        rintro rfl
        exact horderly.1 fd hstanding
      simp [standing, hstanding, Standing.endClose, hne]
  | handled msg => cases msg <;> simp [standing, hstanding, Standing.beginClose]
  | sent msg => simp [standing, hstanding]
  | opened other path flags => simp [standing, hstanding]
  | syscall id other call => simp [standing, hstanding]

theorem Orderly.of_released (horderly : Orderly handle (event :: log))
    (hstanding : standing handle log = .released cb) :
    (∃ result, event = .settled cb result ∧ standing handle (event :: log) = .closed) ∨
      ((∀ fd carriers, event ≠ .closed fd carriers) ∧
        standing handle (event :: log) = .released cb) := by
  cases event with
  | registered other fd =>
      have hne : other ≠ handle := by
        intro hsame
        have hnew := horderly.1 hsame
        rw [hstanding] at hnew
        cases hnew
      simp [standing, hne, hstanding]
  | settled other result =>
      by_cases hsame : cb = other
      · subst hsame
        exact Or.inl ⟨result, rfl, by simp [standing, hstanding, Standing.endClose]⟩
      · simp [standing, hstanding, Standing.endClose, hsame]
  | handled msg => cases msg <;> simp [standing, hstanding, Standing.beginClose]
  | closed other carriers => exact absurd hstanding (horderly.2.1 cb)
  | sent msg => simp [standing, hstanding]
  | opened other path flags => simp [standing, hstanding]
  | syscall id other call => simp [standing, hstanding]

theorem Orderly.of_closed (horderly : Orderly handle (event :: log))
    (hstanding : standing handle log = .closed) : standing handle (event :: log) = .closed := by
  cases event with
  | registered other fd =>
      have hne : other ≠ handle := by
        intro hsame
        have hnew := horderly.1 hsame
        rw [hstanding] at hnew
        cases hnew
      simp [standing, hne, hstanding]
  | handled msg => cases msg <;> simp [standing, hstanding, Standing.beginClose]
  | closed other carriers => simp [standing, hstanding, Standing.release]
  | settled other result => simp [standing, hstanding, Standing.endClose]
  | sent msg => simp [standing, hstanding]
  | opened other path flags => simp [standing, hstanding]
  | syscall id other call => simp [standing, hstanding]

/-- The accepted close of a handle is waiting for the jobs on it. -/
structure Awaiting (handle : Handle) (fd : Fd) (cb : Callback) (later log : List Event) : Prop where
  standing : standing handle log = .closing fd cb
  unclosed : ∀ carriers, Event.closed fd carriers ∉ later
  unsettled : ∀ result, Event.settled cb result ∉ later

/-- The descriptor has been closed, once, when every op accepted on the handle
had settled. -/
def Released (handle : Handle) (fd : Fd) (cb : Callback) (later earlier : List Event) : Prop :=
  ∃ front back carriers, later = front ++ .closed fd carriers :: back ∧
    (∀ carriers, Event.closed fd carriers ∉ front) ∧
    Awaiting handle fd cb back (back ++ earlier) ∧
    AllSettled (acceptedOn handle (back ++ earlier)) (back ++ earlier)

theorem Released.cons (hreleased : Released handle fd cb later earlier)
    (hother : ∀ fd carriers, event ≠ .closed fd carriers) :
    Released handle fd cb (event :: later) earlier := by
  obtain ⟨front, back, carriers, rfl, honce, hawaiting, hsettled⟩ := hreleased
  refine ⟨event :: front, back, carriers, rfl, fun carriers hmem => ?_, hawaiting, hsettled⟩
  rcases List.mem_cons.mp hmem with hhead | htail
  · exact hother fd carriers hhead.symm
  · exact honce carriers htail

/-- Behind an accepted close a handle is closing, then released, then closed. -/
theorem Orderly.after_close (horderly : Orderly handle (later ++ earlier))
    (hclosing : Turbofile.Darwin.standing handle earlier = .closing fd cb) :
    Awaiting handle fd cb later (later ++ earlier) ∨
      (Turbofile.Darwin.standing handle (later ++ earlier) = .released cb ∧
        Released handle fd cb later earlier) ∨
      (Turbofile.Darwin.standing handle (later ++ earlier) = .closed ∧
        ∃ front back result, later = front ++ .settled cb result :: back ∧
          Released handle fd cb back earlier) := by
  induction later with
  | nil => exact Or.inl ⟨hclosing, by simp, by simp⟩
  | cons event later ih =>
      rcases ih horderly.tail with hawaiting | ⟨hstanding, hreleased⟩ | ⟨hstanding, hended⟩
      · rcases horderly.of_closing hawaiting.standing with
          ⟨carriers, rfl, hstanding⟩ | ⟨hopen, hdue, hstanding⟩
        · refine Or.inr (Or.inl ⟨hstanding, [], later, carriers, rfl, by simp, hawaiting, ?_⟩)
          exact horderly.2.2.1 cb hawaiting.standing
        · refine Or.inl ⟨hstanding, fun carriers hmem => ?_, fun result hmem => ?_⟩
          · rcases List.mem_cons.mp hmem with hhead | htail
            · exact hopen carriers hhead.symm
            · exact hawaiting.unclosed carriers htail
          · rcases List.mem_cons.mp hmem with hhead | htail
            · exact hdue result hhead.symm
            · exact hawaiting.unsettled result htail
      · rcases horderly.of_released hstanding with ⟨result, rfl, hclosed⟩ | ⟨hother, hsame⟩
        · exact Or.inr (Or.inr ⟨hclosed, [], later, result, rfl, hreleased⟩)
        · exact Or.inr (Or.inl ⟨hsame, hreleased.cons hother⟩)
      · obtain ⟨front, back, result, rfl, hreleased⟩ := hended
        exact Or.inr (Or.inr ⟨horderly.of_closed hstanding, event :: front, back, result, rfl,
          hreleased⟩)

theorem Orderly.not_open_after_close (horderly : Orderly handle (later ++ earlier))
    (hclosing : standing handle earlier = .closing fd cb) :
    (standing handle (later ++ earlier)).isOpen = false := by
  rcases horderly.after_close hclosing with hawaiting | ⟨hstanding, -⟩ | ⟨hstanding, -⟩
  · rw [hawaiting.standing]
    rfl
  · rw [hstanding]
    rfl
  · rw [hstanding]
    rfl

theorem standing_close (id : OpId) (cb : Callback) (hopen : standing handle log = .opened fd) :
    standing handle (.handled (.submit id (.close handle) cb) :: log) = .closing fd cb := by
  simp [standing, Op.target, Op.isClose, hopen, Standing.beginClose]

theorem mem_handledOn_append {holds : Op → Standing → Bool} (later : List Event)
    (hmem : id ∈ handledOn holds handle earlier) :
    id ∈ handledOn holds handle (later ++ earlier) := by
  induction later with
  | nil => exact hmem
  | cons event later ih =>
      cases event with
      | handled msg =>
          cases msg with
          | submit other op cb =>
              simp only [List.cons_append, handledOn]
              split
              · exact List.mem_cons_of_mem _ ih
              · exact ih
          | cancel other => exact ih
      | registered other fd => exact ih
      | closed fd carriers => exact ih
      | settled cb result => exact ih
      | sent msg => exact ih
      | opened fd path flags => exact ih
      | syscall id fd call => exact ih

/-- An op on a handle that is open now was accepted, or refused before the
handle was registered. -/
theorem Orderly.accepted_or_refused (horderly : Orderly handle log)
    (hopen : standing handle log = .opened fd)
    (hmem : Event.handled (.submit id op cb) ∈ log) (htarget : Op.target op = some handle) :
    id ∈ acceptedOn handle log ∨ id ∈ refusedOn handle log := by
  obtain ⟨front, back, rfl⟩ := List.append_of_mem hmem
  cases hback : (standing handle back).isOpen with
  | false =>
      right
      apply mem_handledOn_append
      simp [handledOn, htarget, hback]
  | true =>
      cases hclose : Op.isClose op with
      | false =>
          left
          apply mem_handledOn_append
          simp [handledOn, htarget, hback, hclose]
      | true =>
          obtain ⟨own, hown⟩ : ∃ own, standing handle back = .opened own := by
            cases hstanding : standing handle back <;> simp_all [Standing.isOpen]
          have hclosing : standing handle (.handled (.submit id op cb) :: back) =
              .closing own cb := by
            simp [standing, htarget, hclose, hown, Standing.beginClose]
          have hshut := horderly.not_open_after_close hclosing
          rw [hopen] at hshut
          cases hshut

/-- An op behind the accepted close is refused. -/
theorem Orderly.refused_after_close (horderly : Orderly handle (later ++ earlier))
    (hclosing : standing handle earlier = .closing fd cb) {cb' : Callback}
    (hmem : Event.handled (.submit id op cb') ∈ later) (htarget : Op.target op = some handle) :
    id ∈ refusedOn handle (later ++ earlier) := by
  obtain ⟨front, back, rfl⟩ := List.append_of_mem hmem
  rw [List.append_assoc] at horderly ⊢
  have hshut := horderly.suffix.tail.not_open_after_close hclosing
  apply mem_handledOn_append
  simp [handledOn, htarget, hshut]

theorem mem_closeCallbacks (later : List Event) (hopen : standing handle earlier = .opened fd) :
    cb ∈ closeCallbacks (later ++ .handled (.submit id (.close handle) cb) :: earlier) := by
  induction later with
  | nil => simp [closeCallbacks, hopen, Standing.isOpen]
  | cons event later ih =>
      cases event with
      | handled msg =>
          cases msg with
          | submit other op waiting =>
              cases op
              case close on =>
                simp only [List.cons_append, closeCallbacks]
                split
                · exact List.mem_cons_of_mem _ ih
                · exact ih
              all_goals exact ih
          | cancel other => exact ih
      | registered other fd => exact ih
      | closed fd carriers => exact ih
      | settled waiting result => exact ih
      | sent msg => exact ih
      | opened fd path flags => exact ih
      | syscall id fd call => exact ih

theorem exists_close_of_mem (hmem : cb ∈ closeCallbacks log) :
    ∃ later id handle earlier fd, standing handle earlier = .opened fd ∧
      log = later ++ .handled (.submit id (.close handle) cb) :: earlier := by
  induction log with
  | nil => cases hmem
  | cons event log ih =>
      have hold : cb ∈ closeCallbacks log → ∃ later id handle earlier fd,
          standing handle earlier = .opened fd ∧
            event :: log = later ++ .handled (.submit id (.close handle) cb) :: earlier := by
        intro hin
        obtain ⟨later, id, handle, earlier, fd, hopen, rfl⟩ := ih hin
        exact ⟨event :: later, id, handle, earlier, fd, hopen, rfl⟩
      cases event with
      | handled msg =>
          cases msg with
          | submit id op waiting =>
              cases op
              case close handle =>
                simp only [closeCallbacks] at hmem
                split at hmem
                · next hopen =>
                    rcases List.mem_cons.mp hmem with rfl | htail
                    · obtain ⟨fd, hfd⟩ : ∃ fd, standing handle log = .opened fd := by
                        cases hstanding : standing handle log <;> simp_all [Standing.isOpen]
                      exact ⟨[], id, handle, log, fd, hfd, rfl⟩
                    · exact hold htail
                · exact hold hmem
              all_goals exact hold hmem
          | cancel id => exact hold hmem
      | registered other fd => exact hold hmem
      | closed fd carriers => exact hold hmem
      | settled waiting result => exact hold hmem
      | sent msg => exact hold hmem
      | opened fd path flags => exact hold hmem
      | syscall id fd call => exact hold hmem

theorem Chores.closeCallbacks {grown : List Event} (hgrown : Chores id log grown) :
    closeCallbacks grown = closeCallbacks log := by
  obtain ⟨events, rfl, hevents⟩ := hgrown
  induction events with
  | nil => rfl
  | cons event events ih =>
      have hevent := hevents event List.mem_cons_self
      have htail := ih fun other hmem => hevents other (List.mem_cons_of_mem _ hmem)
      cases event with
      | opened fd path flags => exact htail
      | closed fd carriers => exact htail
      | syscall op fd call => exact htail
      | sent msg => exact hevent.elim
      | handled msg => exact hevent.elim
      | registered handle fd => exact hevent.elim
      | settled waiting result => exact hevent.elim

theorem not_mem_registrations (hnew : standing handle log = .unregistered)
    (horderly : Orderly handle log) : handle ∉ registrations log := by
  induction log with
  | nil => simp [registrations]
  | cons event log ih =>
      cases event with
      | registered other fd =>
          by_cases hsame : other = handle
          · simp [standing, hsame] at hnew
          · simp only [standing, hsame, if_false] at hnew
            simp only [registrations, List.mem_cons, not_or]
            exact ⟨fun h => hsame h.symm, ih hnew horderly.tail⟩
      | handled msg =>
          refine ih ?_ horderly.tail
          cases msg with
          | cancel id => exact hnew
          | submit id op cb =>
              simp only [standing] at hnew
              split at hnew
              · cases hold : standing handle log <;> simp_all [Standing.beginClose]
              · exact hnew
      | closed fd carriers =>
          refine ih ?_ horderly.tail
          simp only [standing] at hnew
          cases hold : standing handle log <;> simp only [hold, Standing.release] at hnew
          · rfl
          · cases hnew
          · split at hnew <;> cases hnew
          · cases hnew
          · cases hnew
      | settled cb result =>
          refine ih ?_ horderly.tail
          simp only [standing] at hnew
          cases hold : standing handle log <;> simp only [hold, Standing.endClose] at hnew
          · rfl
          · cases hnew
          · cases hnew
          · split at hnew <;> cases hnew
          · cases hnew
      | sent msg => exact ih hnew horderly.tail
      | opened fd path flags => exact ih hnew horderly.tail
      | syscall id fd call => exact ih hnew horderly.tail

theorem registrations_nodup (horderly : ∀ handle, Orderly handle log) :
    (registrations log).Nodup := by
  induction log with
  | nil => exact List.nodup_nil
  | cons event log ih =>
      have htail := ih fun handle => (horderly handle).tail
      cases event with
      | registered other fd =>
          exact List.nodup_cons.mpr
            ⟨not_mem_registrations ((horderly other).1 rfl) (horderly other).tail, htail⟩
      | handled msg => exact htail
      | closed fd carriers => exact htail
      | settled cb result => exact htail
      | sent msg => exact htail
      | opened fd path flags => exact htail
      | syscall id fd call => exact htail

end Order

end Turbofile.Darwin
