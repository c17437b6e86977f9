import Mathlib

/-!
# Labelled transition systems

A system here is an initial predicate and a step that is a partial function of
the label: everything a run may choose (an interleaving, an answer of the
environment) is in the label, so a run is a list of labels and can be
evaluated.  The invariant rules below are the only inductions over runs that
the developments built on this module need.
-/

namespace Turbofile

structure System (State Label : Type*) where
  init : State → Prop
  step : State → Label → Option State

namespace System

variable {State Label : Type*} (sys : System State Label)

/-- The state after the labels, when each of them is enabled in its turn. -/
def exec (state : State) : List Label → Option State
  | [] => some state
  | label :: labels => (sys.step state label).bind fun next => exec next labels

/-- States of the runs all of whose steps satisfy `allowed`. -/
inductive ReachableBy (allowed : State → Label → Prop) : State → Prop
  | init {state : State} (hinit : sys.init state) : ReachableBy allowed state
  | step {state next : State} (label : Label)
      (hreach : ReachableBy allowed state) (hallowed : allowed state label)
      (hstep : sys.step state label = some next) : ReachableBy allowed next

/-- States of all runs. -/
def Reachable (state : State) : Prop :=
  sys.ReachableBy (fun _ _ => True) state

/-- States of the runs with what their steps showed, newest first. -/
inductive Recorded {Mark : Type*} (shows : State → Label → Option Mark) : State → List Mark → Prop
  | init {state : State} (hinit : sys.init state) : Recorded shows state []
  | step {state next : State} {record : List Mark} (label : Label)
      (hrun : Recorded shows state record) (hstep : sys.step state label = some next) :
      Recorded shows next ((shows state label).toList ++ record)

/-- What the steps of the run from `state` show. -/
def record {Mark : Type*} (shows : State → Label → Option Mark) (state : State)
    (marks : List Mark) : List Label → List Mark
  | [] => marks
  | label :: labels =>
      match sys.step state label with
      | none => marks
      | some next => record shows next ((shows state label).toList ++ marks) labels

variable {sys}

theorem Reachable.ofInit {state : State} (hinit : sys.init state) :
    sys.Reachable state :=
  ReachableBy.init hinit

theorem Reachable.next {state next : State} {label : Label}
    (hreach : sys.Reachable state) (hstep : sys.step state label = some next) :
    sys.Reachable next :=
  ReachableBy.step label hreach trivial hstep

theorem ReachableBy.reachable {allowed : State → Label → Prop} {state : State}
    (hreach : sys.ReachableBy allowed state) : sys.Reachable state := by
  induction hreach with
  | init hinit => exact Reachable.ofInit hinit
  | step label _ _ hstep ih => exact Reachable.next ih hstep

/-- What holds initially and is kept by every allowed step from a reachable
state holds along every allowed run. -/
theorem ReachableBy.invariant {allowed : State → Label → Prop}
    {property : State → Prop}
    (hinit : ∀ state, sys.init state → property state)
    (hstep : ∀ state label next, sys.ReachableBy allowed state →
      property state → allowed state label →
      sys.step state label = some next → property next)
    {state : State} (hreach : sys.ReachableBy allowed state) :
    property state := by
  induction hreach with
  | init hstart => exact hinit _ hstart
  | step label hprev hallowed htake ih =>
      exact hstep _ label _ hprev ih hallowed htake

/-- `ReachableBy.invariant` for unrestricted runs. -/
theorem Reachable.invariant {property : State → Prop}
    (hinit : ∀ state, sys.init state → property state)
    (hstep : ∀ state label next, sys.Reachable state → property state →
      sys.step state label = some next → property next)
    {state : State} (hreach : sys.Reachable state) : property state :=
  ReachableBy.invariant hinit
    (fun state label next hprev hprop _ => hstep state label next hprev hprop)
    hreach

/-- Evaluating a run from an initial state reaches a reachable state. -/
theorem Reachable.ofExec {state final : State} (hreach : sys.Reachable state)
    {labels : List Label} (hexec : sys.exec state labels = some final) :
    sys.Reachable final := by
  induction labels generalizing state with
  | nil =>
      obtain rfl : state = final := by simpa [exec] using hexec
      exact hreach
  | cons label labels ih =>
      simp only [exec, Option.bind_eq_some_iff] at hexec
      obtain ⟨next, hstep, hrest⟩ := hexec
      exact ih (hreach.next hstep) hrest

/-- Every step of the run from `state` passes the test. -/
def checks (sys : System State Label) (test : State → Label → Bool) (state : State) :
    List Label → Bool
  | [] => true
  | label :: labels =>
      test state label && (sys.step state label).all fun next => sys.checks test next labels

/-- Evaluating a run whose steps are tested to be allowed. -/
theorem ReachableBy.ofExec {allowed : State → Label → Prop} {test : State → Label → Bool}
    (htest : ∀ state label, test state label → allowed state label) {state final : State}
    (hreach : sys.ReachableBy allowed state) {labels : List Label}
    (hexec : sys.exec state labels = some final) (hchecks : sys.checks test state labels) :
    sys.ReachableBy allowed final := by
  induction labels generalizing state with
  | nil =>
      obtain rfl : state = final := by simpa [exec] using hexec
      exact hreach
  | cons label labels ih =>
      simp only [exec, Option.bind_eq_some_iff] at hexec
      obtain ⟨next, hstep, hrest⟩ := hexec
      simp only [checks, Bool.and_eq_true, hstep, Option.all_some] at hchecks
      exact ih (.step label hreach (htest state label hchecks.1) hstep) hrest hchecks.2

section Recorded

variable {Mark : Type*} {shows : State → Label → Option Mark}

theorem Recorded.reachable {state : State} {marks : List Mark}
    (hrun : sys.Recorded shows state marks) : sys.Reachable state := by
  induction hrun with
  | init hinit => exact Reachable.ofInit hinit
  | step label _ hstep ih => exact ih.next hstep

/-- Evaluating a run with its record. -/
theorem Recorded.ofExec {state final : State} {marks : List Mark}
    (hrun : sys.Recorded shows state marks) {labels : List Label}
    (hexec : sys.exec state labels = some final) :
    sys.Recorded shows final (sys.record shows state marks labels) := by
  induction labels generalizing state marks with
  | nil =>
      obtain rfl : state = final := by simpa [exec] using hexec
      exact hrun
  | cons label labels ih =>
      simp only [exec, Option.bind_eq_some_iff] at hexec
      obtain ⟨next, hstep, hrest⟩ := hexec
      simp only [record, hstep]
      exact ih (.step label hrun hstep) hrest

end Recorded

end System

end Turbofile
