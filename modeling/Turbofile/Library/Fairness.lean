import Turbofile.Library.System

/-!
# Fair runs

Some labels make progress.  A run is fair when it takes one of them again
whenever one of them could be taken; which of them, and after how many other
steps, is left open.  A rank that every such step lowers and no other step
raises then carries every fair run to its goal.
-/

namespace Turbofile.System

variable {State Label : Type*}

/-- An infinite run. -/
structure Run (sys : System State Label) where
  state : ℕ → State
  label : ℕ → Label
  taken : ∀ time, sys.step (state time) (label time) = some (state (time + 1))

namespace Run

variable {sys : System State Label}

def Fair (run : Run sys) (progress : Label → Prop) : Prop :=
  ∀ time, (∃ label next, progress label ∧ sys.step (run.state time) label = some next) →
    ∃ later, time ≤ later ∧ progress (run.label later)

theorem reachable (run : Run sys) (hstart : sys.Reachable (run.state 0)) (time : ℕ) :
    sys.Reachable (run.state time) := by
  induction time with
  | zero => exact hstart
  | succ time ih => exact ih.next (run.taken time)

/-- The rule for eventual goals. -/
theorem eventually {α : Type*} [Preorder α] [WellFoundedLT α] (run : Run sys)
    {progress : Label → Prop} {goal : State → Prop} (rank : State → α)
    (hstart : sys.Reachable (run.state 0)) (hfair : run.Fair progress)
    (hlive : ∀ state, sys.Reachable state → ¬ goal state →
      ∃ label next, progress label ∧ sys.step state label = some next)
    (hlower : ∀ state label next, sys.Reachable state → ¬ goal state → progress label →
      sys.step state label = some next → rank next < rank state)
    (hkeep : ∀ state label next, sys.Reachable state → ¬ goal state → ¬ progress label →
      sys.step state label = some next → rank next ≤ rank state) :
    ∃ time, goal (run.state time) := by
  by_contra hnever
  rw [not_exists] at hnever
  have hreach := run.reachable hstart
  -- No step raises the rank, so it can be followed down to the next progress.
  have hdown : ∀ time, rank (run.state (time + 1)) ≤ rank (run.state time) := by
    intro time
    by_cases hprogress : progress (run.label time)
    · exact (hlower _ _ _ (hreach time) (hnever time) hprogress (run.taken time)).le
    · exact hkeep _ _ _ (hreach time) (hnever time) hprogress (run.taken time)
  have hantitone : Antitone fun time => rank (run.state time) := antitone_nat_of_succ_le hdown
  have hfalls : ∀ time, ∃ later, rank (run.state later) < rank (run.state time) := by
    intro time
    obtain ⟨later, hlater, hprogress⟩ := hfair time (hlive _ (hreach time) (hnever time))
    refine ⟨later + 1, lt_of_lt_of_le ?_ (hantitone hlater)⟩
    exact hlower _ _ _ (hreach later) (hnever later) hprogress (run.taken later)
  -- The least rank of the run is not the least.
  have hmin := WellFounded.has_min (wellFounded_lt : WellFounded ((· < ·) : α → α → Prop))
    (Set.range fun time => rank (run.state time)) ⟨_, 0, rfl⟩
  obtain ⟨_, ⟨time, rfl⟩, hleast⟩ := hmin
  obtain ⟨later, hlower⟩ := hfalls time
  exact hleast _ ⟨later, rfl⟩ hlower

end Run

end Turbofile.System
