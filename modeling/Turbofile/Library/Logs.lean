import Mathlib

/-!
# Logs, newest entry first

A log grows at its head, so what happened before an entry is the list behind
it.  `Precedes` is that order, for logs in which an entry may occur repeatedly.
-/

namespace Turbofile.Logs

variable {α : Type*} {first second entry : α} {log grown : List α}

/-- At some occurrence of `second` the log already had `first`. -/
def Precedes (first second : α) (log : List α) : Prop :=
  ∃ later earlier, log = later ++ second :: earlier ∧ first ∈ earlier

theorem Precedes.mono (hprecedes : Precedes first second log) (hgrown : log <:+ grown) :
    Precedes first second grown := by
  obtain ⟨later, earlier, rfl, hmem⟩ := hprecedes
  obtain ⟨front, rfl⟩ := hgrown
  exact ⟨front ++ later, earlier, (List.append_assoc _ _ _).symm, hmem⟩

theorem Precedes.head (hmem : first ∈ log) : Precedes first second (second :: log) :=
  ⟨[], log, rfl, hmem⟩

theorem Precedes.mem (hprecedes : Precedes first second log) : first ∈ log ∧ second ∈ log := by
  obtain ⟨later, earlier, rfl, hmem⟩ := hprecedes
  simp [hmem]

theorem precedes_cons :
    Precedes first second (entry :: log) ↔
      (entry = second ∧ first ∈ log) ∨ Precedes first second log := by
  constructor
  · rintro ⟨later, earlier, hlog, hmem⟩
    cases later with
    | nil =>
        obtain ⟨rfl, rfl⟩ := List.cons.inj hlog
        exact .inl ⟨rfl, hmem⟩
    | cons head later =>
        obtain ⟨-, rfl⟩ := List.cons.inj hlog
        exact .inr ⟨later, earlier, rfl, hmem⟩
  · rintro (⟨rfl, hmem⟩ | hprecedes)
    · exact .head hmem
    · exact hprecedes.mono (List.suffix_cons _ _)

/-- Entries other than `second` do not matter. -/
theorem precedes_append {front : List α} (hfront : second ∉ front) :
    Precedes first second (front ++ log) ↔ Precedes first second log := by
  induction front with
  | nil => rfl
  | cons entry front ih =>
      obtain ⟨hhead, htail⟩ := not_or.mp (fun hor => hfront (List.mem_cons.mpr hor))
      rw [List.cons_append, precedes_cons, ih htail]
      exact or_iff_right fun hnow => hhead hnow.1.symm

/-- An entry that precedes itself is counted twice. -/
theorem Precedes.two_le_countP {holds : α → Bool} (hholds : holds entry = true)
    (hprecedes : Precedes entry entry log) : 2 ≤ log.countP holds := by
  obtain ⟨later, earlier, rfl, hmem⟩ := hprecedes
  have hpos : 0 < earlier.countP holds := List.countP_pos_iff.mpr ⟨entry, hmem, hholds⟩
  rw [List.countP_append, List.countP_cons_of_pos hholds]
  omega

/-- Two entries of a kind that occurs at most once are one. -/
theorem eq_of_countP_le_one {holds : α → Bool} (honce : log.countP holds ≤ 1)
    (hfirst : first ∈ log) (hsecond : second ∈ log) (hholds : holds first = true)
    (hholds' : holds second = true) : first = second := by
  induction log with
  | nil => cases hfirst
  | cons entry log ih =>
      have hpos : ∀ other ∈ log, holds other = true → 0 < log.countP holds :=
        fun other hmem hother => List.countP_pos_iff.mpr ⟨other, hmem, hother⟩
      rcases List.mem_cons.mp hfirst with rfl | hlater
      · rcases List.mem_cons.mp hsecond with rfl | hlater'
        · rfl
        · have hmore := hpos second hlater' hholds'
          rw [List.countP_cons_of_pos hholds] at honce
          omega
      · rcases List.mem_cons.mp hsecond with rfl | hlater'
        · have hmore := hpos first hlater hholds
          rw [List.countP_cons_of_pos hholds'] at honce
          omega
        · refine ih (le_trans ?_ honce) hlater hlater'
          exact (List.sublist_cons_self entry log).countP_le

/-- An entry that occurs once splits the log in one way. -/
theorem split_of_unique {later earlier : List α} (honce : ¬Precedes entry entry log)
    (hlog : log = later ++ entry :: earlier) : entry ∉ later ∧ entry ∉ earlier := by
  refine ⟨fun hmem => ?_, fun hmem => honce ⟨later, earlier, hlog, hmem⟩⟩
  obtain ⟨front, back, rfl⟩ := List.append_of_mem hmem
  refine honce ⟨front, back ++ entry :: earlier, ?_, ?_⟩
  · rw [hlog, List.append_assoc, List.cons_append]
  · exact List.mem_append_right _ List.mem_cons_self

/-- What precedes an entry precedes its only occurrence. -/
theorem Precedes.mem_of_unique {later earlier : List α} (hprecedes : Precedes first second log)
    (honce : ¬Precedes second second log) (hlog : log = later ++ second :: earlier) :
    first ∈ earlier := by
  obtain ⟨hlater, hearlier⟩ := split_of_unique honce hlog
  obtain ⟨later', earlier', hlog', hmem⟩ := hprecedes
  rw [hlog] at hlog'
  have hsame := (List.append_cons_inj_of_notMem hlater hearlier).mp hlog'
  rwa [hsame.2.2]

/-- The order is transitive over an entry that occurs once. -/
theorem Precedes.trans {third : α} (hfirst : Precedes first second log)
    (hsecond : Precedes second third log) (honce : ¬Precedes second second log) :
    Precedes first third log := by
  obtain ⟨later, earlier, hlog, hmem⟩ := hsecond
  refine ⟨later, earlier, hlog, ?_⟩
  obtain ⟨front, back, rfl⟩ := List.append_of_mem hmem
  have hsplit : log = (later ++ third :: front) ++ second :: back := by
    rw [hlog, List.append_assoc, List.cons_append]
  have hfound : first ∈ back := hfirst.mem_of_unique honce hsplit
  exact List.mem_append_right _ (List.mem_cons_of_mem _ hfound)

end Turbofile.Logs
