import Mathlib

/-!
# Logs that only grow

A history lists the contents a log has had, the newest first.  What was read of
a log that only grows is still there later, so pieces read at different moments
fit together.
-/

namespace Turbofile.Growth

variable {α : Type*}

def now (history : List (List α)) : List α := history.headD []

/-- Something is appended to the log. -/
def Appends (history next : List (List α)) : Prop := ∃ data, next = (now history ++ data) :: history

/-- Any number of appends. -/
def Grows : List (List α) → List (List α) → Prop := Relation.ReflTransGen Appends

instance : Std.Refl (@Grows α) := ⟨fun _ => Relation.ReflTransGen.refl⟩

instance : IsTrans _ (@Grows α) := ⟨fun _ _ _ => Relation.ReflTransGen.trans⟩

theorem Grows.now_prefix {history next : List (List α)} (hgrows : Grows history next) :
    now history <+: now next := by
  induction hgrows with
  | refl => exact List.prefix_refl _
  | tail _ hstep ih =>
      obtain ⟨data, rfl⟩ := hstep
      exact ih.trans (List.prefix_append _ data)

theorem Grows.length_le {history next : List (List α)} (hgrows : Grows history next) :
    (now history).length ≤ (now next).length :=
  hgrows.now_prefix.length_le

theorem Grows.subset {history next : List (List α)} (hgrows : Grows history next) :
    history ⊆ next := by
  induction hgrows with
  | refl => exact List.Subset.refl _
  | tail _ hstep ih =>
      obtain ⟨data, rfl⟩ := hstep
      exact List.Subset.trans ih (List.subset_cons_self _ _)

theorem now_mem {history : List (List α)} (hne : history ≠ []) : now history ∈ history := by
  cases history with
  | nil => exact absurd rfl hne
  | cons content past => exact List.mem_cons_self

theorem Grows.ne_nil {history next : List (List α)} (hgrows : Grows history next)
    (hne : history ≠ []) : next ≠ [] :=
  List.ne_nil_of_mem (hgrows.subset (now_mem hne))

/-- What was a piece of the log still is one. -/
theorem Grows.piece {history next : List (List α)} (hgrows : Grows history next) {data : List α}
    {pos : ℕ} (hdata : data <+: (now history).drop pos) : data <+: (now next).drop pos :=
  hdata.trans (hgrows.now_prefix.drop pos)

/-- A piece and the piece that begins where it ends. -/
theorem piece_append {content head data : List α} {pos : ℕ} (hhead : head <+: content.drop pos)
    (hdata : data <+: content.drop (pos + head.length)) : head ++ data <+: content.drop pos := by
  obtain ⟨rest, hrest⟩ := hhead
  have hdrop : content.drop (pos + head.length) = rest := by
    rw [← List.drop_drop, ← hrest, List.drop_left]
  rw [hdrop] at hdata
  rw [← hrest]
  exact (List.prefix_append_right_inj head).mpr hdata

/-- A piece as long as the rest of the log is the rest. -/
theorem eq_drop_of_piece {content data : List α} {pos : ℕ} (hdata : data <+: content.drop pos)
    (hlength : content.length - pos ≤ data.length) : data = content.drop pos := by
  apply hdata.eq_of_length_le
  rwa [List.length_drop]

end Turbofile.Growth
