import Mathlib

/-!
# Shared resources

A resource is acquired under a name that the outside picks among the free ones.
It is used through clones and given back with the last of them; from then on
the name may stand for something else.
-/

namespace Turbofile.Sharing

variable {Name Content : Type*} [DecidableEq Name]

inductive Entry (Name Content : Type*)
  | acquired (name : Name) (content : Content)
  | freed (name : Name)
  deriving DecidableEq

/-- What a name stands for. -/
def standing (name : Name) : List (Entry Name Content) → Option Content
  | [] => none
  | .acquired own content :: trace => if own = name then some content else standing name trace
  | .freed own :: trace => if own = name then none else standing name trace

/-- A name is acquired while it is free, and freed while it is not. -/
def Alternates : List (Entry Name Content) → Prop
  | [] => True
  | .acquired name _ :: trace => standing name trace = none ∧ Alternates trace
  | .freed name :: trace => (standing name trace).isSome = true ∧ Alternates trace

/-- The names of the clones that are alive, and what has happened, newest first. -/
structure State (Name Content : Type*) where
  clones : Multiset Name
  trace : List (Entry Name Content)

inductive Step (state : State Name Content) : State Name Content → Prop
  | acquire (name : Name) (content : Content) (hfree : standing name state.trace = none) :
      Step state ⟨name ::ₘ state.clones, .acquired name content :: state.trace⟩
  | clone (name : Name) (hname : name ∈ state.clones) :
      Step state ⟨name ::ₘ state.clones, state.trace⟩
  | drop (name : Name) (rest : Multiset Name) (hclones : state.clones = name ::ₘ rest) :
      Step state ⟨rest, if name ∈ rest then state.trace else .freed name :: state.trace⟩
  | dropAll (names : List Name) (hnodup : names.Nodup)
      (hnames : ∀ name, name ∈ names ↔ name ∈ state.clones) :
      Step state ⟨0, names.map .freed ++ state.trace⟩

/-- A resource is there exactly as long as a clone of it is. -/
structure Sound (state : State Name Content) : Prop where
  alternates : Alternates state.trace
  used : ∀ name, (standing name state.trace).isSome = true ↔ name ∈ state.clones

variable {state next : State Name Content} {trace : List (Entry Name Content)}

theorem Sound.empty : Sound (⟨0, []⟩ : State Name Content) where
  alternates := trivial
  used name := by simp [standing]

theorem standing_freed (names : List Name) (name : Name) :
    standing name (names.map .freed ++ trace) =
      if name ∈ names then none else standing name trace := by
  induction names with
  | nil => rfl
  | cons own names ih =>
      rw [List.map_cons, List.cons_append, standing, ih]
      by_cases hsame : own = name
      · rw [if_pos hsame, if_pos (hsame ▸ List.mem_cons_self)]
      · rw [if_neg hsame]
        simp [Ne.symm hsame]

/-- Names that are apart may be freed in any order. -/
theorem Alternates.freed {names : List Name} (hnodup : names.Nodup)
    (hused : ∀ name ∈ names, (standing name trace).isSome = true) (halternates : Alternates trace) :
    Alternates (names.map .freed ++ trace) := by
  induction names with
  | nil => exact halternates
  | cons name names ih =>
      obtain ⟨hnew, hnodup⟩ := List.nodup_cons.mp hnodup
      have hname : standing name (names.map .freed ++ trace) = standing name trace := by
        rw [standing_freed, if_neg hnew]
      exact ⟨hname ▸ hused name (.head _), ih hnodup
        fun other hother => hused other (.tail _ hother)⟩

theorem Step.sound (hstep : Step state next) (hsound : Sound state) : Sound next := by
  cases hstep with
  | acquire name content hfree =>
      refine ⟨⟨hfree, hsound.alternates⟩, fun other => ?_⟩
      rw [standing, Multiset.mem_cons]
      split
      · next hsame => simp [hsame]
      · next hother => simp [Ne.symm hother, hsound.used]
  | clone name hname =>
      refine ⟨hsound.alternates, fun other => ?_⟩
      rw [hsound.used, Multiset.mem_cons]
      exact ⟨Or.inr, fun hmem => hmem.elim (fun hsame => hsame ▸ hname) id⟩
  | drop name rest hclones =>
      have hused : ∀ other, (standing other state.trace).isSome = true ↔
          other = name ∨ other ∈ rest := by
        intro other
        rw [hsound.used, hclones, Multiset.mem_cons]
      by_cases hmem : name ∈ rest
      · rw [if_pos hmem]
        refine ⟨hsound.alternates, fun other => ?_⟩
        rw [hused]
        exact ⟨fun hother => hother.elim (fun hsame => hsame ▸ hmem) id, Or.inr⟩
      · rw [if_neg hmem]
        refine ⟨⟨(hused name).mpr (.inl rfl), hsound.alternates⟩, fun other => ?_⟩
        rw [standing]
        split
        · next hsame => simp [← hsame, hmem]
        · next hother =>
            rw [hused]
            exact or_iff_right (Ne.symm hother)
  | dropAll names hnodup hnames =>
      have hused : ∀ name ∈ names, (standing name state.trace).isSome = true := fun name hname =>
        (hsound.used name).mpr ((hnames name).mp hname)
      refine ⟨hsound.alternates.freed hnodup hused, fun name => ?_⟩
      rw [standing_freed]
      split
      · simp
      · next hunused =>
          rw [hsound.used, ← hnames]
          simp [hunused]

/-- A name that stays in use stands for the same. -/
theorem Step.standing_eq (hstep : Step state next) (hsound : Sound state) {name : Name}
    (hbefore : name ∈ state.clones) (hafter : name ∈ next.clones) :
    standing name next.trace = standing name state.trace := by
  cases hstep with
  | acquire own content hfree =>
      rw [standing, if_neg]
      rintro rfl
      have hused := (hsound.used own).mpr hbefore
      rw [hfree] at hused
      cases hused
  | clone own hown => rfl
  | drop own rest hclones =>
      by_cases hmem : own ∈ rest
      · rw [if_pos hmem]
      · rw [if_neg hmem, standing, if_neg]
        rintro rfl
        exact hmem hafter
  | dropAll names hnodup hnames => exact absurd hafter (Multiset.notMem_zero name)

end Turbofile.Sharing
