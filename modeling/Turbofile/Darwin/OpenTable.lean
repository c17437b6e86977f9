import Turbofile.Darwin.Sequential

/-!
# The handle table between ops

Every handle has an open descriptor of its own, none is being closed, and only
the handle of a job under way is counted as busy.
-/

namespace Turbofile.Darwin

open Turbofile.Core
open Turbofile.Tally
open Turbofile.FileService
open State

def busyOps (busy : Option Handle) (handle : Handle) : ℕ := if busy = some handle then 1 else 0

theorem busyOps_none (handle : Handle) : busyOps none handle = 0 := if_neg (by simp)

theorem busyOps_self (handle : Handle) : busyOps (some handle) handle = 1 := if_pos rfl

theorem busyOps_ne {handle other : Handle} (hne : other ≠ handle) :
    busyOps (some handle) other = busyOps none other := by
  rw [busyOps_none, busyOps, if_neg]
  exact fun hsame => hne (Option.some.inj hsame).symm

structure Rows (busy : Option Handle) (state : State) : Prop where
  row : ∀ handle entry, state.files.lookup handle = some entry →
    entry = ⟨entry.fd, busyOps busy handle, none⟩
  isOpen : ∀ handle entry, state.files.lookup handle = some entry →
    (nodeOf entry.fd state.log).isSome = true
  distinct : ∀ handle other entry entry', state.files.lookup handle = some entry →
    state.files.lookup other = some entry' → entry.fd = entry'.fd → handle = other

/-- No handle has the descriptor. -/
def Unlisted (fd : Fd) (state : State) : Prop :=
  ∀ handle entry, state.files.lookup handle = some entry → entry.fd ≠ fd

section Logs

variable {fd fd' : Fd} {log : List Event} {path : Path} {flags : OpenFlags} {carriers : List OpId}

theorem nodeOf_opened : nodeOf fd (.opened fd path flags :: log) = some ⟨path, flags⟩ :=
  if_pos rfl

theorem nodeOf_opened_ne (hne : fd' ≠ fd) :
    nodeOf fd (.opened fd' path flags :: log) = nodeOf fd log := if_neg hne

theorem nodeOf_closed_ne (hne : fd' ≠ fd) :
    nodeOf fd (.closed fd' carriers :: log) = nodeOf fd log := if_neg hne

end Logs

theorem nodeFor_of_lookup {state : State} {handle : Handle} {entry : FileEntry}
    (hlookup : state.files.lookup handle = some entry) :
    state.nodeFor handle = nodeOf entry.fd state.log := by
  rw [State.nodeFor, hlookup]
  rfl

theorem nodeFor_of_unlisted {state : State} {handle : Handle}
    (hlookup : state.files.lookup handle = none) : state.nodeFor handle = none := by
  rw [State.nodeFor, hlookup]
  rfl

namespace Rows

variable {busy : Option Handle} {state next : State} {handle : Handle} {entry : FileEntry}

theorem node (hrows : Rows busy state) (hlookup : state.files.lookup handle = some entry) :
    ∃ node, nodeOf entry.fd state.log = some node ∧ state.nodeFor handle = some node := by
  obtain ⟨node, hnode⟩ := Option.isSome_iff_exists.mp (hrows.isOpen handle entry hlookup)
  exact ⟨node, hnode, (nodeFor_of_lookup hlookup).trans hnode⟩

theorem lookup_eq_none (hrows : Rows busy state) (hnode : state.nodeFor handle = none) :
    state.files.lookup handle = none := by
  cases hlookup : state.files.lookup handle with
  | none => rfl
  | some entry =>
      obtain ⟨node, -, hsome⟩ := hrows.node hlookup
      cases hnode.symm.trans hsome

/-- A descriptor that has just been opened belongs to no handle yet. -/
theorem unlisted (hrows : Rows busy state) {fd : Fd} (hfresh : fd ∉ openFds state.log) :
    Unlisted fd state := by
  rintro handle entry hlookup rfl
  obtain ⟨node, hnode, -⟩ := hrows.node hlookup
  exact hfresh (mem_openFds_of_nodeOf hnode)

/-- What becomes of other descriptors is of no concern. -/
theorem relog (hrows : Rows busy state) (hfiles : next.files = state.files)
    (hlog : ∀ handle entry, state.files.lookup handle = some entry →
      nodeOf entry.fd next.log = nodeOf entry.fd state.log) :
    Rows busy next ∧ ∀ handle, next.nodeFor handle = state.nodeFor handle := by
  refine ⟨⟨?_, ?_, ?_⟩, fun handle => ?_⟩
  · rw [hfiles]
    exact hrows.row
  · intro handle entry hlookup
    rw [hfiles] at hlookup
    rw [hlog handle entry hlookup]
    exact hrows.isOpen handle entry hlookup
  · rw [hfiles]
    exact hrows.distinct
  · cases hlookup : state.files.lookup handle with
    | none => rw [nodeFor_of_unlisted hlookup, nodeFor_of_unlisted (hfiles ▸ hlookup)]
    | some entry =>
        rw [nodeFor_of_lookup hlookup, nodeFor_of_lookup (hfiles ▸ hlookup)]
        exact hlog handle entry hlookup

theorem calm (hrows : Rows busy state) (hfiles : next.files = state.files) {events : List Event}
    (hlog : next.log = events ++ state.log) (hcalm : ∀ event ∈ events, event.calm = true) :
    Rows busy next ∧ ∀ handle, next.nodeFor handle = state.nodeFor handle :=
  hrows.relog hfiles fun handle entry hlookup => by rw [hlog, nodeOf_append hcalm]

/-- A descriptor that no handle has is opened. -/
theorem opened (hrows : Rows busy state) {fd : Fd} (hunlisted : Unlisted fd state)
    (path : Path) (flags : OpenFlags) (hfiles : next.files = state.files)
    (hlog : next.log = .opened fd path flags :: state.log) :
    Rows busy next ∧ ∀ handle, next.nodeFor handle = state.nodeFor handle :=
  hrows.relog hfiles fun handle entry hlookup => by
    rw [hlog, nodeOf_opened_ne (hunlisted handle entry hlookup).symm]

/-- A descriptor that no handle has is closed. -/
theorem closedOwned (hrows : Rows busy state) {fd : Fd} (hunlisted : Unlisted fd state)
    {carriers : List OpId} (hfiles : next.files = state.files)
    (hlog : next.log = .closed fd carriers :: state.log) :
    Rows busy next ∧ ∀ handle, next.nodeFor handle = state.nodeFor handle :=
  hrows.relog hfiles fun handle entry hlookup => by
    rw [hlog, nodeOf_closed_ne (hunlisted handle entry hlookup).symm]

/-- A handle becomes busy, or is no longer. -/
theorem rebusied (hrows : Rows busy state) {busy' : Option Handle}
    (hlookup : state.files.lookup handle = some entry)
    (hother : ∀ other, other ≠ handle → busyOps busy' other = busyOps busy other)
    (hfiles : next.files = state.files.insert handle ⟨entry.fd, busyOps busy' handle, none⟩)
    (hlog : next.log = state.log) :
    Rows busy' next ∧ ∀ handle, next.nodeFor handle = state.nodeFor handle := by
  have hold : ∀ other entry', next.files.lookup other = some entry' →
      ∃ before, state.files.lookup other = some before ∧ entry'.fd = before.fd ∧
        entry' = ⟨before.fd, busyOps busy' other, none⟩ := by
    intro other entry' hentry
    rw [hfiles] at hentry
    by_cases hsame : other = handle
    · rw [hsame, AList.lookup_insert] at hentry
      obtain rfl := Option.some.inj hentry
      exact ⟨entry, hsame ▸ hlookup, rfl, by rw [hsame]⟩
    · rw [AList.lookup_insert_ne hsame] at hentry
      refine ⟨entry', hentry, rfl, ?_⟩
      rw [hother other hsame]
      exact hrows.row other entry' hentry
  refine ⟨⟨?_, ?_, ?_⟩, fun other => ?_⟩
  · intro other entry' hentry
    obtain ⟨before, -, hfd, hrow⟩ := hold other entry' hentry
    rw [hfd]
    exact hrow
  · intro other entry' hentry
    obtain ⟨before, hbefore, hfd, -⟩ := hold other entry' hentry
    rw [hlog, hfd]
    exact hrows.isOpen other before hbefore
  · intro left right leftEntry rightEntry hleft hright hfds
    obtain ⟨left', hleft', hleftFd, -⟩ := hold left leftEntry hleft
    obtain ⟨right', hright', hrightFd, -⟩ := hold right rightEntry hright
    exact hrows.distinct left right left' right' hleft' hright'
      (hleftFd.symm.trans (hfds.trans hrightFd))
  · by_cases hsame : other = handle
    · rw [hsame, nodeFor_of_lookup hlookup, State.nodeFor, hfiles, AList.lookup_insert, hlog]
      rfl
    · rw [State.nodeFor, State.nodeFor, hfiles, AList.lookup_insert_ne hsame, hlog]

/-- Only a handle that is listed is busy. -/
theorem unbusied (hrows : Rows (some handle) state) (hlookup : state.files.lookup handle = none) :
    Rows none state where
  row other entry hentry := by
    rw [← busyOps_ne]
    · exact hrows.row other entry hentry
    · rintro rfl
      rw [hlookup] at hentry
      cases hentry
  isOpen := hrows.isOpen
  distinct := hrows.distinct

/-- `register` with a descriptor that no handle has. -/
theorem registered (hrows : Rows none state) {fd : Fd} {node : Node}
    (hunlisted : Unlisted fd state) (hnew : state.files.lookup handle = none)
    (hnode : nodeOf fd state.log = some node)
    (hfiles : next.files = state.files.insert handle ⟨fd, 0, none⟩) {events : List Event}
    (hlog : next.log = events ++ state.log) (hcalm : ∀ event ∈ events, event.calm = true) :
    Rows none next ∧
      ∀ other, next.nodeFor other = Function.update (fun handle => state.nodeFor handle) handle
        (some node) other := by
  have hnodes : ∀ fd, nodeOf fd next.log = nodeOf fd state.log := fun fd => by
    rw [hlog, nodeOf_append hcalm]
  have hold : ∀ other entry', next.files.lookup other = some entry' →
      (other = handle ∧ entry' = ⟨fd, 0, none⟩) ∨
        (other ≠ handle ∧ state.files.lookup other = some entry') := by
    intro other entry' hentry
    rw [hfiles] at hentry
    by_cases hsame : other = handle
    · rw [hsame, AList.lookup_insert] at hentry
      exact .inl ⟨hsame, (Option.some.inj hentry).symm⟩
    · rw [AList.lookup_insert_ne hsame] at hentry
      exact .inr ⟨hsame, hentry⟩
  refine ⟨⟨?_, ?_, ?_⟩, fun other => ?_⟩
  · intro other entry' hentry
    rcases hold other entry' hentry with ⟨-, rfl⟩ | ⟨-, hbefore⟩
    · rfl
    · exact hrows.row other entry' hbefore
  · intro other entry' hentry
    rw [hnodes]
    rcases hold other entry' hentry with ⟨-, rfl⟩ | ⟨-, hbefore⟩
    · rw [hnode]
      rfl
    · exact hrows.isOpen other entry' hbefore
  · intro left right leftEntry rightEntry hleft hright hfds
    rcases hold left leftEntry hleft with ⟨rfl, rfl⟩ | ⟨-, hleft'⟩
    · rcases hold right rightEntry hright with ⟨rfl, -⟩ | ⟨-, hright'⟩
      · rfl
      · exact absurd hfds.symm (hunlisted right rightEntry hright')
    · rcases hold right rightEntry hright with ⟨rfl, rfl⟩ | ⟨-, hright'⟩
      · exact absurd hfds (hunlisted left leftEntry hleft')
      · exact hrows.distinct left right leftEntry rightEntry hleft' hright' hfds
  · by_cases hsame : other = handle
    · rw [hsame, State.nodeFor, hfiles, AList.lookup_insert, Function.update_self]
      exact (hnodes fd).trans hnode
    · rw [State.nodeFor, hfiles, AList.lookup_insert_ne hsame, Function.update_of_ne hsame,
        State.nodeFor]
      simp only [hnodes]

/-- The handle is taken out and its descriptor is closed. -/
theorem closed (hrows : Rows none state) (hlookup : state.files.lookup handle = some entry)
    {carriers : List OpId} (hfiles : next.files = state.files.erase handle)
    (hlog : next.log = .closed entry.fd carriers :: state.log) :
    Rows none next ∧
      ∀ other, next.nodeFor other =
        Function.update (fun handle => state.nodeFor handle) handle none other := by
  have hold : ∀ other entry', next.files.lookup other = some entry' →
      other ≠ handle ∧ state.files.lookup other = some entry' := by
    intro other entry' hentry
    rw [hfiles] at hentry
    by_cases hsame : other = handle
    · rw [hsame, AList.lookup_erase] at hentry
      cases hentry
    · rw [AList.lookup_erase_ne hsame] at hentry
      exact ⟨hsame, hentry⟩
  have hnodes : ∀ other entry', other ≠ handle → state.files.lookup other = some entry' →
      nodeOf entry'.fd next.log = nodeOf entry'.fd state.log := by
    intro other entry' hne hentry
    rw [hlog, nodeOf_closed_ne]
    exact fun hfds => hne (hrows.distinct handle other entry entry' hlookup hentry hfds).symm
  refine ⟨⟨?_, ?_, ?_⟩, fun other => ?_⟩
  · intro other entry' hentry
    exact hrows.row other entry' (hold other entry' hentry).2
  · intro other entry' hentry
    obtain ⟨hne, hbefore⟩ := hold other entry' hentry
    rw [hnodes other entry' hne hbefore]
    exact hrows.isOpen other entry' hbefore
  · intro left right leftEntry rightEntry hleft hright
    exact hrows.distinct left right leftEntry rightEntry (hold left leftEntry hleft).2
      (hold right rightEntry hright).2
  · by_cases hsame : other = handle
    · rw [hsame, Function.update_self, State.nodeFor, hfiles, AList.lookup_erase]
      rfl
    · rw [Function.update_of_ne hsame]
      cases hentry : state.files.lookup other with
      | none =>
          rw [nodeFor_of_unlisted hentry, nodeFor_of_unlisted]
          rw [hfiles, AList.lookup_erase_ne hsame, hentry]
      | some entry' =>
          have hkept : next.files.lookup other = some entry' := by
            rw [hfiles, AList.lookup_erase_ne hsame, hentry]
          rw [nodeFor_of_lookup hentry, nodeFor_of_lookup hkept, hnodes other entry' hsame hentry]

end Rows

end Turbofile.Darwin
