import Turbofile.FastPath.Offsets
import Turbofile.Library.CoroutineRuns

/-!
# Which pages are resident

`resident` looks at the pages of a range through a mapping of the file.  The
mapping may be stale: made when the file was shorter, or longer, than it is now.
Whatever view earlier calls left, the check is right about the pages that hold
data, stays inside the mapping and never overflows.
-/

namespace Turbofile.FastPath.Darwin

open Turbofile.Core
open Turbofile.Coroutine

/-! ## Mappings -/

def View.Contains (view : View) (addr len : ℕ) : Prop :=
  view.addr ≤ addr ∧ addr + len ≤ view.addr + view.len

/-- The flags of the pages that start at `addr`, from those of the file's pages. -/
def View.flags (page : ℕ) (bitmap : ℕ → Byte) (view : View) (addr len : ℕ) : Bytes :=
  (List.range (len / page)).map fun index => bitmap ((addr - view.addr) / page + index)

/-- The kernel as it maps a regular file of `size` bytes whose pages have the
flags `bitmap`; the world lists the live mappings.  It may refuse a call only
if `refuses` says so, or if a range is not mapped. -/
def mappings (page size : ℕ) (bitmap : ℕ → Byte) (refuses : Prop) :
    Env kernel Raised (List View)
  | .fstat _, live, answer, next => next = live ∧ ∃ stat, answer = .ok stat ∧
      (regularFileSize stat = some size ∨ refuses ∧ regularFileSize stat = none)
  | .mmap _ len, live, answer, next =>
      (∃ addr, answer = .ok (.ok addr) ∧ next = ⟨addr, len⟩ :: live ∧
        page ∣ addr ∧ addr + len ≤ 2 ^ 64 ∧
        ∀ view ∈ live, view.addr + view.len ≤ addr ∨ addr + len ≤ view.addr) ∨
      refuses ∧ next = live ∧ ∃ errno, answer = .ok (.error errno)
  | .munmap addr len, live, answer, next => next = live.erase ⟨addr, len⟩ ∧ answer = .ok ()
  | .mincore addr len, live, answer, next => next = live ∧
      ((∃ view ∈ live, view.Contains addr len ∧
        answer = .ok (.ok (view.flags page bitmap addr len))) ∨
      (refuses ∨ ∀ view ∈ live, ¬view.Contains addr len) ∧
        ∃ errno, answer = .ok (.error errno))
  | _, live, _, next => next = live

/-- `mincore` asks about whole pages of a live mapping, no more of them than
there are flags; what is unmapped was mapped. -/
def InBounds (page : ℕ) : SysCall → List View → Prop
  | .mincore addr len, live => (∃ view ∈ live, view.Contains addr len) ∧
      page ∣ addr ∧ page ∣ len ∧ len / page ≤ FLAGS_PER_CALL
  | .munmap addr len, live => ⟨addr, len⟩ ∈ live
  | _, _ => True

/-- The methods of a `FastPath` that come down to its `Inner`. -/
inductive Method (page : ℕ) : {α : Type} → FastProg Inner α → Prop
  | size : Method page Inner.size
  | fill (pos len : ℕ) : Method page (Inner.fill page pos len)
  | atEof (size : ℕ) : Method page (Inner.atEof size)
  | supported : Method page (Inner.supported page)

/-- The states that earlier calls leave, whatever the size of the file and its
resident pages were at each of them. -/
inductive Left (page : ℕ) : Inner → List View → Prop
  | new (fd : ℤ) : Left page (.new fd) []
  | call {inner inner' : Inner} {live live' : List View} {α : Type} {prog : FastProg Inner α}
      {size : ℕ} {bitmap : ℕ → Byte} {refuses : Prop} {result : Except Raised α}
      (hleft : Left page inner live) (hmethod : Method page prog)
      (hends : Ends (mappings page size bitmap refuses) prog inner live result inner' live') :
      Left page inner' live'

/-! ## What the check is about -/

/-- Each page that holds a byte of `[pos, pos + len)` and data of the file is
resident. -/
def DataResident (page size : ℕ) (bitmap : ℕ → Byte) (pos len : ℕ) : Prop :=
  ∀ byte, pos ≤ byte → byte < pos + len → byte / page * page < size →
    bitmap (byte / page) &&& 1 ≠ 0

/-- The end of a range lies in the view there is, or in the one `ensure_view`
would build. -/
def CanMap (page size : ℕ) (inner : Inner) (stop : ℕ) : Prop :=
  inner.viewCovers stop ∨ ∃ len, viewLen page size = some len ∧ stop ≤ len

/-! ## Arithmetic that stops where it overflows -/

def checkedMul (m n : ℕ) : Option ℕ := if m * n < 2 ^ 64 then some (m * n) else none

/-- `residentRound` with every sum and product checked; an overflow ends the
loop without an answer. -/
def strictRound (page addr last off : ℕ) : FastProg Inner (ℕ ⊕ Option Bool) :=
  if off < last then
    match checkedMul FLAGS_PER_CALL page, checkedAdd addr off with
    | some batch, some start => do
        let chunk := min (last - off) batch
        match ← ask (.mincore start chunk) with
        | .error _ => pure (.inr (some false))
        | .ok flags =>
            match coldPage (flags.take (chunk / page)) with
            | none => pure ((checkedAdd off chunk).elim (.inr none) .inl)
            | some index =>
                match (checkedMul index page).bind (checkedAdd off) with
                | none => pure (.inr none)
                | some cold => do
                    let self ← .state
                    let size ← fileSize self.fd
                    pure (.inr (some (size.any fun size => size ≤ cold)))
    | _, _ => pure (.inr none)
  else pure (.inr (some true))

/-- `resident` with every sum and product checked. -/
def strictResident (page pos len : ℕ) : FastProg Inner (Option Bool) :=
  match checkedAdd pos len with
  | none => pure (some false)
  | some stop => do
      if ← Inner.ensureView page stop then do
        let self ← .state
        match self.view with
        | none => pure (some false)
        | some view =>
            match checkedMul (pos / page) page, checkedMul ((stop + (page - 1)) / page) page with
            | some first, some last => .repeatUntil (strictRound page view.addr last) first
            | _, _ => pure none
      else pure (some false)

/-- What is asked of the check for one range.  Calls that the kernel does not
refuse, on an open descriptor, leave no doubt about the answer. -/
structure ResidencyExact (page size : ℕ) (bitmap : ℕ → Byte) (inner : Inner) (live : List View)
    (pos len : ℕ) : Prop where
  sound : ∀ refuses result last final,
    Ends (mappings page size bitmap refuses) (Inner.resident page pos len) inner live
      result last final →
    result = .ok true → DataResident page size bitmap pos len
  complete : 0 ≤ inner.fd → CanMap page size inner (pos + len) →
    DataResident page size bitmap pos len →
    (Inner.resident page pos len).wp (mappings page size bitmap False)
      (fun result _ _ => result = .ok true) inner live
  inBounds : ∀ refuses c mid,
    Reaches (mappings page size bitmap refuses) c mid (Inner.resident page pos len) inner live →
    InBounds page c mid
  fits : ∀ refuses result last final,
    Ends (mappings page size bitmap refuses) (strictResident page pos len) inner live
      result last final →
    result ≠ .ok none
  rounds : ∀ padded, checkedAdd size (page - 1) = some padded →
    checkedMul (padded / page) page = some (padded / page * page)

/-! ## Rounding to pages -/

section Rounding

variable {page size pos len : ℕ} {bitmap : ℕ → Byte}

theorem lt_ceil_iff (hpage : 0 < page) (stop index : ℕ) :
    index < (stop + (page - 1)) / page ↔ index * page < stop := by
  rw [Nat.lt_iff_add_one_le, Nat.le_div_iff_mul_le hpage, Nat.add_one_mul]
  omega

/-- A range that ends in whole pages still does when it is rounded up. -/
theorem ceil_le {stop pages : ℕ} (hpage : 0 < page) (hstop : stop ≤ pages * page) :
    (stop + (page - 1)) / page ≤ pages := by
  by_contra hlt
  have hindex := (lt_ceil_iff hpage stop pages).mp (not_le.mp hlt)
  omega

/-- The pages numbered from `first` up to `last` that hold data are resident. -/
def PagesResident (page size : ℕ) (bitmap : ℕ → Byte) (first last : ℕ) : Prop :=
  ∀ index, first ≤ index → index < last → index * page < size → bitmap index &&& 1 ≠ 0

theorem dataResident_iff (hpage : 0 < page) (hlen : 0 < len) :
    DataResident page size bitmap pos len ↔
      PagesResident page size bitmap (pos / page) ((pos + len + (page - 1)) / page) := by
  constructor
  · intro hdata index hfirst hlast hsize
    rw [lt_ceil_iff hpage] at hlast
    -- The first byte of the range that lies in this page.
    have hbyte : max pos (index * page) / page = index := by
      rcases le_total pos (index * page) with hle | hle
      · rw [max_eq_right hle, Nat.mul_div_cancel _ hpage]
      · rw [max_eq_left hle]
        exact le_antisymm hfirst ((Nat.le_div_iff_mul_le hpage).mpr hle)
    have hin := hdata (max pos (index * page)) (le_max_left _ _) (max_lt (by omega) hlast)
    rw [hbyte] at hin
    exact hin hsize
  · intro hpages byte hpos hstop hsize
    apply hpages (byte / page) (Nat.div_le_div_right hpos) _ hsize
    rw [lt_ceil_iff hpage]
    exact (Nat.div_mul_le_self byte page).trans_lt hstop

theorem viewLen_eq_some {reserved : ℕ} (hview : viewLen page size = some reserved) :
    reserved < 2 ^ 64 ∧ reserved = (size + (page - 1)) / page * page + HEADROOM := by
  obtain ⟨padded, hpadded, hrest⟩ := Option.bind_eq_some_iff.mp hview
  obtain ⟨sum, hsum, hfits⟩ := Option.bind_eq_some_iff.mp hrest
  rw [checkedAdd, Option.ite_none_right_eq_some, Option.some.injEq] at hpadded hsum
  rw [usizeTryFrom, Option.ite_none_right_eq_some, Option.some.injEq] at hfits
  obtain ⟨hlt, rfl⟩ := hfits
  rw [hpadded.2]
  exact ⟨hlt, hsum.2.symm⟩

end Rounding

/-! ## Making the view -/

/-- What holds of a mapping of whole pages. -/
structure Mapped (page : ℕ) (view : View) : Prop where
  addr : page ∣ view.addr
  len : page ∣ view.len
  below : view.len < 2 ^ 64
  fits : view.addr + view.len ≤ 2 ^ 64

/-- A range in the mapping is in it when its end is rounded up. -/
theorem Mapped.ceil_le_len {page stop : ℕ} {view : View} (hmapped : Mapped page view)
    (hpage : 0 < page) (hstop : stop ≤ view.len) :
    (stop + (page - 1)) / page * page ≤ view.len := by
  obtain ⟨pages, hpages⟩ := hmapped.len
  rw [hpages, Nat.mul_comm page]
  rw [hpages, Nat.mul_comm] at hstop
  exact Nat.mul_le_mul_right page (ceil_le hpage hstop)

/-- The view is the one live mapping. -/
structure Valid (page : ℕ) (inner : Inner) (live : List View) : Prop where
  held : live = inner.view.toList
  mapped : ∀ view, inner.view = some view → Mapped page view

/-- The outcome of `ensure_view`. -/
structure Ensured (page size : ℕ) (refuses : Prop) (inner : Inner) (stop : ℕ) (covered : Bool)
    (inner' : Inner) (live' : List View) : Prop where
  valid : Valid page inner' live'
  fd : inner'.fd = inner.fd
  covers : covered = inner'.viewCovers stop
  builds : ¬refuses → 0 ≤ inner.fd → CanMap page size inner stop → covered = true

section Views

variable {page size : ℕ} {bitmap : ℕ → Byte} {refuses : Prop} {inner : Inner} {live : List View}

theorem meets_fileSize {fd : ℤ} {post : Post Inner Raised (List View) (Option ℕ)}
    (hsome : post (.ok (some size)) inner live)
    (hnone : refuses ∨ fd < 0 → post (.ok none) inner live) :
    (fileSize fd).meets (mappings page size bitmap refuses) (InBounds page) post inner live := by
  unfold fileSize
  split
  · next hfd => exact hnone (.inr hfd)
  · rw [Prog.bind_eq_bind, Prog.meets_bind, ask, Prog.meets_await]
    refine ⟨trivial, ?_⟩
    rintro _ _ ⟨rfl, stat, rfl, hstat | ⟨hrefuses, hstat⟩⟩
    · rw [Prog.leadsTo_ok, hstat]
      exact hsome
    · rw [Prog.leadsTo_ok, hstat]
      exact hnone (.inl hrefuses)

/-- The old view is unmapped; a longer one takes its place. -/
theorem meets_replaceView {view : View} {post : Post Inner Raised (List View) Unit}
    (hlive : live = view :: inner.view.toList)
    (hlonger : ∀ old, inner.view = some old → old.len < view.len)
    (hpost : post (.ok ()) { inner with view := some view } [view]) :
    (Inner.replaceView view).meets (mappings page size bitmap refuses) (InBounds page) post
      inner live := by
  subst hlive
  rcases inner with ⟨fd, _ | old⟩
  · exact hpost
  · have hne : view ≠ old := by
      rintro rfl
      exact absurd (hlonger view rfl) (lt_irrefl _)
    change (ask (.munmap old.addr old.len) : FastProg Inner Unit).meets _ _ post
      ⟨fd, some view⟩ [view, old]
    rw [ask, Prog.meets_await]
    refine ⟨List.mem_cons_of_mem _ (List.mem_singleton_self old), ?_⟩
    rintro _ _ ⟨rfl, rfl⟩
    rw [List.erase_cons_tail (by simpa using hne), List.erase_cons_head]
    exact hpost

theorem viewCovers_some {view : View} {stop : ℕ} (hview : inner.view = some view) :
    inner.viewCovers stop = decide (stop ≤ view.len) := by
  rw [Inner.viewCovers, hview, Option.any_some]

/-- The view stays as it is, and does not reach `stop`. -/
theorem Ensured.kept (hvalid : Valid page inner live) {stop : ℕ}
    (hcovers : ¬inner.viewCovers stop = true)
    (hshort : ¬refuses → 0 ≤ inner.fd → ∀ reserved, viewLen page size = some reserved →
      ¬stop ≤ reserved) :
    Ensured page size refuses inner stop false inner live := by
  refine ⟨hvalid, rfl, ((Bool.not_eq_true _).mp hcovers).symm, fun hreliable hfd hmap => ?_⟩
  rcases hmap with hcovers' | ⟨reserved, hview, hstop⟩
  · exact absurd hcovers' hcovers
  · exact absurd hstop (hshort hreliable hfd reserved hview)

/-- The view is replaced by one for the size the file has now. -/
theorem Ensured.replaced (hpage : page ∣ HEADROOM) {stop reserved addr : ℕ}
    (hcovers : ¬inner.viewCovers stop = true) (hview : viewLen page size = some reserved)
    (hdvd : page ∣ addr) (hfits : addr + reserved ≤ 2 ^ 64) :
    Ensured page size refuses inner stop
      (Inner.viewCovers { inner with view := some ⟨addr, reserved⟩ } stop)
      { inner with view := some ⟨addr, reserved⟩ } [⟨addr, reserved⟩] := by
  obtain ⟨hbelow, hreserved⟩ := viewLen_eq_some hview
  refine ⟨⟨rfl, ?_⟩, rfl, rfl, fun _ _ hmap => ?_⟩
  · rintro _ ⟨⟩
    refine ⟨hdvd, ?_, hbelow, hfits⟩
    rw [hreserved]
    exact (Nat.dvd_add_right (dvd_mul_left _ _)).mpr hpage
  · rw [viewCovers_some rfl, decide_eq_true_iff]
    rcases hmap with hcovers' | ⟨other, hother, hstop⟩
    · exact absurd hcovers' hcovers
    · rw [hview, Option.some.injEq] at hother
      exact hother ▸ hstop

theorem meets_ensureView (hpage : page ∣ HEADROOM) (hvalid : Valid page inner live) (stop : ℕ) :
    (Inner.ensureView page stop).meets (mappings page size bitmap refuses) (InBounds page)
      (fun result inner' live' => ∃ covered, result = .ok covered ∧
        Ensured page size refuses inner stop covered inner' live') inner live := by
  change (if inner.viewCovers stop then pure true else _ : FastProg Inner Bool).meets _ _ _ _ _
  split
  · next hcovers => exact ⟨true, rfl, hvalid, rfl, hcovers.symm, fun _ _ _ => rfl⟩
  · next hcovers =>
      rw [Prog.bind_eq_bind, Prog.meets_bind]
      refine meets_fileSize ?_ fun hfails => ?_
      · rw [Prog.leadsTo_ok]
        dsimp only
        cases hview : viewLen page size with
        | none =>
            refine ⟨false, rfl, .kept hvalid hcovers fun _ _ reserved hreserved => ?_⟩
            rw [hview] at hreserved
            cases hreserved
        | some reserved =>
            dsimp only
            split
            · next hlong =>
                -- A view this long that does not reach `stop`: `stop` is past the headroom.
                obtain ⟨view, hheld, hlen⟩ := (Option.any_eq_true ..).mp hlong
                refine ⟨false, rfl, .kept hvalid hcovers fun _ _ other hother hstop => ?_⟩
                rw [viewCovers_some hheld, decide_eq_true_iff] at hcovers
                rw [hview, Option.some.injEq] at hother
                have hle : reserved ≤ view.len := of_decide_eq_true hlen
                omega
            · next hshort =>
                rw [Prog.bind_eq_bind, Prog.meets_bind, ask, Prog.meets_await]
                refine ⟨trivial, ?_⟩
                rintro _ _ (⟨addr, rfl, rfl, hdvd, hfits, -⟩ | ⟨hrefuses, rfl, errno, rfl⟩)
                · rw [Prog.leadsTo_ok]
                  dsimp only
                  rw [Prog.bind_eq_bind, Prog.meets_bind]
                  refine meets_replaceView (by rw [hvalid.held]) (fun old hold => ?_) ?_
                  · rw [hold, Option.any_some, decide_eq_true_iff, not_le] at hshort
                    exact hshort
                  · exact ⟨_, rfl, .replaced hpage hcovers hview hdvd hfits⟩
                · refine ⟨false, rfl, .kept hvalid hcovers fun hreliable => ?_⟩
                  exact absurd hrefuses hreliable
      · refine ⟨false, rfl, .kept hvalid hcovers fun hreliable hfd => ?_⟩
        rcases hfails with hrefuses | hneg
        · exact absurd hrefuses hreliable
        · omega

end Views

/-! ## One round of the loop -/

section Rounds

variable {page size : ℕ} {bitmap : ℕ → Byte} {refuses : Prop} {first last : ℕ}

/-- The answer is the right one, if no call was refused. -/
def Verdict (refuses : Prop) (fd : ℤ) (resident : Prop) (answer : Bool) : Prop :=
  (answer = true → resident) ∧ (¬refuses → 0 ≤ fd → resident → answer = true)

theorem Verdict.of_fails {fd : ℤ} {resident : Prop} (hfails : ¬refuses → 0 ≤ fd → False) :
    Verdict refuses fd resident false := by
  constructor
  · intro htrue
    cases htrue
  · exact fun hreliable hfd _ => (hfails hreliable hfd).elim

theorem flags_pages (hpage : 0 < page) (view : View) (done count : ℕ) :
    view.flags page bitmap (view.addr + done * page) (count * page) =
      (List.range count).map fun index => bitmap (done + index) := by
  rw [View.flags, Nat.add_sub_cancel_left, Nat.mul_div_cancel _ hpage, Nat.mul_div_cancel _ hpage]

theorem coldPage_eq_none {done count : ℕ}
    (hcold : coldPage ((List.range count).map fun index => bitmap (done + index)) = none)
    {index : ℕ} (hindex : index < count) : bitmap (done + index) &&& 1 ≠ 0 := by
  have hall := List.findIdx?_eq_none_iff.mp hcold (bitmap (done + index))
    (List.mem_map_of_mem (List.mem_range.mpr hindex))
  exact of_decide_eq_false hall

theorem coldPage_eq_some {done count index : ℕ}
    (hcold : coldPage ((List.range count).map fun index => bitmap (done + index)) = some index) :
    index < count ∧ bitmap (done + index) &&& 1 = 0 ∧
      ∀ before < index, bitmap (done + before) &&& 1 ≠ 0 := by
  obtain ⟨hindex, hflag, hbefore⟩ := List.findIdx?_eq_some_iff_getElem.mp hcold
  rw [List.length_map, List.length_range] at hindex
  simp only [List.getElem_map, List.getElem_range, decide_eq_true_iff] at hflag hbefore
  exact ⟨hindex, hflag, fun before hlt => hbefore before hlt⟩

/-- The pages from `first` up to the one at `off` are resident; the call has
changed nothing. -/
structure Scanning (page : ℕ) (bitmap : ℕ → Byte) (first last : ℕ) (inner : Inner) (view : View)
    (off : ℕ) (inner' : Inner) (live : List View) : Prop where
  inner_eq : inner' = inner
  live_eq : live = [view]
  pages : ∃ done, off = done * page ∧ first ≤ done ∧ done ≤ last ∧
    ∀ index, first ≤ index → index < done → bitmap index &&& 1 ≠ 0

variable {inner : Inner} {view : View}

theorem scanning_start (hle : first ≤ last) :
    Scanning page bitmap first last inner view (first * page) inner [view] := by
  refine ⟨rfl, rfl, first, rfl, le_rfl, hle, fun index hfirst hlt => ?_⟩
  omega

/-- The end of the loop. -/
def Scanned (page size : ℕ) (bitmap : ℕ → Byte) (refuses : Prop) (first last : ℕ) (inner : Inner)
    (view : View) : Post Inner Raised (List View) Bool := fun result inner' live =>
  inner' = inner ∧ live = [view] ∧ ∃ answer, result = .ok answer ∧
    Verdict refuses inner.fd (PagesResident page size bitmap first last) answer

/-- A page that is not resident is judged by the size of the file. -/
theorem meets_cold {done count index : ℕ}
    (hcold : index < count ∧ bitmap (done + index) &&& 1 = 0 ∧
      ∀ before < index, bitmap (done + before) &&& 1 ≠ 0)
    (hfirst : first ≤ done) (hwithin : done + count ≤ last)
    (hresident : ∀ index, first ≤ index → index < done → bitmap index &&& 1 ≠ 0) :
    (do
      let self ← .state
      let size ← fileSize self.fd
      pure (.inr (size.any fun size => size ≤ done * page + index * page)) :
        FastProg Inner (ℕ ⊕ Bool)).meets
      (mappings page size bitmap refuses) (InBounds page)
      (Prog.rounds (Scanning page bitmap first last inner view)
        (Scanned page size bitmap refuses first last inner view)) inner [view] := by
  obtain ⟨hindex, hflag, hbefore⟩ := hcold
  rw [Prog.bind_eq_bind, Prog.meets_bind, Prog.meets_state, Prog.leadsTo_ok, Prog.bind_eq_bind,
    Prog.meets_bind, ← Nat.add_mul]
  refine meets_fileSize ?_ fun hfails => ?_
  · refine ⟨rfl, rfl, _, rfl, fun htrue other hle _ hdata => ?_, fun _ _ hall => ?_⟩
    · have hsize : size ≤ (done + index) * page := by simpa using htrue
      have hother : other < done + index := Nat.lt_of_mul_lt_mul_right (hdata.trans_le hsize)
      rcases Nat.lt_or_ge other done with hdone | hdone
      · exact hresident other hle hdone
      · have hresident' := hbefore (other - done) (by omega)
        rwa [Nat.add_sub_cancel' hdone] at hresident'
    · rw [Option.any_some, decide_eq_true_iff, ← not_lt]
      exact fun hdata => hall (done + index) (by omega) (by omega) hdata hflag
  · refine ⟨rfl, rfl, false, rfl, Verdict.of_fails fun hreliable hfd => ?_⟩
    rcases hfails with hrefuses | hneg
    · exact hreliable hrefuses
    · omega

theorem meets_residentRound (hpage : 0 < page) (hmapped : Mapped page view)
    (hlast : last * page ≤ view.len) {off : ℕ} {inner' : Inner} {live : List View}
    (hscanning : Scanning page bitmap first last inner view off inner' live) :
    (Inner.residentRound page view.addr (last * page) off).meets
      (mappings page size bitmap refuses) (InBounds page)
      (Prog.rounds (Scanning page bitmap first last inner view)
        (Scanned page size bitmap refuses first last inner view)) inner' live := by
  obtain ⟨rfl, rfl, done, rfl, hfirst, hdone, hresident⟩ := hscanning
  unfold Inner.residentRound
  split
  · next hmore =>
      have hlt : done < last := Nat.lt_of_mul_lt_mul_right hmore
      have hchunk : min (last * page - done * page) (FLAGS_PER_CALL * page) =
          min (last - done) FLAGS_PER_CALL * page := by
        rw [← Nat.sub_mul, Nat.mul_min_mul_right]
      rw [hchunk]
      generalize hcount : min (last - done) FLAGS_PER_CALL = count
      have hwithin : done + count ≤ last := by omega
      have hcontains : view.Contains (view.addr + done * page) (count * page) := by
        refine ⟨Nat.le_add_right _ _, ?_⟩
        rw [Nat.add_assoc, ← Nat.add_mul]
        exact Nat.add_le_add_left ((Nat.mul_le_mul_right page hwithin).trans hlast) _
      dsimp only
      rw [Prog.bind_eq_bind, Prog.meets_bind, ask, Prog.meets_await]
      refine ⟨⟨⟨view, List.mem_singleton_self view, hcontains⟩, ?_, dvd_mul_left _ _, ?_⟩, ?_⟩
      · exact (Nat.dvd_add_right hmapped.addr).mpr (dvd_mul_left _ _)
      · rw [Nat.mul_div_cancel _ hpage]
        omega
      · rintro _ _ ⟨rfl, ⟨other, hother, -, rfl⟩ | ⟨hrefuses, errno, rfl⟩⟩
        · rw [List.mem_singleton.mp hother, flags_pages hpage, Prog.leadsTo_ok]
          dsimp only
          rw [Nat.mul_div_cancel _ hpage, List.take_of_length_le (by simp)]
          cases hcold : coldPage ((List.range count).map fun index => bitmap (done + index)) with
          | none =>
              have hdone' : done * page + count * page = (done + count) * page :=
                (Nat.add_mul ..).symm
              refine ⟨rfl, rfl, done + count, hdone', by omega, hwithin, fun index hle hlt => ?_⟩
              rcases Nat.lt_or_ge index done with hbefore | hafter
              · exact hresident index hle hbefore
              · have hflag := coldPage_eq_none hcold (show index - done < count by omega)
                rwa [Nat.add_sub_cancel' hafter] at hflag
          | some index =>
              exact meets_cold (coldPage_eq_some hcold) hfirst hwithin hresident
        · refine ⟨rfl, rfl, false, rfl, Verdict.of_fails fun hreliable _ => ?_⟩
          rcases hrefuses with hrefuses | hnone
          · exact hreliable hrefuses
          · exact hnone view (List.mem_singleton_self view) hcontains
  · next hend =>
      have heq : done = last := by
        refine le_antisymm hdone ?_
        exact Nat.le_of_mul_le_mul_right (not_lt.mp hend) hpage
      subst heq
      refine ⟨rfl, rfl, true, rfl, fun _ index hle hlt _ => hresident index hle hlt, ?_⟩
      exact fun _ _ _ => rfl

end Rounds

/-! ## The whole check -/

section Check

variable {page size : ℕ} {bitmap : ℕ → Byte} {refuses : Prop} {inner : Inner} {live : List View}
  {pos len : ℕ}

/-- What needs a view of the range, or else is declined. -/
def withView {γ : Type} (page pos len : ℕ) (declined : γ) (onView : View → ℕ → FastProg Inner γ) :
    FastProg Inner γ :=
  match checkedAdd pos len with
  | none => pure declined
  | some stop => do
      if ← Inner.ensureView page stop then do
        let self ← .state
        match self.view with
        | none => pure declined
        | some view => onView view stop
      else pure declined

theorem resident_eq_withView (page pos len : ℕ) :
    Inner.resident page pos len = withView page pos len false fun view stop =>
      .repeatUntil (Inner.residentRound page view.addr ((stop + (page - 1)) / page * page))
        (pos / page * page) := rfl

theorem canMap_fits (hvalid : Valid page inner live) {stop : ℕ}
    (hmap : CanMap page size inner stop) : stop < 2 ^ 64 := by
  rcases hmap with hcovers | ⟨reserved, hview, hstop⟩
  · obtain ⟨view, hheld, hlen⟩ := (Option.any_eq_true ..).mp hcovers
    exact (of_decide_eq_true hlen).trans_lt (hvalid.mapped view hheld).below
  · exact hstop.trans_lt (viewLen_eq_some hview).1

theorem meets_withView (hpage : page ∣ HEADROOM) (hvalid : Valid page inner live) {γ : Type}
    {declined : γ} {onView : View → ℕ → FastProg Inner γ} {post : Post Inner Raised (List View) γ}
    (hdeclined : ∀ inner' live', Valid page inner' live' →
      (¬refuses → 0 ≤ inner.fd → ¬CanMap page size inner (pos + len)) →
      post (.ok declined) inner' live')
    (honView : ∀ inner' view, inner'.view = some view → Mapped page view →
      inner'.fd = inner.fd → pos + len ≤ view.len →
      (onView view (pos + len)).meets (mappings page size bitmap refuses) (InBounds page) post
        inner' [view]) :
    (withView page pos len declined onView).meets (mappings page size bitmap refuses)
      (InBounds page) post inner live := by
  unfold withView checkedAdd
  split
  · next hnone =>
      apply hdeclined inner live hvalid
      intro _ _ hmap
      rw [if_pos (canMap_fits hvalid hmap)] at hnone
      cases hnone
  · next stop hstop =>
      rw [Option.ite_none_right_eq_some, Option.some.injEq] at hstop
      obtain ⟨-, rfl⟩ := hstop
      rw [Prog.bind_eq_bind, Prog.meets_bind]
      refine Prog.meets_mono _ ?_ (meets_ensureView hpage hvalid (pos + len))
      rintro _ ⟨fd, view⟩ live' ⟨covered, rfl, hensured⟩
      rw [Prog.leadsTo_ok]
      cases covered with
      | false =>
          apply hdeclined _ _ hensured.valid
          intro hreliable hfd hmap
          cases hensured.builds hreliable hfd hmap
      | true =>
          cases view with
          | none => cases hensured.covers
          | some view =>
              rw [hensured.valid.held]
              apply honView ⟨fd, some view⟩ view rfl (hensured.valid.mapped view rfl) hensured.fd
              exact of_decide_eq_true hensured.covers.symm

/-- What a whole check comes to. -/
structure Checked (page size : ℕ) (bitmap : ℕ → Byte) (refuses : Prop) (inner : Inner)
    (pos len : ℕ) (answer : Bool) (inner' : Inner) (live' : List View) : Prop where
  valid : Valid page inner' live'
  sound : 0 < len → answer = true → DataResident page size bitmap pos len
  complete : 0 < len → ¬refuses → 0 ≤ inner.fd → CanMap page size inner (pos + len) →
    DataResident page size bitmap pos len → answer = true

theorem meets_resident (hpage : page ∣ HEADROOM) (hvalid : Valid page inner live) :
    (Inner.resident page pos len).meets (mappings page size bitmap refuses) (InBounds page)
      (fun result inner' live' => ∃ answer, result = .ok answer ∧
        Checked page size bitmap refuses inner pos len answer inner' live') inner live := by
  have hpos : 0 < page := Nat.pos_of_dvd_of_pos hpage (by decide)
  rw [resident_eq_withView]
  refine meets_withView hpage hvalid (fun inner' live' hvalid' hfails => ?_) ?_
  · refine ⟨false, rfl, hvalid', fun _ htrue => (by cases htrue), ?_⟩
    exact fun _ hreliable hfd hmap => absurd hmap (hfails hreliable hfd)
  · intro inner' view hview hmapped hfd hcovers
    have hlast := hmapped.ceil_le_len hpos hcovers
    refine Prog.meets_mono _ ?_ (Prog.meets_loop (Scanning page bitmap (pos / page)
      ((pos + len + (page - 1)) / page) inner' view)
      (fun off inner' live' hscanning => meets_residentRound hpos hmapped hlast hscanning) ?_)
    · rintro _ inner' live' ⟨rfl, rfl, answer, rfl, hsound, hcomplete⟩
      refine ⟨answer, rfl, ⟨by rw [hview]; rfl, ?_⟩, fun hlen htrue => ?_, ?_⟩
      · intro other hother
        rw [hview, Option.some.injEq] at hother
        exact hother ▸ hmapped
      · exact (dataResident_iff hpos hlen).mpr (hsound htrue)
      · intro hlen hreliable hopen _ hdata
        exact hcomplete hreliable (hfd ▸ hopen) ((dataResident_iff hpos hlen).mp hdata)
    · exact scanning_start (Nat.div_le_div_right (by omega))

/-! ## No overflow -/

/-- While the loop stays in the mapping no sum or product overflows. -/
theorem strictRound_eq {view : View} (hpage : page ∣ HEADROOM) (hmapped : Mapped page view)
    {done last : ℕ} (hlast : last * page ≤ view.len) :
    strictRound page view.addr (last * page) (done * page) =
      (Inner.residentRound page view.addr (last * page) (done * page)).bind fun result =>
        .done (Sum.map id some result) := by
  have hbelow := hmapped.below
  have hfits := hmapped.fits
  have hpos : 0 < page := Nat.pos_of_dvd_of_pos hpage (by decide)
  have hsmall : page ≤ 2 ^ 20 := Nat.le_of_dvd (by decide) hpage
  have hbatch : checkedMul FLAGS_PER_CALL page = some (FLAGS_PER_CALL * page) := by
    rw [checkedMul, if_pos]
    change 256 * page < 2 ^ 64
    omega
  unfold strictRound Inner.residentRound
  split
  · next hmore =>
      have hstart : checkedAdd view.addr (done * page) = some (view.addr + done * page) := by
        rw [checkedAdd, if_pos (by omega)]
      rw [hbatch, hstart]
      dsimp only
      generalize hchunk : min (last * page - done * page) (FLAGS_PER_CALL * page) = chunk
      have hwithin : done * page + chunk ≤ last * page := by omega
      refine congrArg (Prog.call _) (funext fun answer => ?_)
      rcases answer with error | errno | flags
      · rfl
      · rfl
      · dsimp only [Prog.bind_eq_bind, Prog.bind]
        cases hcold : coldPage (flags.take (chunk / page)) with
        | none =>
            have hnext : checkedAdd (done * page) chunk = some (done * page + chunk) := by
              rw [checkedAdd, if_pos (by omega)]
            dsimp only
            rw [hnext]
            rfl
        | some index =>
            have hlt : index < chunk / page := by
              obtain ⟨hlength, -⟩ := List.findIdx?_eq_some_iff_getElem.mp hcold
              rw [List.length_take] at hlength
              exact hlength.trans_le (min_le_left _ _)
            have hindex : index * page < chunk := by
              exact (Nat.mul_lt_mul_of_pos_right hlt hpos).trans_le (Nat.div_mul_le_self chunk page)
            have hcold' : (checkedMul index page).bind (checkedAdd (done * page)) =
                some (done * page + index * page) := by
              rw [checkedMul, if_pos (by omega), Option.bind_some, checkedAdd, if_pos (by omega)]
            dsimp only
            rw [hcold', Prog.bind_assoc]
            refine congrArg (Prog.bind Prog.state) (funext fun self => ?_)
            rw [Prog.bind_assoc]
            rfl
  · rfl

theorem checkedMul_floor {n : ℕ} (hn : n < 2 ^ 64) (page : ℕ) :
    checkedMul (n / page) page = some (n / page * page) := by
  rw [checkedMul, if_pos ((Nat.div_mul_le_self n page).trans_lt hn)]

theorem meets_strictResident (hpage : page ∣ HEADROOM) (hvalid : Valid page inner live) :
    (strictResident page pos len).meets (mappings page size bitmap refuses) (InBounds page)
      (fun result _ _ => ∃ answer, result = .ok (some answer)) inner live := by
  have hpos : 0 < page := Nat.pos_of_dvd_of_pos hpage (by decide)
  change (withView page pos len (some false) fun view stop => _).meets _ _ _ _ _
  refine meets_withView hpage hvalid (fun _ _ _ _ => ⟨false, rfl⟩) ?_
  intro inner' view _ hmapped _ hcovers
  have hbelow := hmapped.below
  have hlast := hmapped.ceil_le_len hpos hcovers
  have hround : checkedMul ((pos + len + (page - 1)) / page) page =
      some ((pos + len + (page - 1)) / page * page) := by
    rw [checkedMul, if_pos (hlast.trans_lt hbelow)]
  rw [checkedMul_floor (by omega), hround]
  refine Prog.meets_loop (Scanning page bitmap (pos / page)
    ((pos + len + (page - 1)) / page) inner' view) (fun off inner' live' hscanning => ?_) ?_
  · obtain ⟨done, rfl, -⟩ := hscanning.pages
    rw [strictRound_eq hpage hmapped hlast, Prog.meets_bind]
    refine Prog.meets_mono _ ?_ (meets_residentRound hpos hmapped hlast hscanning)
    rintro (error | next | answer) inner' live' hresult
    · obtain ⟨-, -, answer, herror, -⟩ := hresult
      cases herror
    · exact hresult
    · exact ⟨answer, rfl⟩
  · exact scanning_start (Nat.div_le_div_right (by omega))

/-! ## What calls leave -/

theorem valid_fileSize {fd : ℤ} (hvalid : Valid page inner live) :
    (fileSize fd).meets (mappings page size bitmap refuses) (InBounds page)
      (fun _ => Valid page) inner live :=
  meets_fileSize hvalid fun _ => hvalid

/-- Reading leaves the view alone. -/
theorem valid_fillLoop {fd : ℤ} (hvalid : Valid page inner live) :
    (fillLoop (fun offset n => ask (.pread fd offset n)) pos len).meets
      (mappings page size bitmap refuses) (InBounds page) (fun _ => Valid page) inner live := by
  refine Prog.meets_loop (fun _ => Valid page) (fun filled inner live hvalid => ?_) hvalid
  unfold fillRound
  split
  · cases kernelOffset pos filled.length with
    | none => exact hvalid
    | some offset =>
        dsimp only
        rw [Prog.bind_eq_bind, Prog.meets_bind, ask, Prog.meets_await]
        refine ⟨trivial, ?_⟩
        rintro (error | errno | data) _ rfl
        · exact hvalid
        · cases errno <;> exact hvalid
        · rw [Prog.leadsTo_ok]
          dsimp only
          split <;> exact hvalid
  · exact hvalid

theorem Method.meets (hpage : page ∣ HEADROOM) {α : Type} {prog : FastProg Inner α}
    (hmethod : Method page prog) (hvalid : Valid page inner live) :
    prog.meets (mappings page size bitmap refuses) (InBounds page) (fun _ => Valid page)
      inner live := by
  cases hmethod with
  | size => exact valid_fileSize hvalid
  | fill pos len =>
      rw [Inner.fill, Prog.bind_eq_bind, Prog.meets_bind]
      refine Prog.meets_mono _ ?_ (meets_resident hpage hvalid)
      rintro _ inner' live' ⟨answer, rfl, hchecked⟩
      cases answer with
      | false => exact hchecked.valid
      | true => exact valid_fillLoop hchecked.valid
  | atEof size =>
      rw [Inner.atEof, Prog.bind_eq_bind, Prog.meets_bind, Prog.meets_state, Prog.leadsTo_ok,
        Prog.bind_eq_bind, Prog.meets_bind]
      exact meets_fileSize hvalid fun _ => hvalid
  | supported =>
      change (if inner.view.isSome then pure true else _ : FastProg Inner Bool).meets _ _ _ _ _
      split
      · exact hvalid
      · refine Prog.meets_mono _ ?_ (meets_ensureView hpage hvalid 0)
        rintro _ inner' live' ⟨covered, rfl, hensured⟩
        exact hensured.valid

theorem Left.valid (hpage : page ∣ HEADROOM) (hleft : Left page inner live) :
    Valid page inner live := by
  induction hleft with
  | new fd =>
      refine ⟨rfl, fun view hview => ?_⟩
      cases hview
  | call _ hmethod hends ih =>
      exact Prog.wlp_ends hends (Prog.wlp_of_meets _ (hmethod.meets hpage ih))

/-! ## Every run of the check ends -/

variable {env : Env kernel Raised (List View)}

theorem halts_fileSize (fd : ℤ) : Prog.Halts env (fileSize fd : FastProg Inner (Option ℕ)) := by
  unfold fileSize
  split
  · exact Prog.halts_done none
  · exact (Prog.halts_await _).bind fun stat => Prog.halts_done _

theorem halts_replaceView (view : View) : Prog.Halts env (Inner.replaceView view) := by
  refine Prog.halts_state.bind fun self => (Prog.halts_modify _).bind fun _ => ?_
  cases self.view with
  | none => exact Prog.halts_done ()
  | some old => exact Prog.halts_await _

theorem halts_ensureView (stop : ℕ) : Prog.Halts env (Inner.ensureView page stop) := by
  refine Prog.halts_state.bind fun self => ?_
  split
  · exact Prog.halts_done true
  · refine (halts_fileSize self.fd).bind fun size => ?_
    cases size with
    | none => exact Prog.halts_done false
    | some size =>
        dsimp only
        cases viewLen page size with
        | none => exact Prog.halts_done false
        | some reserved =>
            dsimp only
            split
            · exact Prog.halts_done false
            · refine (Prog.halts_await _).bind fun answer => ?_
              cases answer with
              | error errno => exact Prog.halts_done false
              | ok addr =>
                  exact (halts_replaceView _).bind fun _ =>
                    Prog.halts_state.bind fun _ => Prog.halts_done _

/-- A round looks at one page at least. -/
theorem residentRound_shrinks (hpage : 0 < page) (addr last off : ℕ) :
    (Inner.residentRound page addr last off).wp env (Prog.shrinks (last - ·) off) inner live := by
  unfold Inner.residentRound
  split
  · next hmore =>
      rw [Prog.bind_eq_bind, Prog.wp_bind, ask, Prog.wp_await]
      rintro (error | errno | flags) next -
      · trivial
      · trivial
      · rw [Prog.after_ok]
        dsimp only
        split
        · have hbatch : 0 < FLAGS_PER_CALL * page := Nat.mul_pos (by decide) hpage
          change last - (off + min (last - off) (FLAGS_PER_CALL * page)) < last - off
          omega
        · rw [Prog.bind_eq_bind, Prog.wp_bind, Prog.wp_state, Prog.after_ok, Prog.bind_eq_bind,
            Prog.wp_bind]
          refine Prog.wp_mono _ ?_ (halts_fileSize _ _ _)
          rintro (error | size) _ _ -
          · trivial
          · trivial
  · trivial

theorem halts_resident (hpage : 0 < page) (pos len : ℕ) :
    Prog.Halts env (Inner.resident page pos len) := by
  rw [resident_eq_withView, withView]
  split
  · exact Prog.halts_done false
  · refine (halts_ensureView _).bind fun covered => ?_
    split
    · refine Prog.halts_state.bind fun self => ?_
      cases self.view with
      | none => exact Prog.halts_done false
      | some view =>
          exact Prog.Halts.loop _ (fun off _ _ => residentRound_shrinks hpage view.addr _ off) _
    · exact Prog.halts_done false

/-- Whatever view earlier calls left, the check is exact and in bounds. -/
theorem residency_exact (hpage : page ∣ HEADROOM) (hleft : Left page inner live)
    (hlen : 0 < len) : ResidencyExact page size bitmap inner live pos len where
  sound refuses result last final hends htrue := by
    have hwlp := Prog.wlp_ends hends
      (Prog.wlp_of_meets _ (meets_resident hpage (hleft.valid hpage)))
    obtain ⟨answer, rfl, hchecked⟩ := hwlp
    exact hchecked.sound hlen (Except.ok.inj htrue)
  complete hfd hmap hdata := by
    have hpos : 0 < page := Nat.pos_of_dvd_of_pos hpage (by decide)
    have hmeets := @meets_resident page size bitmap False inner live pos len hpage
      (hleft.valid hpage)
    refine Prog.wp_mono _ ?_ (Prog.wp_and_meets _ (halts_resident hpos pos len _ _) hmeets)
    rintro _ _ _ ⟨-, answer, rfl, hchecked⟩
    rw [hchecked.complete hlen not_false hfd hmap hdata]
  inBounds refuses c mid hreach :=
    Prog.meets_reaches hreach (meets_resident hpage (hleft.valid hpage))
  fits refuses result last final hends := by
    have hwlp := Prog.wlp_ends hends
      (Prog.wlp_of_meets _ (meets_strictResident hpage (hleft.valid hpage)))
    obtain ⟨answer, rfl⟩ := hwlp
    simp
  rounds padded hpadded := by
    rw [checkedAdd, Option.ite_none_right_eq_some, Option.some.injEq] at hpadded
    exact checkedMul_floor (hpadded.2 ▸ hpadded.1) page

/-- A fresh `FastPath` on a file of 5000 bytes that is all resident, and a range
that goes past its end. -/
theorem residency_exact_fresh :
    ResidencyExact 4096 5000 (fun _ => 1) (.new 3) [] 100 9000 ∧
      (Inner.resident 4096 100 9000).wp (mappings 4096 5000 (fun _ => 1) False)
        (fun result _ _ => result = .ok true) (.new 3) [] := by
  have hexact : ResidencyExact 4096 5000 (fun _ => 1) (.new 3) [] 100 9000 :=
    residency_exact (by decide) (.new 3) (by decide)
  refine ⟨hexact, hexact.complete (by decide) (.inr ⟨8192 + HEADROOM, by decide, by decide⟩) ?_⟩
  exact fun _ _ _ _ => show (1 : Byte) &&& 1 ≠ 0 by decide

end Check

end Turbofile.FastPath.Darwin
