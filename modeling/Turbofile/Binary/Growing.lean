import Turbofile.Binary.BinaryFile
import Turbofile.FastPath.Growing

/-!
# Read-all of a growing file

The three routes by which everything to the end of a file is read, while other
writers append to it.  Large files go through `read_to_eof_parallel`: a size
snapshot, a parallel fill and, unless a second look finds the same size, reads
until one comes back empty.
-/

namespace Turbofile.Binary

open Turbofile.Core
open Turbofile.Coroutine
open Turbofile.Growth

/-- At some moment between two the content of the file was such. -/
def AtMoment (before after : List Bytes) (holds : Bytes → Prop) : Prop :=
  ∃ moment, Grows before moment ∧ Grows moment after ∧ holds (now moment)

/-- What the calls of `read_to_eof_parallel` answer of a file that grows
meanwhile: contiguous bytes, short or empty only at the end of their moment. -/
def BridgeCall.tells (before after : List Bytes) :
    (c : BridgeCall) → Except PyError c.Answer → Prop
  | .fastSize _, .ok answer => ∀ size, answer = some size →
      AtMoment before after fun content => content.length = size
  | .size _, .ok answer => AtMoment before after fun content => content.length = answer
  | .readParallel _ pos count _, .ok data => data <+: (now after).drop pos ∧
      data.length ≤ count ∧ (data.length < count → AtMoment before after fun content =>
        content.length ≤ pos + data.length)
  | .readToEnd _ pos, .ok data => AtMoment before after fun content => data = content.drop pos
  | _, _ => True

def growing : Env bridge PyError (List Bytes) := fun c before answer after =>
  Grows before after ∧ c.tells before after answer

/-- What the ways to read a whole file return as data, while it grows from
`content` on: all it held at one moment, for the inline ones a moment at which
that was confirmed. -/
structure SeesMoment (content : Bytes) : Prop where
  readAll : ∀ (os : FastPath.Os) start inner shown result last final,
    Ends FastPath.growing (FastPath.readAll os.platform start) inner ⟨[content], shown⟩
      result last final →
    ∀ data, result = .ok (some data) → FastPath.Confirmed start data final
  readFile : ∀ path inner shown result last final,
    Ends FastPath.growing (FastPath.readFile path) inner ⟨[content], shown⟩ result last final →
    ∀ data, result = .ok (some data) → FastPath.Confirmed 0 data final
  readToEofParallel : ∀ handle fd fast start file result last final,
    Ends growing (readToEofParallel handle fd fast start) file [content] result last final →
    ∀ data, result = .ok data → ∃ moment ∈ final, data = moment.drop start

section ReadToEof

variable {handle : Handle} {fd : Fd} {fast : Bool} {start : ℕ} {file : BinaryFile}
  {history : List Bytes}

theorem tells_ask (c : BridgeCall) :
    (ask c).wlp growing (Leads Grows history fun answer next => c.tells history next (.ok answer))
      file history := by
  rw [ask, Prog.wlp_await]
  rintro answer next ⟨hgrows, htells⟩
  refine ⟨hgrows, ?_⟩
  rintro value rfl
  exact htells

theorem AtMoment.length_le {next : List Bytes} {size : ℕ}
    (hmoment : AtMoment history next fun content => content.length = size) :
    (now history).length ≤ size ∧ size ≤ (now next).length := by
  obtain ⟨moment, hgrows, hgrows', rfl⟩ := hmoment
  exact ⟨hgrows.length_le, hgrows'.length_le⟩

/-- What the file held from `start` on at one of the moments. -/
def Held (start : ℕ) (data : Bytes) (next : List Bytes) : Prop :=
  ∃ content ∈ next, data = content.drop start

theorem tells_inlineSize :
    (inlineSize fd fast).wlp growing
      (Leads Grows history fun answer next => ∀ size, answer = some size →
        AtMoment history next fun content => content.length = size) file history := by
  unfold inlineSize
  split
  · exact tells_ask (.fastSize fd)
  · apply leads_done
    rintro _ ⟨⟩

/-- A size that the file had at some moment before. -/
theorem tells_sizeSnapshot :
    (sizeSnapshot handle fd fast).wlp growing
      (Leads Grows history fun size next => size ≤ (now next).length) file history := by
  refine Leads.bind tells_inlineSize fun answer file' next _ hsize => ?_
  cases answer with
  | none =>
      refine Prog.wlp_mono _ ?_ (tells_ask (.size handle))
      exact fun _ _ _ hleads => hleads.mono fun _ hmoment => hmoment.length_le.2
  | some size => exact leads_done (hsize size rfl).length_le.2

/-- Between the reads to the end: the parts so far, and the offset after them. -/
structure Gathered (start : ℕ) (history : List Bytes) (value : List Bytes × ℕ)
    (next : List Bytes) : Prop where
  grows : Grows history next
  offset : value.2 = start + value.1.flatten.length
  piece : value.1.flatten <+: (now next).drop start

/-- One read to the end; an empty one shows that the parts are all there is. -/
theorem tells_readTail {parts : List Bytes} {offset : ℕ} (hne : history ≠ [])
    (hoffset : offset = start + parts.flatten.length)
    (hparts : parts.flatten <+: (now history).drop start) :
    (readTail handle (parts, offset)).wlp growing
      (Prog.rounds (fun value _ => Gathered start history value)
        (Leads Grows history (Held start))) file history := by
  subst hoffset
  simp only [readTail, Prog.bind_eq_bind, Prog.wlp_bind]
  refine Prog.wlp_mono _ ?_ (tells_ask (.readToEnd handle (start + parts.flatten.length)))
  rintro (error | tail) file' next ⟨hgrows, htells⟩
  · refine ⟨hgrows, ?_⟩
    rintro _ ⟨⟩
  · obtain ⟨moment, hbefore, hafter, htail⟩ := htells tail rfl
    have hpiece := hbefore.piece hparts
    rw [Prog.afterwards_ok]
    split
    · next hempty =>
        rw [List.isEmpty_iff.mp hempty, eq_comm, List.drop_eq_nil_iff] at htail
        have hwhole : parts.flatten = (now moment).drop start :=
          eq_drop_of_piece hpiece (by omega)
        refine ⟨hgrows, ?_⟩
        rintro _ ⟨⟩
        exact ⟨now moment, hafter.subset (now_mem (hbefore.ne_nil hne)), hwhole⟩
    · have hboth : parts.flatten ++ tail <+: (now moment).drop start :=
        piece_append hpiece (htail ▸ List.prefix_refl _)
      refine ⟨hgrows, ?_, ?_⟩
      · simp [Nat.add_assoc]
      · simpa using hafter.piece hboth

theorem tells_readTails {first : Bytes} (hne : history ≠ [])
    (hfirst : first <+: (now history).drop start) :
    (Prog.repeatUntil (readTail handle) ([first], start + first.length)).wlp growing
      (Leads Grows history (Held start)) file history := by
  refine Prog.wlp_repeatUntil (fun value _ => Gathered start history value) ?_
    ⟨Std.Refl.refl history, by simp, by simpa using hfirst⟩
  rintro ⟨parts, offset⟩ file' next ⟨hgrows, hoffset, hparts⟩
  refine Prog.wlp_mono _ ?_ (tells_readTail (hgrows.ne_nil hne) hoffset hparts)
  rintro (error | value | data) file'' last hresult
  · exact ⟨hgrows.trans hresult.1, hresult.2⟩
  · exact ⟨hgrows.trans hresult.grows, hresult.offset, hresult.piece⟩
  · exact ⟨hgrows.trans hresult.1, hresult.2⟩

/-- The fill never comes back short: the file was that long before it. -/
theorem tells_readToEofParallel (hne : history ≠ []) :
    (readToEofParallel handle fd fast start).wlp growing (Leads Grows history (Held start))
      file history := by
  refine Leads.bind tells_sizeSnapshot fun sizeNow file' next hgrows hsize => ?_
  refine Leads.bind (tells_ask (.readParallel handle start (sizeNow - start) PARALLEL_CHUNK))
    fun first file'' later hgrows' ⟨hfirst, hle, hshort⟩ => ?_
  have hfull : ¬first.length < sizeNow - start := by
    intro hlt
    obtain ⟨moment, hbefore, -, hlength⟩ := hshort hlt
    have hlater := hbefore.length_le
    omega
  rw [if_neg hfull]
  have hne' : later ≠ [] := hgrows'.ne_nil (hgrows.ne_nil hne)
  refine Leads.bind tells_inlineSize fun confirmed file''' last hgrows'' hconfirmed => ?_
  split
  · next hsame =>
      obtain ⟨moment, hbefore, hafter, hlength⟩ := hconfirmed sizeNow hsame
      apply leads_done
      refine ⟨now moment, hafter.subset (now_mem (hbefore.ne_nil hne')), ?_⟩
      exact eq_drop_of_piece (hbefore.piece hfirst) (by omega)
  · exact tells_readTails (hgrows''.ne_nil hne') (hgrows''.piece hfirst)

end ReadToEof

/-- However appends fall between the calls of a read-all, it sees the file as it
was at one moment. -/
theorem seesMoment (content : Bytes) : SeesMoment content where
  readAll os start inner shown result last final hends data hdata := by
    obtain ⟨hgrown, hended⟩ := Prog.wlp_ends hends os.honest.tells_readAll
    exact FastPath.confirmed_of_ended (List.cons_ne_nil _ _) hgrown (hended _ hdata) rfl
  readFile path inner shown result last final hends data hdata :=
    Prog.wlp_ends hends (FastPath.confirmed_readFile path (List.cons_ne_nil _ _)) data hdata
  readToEofParallel handle fd fast start file result last final hends data hdata :=
    (Prog.wlp_ends hends (tells_readToEofParallel (List.cons_ne_nil _ _))).2 data hdata

/-! ## Three runs -/

section Appended

variable {world : FastPath.Growing} {c : FastPath.SysCall}
  {answer : Except FastPath.Raised c.Answer}

/-- An answer about the file as it is. -/
theorem growing_same (htells : c.tells world.now answer) :
    FastPath.growing c world answer ⟨world.history, c.shows world.shown answer⟩ :=
  ⟨Std.Refl.refl world.history, htells, rfl⟩

/-- An answer after an append. -/
theorem growing_append (data : Bytes) (htells : c.tells (world.now ++ data) answer) :
    FastPath.growing c world answer
      ⟨(world.now ++ data) :: world.history, c.shows world.shown answer⟩ :=
  ⟨.single ⟨data, rfl⟩, htells, rfl⟩

/-- A byte is appended before the first look; the read starts at the second byte. -/
theorem ends_readAll : ∃ last final,
    Ends FastPath.growing (FastPath.readAll FastPath.Platform.linux 1) ⟨3⟩
      ⟨[[1, 2]], fun _ => False⟩ (.ok (some [2, 3])) last final :=
  ⟨_, _,
    .silent rfl <|
    .answered (.fstat 3) (.ok (.ok ⟨3, true⟩)) rfl
      (growing_append [3] fun _ hsize => (Option.some.inj hsize).symm) <|
    .answered (.newBytes 2) (.ok ()) rfl (growing_same trivial) <|
    .silent rfl <|
    .silent rfl <|
    .answered (.preadv2 3 1 2) (.ok (.ok [2, 3])) rfl
      (growing_same ⟨by decide, by decide, by decide⟩) <|
    .silent rfl <|
    .silent rfl <|
    .answered (.preadv2 3 3 1) (.ok (.ok [])) rfl
      (growing_same ⟨by decide, by decide, by decide⟩) <|
    .returned rfl⟩

theorem ends_readOpened : ∃ last shown,
    Ends FastPath.growing FastPath.readOpened ⟨3⟩ ⟨[[1, 2]], fun _ => False⟩
      (.ok (some [1, 2])) last ⟨[[1, 2]], shown⟩ :=
  ⟨_, _,
    .silent rfl <|
    .answered (.fstat 3) (.ok (.ok ⟨2, true⟩)) rfl
      (growing_same fun _ hsize => (Option.some.inj hsize).symm) <|
    .answered (.newBytes 2) (.ok ()) rfl (growing_same trivial) <|
    .silent rfl <|
    .silent rfl <|
    .answered (.preadv2 3 0 2) (.ok (.ok [1, 2])) rfl
      (growing_same ⟨by decide, by decide, by decide⟩) <|
    .silent rfl <|
    .silent rfl <|
    .answered (.preadv2 3 2 1) (.ok (.ok [])) rfl
      (growing_same ⟨by decide, by decide, by decide⟩) <|
    .returned rfl⟩

/-- A byte is appended before the close, after the last look. -/
theorem ends_readFile : ∃ last final,
    Ends FastPath.growing (FastPath.readFile [97]) ⟨0⟩ ⟨[[1, 2]], fun _ => False⟩
      (.ok (some [1, 2])) last final := by
  obtain ⟨last, shown, hopened⟩ := ends_readOpened
  have hclosed : Ends FastPath.growing (FastPath.readOpened.attempt.bind fun result =>
      (FastPath.ask (.close 3)).bind fun _ => FastPath.reraise result) ⟨3⟩
      ⟨[[1, 2]], fun _ => False⟩ (.ok (some [1, 2])) last ⟨[[1, 2, 3], [1, 2]], shown⟩ :=
    .bind (ends_attempt_iff.mpr ⟨_, rfl, hopened⟩) <|
      Ends.answered (.close 3) (.ok ()) rfl (growing_append [3] trivial) (.returned rfl)
  exact ⟨_, _, .answered (.openat2 [97]) (.ok (.ok 3)) rfl (growing_same trivial)
    (.silent rfl (.silent rfl hclosed))⟩

/-- A byte is appended after the fill, and read by itself. -/
theorem ends_readToEofParallel : ∃ last final,
    Ends growing (readToEofParallel 1 3 true 0) (.new 1 3 2 readWrite) [[1, 2]]
      (.ok [1, 2, 3]) last final :=
  ⟨_, _,
    .answered (.fastSize 3) (.ok (some 2)) rfl
      ⟨.refl, fun _ hsize => ⟨[[1, 2]], .refl, .refl, Option.some.inj hsize⟩⟩ <|
    .answered (.readParallel 1 0 2 PARALLEL_CHUNK) (.ok [1, 2]) rfl
      ⟨.refl, by decide, by decide, fun hlt => absurd hlt (by decide)⟩ <|
    .answered (.fastSize 3) (.ok (some 3)) rfl
      ⟨.single ⟨[3], rfl⟩, fun _ hsize =>
        ⟨[[1, 2, 3], [1, 2]], .single ⟨[3], rfl⟩, .refl, Option.some.inj hsize⟩⟩ <|
    .silent rfl <|
    .answered (.readToEnd 1 2) (.ok [3]) rfl
      ⟨.refl, ⟨[[1, 2, 3], [1, 2]], .refl, .refl, rfl⟩⟩ <|
    .silent rfl <|
    .answered (.readToEnd 1 3) (.ok []) rfl
      ⟨.refl, ⟨[[1, 2, 3], [1, 2]], .refl, .refl, rfl⟩⟩ <|
    .returned rfl⟩

theorem seesMoment_appended :
    (∃ last final, Ends FastPath.growing (FastPath.readAll FastPath.Platform.linux 1) ⟨3⟩
      ⟨[[1, 2]], fun _ => False⟩ (.ok (some [2, 3])) last final ∧
      FastPath.Confirmed 1 [2, 3] final) ∧
    (∃ last final, Ends FastPath.growing (FastPath.readFile [97]) ⟨0⟩
      ⟨[[1, 2]], fun _ => False⟩ (.ok (some [1, 2])) last final ∧
      FastPath.Confirmed 0 [1, 2] final) ∧
    ∃ last final, Ends growing (readToEofParallel 1 3 true 0) (.new 1 3 2 readWrite) [[1, 2]]
      (.ok [1, 2, 3]) last final ∧ ∃ moment ∈ final, [1, 2, 3] = moment.drop 0 := by
  obtain ⟨last, final, hreadAll⟩ := ends_readAll
  obtain ⟨last', final', hreadFile⟩ := ends_readFile
  obtain ⟨last'', final'', hparallel⟩ := ends_readToEofParallel
  refine ⟨⟨last, final, hreadAll, ?_⟩, ⟨last', final', hreadFile, ?_⟩,
    last'', final'', hparallel, ?_⟩
  · exact (seesMoment [1, 2]).readAll .linux 1 _ _ _ _ _ hreadAll _ rfl
  · exact (seesMoment [1, 2]).readFile _ _ _ _ _ _ hreadFile _ rfl
  · exact (seesMoment [1, 2]).readToEofParallel _ _ _ _ _ _ _ _ hparallel _ rfl

end Appended

end Turbofile.Binary
