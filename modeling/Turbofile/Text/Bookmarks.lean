import Turbofile.Library.CoroutineRuns
import Turbofile.Text.Cookies
import Turbofile.Text.Reading

/-!
# Where a text file is

A file that is only read and sought keeps a snapshot from which its decoded
chunk can be decoded again.  So `tell` always finds a cookie for the place, and
`seek` goes back to the place of every cookie that `tell` returned.
-/

namespace Turbofile.Text

open Turbofile.Core
open Turbofile.Coroutine
open Turbofile.Binary
open Turbofile.Codecs

variable {σ κ : Type} {dec : TextDecoder σ} {info : ModeInfo} {file next : TextFile σ κ}
  {content : Bytes} {whole rest : Text} {env : Env bridge PyError Bytes}

/-- A text whose places have cookies: its codec can resume, and its flags and
lengths fit in the fields of a cookie. -/
structure Seekable (dec : TextDecoder σ) (content : Bytes) (whole : Text) : Prop where
  lawful : dec.Lawful
  resumable : dec.Resumable
  flags : ∀ state, (dec.getstate state).2 < 2 ^ 64
  bytes : content.length < 2 ^ 64
  chars : whole.length < 2 ^ 64
  decodes : ∃ last, dec.decode dec.initial content true = .ok (whole, last)

/-! ## Snapshots -/

/-- The decoded chunk of the file, and where its snapshot says it came from. -/
inductive Chunk (dec : TextDecoder σ) (content : Bytes) (whole : Text) (file : TextFile σ κ) : Prop
  | none (hsnapshot : file.snapshot = Option.none) (hdecoded : file.decoded = [])
      (hend : IsEnd content whole file.buffer.pos (ahead dec file content))
  | rewound (hsnapshot : file.snapshot = some (0, [])) (hdecoded : file.decoded = [])
      (hpos : file.buffer.pos = 0) (hahead : ahead dec file content = whole)
  | decoded {start flags : ℕ} {input : Bytes} {final : Bool} {state : σ}
      (hdecoder : file.decoder = some state) (hsnapshot : file.snapshot = some (flags, input))
      (hflags : flags < 2 ^ 64) (hpos : file.buffer.pos = start + input.length)
      (hinput : input <+: content.drop start)
      (hstart : dec.Stands content whole start (dec.setstate ([], flags))
        (file.decoded ++ ahead dec file content))
      (hdecode : dec.decode (dec.setstate ([], flags)) input final = .ok (file.decoded, state))
      (hfinal : final = true → file.buffer.pos = content.length)

/-- The file is at a place of the text and knows how it got there. -/
structure Placed (dec : TextDecoder σ) (info : ModeInfo) (content : Bytes) (whole : Text)
    (file : TextFile σ κ) : Prop where
  buffer : Aligned info file.buffer content
  stands : dec.Stands content whole file.buffer.pos (file.decoderState dec)
    (ahead dec file content)
  chunk : Chunk dec content whole file

/-- The place does not depend on the characters handed out or the encoder. -/
theorem Placed.congr (hplaced : Placed dec info content whole file)
    (hbuffer : next.buffer = file.buffer) (hdecoder : next.decoder = file.decoder)
    (hdecoded : next.decoded = file.decoded) (hsnapshot : next.snapshot = file.snapshot) :
    Placed dec info content whole next := by
  have hstate : next.decoderState dec = file.decoderState dec := by
    rw [TextFile.decoderState, hdecoder]
    rfl
  have hahead : ahead dec next content = ahead dec file content := by
    rw [ahead, hstate, hbuffer]
    rfl
  refine ⟨?_, ?_, ?_⟩
  · rw [hbuffer]
    exact hplaced.buffer
  · rw [hbuffer, hstate, hahead]
    exact hplaced.stands
  · cases hplaced.chunk with
    | none hnone hempty hend =>
        refine .none (hsnapshot.trans hnone) (hdecoded.trans hempty) ?_
        rw [hbuffer, hahead]
        exact hend
    | rewound hzero hempty hpos hwhole =>
        refine .rewound (hsnapshot.trans hzero) (hdecoded.trans hempty) ?_
          (hahead.trans hwhole)
        rw [hbuffer]
        exact hpos
    | decoded hmade hsome hflags hpos hinput hstart hdecode hfinal =>
        rw [← hbuffer] at hpos hfinal
        rw [← hdecoded] at hdecode
        refine .decoded (hdecoder.trans hmade) (hsnapshot.trans hsome) hflags hpos hinput ?_
          hdecode hfinal
        rw [hdecoded, hahead]
        exact hstart

/-- Where the decoder stands decides what is ahead. -/
theorem ahead_of_stands {pos : ℕ} {state : σ} (hstands : dec.Stands content whole pos state rest)
    (hpos : next.buffer.pos = pos) (hstate : next.decoderState dec = state) :
    ahead dec next content = rest := by
  obtain ⟨last, hdecodes⟩ := hstands.decodes
  apply ahead_eq
  rw [hpos, hstate]
  exact hdecodes

/-- Without a chunk a file is at an end of the text. -/
theorem Placed.atEnd {pos : ℕ} {state : σ} (hstands : dec.Stands content whole pos state rest)
    (hend : IsEnd content whole pos rest) (hbuffer : Aligned info next.buffer content)
    (hpos : next.buffer.pos = pos) (hstate : next.decoderState dec = state)
    (hsnapshot : next.snapshot = none) (hdecoded : next.decoded = []) :
    Placed dec info content whole next := by
  have hahead := ahead_of_stands hstands hpos hstate
  refine ⟨hbuffer, ?_, .none hsnapshot hdecoded ?_⟩
  · rw [hpos, hstate, hahead]
    exact hstands
  · rw [hpos, hahead]
    exact hend

/-- A chunk decoded from the flags and the bytes of its snapshot. -/
theorem Placed.ofChunk (hseekable : Seekable dec content whole) {start flags : ℕ} {input : Bytes}
    {final : Bool} {state : σ}
    (hstart : dec.Stands content whole start (dec.setstate ([], flags)) rest)
    (hflags : flags < 2 ^ 64) (hinput : input <+: content.drop start)
    (hfinal : final = true → start + input.length = content.length)
    (hdecode : dec.decode (dec.setstate ([], flags)) input final = .ok (next.decoded, state))
    (hbuffer : Aligned info next.buffer content) (hpos : next.buffer.pos = start + input.length)
    (hdecoder : next.decoder = some state) (hsnapshot : next.snapshot = some (flags, input)) :
    Placed dec info content whole next ∧ rest = next.decoded ++ ahead dec next content := by
  obtain ⟨last, hwhole⟩ := hseekable.decodes
  obtain ⟨text, stop, later, htext, hrest, hstop⟩ :=
    hstart.decode hseekable.lawful hseekable.resumable hwhole hinput hfinal
  obtain ⟨rfl, rfl⟩ := Prod.mk.inj (Except.ok.inj (hdecode.symm.trans htext))
  have hstate : next.decoderState dec = state := by rw [TextFile.decoderState, hdecoder]; rfl
  have hahead := ahead_of_stands hstop hpos hstate
  subst hrest
  refine ⟨⟨hbuffer, ?_, .decoded hdecoder hsnapshot hflags hpos hinput ?_ hdecode ?_⟩, ?_⟩
  · rw [hpos, hstate, hahead]
    exact hstop
  · rw [hahead]
    exact hstart
  · rw [hpos]
    exact hfinal
  · rw [hahead]

/-- The end of the file, where a decoder is that gave all its text. -/
theorem stands_last (hseekable : Seekable dec content whole) {pos : ℕ} {state : σ}
    (hstands : dec.Stands content whole pos state rest) :
    ∃ last, dec.decode state (content.drop pos) true = .ok (rest, last) ∧
      dec.Stands content whole content.length last [] := by
  obtain ⟨_, hwhole⟩ := hseekable.decodes
  exact hstands.finish hseekable.lawful hseekable.resumable hwhole

/-! ## Reads -/

/-- A place with a decoder there. -/
structure Decoding (dec : TextDecoder σ) (info : ModeInfo) (content : Bytes) (whole : Text)
    (file : TextFile σ κ) : Prop where
  placed : Placed dec info content whole file
  made : file.decoder ≠ none

/-- What every step of a read keeps. -/
def Stays (dec : TextDecoder σ) (info : ModeInfo) (content : Bytes) (whole : Text) {α : Type} :
    Post (TextFile σ κ) PyError Bytes α :=
  fun _ file world => world = content ∧ Decoding dec info content whole file

/-- Nothing is left to read. -/
def Exhausted (dec : TextDecoder σ) (content : Bytes) (file : TextFile σ κ) : Prop :=
  file.buffer.pos = content.length ∧ ahead dec file content = []

theorem Decoding.used (hdecoding : Decoding dec info content whole file) (used : ℤ) :
    Decoding dec info content whole { file with used := used } :=
  ⟨hdecoding.placed.congr rfl rfl rfl rfl, hdecoding.made⟩

theorem stays_takeChars (hdecoding : Decoding dec info content whole file) (n : Option ℤ) :
    (TextFile.takeChars n).wlp env (Stays dec info content whole) file content := by
  simp only [TextFile.takeChars, Prog.bind_eq_bind, Prog.wlp_bind, Prog.wlp_state,
    Prog.afterwards_ok]
  cases n with
  | none => exact ⟨rfl, hdecoding.used _⟩
  | some n =>
      simp only
      split
      · exact ⟨rfl, hdecoding.used _⟩
      · exact ⟨rfl, hdecoding.used _⟩

/-- A chunk that is read next is decoded again from its snapshot. -/
theorem wp_fill_placed (hserves : Serves env) (hseekable : Seekable dec content whole)
    (hread : info.read = true) (hplaced : Placed dec info content whole file)
    {post : Post (TextFile σ κ) PyError Bytes Bool}
    (hpost : ∀ (more : Bool) (next : TextFile σ κ), Decoding dec info content whole next →
      (more = false → Exhausted dec content next) → post (.ok more) next content) :
    (TextFile.fill dec).wp env post file content := by
  have hlawful := hseekable.lawful
  have hstands := hplaced.stands
  have hsaved := hstands.saved hlawful hseekable.resumable
  simp only [TextFile.fill, Prog.bind_eq_bind, Prog.wp_bind]
  apply wp_theDecoder
  simp only [Prog.after_ok, Prog.wp_bind]
  apply wp_onBuffer
  apply hserves.read1 hplaced.buffer hread
  intro chunk buffer hleading hempty hpos hbuffer
  have hlength : buffer.pos = file.buffer.pos -
      (dec.getstate (file.decoderState dec)).1.length +
        ((dec.getstate (file.decoderState dec)).1 ++ chunk).length := by
    have hheld := hstands.length_held
    rw [hpos, List.length_append]
    omega
  have hend : chunk.isEmpty = true → buffer.pos = content.length := by
    intro hnil
    obtain rfl := List.isEmpty_iff.mp hnil
    have hbehind := List.drop_eq_nil_iff.mp (hempty rfl)
    have hwithin := hstands.within
    have hsame : buffer.pos = file.buffer.pos := hpos
    omega
  have hinput : (dec.getstate (file.decoderState dec)).1 ++ chunk <+:
      content.drop (file.buffer.pos - (dec.getstate (file.decoderState dec)).1.length) := by
    rw [hstands.drop_held]
    exact (List.prefix_append_right_inj _).mpr hleading
  obtain ⟨_, hwhole⟩ := hseekable.decodes
  obtain ⟨text, state, later, hsavedText, -, -⟩ :=
    hsaved.decode hlawful hseekable.resumable hwhole hinput
      (show chunk.isEmpty = true → _ from fun hnil => hlength.symm.trans (hend hnil))
  have hdecode := (hlawful.decode_saved ..).mp hsavedText
  simp only [Prog.after_ok, Prog.wp_bind]
  apply wp_decodePiece
  · exact hdecode
  simp only [Prog.after_ok, Prog.wp_bind, Prog.wp_modify, Prog.pure_eq_done, Prog.wp_done]
  refine hpost _ _ ⟨(Placed.ofChunk hseekable hsaved (hseekable.flags _) hinput
    (fun hnil => hlength.symm.trans (hend hnil)) hsavedText hbuffer hlength rfl rfl).1, ?_⟩ ?_
  · intro hnone
    cases hnone
  intro hlast
  have hnil : chunk.isEmpty = true := by simpa using hlast
  have hnothing : dec.decode state (content.drop buffer.pos) true = .ok ([], state) := by
    rw [hend hnil, List.drop_length]
    rw [hnil] at hdecode
    exact hlawful.ended _ _ _ _ hdecode
  exact ⟨hend hnil, ahead_eq hnothing⟩

/-! ### The loops -/

theorem stays_fillUntilDecoded (hserves : Serves env) (hseekable : Seekable dec content whole)
    (hread : info.read = true) (hdecoding : Decoding dec info content whole file)
    {post : Post (TextFile σ κ) PyError Bytes Unit}
    (hpost : ∀ next : TextFile σ κ, Decoding dec info content whole next →
      (next.decoded = [] → Exhausted dec content next) → post (.ok ()) next content) :
    (TextFile.fillUntilDecoded dec).wlp env post file content := by
  refine Prog.wlp_loop (fun _ (state : TextFile σ κ) world =>
    world = content ∧ Decoding dec info content whole state) ?_ ⟨rfl, hdecoding⟩
  rintro - state world ⟨rfl, hstate⟩
  simp only [Prog.bind_eq_bind, Prog.wlp_bind]
  refine Prog.wlp_of_wp _ (wp_fill_placed hserves hseekable hread hstate.placed ?_)
  intro more next hnext hended
  simp only [Prog.afterwards_ok, Prog.wlp_bind, Prog.wlp_state]
  split
  · exact ⟨rfl, hnext⟩
  · next hstop =>
      refine hpost next hnext fun hempty => hended ?_
      rw [Bool.eq_false_iff]
      exact fun hmore => hstop ⟨hmore, hempty⟩

theorem stays_readMore (hserves : Serves env) (hseekable : Seekable dec content whole)
    (hread : info.read = true) (size : ℕ) {result : Text}
    (hdecoding : Decoding dec info content whole file) :
    (TextFile.readMore dec size result).wlp env (Stays dec info content whole) file content := by
  simp only [TextFile.readMore]
  split
  · simp only [Prog.bind_eq_bind, Prog.wlp_bind]
    refine Prog.wlp_of_wp _ (wp_fill_placed hserves hseekable hread hdecoding.placed ?_)
    intro more next hnext _
    simp only [Prog.afterwards_ok, Prog.wlp_bind]
    refine Prog.wlp_mono _ ?_ (stays_takeChars hnext _)
    rintro (error | taken) state world ⟨rfl, hstate⟩
    · exact ⟨rfl, hstate⟩
    · cases more
      · exact ⟨rfl, hstate⟩
      · exact ⟨rfl, hstate⟩
  · exact ⟨rfl, hdecoding⟩

/-- The decoder a method makes at its start is the one the file stands with. -/
theorem Placed.withDecoder (hplaced : Placed dec info content whole file) :
    Decoding dec info content whole { file with decoder := some (file.decoderState dec) } := by
  refine ⟨⟨hplaced.buffer, hplaced.stands, ?_⟩, fun hnone => (by cases hnone)⟩
  cases hplaced.chunk with
  | none hsnapshot hdecoded hend => exact .none hsnapshot hdecoded hend
  | rewound hsnapshot hdecoded hpos hahead => exact .rewound hsnapshot hdecoded hpos hahead
  | decoded hdecoder hsnapshot hflags hpos hinput hstart hdecode hfinal =>
      refine .decoded ?_ hsnapshot hflags hpos hinput hstart hdecode hfinal
      rw [TextFile.decoderState, hdecoder]
      rfl

theorem stays_searchLine (hserves : Serves env) (hseekable : Seekable dec content whole)
    (hread : info.read = true) (newline : Newline) (limit : ℤ) (line : Text × ℕ)
    (hdecoding : Decoding dec info content whole file) :
    (TextFile.searchLine dec newline limit line).wlp env (Stays dec info content whole)
      file content := by
  obtain ⟨line, start⟩ := line
  simp only [TextFile.searchLine]
  cases TextFile.lineEnd newline line start with
  | found endpos => exact ⟨rfl, hdecoding⟩
  | searchFrom start =>
      simp only
      split
      · exact ⟨rfl, hdecoding⟩
      · simp only [Prog.bind_eq_bind, Prog.wlp_bind]
        apply stays_fillUntilDecoded hserves hseekable hread hdecoding
        intro next hnext hended
        simp only [Prog.afterwards_ok, Prog.wlp_bind, Prog.wlp_state]
        split
        · next hempty =>
            obtain ⟨hpos, hahead⟩ := hended hempty
            have hstands := hnext.placed.stands
            rw [hahead, hpos] at hstands
            exact ⟨rfl, .atEnd hstands (.inr ⟨rfl, rfl⟩) hnext.placed.buffer hpos rfl rfl hempty,
              hnext.made⟩
        · rw [Prog.wlp_bind]
          refine Prog.wlp_mono _ ?_ (stays_takeChars hnext none)
          rintro (error | taken) state world hstate
          · exact hstate
          · exact hstate

theorem stays_finishLine (hdecoding : Decoding dec info content whole file) (limit : ℤ)
    (last : Text × Option ℕ) :
    (TextFile.finishLine limit last).wlp env (Stays dec info content whole) file content := by
  obtain ⟨line, endpos⟩ := last
  cases endpos with
  | none => exact ⟨rfl, hdecoding⟩
  | some endpos => exact ⟨rfl, hdecoding.used _⟩

/-- The checks pass, and there is a decoder. -/
theorem stays_start (hread : info.read = true) (hplaced : Placed dec info content whole file)
    {f : σ → TextProg σ κ Text}
    (hf : ∀ state, (f state).wlp env (Stays dec info content whole)
      { file with decoder := some (file.decoderState dec) } content) :
    ((onBuffer BinaryFile.checkOpen).bind fun _ => (onBuffer BinaryFile.checkReadable).bind
      fun _ => (TextFile.theDecoder dec).bind f).wlp env (Stays dec info content whole)
        file content := by
  rw [Prog.wlp_bind]
  refine Prog.wlp_of_wp _ (wp_checkOpen hplaced.buffer ?_)
  rw [Prog.afterwards_ok, Prog.wlp_bind]
  refine Prog.wlp_of_wp _ (wp_checkReadable hplaced.buffer hread ?_)
  rw [Prog.afterwards_ok, Prog.wlp_bind]
  refine Prog.wlp_of_wp _ (wp_theDecoder ?_)
  exact hf _

theorem stays_read (hserves : Serves env) (hseekable : Seekable dec content whole)
    (hread : info.read = true) (hplaced : Placed dec info content whole file)
    (size : Option ℤ) :
    (TextFile.read dec size).wlp env (Stays dec info content whole) file content := by
  simp only [TextFile.read, Prog.bind_eq_bind]
  apply stays_start hread hplaced
  intro state
  cases asked size with
  | none =>
      obtain ⟨last, hdecode, hlast⟩ := stands_last hseekable hplaced.stands
      simp only [Prog.wlp_bind]
      refine Prog.wlp_of_wp _ (wp_onBuffer (hserves.readAll hplaced.buffer hread ?_))
      intro buffer hpos hbuffer
      have hend : buffer.pos = content.length := by
        have hwithin := hplaced.stands.within
        rw [List.length_drop] at hpos
        change buffer.pos = file.buffer.pos + _ at hpos
        omega
      simp only [Prog.afterwards_ok, Prog.wlp_bind]
      refine Prog.wlp_of_wp _ (wp_takeAll ?_)
      simp only [Prog.afterwards_ok, Prog.wlp_bind]
      apply Prog.wlp_of_wp
      apply wp_decodePiece
      · exact hdecode
      simp only [Prog.afterwards_ok, Prog.wlp_bind, Prog.wlp_modify, Prog.pure_eq_done,
        Prog.wlp_done]
      exact ⟨rfl, .atEnd hlast (.inr ⟨rfl, rfl⟩) hbuffer hend rfl rfl rfl,
        fun hnone => (by cases hnone)⟩
  | some size =>
      simp only [Prog.wlp_bind]
      refine Prog.wlp_mono _ ?_ (stays_takeChars hplaced.withDecoder _)
      rintro (error | taken) state world ⟨rfl, hstate⟩
      · exact ⟨rfl, hstate⟩
      · refine Prog.wlp_loop (fun _ (state : TextFile σ κ) current =>
          current = world ∧ Decoding dec info world whole state) ?_ ⟨rfl, hstate⟩
        rintro result state current ⟨rfl, hstate⟩
        refine Prog.wlp_mono _ ?_ (stays_readMore hserves hseekable hread size hstate)
        rintro (error | next | last) state current hkept
        · exact hkept
        · exact hkept
        · exact hkept

theorem stays_readline (hserves : Serves env) (hseekable : Seekable dec content whole)
    (hread : info.read = true) (hplaced : Placed dec info content whole file)
    (size : Option ℤ) :
    (TextFile.readline dec size).wlp env (Stays dec info content whole) file content := by
  simp only [TextFile.readline, Prog.bind_eq_bind]
  apply stays_start hread hplaced
  intro state
  simp only [Prog.wlp_bind, Prog.wlp_state, Prog.afterwards_ok]
  refine Prog.wlp_mono _ ?_ (stays_takeChars hplaced.withDecoder none)
  rintro (error | line) state world ⟨rfl, hstate⟩
  · exact ⟨rfl, hstate⟩
  · simp only [Prog.afterwards_ok, Prog.wlp_bind]
    refine Prog.wlp_loop (fun _ (state : TextFile σ κ) current =>
      current = world ∧ Decoding dec info world whole state) ?_ ⟨rfl, hstate⟩
    rintro line state current ⟨rfl, hstate⟩
    refine Prog.wlp_mono _ ?_
      (stays_searchLine hserves hseekable hread file.newline _ line hstate)
    rintro (error | next | last) state current ⟨rfl, hkept⟩
    · exact ⟨rfl, hkept⟩
    · exact ⟨rfl, hkept⟩
    · exact stays_finishLine hkept _ last

end Turbofile.Text
