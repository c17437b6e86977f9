import Turbofile.Text.Bookmarks

/-!
# Tell and seek

`tell` returns a cookie for the place of the file, whatever was read before it,
and changes nothing.  `seek` with a cookie of this text makes what is left to
read what was left where the cookie was made.
-/

namespace Turbofile.Text

open Turbofile.Core
open Turbofile.Coroutine
open Turbofile.Binary
open Turbofile.Codecs

variable {σ κ : Type} {dec : TextDecoder σ} {enc : Encoder κ} {info : ModeInfo}
  {file next : TextFile σ κ} {content : Bytes} {whole rest : Text} {env : Env bridge PyError Bytes}

/-! ## Tell -/

/-- The characters handed out of the decoded chunk. -/
theorem drop_used (hready : Ready dec info file content) :
    (file.decoded ++ ahead dec file content).drop file.used.toNat =
      remaining dec file content := by
  have hhigh := hready.high
  rw [remaining, available_eq hready.low, List.drop_append_of_le_length (by omega)]

/-- Without characters handed out the start of the chunk is the place. -/
theorem remaining_unused (hready : Ready dec info file content) (hused : file.used = 0) :
    remaining dec file content = file.decoded ++ ahead dec file content := by
  rw [← drop_used hready, hused]
  rfl

theorem remaining_empty (hready : Ready dec info file content) (hdecoded : file.decoded = []) :
    remaining dec file content = ahead dec file content := by
  rw [remaining, available_eq hready.low, hdecoded, List.drop_nil]
  rfl

theorem used_empty (hready : Ready dec info file content) (hdecoded : file.decoded = []) :
    file.used = 0 := by
  have hlow := hready.low
  have hhigh := hready.high
  rw [hdecoded] at hhigh
  change file.used ≤ 0 at hhigh
  omega

/-- The walk of `tell` starts where the chunk does. -/
theorem walking_start (hseekable : Seekable dec content whole)
    (hready : Ready dec info file content) {start flags : ℕ} {input : Bytes} {final : Bool}
    {state : σ} (hflags : flags < 2 ^ 64) (hpos : file.buffer.pos = start + input.length)
    (hinput : input <+: content.drop start) (hwithin : file.buffer.pos ≤ content.length)
    (hstart : dec.Stands content whole start (dec.setstate ([], flags))
      (file.decoded ++ ahead dec file content))
    (hdecode : dec.decode (dec.setstate ([], flags)) input final = .ok (file.decoded, state))
    (hfinal : final = true → file.buffer.pos = content.length) :
    Walking dec content whole (remaining dec file content) final
      { state := dec.setstate ([], flags)
        startPos := start
        startFlags := flags
        charsToSkip := file.used.toNat } input := by
  have hhigh := hready.high
  have hchars := hstart.suffix.length_le
  rw [List.length_append] at hchars
  have hbound := hseekable.chars
  exact
    { start := ⟨_, hstart, drop_used hready⟩
      fed := ⟨[], hseekable.lawful.decode_nil _, rfl⟩
      before := hinput
      within := hpos ▸ hwithin
      ends := fun hlast => hpos.symm.trans (hfinal hlast)
      enough := ⟨file.decoded, state, hdecode, by
        change file.used.toNat ≤ 0 + file.decoded.length
        omega⟩
      flags := hflags
      skips := by
        change file.used.toNat < 2 ^ 64
        omega }

/-- `tell` has a cookie for every place. -/
theorem cookieNow_marks (hseekable : Seekable dec content whole)
    (hready : Ready dec info file content) (hplaced : Placed dec info content whole file) :
    ∃ packed, TextFile.cookieNow dec file = .ok packed ∧
      Marks dec content whole packed (remaining dec file content) ∧
      (file.decoder = none → IsEnd content whole packed (remaining dec file content)) := by
  cases hplaced.chunk with
  | none hsnapshot hdecoded hend =>
      rw [remaining_empty hready hdecoded]
      refine ⟨file.buffer.pos, ?_, .ends hend, fun _ => hend⟩
      simp only [TextFile.cookieNow, TextFile.walkOf, hsnapshot]
      cases file.decoder <;> rfl
  | rewound hsnapshot hdecoded hpos hahead =>
      have hend : IsEnd content whole 0 (remaining dec file content) := by
        rw [remaining_empty hready hdecoded]
        exact .inl ⟨rfl, hahead⟩
      refine ⟨0, ?_, .ends hend, fun _ => hend⟩
      simp only [TextFile.cookieNow, TextFile.walkOf, hsnapshot, used_empty hready hdecoded, hpos]
      cases file.decoder <;> rfl
  | @decoded start flags input final state hdecoder hsnapshot hflags hpos hinput hstart hdecode
      hfinal =>
      have hwithin := hplaced.stands.within
      have hbytes := hseekable.bytes
      have hsub : file.buffer.pos - input.length = start := by omega
      have hmade : file.decoder = none → ∀ packed,
          IsEnd content whole packed (remaining dec file content) := by
        rw [hdecoder]
        intro hnone
        cases hnone
      by_cases hused : file.used = 0
      · have hfits : Cookie.Fits { position := start, decFlags := flags } :=
          ⟨by simp only; omega, hflags, Nat.two_pow_pos 64, Nat.two_pow_pos 64⟩
        have hmarks := Marks.resumes hfits hstart fun hskip => absurd rfl hskip
        rw [List.drop_zero, ← remaining_unused hready hused] at hmarks
        refine ⟨_, ?_, hmarks, fun hnone => hmade hnone _⟩
        simp only [TextFile.cookieNow, TextFile.walkOf, hdecoder, hsnapshot, hused, if_true, hsub]
      · have hopen : 0 < file.used.toNat := by
          have hlow := hready.low
          omega
        have hwalking := walking_start hseekable hready hflags hpos hinput hwithin hstart hdecode
          hfinal
        obtain ⟨cookie, hcookie, hmarks⟩ := hwalking.cookie hseekable.lawful hseekable.resumable
          hseekable.flags hseekable.bytes hopen
        refine ⟨_, ?_, hmarks, fun hnone => hmade hnone _⟩
        simp only [TextFile.cookieNow, TextFile.walkOf, hdecoder, hsnapshot, hused, if_false, hsub,
          hcookie]
        rfl

/-- `tell` returns the cookie and leaves the file as it is. -/
theorem wp_tell_placed (hseekable : Seekable dec content whole)
    (hready : Ready dec info file content) (hplaced : Placed dec info content whole file)
    {post : Post (TextFile σ κ) PyError Bytes ℕ}
    (hpost : ∀ packed, Marks dec content whole packed (remaining dec file content) →
      (file.decoder = none → IsEnd content whole packed (remaining dec file content)) →
      post (.ok packed) file content) :
    (TextFile.tell dec).wp env post file content := by
  obtain ⟨packed, hcookie, hmarks, hend⟩ := cookieNow_marks hseekable hready hplaced
  have hsame : ({ file with
      decoder := file.decoder.map fun decoder => dec.setstate (dec.getstate decoder) } :
        TextFile σ κ) = file := by
    obtain ⟨buffer, newline, writenl, decoder, encoder, decoded, used, snapshot⟩ := file
    cases decoder with
    | none => rfl
    | some decoder => simp only [Option.map_some, hseekable.lawful.restore]
  simp only [TextFile.tell, Prog.bind_eq_bind, Prog.wp_bind]
  apply wp_checkOpen hready.buffer
  simp only [Prog.after_ok, Prog.wp_bind, Prog.wp_state]
  split
  · simp only [hcookie, Prog.wp_bind, Prog.wp_modify, Prog.after_ok, Prog.pure_eq_done,
      Prog.wp_done, hsame]
    exact hpost packed hmarks hend
  · simp only [hcookie, Prog.pure_eq_done, Prog.wp_done]
    exact hpost packed hmarks hend

/-! ## Seek -/

/-- The start of the text has the cookie 0 only. -/
theorem Marks.zero (hseekable : Seekable dec content whole)
    (hmarks : Marks dec content whole 0 rest) : rest = whole := by
  generalize hpacked : 0 = packed at hmarks
  cases hmarks with
  | ends hend =>
      rcases hend with ⟨-, rfl⟩ | ⟨hlength, rfl⟩
      · rfl
      · obtain ⟨_, hwhole⟩ := hseekable.decodes
        obtain ⟨_, hempty⟩ := hseekable.resumable.empty
        obtain rfl := List.length_eq_zero_iff.mp (hlength.symm.trans hpacked.symm)
        exact (Prod.mk.inj (Except.ok.inj (hempty.symm.trans hwhole))).1
  | @resumes cookie text hfits hstands hreplays =>
      have hcookie := unpackCookie_packCookie hfits
      rw [← hpacked] at hcookie
      obtain rfl : cookie = { position := 0 } := hcookie.symm.trans (by decide)
      apply hstands.first
      rw [hseekable.resumable.cleared]
      rfl

/-- A cookie of a text unpacks to a place where a decoder resumes. -/
theorem Marks.stands (hseekable : Seekable dec content whole) {packed : ℕ}
    (hmarks : Marks dec content whole packed rest) (hpacked : packed ≠ 0) :
    ∃ text, dec.Stands content whole (unpackCookie packed).position
        (dec.setstate ([], (unpackCookie packed).decFlags)) text ∧
      (unpackCookie packed).decFlags < 2 ^ 64 ∧
      rest = text.drop (unpackCookie packed).charsToSkip ∧
      ((unpackCookie packed).charsToSkip ≠ 0 → Replays dec content (unpackCookie packed)) := by
  cases hmarks with
  | ends hend =>
      rcases hend with ⟨hzero, -⟩ | ⟨rfl, rfl⟩
      · exact absurd hzero hpacked
      · obtain ⟨_, hwhole⟩ := hseekable.decodes
        rw [unpackCookie_position hseekable.bytes]
        exact ⟨[], .last hseekable.resumable hwhole (hseekable.resumable.cleared 0)
          hseekable.resumable.idle, Nat.two_pow_pos 64, rfl, fun hskip => absurd rfl hskip⟩
  | resumes hfits hstands hreplays =>
      rw [unpackCookie_packCookie hfits]
      exact ⟨_, hstands, hfits.decFlags, rfl, hreplays⟩

/-- The file after a `seek` is at the place asked for. -/
structure Sought (dec : TextDecoder σ) (info : ModeInfo) (content : Bytes) (whole rest : Text)
    (file next : TextFile σ κ) : Prop where
  ready : Ready dec info next content
  placed : Placed dec info content whole next
  rest : remaining dec next content = rest
  newline : next.newline = file.newline
  decoder : next.decoder = none → file.decoder = none

theorem Placed.ready (hplaced : Placed dec info content whole next) (hlow : 0 ≤ next.used)
    (hhigh : next.used ≤ next.decoded.length) : Ready dec info next content :=
  ⟨hplaced.buffer, hlow, hhigh, hplaced.stands.decodes⟩

/-- Without a decoded chunk what is left is what lies ahead. -/
theorem Sought.ofEmpty (hplaced : Placed dec info content whole next) (hdecoded : next.decoded = [])
    (hused : next.used = 0) (hnewline : next.newline = file.newline)
    (hdecoder : next.decoder = none → file.decoder = none) :
    Sought dec info content whole (ahead dec next content) file next := by
  have hready : Ready dec info next content := by
    refine hplaced.ready hused.ge ?_
    rw [hused]
    exact Int.natCast_nonneg _
  exact ⟨hready, hplaced, remaining_empty hready hdecoded, hnewline, hdecoder⟩

theorem Sought.atEnd {pos : ℕ} {state : σ} (hstands : dec.Stands content whole pos state rest)
    (hend : IsEnd content whole pos rest) (hbuffer : Aligned info next.buffer content)
    (hpos : next.buffer.pos = pos) (hstate : next.decoderState dec = state)
    (hsnapshot : next.snapshot = none) (hdecoded : next.decoded = []) (hused : next.used = 0)
    (hnewline : next.newline = file.newline)
    (hdecoder : next.decoder = none → file.decoder = none) :
    Sought dec info content whole rest file next := by
  have hplaced := Placed.atEnd hstands hend hbuffer hpos hstate hsnapshot hdecoded
  have hsought := Sought.ofEmpty hplaced hdecoded hused hnewline hdecoder
  rwa [ahead_of_stands hstands hpos hstate] at hsought

theorem Sought.congr {last : TextFile σ κ} (hsought : Sought dec info content whole rest file next)
    (hbuffer : last.buffer = next.buffer) (hdecoder : last.decoder = next.decoder)
    (hdecoded : last.decoded = next.decoded) (hsnapshot : last.snapshot = next.snapshot)
    (hused : last.used = next.used) (hnewline : last.newline = next.newline) :
    Sought dec info content whole rest file last := by
  have hplaced := hsought.placed.congr hbuffer hdecoder hdecoded hsnapshot
  have hready : Ready dec info last content := by
    apply hplaced.ready
    · rw [hused]
      exact hsought.ready.low
    · rw [hused, hdecoded]
      exact hsought.ready.high
  refine ⟨hready, hplaced, ?_, hnewline.trans hsought.newline, ?_⟩
  · rw [← drop_used hready, ← hsought.rest, ← drop_used hsought.ready, hused, hdecoded]
    simp only [ahead, TextFile.decoderState, hbuffer, hdecoder]
  · rw [hdecoder]
    exact hsought.decoder

/-- The decoder that `seek` starts from at the place `text` lies ahead of. -/
structure Restored (dec : TextDecoder σ) (info : ModeInfo) (content : Bytes) (whole : Text)
    (cookie : Cookie) (file next : TextFile σ κ) (rest : Text) : Prop where
  sought : Sought dec info content whole (ahead dec next content) file next
  rest : rest = (ahead dec next content).drop cookie.charsToSkip
  replays : cookie.charsToSkip ≠ 0 → Replays dec content cookie ∧ cookie.decFlags < 2 ^ 64 ∧
    next.decoder = some (dec.setstate ([], cookie.decFlags)) ∧
    next.buffer.pos = cookie.position

theorem Seekable.initial (hseekable : Seekable dec content whole) :
    dec.Stands content whole 0 dec.initial whole := by
  obtain ⟨_, hwhole⟩ := hseekable.decodes
  exact .initial hseekable.resumable hwhole

/-- A decoder as it is made or reset, at the end. -/
theorem Seekable.final (hseekable : Seekable dec content whole) :
    dec.Stands content whole content.length dec.initial [] := by
  obtain ⟨_, hwhole⟩ := hseekable.decodes
  exact .last hseekable.resumable hwhole hseekable.resumable.fresh hseekable.resumable.empty

section Restoring

variable {buffer : BinaryFile}

/-- The file after the buffer's `seek`, with its chunk dropped. -/
def TextFile.moved (file : TextFile σ κ) (buffer : BinaryFile) : TextFile σ κ :=
  ({ file with buffer := buffer } : TextFile σ κ).dropDecoded

/-- A file without a decoder keeps none at an end of the text. -/
theorem restored_undecoded (hdecoder : file.decoder = none)
    (hbuffer : Aligned info buffer content) {pos : ℕ} (hpos : buffer.pos = pos)
    (hstands : dec.Stands content whole pos dec.initial rest)
    (hend : IsEnd content whole pos rest) :
    Restored dec info content whole { position := pos } file (file.moved buffer) rest := by
  have hstate : (file.moved buffer).decoderState dec = dec.initial := by
    simp only [TextFile.decoderState, TextFile.moved, TextFile.dropDecoded, hdecoder,
      Option.getD_none]
  have hahead : ahead dec (file.moved buffer) content = rest :=
    ahead_of_stands hstands hpos hstate
  have hplaced : Placed dec info content whole (file.moved buffer) :=
    .atEnd hstands hend hbuffer hpos hstate rfl rfl
  exact ⟨.ofEmpty hplaced rfl rfl rfl fun _ => hdecoder, hahead.symm, fun hskip => absurd rfl hskip⟩

/-- `seek(0)` resets the decoder. -/
theorem restored_reset (hseekable : Seekable dec content whole)
    (hbuffer : Aligned info buffer content) (hpos : buffer.pos = 0) :
    Restored dec info content whole { position := 0 } file
      { file.moved buffer with decoder := some dec.initial, snapshot := some (0, []) } whole := by
  have hahead : ahead dec { file.moved buffer with
      decoder := some dec.initial, snapshot := some (0, []) } content = whole :=
    ahead_of_stands hseekable.initial hpos rfl
  have hplaced : Placed dec info content whole { file.moved buffer with
      decoder := some dec.initial, snapshot := some (0, []) } := by
    refine ⟨hbuffer, ?_, .rewound rfl rfl hpos hahead⟩
    rw [hahead]
    change dec.Stands content whole buffer.pos dec.initial whole
    rw [hpos]
    exact hseekable.initial
  refine ⟨.ofEmpty hplaced rfl rfl rfl ?_, hahead.symm, fun hskip => absurd rfl hskip⟩
  intro hnone
  cases hnone

/-- Otherwise the decoder gets the flags of the cookie. -/
theorem restored_flags (hseekable : Seekable dec content whole)
    (hbuffer : Aligned info buffer content) {cookie : Cookie} {text : Text}
    (hpos : buffer.pos = cookie.position) (hflags : cookie.decFlags < 2 ^ 64)
    (hstands : dec.Stands content whole cookie.position (dec.setstate ([], cookie.decFlags)) text)
    (hreplays : cookie.charsToSkip ≠ 0 → Replays dec content cookie) :
    Restored dec info content whole cookie file
      { file.moved buffer with
        decoder := some (dec.setstate ([], cookie.decFlags))
        snapshot := some (cookie.decFlags, []) } (text.drop cookie.charsToSkip) := by
  obtain ⟨hplaced, htext⟩ : Placed dec info content whole
      { file.moved buffer with
        decoder := some (dec.setstate ([], cookie.decFlags))
        snapshot := some (cookie.decFlags, []) } ∧
      text = [] ++ ahead dec { file.moved buffer with
        decoder := some (dec.setstate ([], cookie.decFlags))
        snapshot := some (cookie.decFlags, []) } content :=
    Placed.ofChunk hseekable hstands hflags List.nil_prefix
      (fun hfalse => absurd hfalse Bool.false_ne_true) (hseekable.lawful.decode_nil _) hbuffer
      hpos rfl rfl
  refine ⟨.ofEmpty hplaced rfl rfl rfl ?_, ?_, fun hskip => ⟨hreplays hskip, hflags, rfl, hpos⟩⟩
  · intro hnone
    cases hnone
  · rw [htext]
    rfl

end Restoring

theorem restoreDecoder_restored (hseekable : Seekable dec content whole) {packed : ℕ}
    (hmarks : Marks dec content whole packed rest)
    (hend : file.decoder = none → IsEnd content whole packed rest) {buffer : BinaryFile}
    (hbuffer : Aligned info buffer content) (hpos : buffer.pos = (unpackCookie packed).position) :
    Restored dec info content whole (unpackCookie packed) file
      (TextFile.restoreDecoder dec packed (unpackCookie packed) (file.moved buffer)) rest := by
  have hmoved : (file.moved buffer).decoder = file.decoder := rfl
  cases hdecoder : file.decoder with
  | none =>
      -- Such a file is sought to an end, whose cookie is its position.
      obtain ⟨hcookie, hstands⟩ : unpackCookie packed = { position := packed } ∧
          dec.Stands content whole packed dec.initial rest := by
        rcases hend hdecoder with ⟨rfl, rfl⟩ | ⟨rfl, rfl⟩
        · exact ⟨by decide, hseekable.initial⟩
        · exact ⟨unpackCookie_position hseekable.bytes, hseekable.final⟩
      rw [hcookie] at hpos ⊢
      have hsame : TextFile.restoreDecoder dec packed { position := packed }
          (file.moved buffer) = file.moved buffer := by
        simp [TextFile.restoreDecoder, hmoved, hdecoder]
      rw [hsame]
      exact restored_undecoded hdecoder hbuffer hpos hstands (hend hdecoder)
  | some decoder =>
      by_cases hpacked : packed = 0
      · subst hpacked
        have hcookie : unpackCookie 0 = { position := 0 } := by decide
        rw [hmarks.zero hseekable, hcookie]
        rw [hcookie] at hpos
        have hreset : Restored dec info content whole { position := 0 } file _ _ :=
          restored_reset hseekable hbuffer hpos
        simpa [TextFile.restoreDecoder, hmoved, hdecoder] using hreset
      · obtain ⟨text, hstands, hflags, rfl, hreplays⟩ := hmarks.stands hseekable hpacked
        have hrestored : Restored dec info content whole (unpackCookie packed) file _ _ :=
          restored_flags hseekable hbuffer hpos hflags hstands hreplays
        simpa [TextFile.restoreDecoder, hmoved, hdecoder, hpacked] using hrestored

/-- The chunk of the cookie is decoded again, and its characters are skipped. -/
theorem wp_restoreChunk (hseekable : Seekable dec content whole) (hread : info.read = true)
    {cookie : Cookie} {origin : TextFile σ κ}
    (hrestored : Restored dec info content whole cookie origin file rest)
    (hskip : cookie.charsToSkip ≠ 0) {post : Post (TextFile σ κ) PyError Bytes Unit}
    (hpost : ∀ next : TextFile σ κ, Sought dec info content whole rest origin next →
      post (.ok ()) next content) :
    (TextFile.restoreChunk dec cookie).wp fileEnv post file content := by
  obtain ⟨⟨hwithin, hends, decoded, state, hdecode, henough⟩, hflags, hdecoder, hpos⟩ :=
    hrestored.replays hskip
  have hstands := hrestored.sought.placed.stands
  have hstate : file.decoderState dec = dec.setstate ([], cookie.decFlags) := by
    rw [TextFile.decoderState, hdecoder]
    rfl
  have hcount : (slice content cookie.position cookie.bytesToFeed).length =
      cookie.bytesToFeed := by
    rw [length_slice]
    omega
  rw [hstate, hpos] at hstands
  simp only [TextFile.restoreChunk, Prog.bind_eq_bind, Prog.wp_bind]
  apply wp_onBuffer
  refine Binary.wp_read hrestored.sought.placed.buffer _ ?_ ?_
  · intro _ data buffer hdata hbufferPos hbuffer
    have hasked : asked (some (cookie.bytesToFeed : ℤ)) = some cookie.bytesToFeed := by
      simp [asked]
    rw [hasked, hpos] at hdata
    simp only at hdata
    subst hdata
    rw [hpos, hcount] at hbufferPos
    simp only [Prog.after_ok, Prog.wp_bind]
    apply wp_decodePiece
    · change dec.decode (file.decoderState dec) _ _ = _
      rw [hstate]
      exact hdecode
    simp only [Prog.after_ok, Prog.wp_bind, Prog.wp_modify]
    rw [if_neg (Nat.not_lt.mpr henough), Prog.wp_modify]
    apply hpost
    obtain ⟨hplaced, htext⟩ : Placed dec info content whole
        { file with
          buffer := buffer, decoder := some state, decoded := decoded
          used := cookie.charsToSkip
          snapshot := some (cookie.decFlags, slice content cookie.position cookie.bytesToFeed) } ∧
        ahead dec file content = decoded ++ ahead dec { file with
          buffer := buffer, decoder := some state, decoded := decoded
          used := cookie.charsToSkip
          snapshot := some (cookie.decFlags, slice content cookie.position cookie.bytesToFeed) }
            content :=
      Placed.ofChunk hseekable hstands hflags (slice_leading _ _ _)
        (fun heof => by rw [hcount]; exact hends heof) hdecode hbuffer
        (by rw [hcount]; exact hbufferPos) rfl rfl
    have hready := hplaced.ready (Int.natCast_nonneg _) (Int.ofNat_le.mpr henough)
    refine ⟨hready, hplaced, ?_, hrestored.sought.newline, fun hnone => (by cases hnone)⟩
    rw [← drop_used hready, hrestored.rest, htext]
    rfl
  · intro hrefused
    rw [hread] at hrefused
    cases hrefused

/-- `seek` with a cookie of this text goes back to its place. -/
theorem wp_seekCookie (hseekable : Seekable dec content whole) (hread : info.read = true)
    (hbuffer : Aligned info file.buffer content) {packed : ℕ}
    (hmarks : Marks dec content whole packed rest)
    (hend : file.decoder = none → IsEnd content whole packed rest)
    {post : Post (TextFile σ κ) PyError Bytes ℤ}
    (hpost : ∀ next : TextFile σ κ, Sought dec info content whole rest file next →
      post (.ok packed) next content) :
    (TextFile.seekCookie dec enc packed).wp fileEnv post file content := by
  have hencoder : ∀ next : TextFile σ κ, Sought dec info content whole rest file next →
      post (.ok packed) (TextFile.restoreEncoder enc (unpackCookie packed) next) content :=
    fun next hnext => hpost _ (hnext.congr rfl rfl rfl rfl rfl rfl)
  have htarget : ∀ pos : ℕ, seekTarget ⟨content, pos⟩ (unpackCookie packed).position 0 =
      .ok ((unpackCookie packed).position : ℤ) := fun _ => rfl
  simp only [TextFile.seekCookie, Prog.bind_eq_bind, Prog.wp_bind]
  apply wp_onBuffer
  refine Binary.wp_seek hbuffer _ _ ?_ ?_ ?_
  · intro error next herror
    rw [htarget] at herror
    cases herror
  · intro target next hok hnegative
    rw [htarget] at hok
    cases hok
    exact absurd hnegative (not_lt.mpr (Int.natCast_nonneg _))
  · intro target buffer hok _ hpos hmoved
    rw [htarget] at hok
    cases hok
    rw [Int.toNat_natCast] at hpos
    have hrestored := restoreDecoder_restored hseekable hmarks hend hmoved hpos
    simp only [Prog.after_ok, Prog.wp_bind, Prog.wp_modify]
    split
    · next hskip =>
        have hrest := hrestored.rest
        rw [hskip, List.drop_zero] at hrest
        have hsought := hrestored.sought
        rw [← hrest] at hsought
        exact hencoder _ hsought
    · next hskip =>
        rw [Prog.wp_bind]
        apply wp_restoreChunk hseekable hread hrestored hskip
        intro next hnext
        exact hencoder next hnext

/-- `seek(0, 2)` goes to the end. -/
theorem wp_seekEnd_sought (hseekable : Seekable dec content whole)
    (hbuffer : Aligned info file.buffer content) {post : Post (TextFile σ κ) PyError Bytes ℤ}
    (hpost : ∀ next : TextFile σ κ, Sought dec info content whole [] file next →
      post (.ok content.length) next content) :
    (TextFile.seekEnd dec enc).wp fileEnv post file content := by
  have htarget : ∀ pos : ℕ, seekTarget ⟨content, pos⟩ 0 2 = .ok (content.length : ℤ) := by
    intro pos
    simp [seekTarget]
  simp only [TextFile.seekEnd, Prog.bind_eq_bind, Prog.wp_bind]
  apply wp_onBuffer
  refine Binary.wp_seek hbuffer _ _ ?_ ?_ ?_
  · intro error next herror
    rw [htarget] at herror
    cases herror
  · intro target next hok hnegative
    rw [htarget] at hok
    cases hok
    exact absurd hnegative (not_lt.mpr (Int.natCast_nonneg _))
  · intro target buffer hok _ hpos hmoved
    rw [htarget] at hok
    cases hok
    rw [Int.toNat_natCast] at hpos
    simp only [Prog.after_ok, Prog.wp_bind, Prog.wp_modify, Prog.pure_eq_done, Prog.wp_done]
    apply hpost
    have hstate : (file.decoder.map fun _ => dec.initial).getD dec.initial = dec.initial := by
      cases file.decoder <;> rfl
    refine .atEnd hseekable.final (.inr ⟨rfl, rfl⟩) hmoved hpos hstate rfl rfl rfl rfl ?_
    exact fun hnone => Option.map_eq_none_iff.mp hnone

end Turbofile.Text
