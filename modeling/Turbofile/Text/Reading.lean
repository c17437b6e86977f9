import Turbofile.Text.Lines
import Turbofile.Binary.Refinement

/-!
# Reading text

What is left to read of a text file is the part of the decoded chunk that was
not handed out, and what the decoder will make of the bytes behind the chunk.
Every method hands out a beginning of it.
-/

namespace Turbofile.Text

open Turbofile.Core
open Turbofile.Coroutine
open Turbofile.Binary
open Turbofile.Codecs

variable {σ κ : Type} {dec : TextDecoder σ} {info : ModeInfo} {file : TextFile σ κ}
  {content : Bytes} {env : Env bridge PyError Bytes}

/-! ## What the buffer answers -/

/-- What text reads rely on: `read1` answers some of what the file holds behind
the position, and nothing only at its end; `read` answers all of it. -/
structure Serves (env : Env bridge PyError Bytes) : Prop where
  read1 : ∀ {info : ModeInfo} {file : BinaryFile} {content : Bytes},
    Aligned info file content → info.read = true →
    ∀ {post : Post BinaryFile PyError Bytes Bytes},
      (∀ (chunk : Bytes) (next : BinaryFile), chunk <+: content.drop file.pos →
        (chunk = [] → content.drop file.pos = []) → next.pos = file.pos + chunk.length →
        Aligned info next content → post (.ok chunk) next content) →
      (BinaryFile.read1 CHUNK).wp env post file content
  readAll : ∀ {info : ModeInfo} {file : BinaryFile} {content : Bytes},
    Aligned info file content → info.read = true →
    ∀ {post : Post BinaryFile PyError Bytes Bytes},
      (∀ next : BinaryFile, next.pos = file.pos + (content.drop file.pos).length →
        Aligned info next content → post (.ok (content.drop file.pos)) next content) →
      (BinaryFile.read none).wp env post file content

theorem fileEnv_serves : Serves fileEnv where
  read1 hfile hread post hpost := by
    apply wp_read1 hfile
    · intro _ chunk next hleading _ hempty hpos hnext
      exact hpost chunk next hleading (fun hnil => (hempty hnil).resolve_right (by decide)) hpos
        hnext
    · intro hrefused
      rw [hread] at hrefused
      cases hrefused
  readAll hfile hread post hpost := by
    apply Binary.wp_read hfile
    · rintro _ _ next rfl hpos hnext
      exact hpost next hpos hnext
    · intro hrefused
      rw [hread] at hrefused
      cases hrefused

/-! ## What is left -/

/-- The decoder as it will decode next. -/
def TextFile.decoderState (dec : TextDecoder σ) (file : TextFile σ κ) : σ :=
  file.decoder.getD dec.initial

/-- What the decoder will make of the bytes it has not seen. -/
def ahead (dec : TextDecoder σ) (file : TextFile σ κ) (content : Bytes) : Text :=
  match dec.decode (file.decoderState dec) (content.drop file.buffer.pos) true with
  | .ok (text, _) => text
  | .error _ => []

def available (file : TextFile σ κ) : Text := sliceFrom file.decoded file.used

def remaining (dec : TextDecoder σ) (file : TextFile σ κ) (content : Bytes) : Text :=
  available file ++ ahead dec file content

/-- A file that can be read to its end. -/
structure Ready (dec : TextDecoder σ) (info : ModeInfo) (file : TextFile σ κ) (content : Bytes) :
    Prop where
  buffer : Aligned info file.buffer content
  low : 0 ≤ file.used
  high : file.used ≤ file.decoded.length
  decodes : ∃ last, dec.decode (file.decoderState dec) (content.drop file.buffer.pos) true =
    .ok (ahead dec file content, last)

theorem ahead_eq {text : Text} {last : σ}
    (hdecode : dec.decode (file.decoderState dec) (content.drop file.buffer.pos) true =
      .ok (text, last)) : ahead dec file content = text := by
  simp only [ahead, hdecode]

theorem available_eq (hlow : 0 ≤ file.used) :
    available file = file.decoded.drop file.used.toNat := by
  rw [available, sliceFrom, if_neg (not_lt.mpr hlow)]

theorem wp_onBuffer {α : Type} {prog : BinaryProg α}
    {post : Post (TextFile σ κ) PyError Bytes α}
    (hprog : prog.wp env (fun result buffer world =>
      post result { file with buffer := buffer } world) file.buffer content) :
    (onBuffer prog).wp env post file content :=
  Prog.wp_zoom (bufferPart σ κ) prog hprog

/-! ## The helpers -/

/-- Taking characters moves `used` past them. -/
theorem wp_takeChars (hready : Ready dec info file content) (n : ℕ)
    {post : Post (TextFile σ κ) PyError Bytes Text}
    (hpost : ∀ used : ℤ, 0 ≤ used → used ≤ file.decoded.length →
      available { file with used := used } = (available file).drop n →
      post (.ok ((available file).take n)) { file with used := used } content) :
    (TextFile.takeChars (some (n : ℤ))).wp env post file content := by
  have havailable := available_eq hready.low
  have hlength : (available file).length = file.decoded.length - file.used.toNat := by
    rw [havailable, List.length_drop]
  have hhigh := hready.high
  have hlow := hready.low
  simp only [TextFile.takeChars, Prog.bind_eq_bind, Prog.wp_bind, Prog.wp_state, Prog.after_ok]
  change ((if (n : ℤ) < 0 ∨ ((available file).length : ℤ) ≤ n then _ else _ :
    TextProg σ κ Text)).wp env post file content
  split
  · next hall =>
      have hle : (available file).length ≤ n := by omega
      have hnone := hpost file.decoded.length (by omega) le_rfl (by
        rw [List.drop_eq_nil_of_le hle, available_eq (Int.natCast_nonneg _)]
        exact List.drop_length)
      rw [List.take_of_length_le hle] at hnone
      exact hnone
  · next hsome =>
      have hnat : (file.used + n).toNat = file.used.toNat + n := by omega
      refine hpost (file.used + n) (by omega) (by omega) ?_
      rw [available_eq (show 0 ≤ file.used + (n : ℤ) by omega), havailable, List.drop_drop]
      exact congrArg (file.decoded.drop ·) hnat

/-- Taking them all. -/
theorem wp_takeAll {post : Post (TextFile σ κ) PyError Bytes Text}
    (hpost : post (.ok (available file)) { file with used := file.decoded.length } content) :
    (TextFile.takeChars none).wp env post file content := hpost

theorem wp_theDecoder {post : Post (TextFile σ κ) PyError Bytes σ}
    (hpost : post (.ok (file.decoderState dec))
      { file with decoder := some (file.decoderState dec) } content) :
    (TextFile.theDecoder dec).wp env post file content := by
  obtain ⟨buffer, newline, writenl, decoder, encoder, decoded, used, snapshot⟩ := file
  cases decoder with
  | none => exact hpost
  | some decoder => exact hpost

theorem wp_decodePiece {data : Bytes} {final : Bool} {text : Text} {next : σ}
    (hdecode : dec.decode (file.decoderState dec) data final = .ok (text, next))
    {post : Post (TextFile σ κ) PyError Bytes Text}
    (hpost : post (.ok text) { file with decoder := some next } content) :
    (TextFile.decodePiece dec data final).wp env post file content := by
  simp only [TextFile.decodePiece, Prog.bind_eq_bind, Prog.wp_bind]
  apply wp_theDecoder
  simp only [Prog.after_ok, hdecode]
  exact hpost

/-- A chunk moves text from what lies ahead into the file. -/
theorem wp_fill (hserves : Serves env) (hlawful : dec.Lawful) (hready : Ready dec info file content)
    (hread : info.read = true) {post : Post (TextFile σ κ) PyError Bytes Bool}
    (hpost : ∀ (more : Bool) (next : TextFile σ κ), Ready dec info next content →
      next.newline = file.newline → next.used = 0 →
      ahead dec file content = next.decoded ++ ahead dec next content →
      (if more then content.length - next.buffer.pos < content.length - file.buffer.pos
        else next.buffer.pos = file.buffer.pos ∧ ahead dec next content = []) →
      post (.ok more) next content) :
    (TextFile.fill dec).wp env post file content := by
  obtain ⟨last, hdecodes⟩ := hready.decodes
  have hfilled : ∀ (more : Bool) (next : TextFile σ κ) (text : Text) (last : σ),
      Aligned info next.buffer content → next.newline = file.newline → next.used = 0 →
      dec.decode (next.decoderState dec) (content.drop next.buffer.pos) true = .ok (text, last) →
      ahead dec file content = next.decoded ++ text →
      (if more then content.length - next.buffer.pos < content.length - file.buffer.pos
        else next.buffer.pos = file.buffer.pos ∧ text = []) →
      post (.ok more) next content := by
    intro more next text last hbuffer hnewline hused hdecode hahead hmore
    obtain rfl : ahead dec next content = text := ahead_eq hdecode
    refine hpost more next ⟨hbuffer, hused.ge, ?_, last, hdecode⟩ hnewline hused hahead hmore
    rw [hused]
    exact Int.natCast_nonneg _
  simp only [TextFile.fill, Prog.bind_eq_bind, Prog.wp_bind]
  apply wp_theDecoder
  simp only [Prog.after_ok, Prog.wp_bind]
  apply wp_onBuffer
  apply hserves.read1 hready.buffer hread
  · intro chunk buffer hleading hempty hpos hbuffer
    obtain ⟨rest, hrest⟩ := hleading
    simp only [Prog.after_ok, Prog.wp_bind]
    cases hchunk : chunk.isEmpty with
    | true =>
        obtain rfl := List.isEmpty_iff.mp hchunk
        have hend : content.drop file.buffer.pos = [] := hempty rfl
        have hsame : buffer.pos = file.buffer.pos := hpos
        rw [hend] at hdecodes
        apply wp_decodePiece
        · exact hdecodes
        simp only [Prog.after_ok, Prog.wp_bind, Prog.wp_modify, Prog.pure_eq_done, Prog.wp_done]
        have hlast : dec.decode last (content.drop buffer.pos) true = .ok ([], last) := by
          rw [hsame, hend]
          exact hlawful.ended _ _ _ _ hdecodes
        exact hfilled false _ [] last hbuffer rfl rfl hlast (List.append_nil _).symm ⟨hsame, rfl⟩
    | false =>
        have hne : chunk ≠ [] := by
          rintro rfl
          cases hchunk
        have hshort : chunk.length + rest.length = content.length - file.buffer.pos := by
          rw [← List.length_append, hrest, List.length_drop]
        have hbehind : content.drop buffer.pos = rest := by
          rw [hpos, ← List.drop_drop, ← hrest, List.drop_left]
        have hlength := List.length_pos_iff.mpr hne
        rw [← hrest] at hdecodes
        obtain ⟨head, next, tail, hhead, htail, hahead⟩ := (hlawful.split ..).mp hdecodes
        apply wp_decodePiece
        · exact hhead
        simp only [Prog.after_ok, Prog.wp_bind, Prog.wp_modify, Prog.pure_eq_done, Prog.wp_done]
        rw [← hbehind] at htail
        refine hfilled true _ tail last hbuffer rfl rfl htail hahead ?_
        change content.length - buffer.pos < content.length - file.buffer.pos
        omega

theorem wp_checkOpen {info : ModeInfo} (hbuffer : Aligned info file.buffer content)
    {post : Post (TextFile σ κ) PyError Bytes Unit} (hpost : post (.ok ()) file content) :
    (onBuffer BinaryFile.checkOpen).wp env post file content := by
  apply wp_onBuffer
  simp only [BinaryFile.checkOpen, Prog.bind_eq_bind, Prog.wp_bind, Prog.wp_state,
    Prog.after_ok, hbuffer.isOpen, if_true]
  exact hpost

theorem wp_checkReadable {info : ModeInfo} (hbuffer : Aligned info file.buffer content)
    (hread : info.read = true) {post : Post (TextFile σ κ) PyError Bytes Unit}
    (hpost : post (.ok ()) file content) :
    (onBuffer BinaryFile.checkReadable).wp env post file content := by
  apply wp_onBuffer
  simp only [BinaryFile.checkReadable, Prog.bind_eq_bind, Prog.wp_bind, Prog.wp_state,
    Prog.after_ok, hbuffer.info, hread, if_true]
  exact hpost

/-! ## Reads -/

/-- The call returns the next `n` characters and leaves the rest. -/
structure Gives (dec : TextDecoder σ) (info : ModeInfo) (file : TextFile σ κ) (content : Bytes)
    (n : ℕ) (result : Except PyError Text) (next : TextFile σ κ) (world : Bytes) : Prop where
  world : world = content
  result : result = .ok ((remaining dec file content).take n)
  rest : remaining dec next content = (remaining dec file content).drop n
  ready : Ready dec info next content
  newline : next.newline = file.newline

/-- The decoder a method makes at its start changes nothing. -/
theorem Ready.withDecoder (hready : Ready dec info file content) :
    Ready dec info { file with decoder := some (file.decoderState dec) } content :=
  ⟨hready.buffer, hready.low, hready.high, hready.decodes⟩

theorem available_fresh {next : TextFile σ κ} (hused : next.used = 0) :
    available next = next.decoded := by
  rw [available_eq hused.ge, hused]
  rfl

theorem take_drop_of_append {result rest whole : Text} {size : ℕ} (hjoin : result ++ rest = whole)
    (hlength : result.length ≤ size) (hend : rest = [] ∨ result.length = size) :
    result = whole.take size ∧ rest = whole.drop size := by
  subst hjoin
  rcases hend with rfl | rfl
  · simp [List.take_of_length_le, List.drop_eq_nil_of_le, hlength]
  · simp

/-- The loop of a sized read, from the characters it has so far. -/
theorem wp_readLoop (hserves : Serves env) (hlawful : dec.Lawful)
    (hread : info.read = true) {origin : TextFile σ κ} {size : ℕ} {result : Text}
    (hready : Ready dec info file content) (hnewline : file.newline = origin.newline)
    (hsofar : result ++ remaining dec file content = remaining dec origin content)
    (hlength : result.length ≤ size) (hspent : available file = [] ∨ result.length = size) :
    (Prog.repeatUntil (TextFile.readMore dec size) result).wp env
      (Gives dec info origin content size) file content := by
  refine Prog.wp_loop
    (fun result (file : TextFile σ κ) world => world = content ∧ Ready dec info file content ∧
      file.newline = origin.newline ∧
      result ++ remaining dec file content = remaining dec origin content ∧
      result.length ≤ size ∧ (available file = [] ∨ result.length = size))
    (fun _ file _ => content.length - file.buffer.pos) ?_
    ⟨rfl, hready, hnewline, hsofar, hlength, hspent⟩
  rintro result file world ⟨rfl, hready, hnewline, hsofar, hlength, hspent⟩
  have hdone : ∀ (result : Text) (next : TextFile σ κ), Ready dec info next world →
      next.newline = origin.newline →
      result ++ remaining dec next world = remaining dec origin world → result.length ≤ size →
      (remaining dec next world = [] ∨ result.length = size) →
      Gives dec info origin world size (.ok result) next world := by
    intro result next hready hnewline hsofar hlength hend
    obtain ⟨htake, hdrop⟩ := take_drop_of_append hsofar hlength hend
    exact ⟨rfl, congrArg _ htake, hdrop, hready, hnewline⟩
  simp only [TextFile.readMore]
  split
  · next hlt =>
      have hempty : available file = [] := hspent.resolve_right hlt.ne
      simp only [Prog.bind_eq_bind, Prog.wp_bind]
      apply wp_fill hserves hlawful hready hread
      intro more next hnext hsame hused hahead hmore
      have hcast : (size - result.length : ℤ) = ((size - result.length : ℕ) : ℤ) := by omega
      simp only [Prog.after_ok, Prog.wp_bind, hcast]
      apply wp_takeChars hnext
      intro used hlow hhigh hdropped
      have htaken : Ready dec info { next with used := used } world :=
        ⟨hnext.buffer, hlow, hhigh, hnext.decodes⟩
      have hfresh := available_fresh hused
      have hjoin : (result ++ (available next).take (size - result.length)) ++
          remaining dec { next with used := used } world = remaining dec origin world := by
        rw [← hsofar, remaining, remaining, hdropped, hempty, hahead, hfresh, List.append_assoc,
          ← List.append_assoc (List.take ..), List.take_append_drop]
        rfl
      have hbound : (result ++ (available next).take (size - result.length)).length ≤ size := by
        rw [List.length_append, List.length_take]
        omega
      have hend : available { next with used := used } = [] ∨
          (result ++ (available next).take (size - result.length)).length = size := by
        rw [hdropped, List.length_append, List.length_take, List.drop_eq_nil_iff]
        omega
      simp only [Prog.after_ok]
      cases more with
      | true => exact ⟨⟨rfl, htaken, hsame.trans hnewline, hjoin, hbound, hend⟩, hmore⟩
      | false =>
          refine hdone _ _ htaken (hsame.trans hnewline) hjoin hbound ?_
          have hlast : ahead dec { next with used := used } world = [] := hmore.2
          rwa [remaining, hlast, List.append_nil]
  · next hge =>
      have hfull : result.length = size := by omega
      exact hdone _ _ hready hnewline hsofar hlength (.inr hfull)

/-- A call that returns all that is left. -/
theorem gives_all (next : TextFile σ κ) {last : σ} (hbuffer : Aligned info next.buffer content)
    (hnewline : next.newline = file.newline) (hused : next.used = 0) (hdecoded : next.decoded = [])
    (hlast : dec.decode (next.decoderState dec) (content.drop next.buffer.pos) true =
      .ok ([], last)) :
    Gives dec info file content (remaining dec file content).length
      (.ok (remaining dec file content)) next content := by
  have hahead : ahead dec next content = [] := ahead_eq hlast
  refine ⟨rfl, by rw [List.take_length], ?_, ⟨hbuffer, hused.ge, ?_, last, ?_⟩, hnewline⟩
  · rw [remaining, available_fresh hused, hdecoded, hahead, List.drop_length]
    rfl
  · rw [hused]
    exact Int.natCast_nonneg _
  · rw [hahead]
    exact hlast

/-- `read` returns what it is asked for, or all that is left. -/
theorem wp_read (hserves : Serves env) (hlawful : dec.Lawful)
    (hready : Ready dec info file content) (hread : info.read = true) (size : Option ℤ) :
    (TextFile.read dec size).wp env
      (Gives dec info file content ((asked size).getD (remaining dec file content).length))
      file content := by
  simp only [TextFile.read, Prog.bind_eq_bind, Prog.wp_bind]
  apply wp_checkOpen hready.buffer
  rw [Prog.after_ok, Prog.wp_bind]
  apply wp_checkReadable hready.buffer hread
  rw [Prog.after_ok, Prog.wp_bind]
  apply wp_theDecoder
  rw [Prog.after_ok]
  have hmade := hready.withDecoder
  cases hsize : asked size with
  | none =>
      obtain ⟨last, hdecodes⟩ := hready.decodes
      simp only [Prog.wp_bind]
      apply wp_onBuffer
      apply hserves.readAll hready.buffer hread
      · intro buffer hpos hbuffer
        have hend : content.drop buffer.pos = [] := by
          rw [List.drop_eq_nil_iff, hpos, List.length_drop]
          omega
        simp only [Prog.after_ok, Prog.wp_bind]
        apply wp_takeAll
        simp only [Prog.after_ok, Prog.wp_bind]
        apply wp_decodePiece
        · exact hdecodes
        simp only [Prog.after_ok, Prog.wp_bind, Prog.wp_modify, Prog.pure_eq_done, Prog.wp_done]
        have hlast : dec.decode last (content.drop buffer.pos) true = .ok ([], last) := by
          rw [hend]
          exact hlawful.ended _ _ _ _ hdecodes
        exact gives_all _ hbuffer rfl rfl rfl hlast
  | some size =>
      simp only [Prog.wp_bind]
      apply wp_takeChars hmade
      intro used hlow hhigh hdropped
      rw [Prog.after_ok]
      refine wp_readLoop hserves hlawful hread ⟨hready.buffer, hlow, hhigh, hready.decodes⟩ rfl ?_
        (List.length_take_le _ _) ?_
      · rw [remaining, hdropped, ← List.append_assoc, List.take_append_drop]
        rfl
      · rw [hdropped, List.drop_eq_nil_iff, List.length_take]
        omega

/-! ## Lines -/

theorem wp_fillUntilDecoded (hserves : Serves env) (hlawful : dec.Lawful)
    (hready : Ready dec info file content) (hread : info.read = true)
    {post : Post (TextFile σ κ) PyError Bytes Unit}
    (hpost : ∀ next : TextFile σ κ, Ready dec info next content →
      next.newline = file.newline → next.used = 0 →
      ahead dec file content = next.decoded ++ ahead dec next content →
      (next.decoded = [] → ahead dec next content = []) → post (.ok ()) next content) :
    (TextFile.fillUntilDecoded dec).wp env post file content := by
  refine Prog.wp_loop
    (fun _ (state : TextFile σ κ) world => world = content ∧ Ready dec info state content ∧
      state.newline = file.newline ∧ ahead dec state content = ahead dec file content)
    (fun _ state _ => content.length - state.buffer.pos) ?_ ⟨rfl, hready, rfl, rfl⟩
  rintro - state world ⟨rfl, hready, hnewline, hahead⟩
  simp only [Prog.bind_eq_bind, Prog.wp_bind]
  apply wp_fill hserves hlawful hready hread
  intro more next hnext hsame hused hsplit hmore
  simp only [Prog.after_ok, Prog.wp_bind, Prog.wp_state]
  split
  · next hagain =>
      obtain ⟨rfl, hempty⟩ := hagain
      refine ⟨⟨rfl, hnext, hsame.trans hnewline, ?_⟩, hmore⟩
      rw [← hahead, hsplit, hempty]
      rfl
  · next hstop =>
      refine hpost next hnext (hsame.trans hnewline) hused (hahead.symm.trans hsplit) ?_
      intro hempty
      cases more with
      | true => exact absurd ⟨rfl, hempty⟩ hstop
      | false => exact hmore.2

/-- How many characters `readline` returns of what is left. -/
def lineAsked (newline : Newline) (size : Option ℤ) (rest : Text) : ℕ :=
  let limit := size.getD (-1)
  if 0 ≤ limit ∧ limit < lineLen newline rest then limit.toNat else lineLen newline rest

/-- The line so far: only its last part is in the chunk, and it is not cut
before that part. -/
structure Searching (dec : TextDecoder σ) (info : ModeInfo) (origin : TextFile σ κ)
    (content : Bytes) (limit : ℤ) (line : Text) (start : ℕ) (file : TextFile σ κ) : Prop where
  ready : Ready dec info file content
  newline : file.newline = origin.newline
  spent : file.used = file.decoded.length
  whole : line ++ ahead dec file content = remaining dec origin content
  scanned : ∀ more, TextFile.lineEnd origin.newline (line ++ more) start =
    TextFile.lineEnd origin.newline (line ++ more) 0
  parts : ∃ front taken, line = front ++ file.decoded.drop taken ∧ taken ≤ file.decoded.length ∧
    (0 ≤ limit → (front.length : ℤ) ≤ limit) ∧
    ∀ endpos, TextFile.lineEnd origin.newline line 0 = .found endpos → front.length ≤ endpos

theorem drop_rewound {front line decoded : Text} {taken endpos : ℕ}
    (hline : line = front ++ decoded.drop taken) (htaken : taken ≤ decoded.length)
    (hfront : front.length ≤ endpos) (hend : endpos ≤ line.length) :
    decoded.drop (decoded.length - (line.length - endpos)) = line.drop endpos := by
  have hlength : line.length = front.length + (decoded.length - taken) := by
    rw [hline, List.length_append, List.length_drop]
  rw [hline, List.drop_append, List.drop_eq_nil_of_le hfront, List.nil_append, List.drop_drop]
  congr 1
  rw [← hline]
  omega

/-- A line cut at `endpos`, with the rest of it put back. -/
theorem wp_cut {origin : TextFile σ κ} {limit : ℤ} {line : Text} {start endpos : ℕ}
    (hsearching : Searching dec info origin content limit line start file)
    (hend : endpos ≤ line.length)
    (hfront : ∀ front taken, line = front ++ file.decoded.drop taken →
      (0 ≤ limit → (front.length : ℤ) ≤ limit) →
      (∀ endpos, TextFile.lineEnd origin.newline line 0 = .found endpos → front.length ≤ endpos) →
      front.length ≤ endpos) :
    Gives dec info origin content endpos (.ok (line.take endpos))
      { file with used := file.used - ((line.length : ℤ) - endpos) } content := by
  obtain ⟨front, taken, hline, htaken, hlimit, hfound⟩ := hsearching.parts
  have hcut := hfront front taken hline hlimit hfound
  have hlength : line.length = front.length + (file.decoded.length - taken) := by
    rw [hline, List.length_append, List.length_drop]
  have hspent := hsearching.spent
  have hused : file.used - ((line.length : ℤ) - endpos) =
      ((file.decoded.length - (line.length - endpos) : ℕ) : ℤ) := by omega
  have hlow : 0 ≤ file.used - ((line.length : ℤ) - endpos) := by omega
  have havailable : available
      { file with used := file.used - ((line.length : ℤ) - endpos) } = line.drop endpos := by
    rw [available_eq hlow, ← drop_rewound hline htaken hcut hend]
    congr 1
    exact (congrArg Int.toNat hused).trans (Int.toNat_natCast _)
  refine ⟨rfl, ?_, ?_, ⟨hsearching.ready.buffer, hlow, ?_, hsearching.ready.decodes⟩,
    hsearching.newline⟩
  · rw [← hsearching.whole, List.take_append_of_le_length hend]
  · rw [← hsearching.whole, List.drop_append_of_le_length hend, remaining, havailable]
    rfl
  · change file.used - ((line.length : ℤ) - endpos) ≤ file.decoded.length
    omega

/-- The end of the text is the end of the line. -/
theorem wp_lastLine {origin next : TextFile σ κ} {line : Text}
    (hready : Ready dec info next content)
    (hnewline : next.newline = origin.newline) (hused : next.used = 0)
    (hdecoded : next.decoded = []) (hahead : ahead dec next content = [])
    (hwhole : line = remaining dec origin content) :
    Gives dec info origin content line.length (.ok line)
      { next with snapshot := none } content := by
  refine ⟨rfl, ?_, ?_, ⟨hready.buffer, hready.low, hready.high, hready.decodes⟩, hnewline⟩
  · rw [← hwhole, List.take_length]
  · have havailable : available { next with snapshot := none } = [] :=
      (available_fresh hused).trans hdecoded
    rw [← hwhole, List.drop_length, remaining, havailable]
    exact hahead

/-- One round of the loop ends the line or reads on. -/
theorem wp_searchLine (hserves : Serves env) (hlawful : dec.Lawful)
    (hread : info.read = true) {origin : TextFile σ κ} (size : Option ℤ) {line : Text} {start : ℕ}
    (hsearching : Searching dec info origin content (size.getD (-1)) line start file) :
    (TextFile.searchLine dec origin.newline (size.getD (-1)) (line, start)).wp env
      (fun result state world =>
        match result with
        | .ok (.inl next) =>
            (world = content ∧
              Searching dec info origin content (size.getD (-1)) next.1 next.2 state) ∧
            (ahead dec state content).length < (ahead dec file content).length
        | .ok (.inr last) =>
            (TextFile.finishLine (size.getD (-1)) last).wp env
              (Gives dec info origin content
                (lineAsked origin.newline size (remaining dec origin content))) state world
        | .error error =>
            Gives dec info origin content
              (lineAsked origin.newline size (remaining dec origin content)) (.error error)
              state world) file content := by
  generalize hlimit : size.getD (-1) = limit at hsearching ⊢
  have hsearch := hsearching.scanned []
  rw [List.append_nil] at hsearch
  simp only [TextFile.searchLine, hsearch]
  have hnewline := hsearching.newline
  cases hend : TextFile.lineEnd origin.newline line 0 with
  | found endpos =>
      have hwithin := ((lineEnd_settles origin.newline).within line endpos hend).2
      have hlen : lineLen origin.newline (remaining dec origin content) = endpos := by
        rw [← hsearching.whole]
        exact lineLen_of_found hend _
      have hcount : lineAsked origin.newline size (remaining dec origin content) =
          if 0 ≤ limit ∧ limit < endpos then limit.toNat else endpos := by
        simp only [lineAsked, hlimit, hlen]
      simp only [Prog.pure_eq_done, Prog.wp_done, TextFile.finishLine, Prog.bind_eq_bind,
        Prog.wp_bind, TextFile.rewindChars, Prog.wp_modify, Prog.after_ok, hcount]
      apply wp_cut hsearching
      · split_ifs <;> omega
      · intro front taken _ hfront hfound
        have hle := hfound endpos hend
        split_ifs with hcut
        · have hfront := hfront hcut.1
          omega
        · exact hle
  | searchFrom next =>
      have hlen : line.length ≤ lineLen origin.newline (remaining dec origin content) := by
        rw [← hsearching.whole]
        exact length_le_lineLen hend _
      simp only
      split
      · next hcut =>
          have hcount : lineAsked origin.newline size (remaining dec origin content) =
              limit.toNat := by
            simp only [lineAsked, hlimit]
            split_ifs <;> omega
          have hkept : (if 0 ≤ limit ∧ limit < (limit.toNat : ℤ) then limit.toNat
              else limit.toNat) = limit.toNat := by split_ifs <;> rfl
          simp only [Prog.pure_eq_done, Prog.wp_done, TextFile.finishLine, Prog.bind_eq_bind,
            Prog.wp_bind, TextFile.rewindChars, Prog.wp_modify, Prog.after_ok, hcount, hkept]
          apply wp_cut hsearching
          · omega
          · intro front taken _ hfront _
            have hfront := hfront hcut.1
            omega
      · next hlong =>
          simp only [Prog.bind_eq_bind, Prog.wp_bind]
          apply wp_fillUntilDecoded hserves hlawful hsearching.ready hread
          intro filled hfilled hsame hused hahead hlast
          simp only [Prog.after_ok, Prog.wp_bind, Prog.wp_state]
          have hwhole := hsearching.whole
          split
          · next hdecoded =>
              have hnil := hlast hdecoded
              rw [hahead, hdecoded, hnil, List.append_nil, List.append_nil] at hwhole
              have hcount : lineAsked origin.newline size (remaining dec origin content) =
                  line.length := by
                simp only [lineAsked, hlimit, ← hwhole, lineLen_of_searchFrom hend]
                rw [if_neg (by omega)]
              simp only [Prog.wp_bind, Prog.wp_modify, Prog.after_ok, Prog.pure_eq_done,
                Prog.wp_done, TextFile.finishLine, hcount]
              exact wp_lastLine hfilled (hsame.trans hnewline) hused hdecoded hnil hwhole
          · next hdecoded =>
              have hfresh := available_fresh hused
              have hlonger := List.length_pos_iff.mpr hdecoded
              simp only [Prog.wp_bind]
              apply wp_takeAll
              simp only [Prog.after_ok, Prog.pure_eq_done, Prog.wp_done]
              refine ⟨⟨trivial, ?_⟩, ?_⟩
              · exact
                  { ready := ⟨hfilled.buffer, Int.natCast_nonneg _, le_rfl, hfilled.decodes⟩
                    newline := hsame.trans hnewline
                    spent := rfl
                    whole := by
                      rw [← hwhole, hahead, hfresh, List.append_assoc]
                      rfl
                    scanned := fun more => by
                      rw [List.append_assoc]
                      exact (lineEnd_settles origin.newline).resume line next hend _
                    parts := by
                      refine ⟨line, 0, by rw [hfresh]; rfl, Nat.zero_le _, fun hlimit => ?_, ?_⟩
                      · omega
                      · intro endpos hfound
                        exact (lineEnd_settles origin.newline).behind line next _ endpos hend
                          hfound }
              · rw [hahead, List.length_append]
                change (ahead dec filled content).length < _
                omega

theorem wp_readline (hserves : Serves env) (hlawful : dec.Lawful)
    (hready : Ready dec info file content) (hread : info.read = true) (size : Option ℤ) :
    (TextFile.readline dec size).wp env
      (Gives dec info file content
        (lineAsked file.newline size (remaining dec file content))) file content := by
  simp only [TextFile.readline, Prog.bind_eq_bind, Prog.wp_bind]
  apply wp_checkOpen hready.buffer
  rw [Prog.after_ok, Prog.wp_bind]
  apply wp_checkReadable hready.buffer hread
  rw [Prog.after_ok, Prog.wp_bind]
  apply wp_theDecoder
  simp only [Prog.after_ok, Prog.wp_bind, Prog.wp_state]
  apply wp_takeAll
  simp only [Prog.after_ok, Prog.wp_bind]
  refine Prog.wp_loop
    (fun value (state : TextFile σ κ) world => world = content ∧
      Searching dec info file content (size.getD (-1)) value.1 value.2 state)
    (fun _ state _ => (ahead dec state content).length) ?_ ⟨rfl, ?_⟩
  · rintro ⟨line, start⟩ state world ⟨rfl, hsearching⟩
    refine Prog.wp_mono _ ?_ (wp_searchLine hserves hlawful hread size hsearching)
    intro result state world hresult
    rcases result with error | next | last
    · exact hresult
    · exact hresult
    · exact hresult
  · exact
      { ready := ⟨hready.buffer, Int.natCast_nonneg _, le_rfl, hready.decodes⟩
        newline := rfl
        spent := rfl
        whole := rfl
        scanned := fun _ => rfl
        parts := by
          have hlow := hready.low
          have hhigh := hready.high
          refine ⟨[], file.used.toNat, available_eq hlow, ?_, fun hlimit => hlimit, ?_⟩
          · change file.used.toNat ≤ file.decoded.length
            omega
          · exact fun _ _ => Nat.zero_le _ }

end Turbofile.Text
