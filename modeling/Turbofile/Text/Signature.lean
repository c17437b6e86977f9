import Turbofile.Text.Sequences

/-!
# The signature of a file

Some encoders put a signature in front of the first text they encode.  Whether
an encoder is at its start has to follow from where the next write lands: at
byte 0 it is, and nowhere else.  `write` makes the encoder when it needs it
first, `seek` sets an encoder that is there.
-/

namespace Turbofile.Text

open Turbofile.Core
open Turbofile.Coroutine
open Turbofile.Binary
open Turbofile.Codecs

/-- An encoder that puts `signature` in front of its first text.  State 0 is
the one behind the signature; a text that cannot be encoded leaves one of the
two states. -/
structure Signs {κ : Type} (enc : Encoder κ) (signature : Bytes)
    (plain : Text → Except PyError Bytes) : Prop where
  signature_ne : signature ≠ []
  behind_ne : enc.setstate 0 ≠ enc.initial
  first : ∀ text bytes, plain text = .ok bytes →
    enc.encode enc.initial text = (.ok (signature ++ bytes), enc.setstate 0)
  refused : ∀ text error, plain text = .error error →
    ∃ state, enc.encode enc.initial text = (.error error, state) ∧
      (state = enc.initial ∨ state = enc.setstate 0)
  later : ∀ text, enc.encode (enc.setstate 0) text = (plain text, enc.setstate 0)

variable {σ κ : Type} {dec : TextDecoder σ} {enc : Encoder κ} {signature : Bytes}
  {plain : Text → Except PyError Bytes} {file : TextFile σ κ} {content : Bytes}

/-- Where the next write lands; an append-mode one lands at the end. -/
def writePos (file : TextFile σ κ) (content : Bytes) : ℕ :=
  if file.buffer.info.append then content.length else file.buffer.pos

/-- The file after a write. -/
def landed (info : ModeInfo) (content : Bytes) (pos : ℕ) (payload : Bytes) : Bytes :=
  if info.append then content ++ payload else splice content pos payload

/-- The encoder the next write uses. -/
def TextFile.encoderState (enc : Encoder κ) (file : TextFile σ κ) : κ :=
  file.encoder.getD enc.initial

/-! ## The methods -/

section Methods

variable {info : ModeInfo}

theorem wp_checkWritable (hbuffer : Aligned info file.buffer content)
    (hwritable : info.writable = true) {post : Post (TextFile σ κ) PyError Bytes Unit}
    (hpost : post (.ok ()) file content) :
    (onBuffer BinaryFile.checkWritable).wp fileEnv post file content := by
  apply wp_onBuffer
  simp only [BinaryFile.checkWritable, Prog.bind_eq_bind, Prog.wp_bind, Prog.wp_state,
    Prog.after_ok, hbuffer.info, hwritable, if_true]
  exact hpost

theorem landed_nil (info : ModeInfo) (content : Bytes) (pos : ℕ) :
    landed info content pos [] = content := by
  unfold landed splice
  split <;> simp

theorem wp_encodePiece {text : Text} {payload : Except PyError Bytes} {next : κ}
    (hencode : enc.encode (file.encoderState enc) text = (payload, next))
    {post : Post (TextFile σ κ) PyError Bytes Bytes}
    (hpost : post payload { file with encoder := some next } content) :
    (TextFile.encodePiece enc text).wp fileEnv post file content := by
  have hnow : enc.encode (file.encoder.getD enc.initial) text = (payload, next) := hencode
  simp only [TextFile.encodePiece, Prog.bind_eq_bind, Prog.wp_bind, Prog.wp_state, Prog.after_ok,
    hnow, Prog.wp_modify]
  cases payload with
  | error error => exact hpost
  | ok bytes => exact hpost

theorem wp_write (hbuffer : Aligned info file.buffer content) (hwritable : info.writable = true)
    (text : Text) {post : Post (TextFile σ κ) PyError Bytes ℕ} {payload : Except PyError Bytes}
    {next : κ}
    (hencode : enc.encode (file.encoderState enc) (file.outgoing text) = (payload, next))
    (hraise : ∀ error, payload = .error error →
      post (.error error) { file with encoder := some next } content)
    (hpost : ∀ bytes, payload = .ok bytes → ∀ buffer : BinaryFile,
      Aligned info buffer (landed info content file.buffer.pos bytes) →
      (info.append = false → buffer.pos = file.buffer.pos + bytes.length) →
      ∀ after : TextFile σ κ, after.buffer = buffer → after.encoder = some next →
        after.decoder = file.decoder.map (fun _ => dec.initial) → after.snapshot = none →
        post (.ok text.length) after (landed info content file.buffer.pos bytes)) :
    (TextFile.write dec enc text).wp fileEnv post file content := by
  simp only [TextFile.write, Prog.bind_eq_bind, Prog.wp_bind]
  apply wp_checkOpen hbuffer
  rw [Prog.after_ok, Prog.wp_bind]
  apply wp_checkWritable hbuffer hwritable
  simp only [Prog.after_ok, Prog.wp_bind, Prog.wp_state]
  apply wp_encodePiece hencode
  cases payload with
  | error error => exact hraise error rfl
  | ok bytes =>
      simp only [Prog.after_ok]
      cases hempty : bytes.isEmpty with
      | true =>
          obtain rfl := List.isEmpty_iff.mp hempty
          have hlast := hpost [] rfl file.buffer
          rw [landed_nil] at hlast
          exact hlast hbuffer (fun _ => rfl) _ rfl rfl rfl rfl
      | false =>
          simp only [Bool.false_eq_true, if_false, Prog.wp_bind]
          apply wp_onBuffer
          apply Binary.wp_write hbuffer
          · intro _ buffer content' hcontent hnext
            have hplaced : content' = landed info content file.buffer.pos bytes ∧
                (info.append = false → buffer.pos = file.buffer.pos + bytes.length) := by
              unfold landed
              split at hcontent
              · next happend =>
                  rw [if_pos happend]
                  exact ⟨hcontent.1, fun hplain => by rw [happend] at hplain; cases hplain⟩
              · next happend =>
                  rw [if_neg happend]
                  exact ⟨hcontent.1, fun _ => hcontent.2⟩
            obtain ⟨rfl, hpos⟩ := hplaced
            exact hpost bytes rfl buffer hnext hpos _ rfl rfl rfl rfl
          · intro hrefused
            rw [hwritable] at hrefused
            cases hrefused

/-- With no decoder a cookie is a position. -/
theorem wp_tell (hbuffer : Aligned info file.buffer content) (hdecoder : file.decoder = none)
    {post : Post (TextFile σ κ) PyError Bytes ℕ}
    (hpost : post (.ok file.buffer.pos) file content) :
    (TextFile.tell dec).wp fileEnv post file content := by
  have hwalk : TextFile.walkOf dec file = none := by
    simp only [TextFile.walkOf, hdecoder]
  have hcookie : TextFile.cookieNow dec file = .ok file.buffer.pos := by
    simp only [TextFile.cookieNow, hwalk, hdecoder]
  simp only [TextFile.tell, Prog.bind_eq_bind, Prog.wp_bind]
  apply wp_checkOpen hbuffer
  simp only [Prog.after_ok, Prog.wp_bind, Prog.wp_state, hwalk, hcookie]
  exact hpost

theorem wp_seekEnd (hbuffer : Aligned info file.buffer content) (hdecoder : file.decoder = none)
    {post : Post (TextFile σ κ) PyError Bytes ℤ}
    (hpost : ∀ (result : ℤ) (after : TextFile σ κ), Aligned info after.buffer content →
      after.buffer.pos = content.length → after.decoder = none → after.snapshot = none →
      after.encoder = file.encoder.map (fun _ => enc.setstate 0) →
      post (.ok result) after content) :
    (TextFile.seek dec enc 0 2).wp fileEnv post file content := by
  simp only [TextFile.seek, Prog.bind_eq_bind, Prog.wp_bind]
  apply wp_checkOpen hbuffer
  simp only [Prog.after_ok, TextFile.seekEnd, Prog.bind_eq_bind]
  have hfar : ¬ (2 : ℤ) = 1 := by decide
  simp only [if_neg hfar, if_true, Prog.wp_bind]
  apply wp_onBuffer
  apply wp_seek hbuffer
  · intro error next htarget
    cases htarget
  · intro target next htarget hneg
    have hvalue : (content.length : ℤ) + 0 = target := Except.ok.inj htarget
    omega
  · intro target next htarget _ hpos hnext
    have hvalue : (content.length : ℤ) + 0 = target := Except.ok.inj htarget
    simp only [Prog.after_ok, Prog.wp_bind, Prog.wp_modify, Prog.pure_eq_done, Prog.wp_done]
    refine hpost target _ hnext ?_ ?_ rfl rfl
    · change next.pos = content.length
      omega
    · change file.decoder.map _ = none
      rw [hdecoder]
      rfl

/-- A plain position as a cookie. -/
theorem unpackCookie_lt {packed : ℕ} (hlt : packed < 2 ^ 64) :
    unpackCookie packed = { position := packed } := by
  have hzero : packed / 2 ^ 64 = 0 := Nat.div_eq_of_lt hlt
  simp only [unpackCookie, hzero, Nat.mod_eq_of_lt hlt]
  rfl

theorem wp_seekPosition (hbuffer : Aligned info file.buffer content)
    (hdecoder : file.decoder = none) (position : UInt64)
    {post : Post (TextFile σ κ) PyError Bytes ℤ}
    (hpost : ∀ (result : ℤ) (after : TextFile σ κ), Aligned info after.buffer content →
      after.buffer.pos = position.toNat → after.decoder = none → after.snapshot = none →
      after.encoder = file.encoder.map
        (fun _ => if position.toNat = 0 then enc.initial else enc.setstate 0) →
      post (.ok result) after content) :
    (TextFile.seek dec enc position.toNat 0).wp fileEnv post file content := by
  have hunpack := unpackCookie_lt position.toNat_lt
  have hnonneg : ¬ (position.toNat : ℤ) < 0 := by omega
  simp only [TextFile.seek, Prog.bind_eq_bind, Prog.wp_bind]
  apply wp_checkOpen hbuffer
  have hcurrent : ¬ (0 : ℤ) = 1 := by decide
  have hend : ¬ (0 : ℤ) = 2 := by decide
  simp only [Prog.after_ok, if_neg hcurrent, if_neg hend, ne_eq, not_true_eq_false, if_false,
    if_neg hnonneg, Int.toNat_natCast, TextFile.seekCookie, hunpack, Prog.bind_eq_bind,
    Prog.wp_bind]
  apply wp_onBuffer
  apply wp_seek hbuffer
  · intro error next htarget
    cases htarget
  · intro target next htarget hneg
    have hvalue : (position.toNat : ℤ) = target := Except.ok.inj htarget
    omega
  · intro target next htarget _ hpos hnext
    have hvalue : (position.toNat : ℤ) = target := Except.ok.inj htarget
    have hplain : ∀ before : TextFile σ κ, before.decoder = none →
        TextFile.restoreDecoder dec position.toNat { position := position.toNat } before =
          before := by
      intro before hnone
      simp [TextFile.restoreDecoder, hnone]
    simp only [Prog.after_ok, Prog.wp_bind, Prog.wp_modify, if_true, Prog.pure_eq_done,
      Prog.wp_done]
    have hkept := hplain ({ file with buffer := next } : TextFile σ κ).dropDecoded hdecoder
    rw [hkept]
    refine hpost _ _ hnext ?_ hdecoder rfl ?_
    · change next.pos = position.toNat
      omega
    · simp [TextFile.restoreEncoder, TextFile.dropDecoded]

/-- A cookie that has nothing but a position. -/
theorem unpackCookie_plain {packed : ℕ}
    (hplain : ¬((unpackCookie packed).decFlags ≠ 0 ∨ (unpackCookie packed).bytesToFeed ≠ 0 ∨
      (unpackCookie packed).needEof = true ∨ (unpackCookie packed).charsToSkip ≠ 0)) :
    (unpackCookie packed).position = packed := by
  simp only [unpackCookie, bne_iff_ne, ne_eq, not_or, not_not] at hplain ⊢
  omega

theorem wp_truncateTo (hbuffer : Aligned info file.buffer content)
    (hwritable : info.writable = true) (target : ℤ)
    {post : Post (TextFile σ κ) PyError Bytes ℤ}
    (hraise : ∀ buffer : BinaryFile, Aligned info buffer content →
      buffer.pos = file.buffer.pos → target < 0 →
      post (.error .overflowError) { file with buffer := buffer } content)
    (hpost : ∀ buffer : BinaryFile, Aligned info buffer (resize content target.toNat) →
      buffer.pos = file.buffer.pos → 0 ≤ target →
      post (.ok target) { file with buffer := buffer } (resize content target.toNat)) :
    (onBuffer (BinaryFile.truncate (some target))).wp fileEnv post file content := by
  apply wp_onBuffer
  apply wp_truncate hbuffer
  · intro _ hneg buffer hpos hnext
    exact hraise buffer hnext hpos hneg
  · intro _ hge buffer hpos hnext
    exact hpost buffer hnext hpos (not_lt.mp hge)
  · intro hrefused
    rw [hwritable] at hrefused
    cases hrefused

end Methods

/-! ## Operations -/

/-- What is done to a file that is written; `seek` goes to a cookie of `tell`. -/
inductive FileOp
  | write (text : Text)
  | truncate (size : Option ℤ)
  | seek (cookie : UInt64)
  | seekEnd
  | tell

/-- An operation without its result. -/
def TextFile.apply (dec : TextDecoder σ) (enc : Encoder κ) : FileOp → TextProg σ κ Unit
  | .write text => do
      let _ ← TextFile.write dec enc text
      pure ()
  | .truncate size => do
      let _ ← TextFile.truncate dec size
      pure ()
  | .seek cookie => do
      let _ ← TextFile.seek dec enc cookie.toNat 0
      pure ()
  | .seekEnd => do
      let _ ← TextFile.seek dec enc 0 2
      pure ()
  | .tell => do
      let _ ← TextFile.tell dec
      pure ()

/-- Where a truncation cuts. -/
def cut (file : TextFile σ κ) (size : Option ℤ) : ℤ := size.getD file.buffer.pos

/-- The steps that keep the encoder at its start exactly when the next write
lands at byte 0.

A first write makes the encoder at its start, wherever it lands, so it has to
land at byte 0.  A text that cannot be encoded must not cost the signature.  A
seek to the end leaves the start, so the end must not be byte 0.  In append mode
it is the emptiness of the file that counts, which a seek does not look at and a
truncation does not tell the encoder. -/
def Allowed (enc : Encoder κ) (plain : Text → Except PyError Bytes) (file : TextFile σ κ)
    (content : Bytes) : FileOp → Prop
  | .write text =>
      (file.encoder = none → writePos file content = 0) ∧
        (writePos file content = 0 → ∀ error, plain (file.outgoing text) = .error error →
          (enc.encode enc.initial (file.outgoing text)).2 = enc.initial)
  | .seekEnd => file.encoder.isSome → content ≠ []
  | .seek cookie =>
      file.encoder.isSome → file.buffer.info.append = true → (cookie.toNat = 0 ↔ content = [])
  | .truncate size =>
      file.encoder.isSome → file.buffer.info.append = true → 0 ≤ cut file size →
        (cut file size = 0 ↔ content = [])
  | .tell => True

/-- The steps that neither cut into the signature nor leave a gap in its place. -/
def Spares (signature : Bytes) (file : TextFile σ κ) (content : Bytes) : FileOp → Prop
  | .write _ =>
      writePos file content = 0 ∨ content ≠ [] ∧ signature.length ≤ writePos file content
  | .truncate size => cut file size ≤ 0 ∨ content ≠ [] ∧ signature.length ≤ cut file size
  | .seek _ | .seekEnd | .tell => True

/-- Bytes that texts came to, written over one another and cut, none of them with
a signature. -/
inductive Unsigned (plain : Text → Except PyError Bytes) : Bytes → Prop
  | nil : Unsigned plain []
  | written {body bytes : Bytes} (text : Text) (pos : ℕ) (hbody : Unsigned plain body)
      (hplain : plain text = .ok bytes) : Unsigned plain (splice body pos bytes)
  | resized {body : Bytes} (size : ℕ) (hbody : Unsigned plain body) :
      Unsigned plain (resize body size)

/-- Nothing, or the signature and behind it bytes without one. -/
def SignedOnce (signature : Bytes) (plain : Text → Except PyError Bytes) (content : Bytes) :
    Prop :=
  content = [] ∨ ∃ body, content = signature ++ body ∧ Unsigned plain body

/-- A file that is written and not read: it has no decoder, and an encoder that
was made is where the next write needs it. -/
structure Writing (enc : Encoder κ) (file : TextFile σ κ) (content : Bytes) : Prop where
  buffer : Aligned file.buffer.info file.buffer content
  writable : file.buffer.info.writable = true
  decoder : file.decoder = none
  snapshot : file.snapshot = none
  encoder : ∀ state, file.encoder = some state →
    state = enc.initial ∧ writePos file content = 0 ∨
      state = enc.setstate 0 ∧ writePos file content ≠ 0

/-- At a write the encoder is at its start if the write lands at byte 0, and
behind the signature otherwise. -/
theorem Writing.encoderState (hfile : Writing enc file content)
    (hmade : file.encoder = none → writePos file content = 0) :
    file.encoderState enc = if writePos file content = 0 then enc.initial else enc.setstate 0 := by
  unfold TextFile.encoderState
  cases hencoder : file.encoder with
  | none => rw [if_pos (hmade hencoder), Option.getD_none]
  | some state =>
      rw [Option.getD_some]
      obtain ⟨rfl, hzero⟩ | ⟨rfl, hpos⟩ := hfile.encoder state hencoder
      · rw [if_pos hzero]
      · rw [if_neg hpos]

/-- What a text is written as at some position. -/
def signed (signature bytes : Bytes) (pos : ℕ) : Bytes :=
  if pos = 0 then signature ++ bytes else bytes

theorem signed_ne {bytes : Bytes} (hsigns : Signs enc signature plain) :
    signed signature bytes 0 ≠ [] := by
  rw [signed, if_pos rfl]
  exact fun hnil => hsigns.signature_ne (List.append_eq_nil_iff.mp hnil).1

/-- Behind a write nothing lands at byte 0. -/
theorem writePos_landed (hsigns : Signs enc signature plain) {after : TextFile σ κ} {bytes : Bytes}
    (hinfo : after.buffer.info = file.buffer.info)
    (hpos : file.buffer.info.append = false → after.buffer.pos =
      file.buffer.pos + (signed signature bytes (writePos file content)).length) :
    writePos after (landed file.buffer.info content file.buffer.pos
      (signed signature bytes (writePos file content))) ≠ 0 := by
  have hlength : writePos file content = 0 →
      0 < (signed signature bytes (writePos file content)).length := by
    intro hzero
    rw [hzero]
    exact List.length_pos_iff.mpr (signed_ne hsigns)
  generalize signed signature bytes (writePos file content) = payload at hpos hlength ⊢
  unfold writePos at hlength ⊢
  rw [hinfo]
  unfold landed
  cases happend : file.buffer.info.append with
  | true =>
      rw [happend, if_pos rfl] at hlength
      rw [if_pos rfl, if_pos rfl, List.length_append]
      omega
  | false =>
      rw [happend, if_neg Bool.false_ne_true] at hlength
      rw [if_neg Bool.false_ne_true, hpos happend]
      omega

/-- A text lands, with its signature at byte 0 and without elsewhere. -/
theorem SignedOnce.landed (hsigns : Signs enc signature plain) {text : Text} {bytes : Bytes}
    (honce : SignedOnce signature plain content)
    (hspares : Spares signature file content (.write text))
    (hplain : plain (file.outgoing text) = .ok bytes) :
    SignedOnce signature plain (landed file.buffer.info content file.buffer.pos
      (signed signature bytes (writePos file content))) := by
  right
  by_cases hzero : writePos file content = 0
  · rw [hzero, signed, if_pos rfl]
    have hfirst : content = [] → Text.landed file.buffer.info content 0 (signature ++ bytes) =
        signature ++ splice [] 0 bytes := by
      rintro rfl
      have hend := splice_end [] (signature ++ bytes)
      have hbody := splice_end [] bytes
      rw [List.length_nil] at hend hbody
      unfold Text.landed
      rw [hend, hbody]
      split <;> rfl
    have hempty : Unsigned plain (splice [] 0 bytes) := .written _ 0 .nil hplain
    unfold writePos at hzero
    cases happend : file.buffer.info.append with
    | true =>
        rw [happend, if_pos rfl] at hzero
        have hnil := List.eq_nil_of_length_eq_zero hzero
        refine ⟨_, ?_, hempty⟩
        rw [← hfirst hnil]
        unfold Text.landed
        rw [if_pos happend, if_pos happend]
    | false =>
        rw [happend, if_neg Bool.false_ne_true] at hzero
        rw [hzero]
        rcases honce with hnil | ⟨body, rfl, hbody⟩
        · exact ⟨_, hfirst hnil, hempty⟩
        · refine ⟨splice body 0 bytes, ?_, .written _ 0 hbody hplain⟩
          unfold Text.landed
          rw [happend, if_neg Bool.false_ne_true, splice_start hsigns.signature_ne]
  · obtain ⟨hcontent, hbehind⟩ : content ≠ [] ∧ signature.length ≤ writePos file content :=
      hspares.resolve_left hzero
    obtain ⟨body, rfl, hbody⟩ := honce.resolve_left hcontent
    rw [signed, if_neg hzero]
    unfold writePos at hbehind
    unfold Text.landed
    cases happend : file.buffer.info.append with
    | true =>
        refine ⟨splice body body.length bytes, ?_, .written _ _ hbody hplain⟩
        rw [if_pos rfl, splice_end, List.append_assoc]
    | false =>
        rw [happend, if_neg Bool.false_ne_true] at hbehind
        obtain ⟨pos, hpos⟩ := Nat.exists_eq_add_of_le hbehind
        refine ⟨splice body pos bytes, ?_, .written _ _ hbody hplain⟩
        rw [if_neg Bool.false_ne_true, hpos, splice_behind]

/-- What a write does to a file whose encoder is where it has to be. -/
theorem wp_write_signed (hsigns : Signs enc signature plain) (hfile : Writing enc file content)
    (text : Text) (hallowed : Allowed enc plain file content (.write text)) :
    (TextFile.write dec enc text).wp fileEnv
      (fun result next world =>
        Writing enc next world ∧
          (SignedOnce signature plain content → Spares signature file content (.write text) →
            SignedOnce signature plain world) ∧
          ∀ bytes, plain (file.outgoing text) = .ok bytes →
            result = .ok text.length ∧ world = landed file.buffer.info content file.buffer.pos
              (signed signature bytes (writePos file content)))
      file content := by
  have hstate := hfile.encoderState hallowed.1
  cases hplain : plain (file.outgoing text) with
  | error error =>
      have hencode : ∃ next, enc.encode (file.encoderState enc) (file.outgoing text) =
          (.error error, next) ∧
          (next = enc.initial ∧ writePos file content = 0 ∨
            next = enc.setstate 0 ∧ writePos file content ≠ 0) := by
        rw [hstate]
        split
        · next hzero =>
            obtain ⟨next, hencode, -⟩ := hsigns.refused _ _ hplain
            have hkept := hallowed.2 hzero error hplain
            rw [hencode] at hkept
            exact ⟨next, hencode, .inl ⟨hkept, hzero⟩⟩
        · next hpos =>
            exact ⟨_, (hsigns.later _).trans (by rw [hplain]), .inr ⟨rfl, hpos⟩⟩
      obtain ⟨next, hencode, hnext⟩ := hencode
      apply wp_write hfile.buffer hfile.writable text hencode
      · intro _ _
        refine ⟨⟨hfile.buffer, hfile.writable, hfile.decoder, hfile.snapshot, ?_⟩,
          fun honce _ => honce, fun bytes hbytes => (by cases hbytes)⟩
        intro state hsame
        obtain rfl := Option.some.inj hsame
        exact hnext
      · intro bytes hbytes
        cases hbytes
  | ok bytes =>
      have hencode : enc.encode (file.encoderState enc) (file.outgoing text) =
          (.ok (signed signature bytes (writePos file content)), enc.setstate 0) := by
        rw [hstate, signed]
        split
        · exact hsigns.first _ _ hplain
        · rw [hsigns.later, hplain]
      apply wp_write hfile.buffer hfile.writable text hencode
      · intro error herror
        cases herror
      · intro payload hpayload buffer hbuffer hpos after hafter hencoder hdecoder hsnapshot
        obtain rfl := Except.ok.inj hpayload
        subst hafter
        have hinfo := hbuffer.info
        refine ⟨⟨hinfo.symm ▸ hbuffer, hinfo.symm ▸ hfile.writable, ?_, hsnapshot, ?_⟩,
          fun honce hspares => honce.landed hsigns hspares hplain, ?_⟩
        · rw [hdecoder, hfile.decoder]
          rfl
        · intro state hsame
          obtain rfl := Option.some.inj (hencoder.symm.trans hsame)
          exact .inr ⟨rfl, writePos_landed hsigns hinfo hpos⟩
        · intro other hother
          obtain rfl := Except.ok.inj hother
          exact ⟨rfl, rfl⟩

theorem SignedOnce.resize {target : ℤ} (honce : SignedOnce signature plain content)
    (hspares : target ≤ 0 ∨ content ≠ [] ∧ signature.length ≤ target) :
    SignedOnce signature plain (resize content target.toNat) := by
  rcases hspares with hzero | ⟨hcontent, hbehind⟩
  · left
    apply List.eq_nil_of_length_eq_zero
    rw [length_resize]
    omega
  · right
    obtain ⟨body, rfl, hbody⟩ := honce.resolve_left hcontent
    obtain ⟨size, hsize⟩ := Nat.exists_eq_add_of_le (show signature.length ≤ target.toNat by omega)
    exact ⟨Binary.resize body size, by rw [hsize, resize_behind], .resized size hbody⟩

/-- A truncation leaves the position, and in append mode the next write lands
where it cut. -/
theorem Writing.resized (hfile : Writing enc file content) {size : Option ℤ}
    (hallowed : Allowed enc plain file content (.truncate size)) {buffer : BinaryFile}
    (hbuffer : Aligned file.buffer.info buffer (resize content (cut file size).toNat))
    (hpos : buffer.pos = file.buffer.pos) (hsize : 0 ≤ cut file size) :
    Writing enc { file with buffer := buffer } (resize content (cut file size).toNat) := by
  have hinfo := hbuffer.info
  refine ⟨hinfo.symm ▸ hbuffer, hinfo.symm ▸ hfile.writable, hfile.decoder, hfile.snapshot, ?_⟩
  intro state hstate
  have hkept := hfile.encoder state hstate
  have hemptied := hallowed (Option.isSome_iff_exists.mpr ⟨state, hstate⟩)
  have hafter : writePos { file with buffer := buffer } (resize content (cut file size).toNat) =
      if file.buffer.info.append then (cut file size).toNat else file.buffer.pos := by
    unfold writePos
    rw [length_resize]
    change (if buffer.info.append then _ else buffer.pos) = _
    rw [hinfo, hpos]
  rw [hafter]
  unfold writePos at hkept
  cases happend : file.buffer.info.append with
  | true =>
      rw [happend, if_pos rfl, List.length_eq_zero_iff] at hkept
      rw [if_pos rfl]
      have hsame := hemptied happend hsize
      rcases hkept with ⟨rfl, hnil⟩ | ⟨rfl, hnil⟩
      · have hzero := hsame.mpr hnil
        exact .inl ⟨rfl, by omega⟩
      · have hpositive : cut file size ≠ 0 :=
          fun hzero => hnil (List.length_eq_zero_iff.mpr (hsame.mp hzero))
        exact .inr ⟨rfl, by omega⟩
  | false =>
      rw [happend] at hkept
      exact hkept

/-- What an allowed step does. -/
def Keeps (enc : Encoder κ) (signature : Bytes) (plain : Text → Except PyError Bytes)
    (file : TextFile σ κ) (content : Bytes) (op : FileOp) :
    Post (TextFile σ κ) PyError Bytes Unit :=
  fun _ next world =>
    Writing enc next world ∧
      (SignedOnce signature plain content → Spares signature file content op →
        SignedOnce signature plain world)

theorem Writing.reseated (hfile : Writing enc file content) {buffer : BinaryFile}
    (hbuffer : Aligned file.buffer.info buffer content) (hpos : buffer.pos = file.buffer.pos) :
    Writing enc { file with buffer := buffer } content := by
  have hinfo := hbuffer.info
  refine ⟨hinfo.symm ▸ hbuffer, hinfo.symm ▸ hfile.writable, hfile.decoder, hfile.snapshot, ?_⟩
  have hafter : writePos { file with buffer := buffer } content = writePos file content := by
    unfold writePos
    change (if buffer.info.append then _ else buffer.pos) = _
    rw [hinfo, hpos]
  rw [hafter]
  exact hfile.encoder

/-- The truncation of the buffer, whichever way `truncate` comes to it. -/
theorem wp_cut_buffer (hfile : Writing enc file content) {size : Option ℤ}
    (hallowed : Allowed enc plain file content (.truncate size)) :
    (onBuffer (BinaryFile.truncate (some (cut file size)))).wp fileEnv
      (fun _ => Keeps enc signature plain file content (.truncate size) (.ok ())) file content := by
  apply wp_truncateTo hfile.buffer hfile.writable
  · intro buffer hbuffer hpos _
    exact ⟨hfile.reseated hbuffer hpos, fun honce _ => honce⟩
  · intro buffer hbuffer hpos hsize
    exact ⟨hfile.resized hallowed hbuffer hpos hsize, SignedOnce.resize⟩

theorem wp_apply_truncate (hfile : Writing enc file content) (size : Option ℤ)
    (hallowed : Allowed enc plain file content (.truncate size)) :
    (TextFile.apply dec enc (.truncate size)).wp fileEnv
      (Keeps enc signature plain file content (.truncate size)) file content := by
  have hkept : ∀ (result : Except PyError ℤ) (next : TextFile σ κ) (world : Bytes),
      Keeps enc signature plain file content (.truncate size) (.ok ()) next world →
      Prog.after fileEnv (fun _ => (pure () : TextProg σ κ Unit))
        (Keeps enc signature plain file content (.truncate size)) result next world := by
    intro result next world hkeeps
    cases result with
    | ok value => exact hkeeps
    | error error => exact hkeeps
  have hbuffer : (onBuffer (BinaryFile.truncate (some (cut file size)))).wp fileEnv
      (fun _ => Keeps enc signature plain file content (.truncate size) (.ok ())) file content :=
    wp_cut_buffer hfile hallowed
  have hcut := Prog.wp_mono _ hkept hbuffer
  simp only [TextFile.apply, Prog.bind_eq_bind, Prog.wp_bind]
  cases size with
  | some target => exact hcut
  | none =>
      simp only [TextFile.truncate, Prog.bind_eq_bind, Prog.wp_bind]
      apply wp_tell hfile.buffer hfile.decoder
      simp only [Prog.after_ok]
      split
      · exact hkept _ _ _ ⟨hfile, fun honce _ => honce⟩
      · next hplain =>
          rw [unpackCookie_plain hplain]
          exact hcut

/-- After a seek to the end nothing lands at byte 0, unless the file is empty. -/
theorem wp_apply_seekEnd (hfile : Writing enc file content)
    (hallowed : Allowed enc plain file content .seekEnd) :
    (TextFile.apply dec enc .seekEnd).wp fileEnv (Keeps enc signature plain file content .seekEnd)
      file content := by
  simp only [TextFile.apply, Prog.bind_eq_bind, Prog.wp_bind]
  apply wp_seekEnd hfile.buffer hfile.decoder
  intro result after hbuffer hpos hdecoder hsnapshot hencoder
  have hinfo := hbuffer.info
  refine ⟨⟨hinfo.symm ▸ hbuffer, hinfo.symm ▸ hfile.writable, hdecoder, hsnapshot, ?_⟩,
    fun honce _ => honce⟩
  intro state hstate
  rw [hencoder, Option.map_eq_some_iff] at hstate
  obtain ⟨before, hbefore, rfl⟩ := hstate
  have hcontent := hallowed (Option.isSome_iff_exists.mpr ⟨before, hbefore⟩)
  have hlength := List.length_pos_iff.mpr hcontent
  refine .inr ⟨rfl, ?_⟩
  unfold writePos
  split <;> omega

/-- A seek sets the encoder by where it goes to. -/
theorem wp_apply_seek (hfile : Writing enc file content) (cookie : UInt64)
    (hallowed : Allowed enc plain file content (.seek cookie)) :
    (TextFile.apply dec enc (.seek cookie)).wp fileEnv
      (Keeps enc signature plain file content (.seek cookie)) file content := by
  simp only [TextFile.apply, Prog.bind_eq_bind, Prog.wp_bind]
  apply wp_seekPosition hfile.buffer hfile.decoder
  intro result after hbuffer hpos hdecoder hsnapshot hencoder
  have hinfo := hbuffer.info
  refine ⟨⟨hinfo.symm ▸ hbuffer, hinfo.symm ▸ hfile.writable, hdecoder, hsnapshot, ?_⟩,
    fun honce _ => honce⟩
  intro state hstate
  rw [hencoder, Option.map_eq_some_iff] at hstate
  obtain ⟨before, hbefore, rfl⟩ := hstate
  have hempty := hallowed (Option.isSome_iff_exists.mpr ⟨before, hbefore⟩)
  have hzero : writePos after content = 0 ↔ cookie.toNat = 0 := by
    unfold writePos
    rw [hinfo, hpos]
    cases happend : file.buffer.info.append with
    | true =>
        rw [if_pos rfl, List.length_eq_zero_iff]
        exact (hempty happend).symm
    | false => rw [if_neg Bool.false_ne_true]
  split
  · next hstart => exact .inl ⟨rfl, hzero.mpr hstart⟩
  · next hbehind => exact .inr ⟨rfl, fun hwrite => hbehind (hzero.mp hwrite)⟩

/-- Every allowed step keeps the encoder where the next write needs it. -/
theorem wp_apply (hsigns : Signs enc signature plain) (hfile : Writing enc file content)
    (op : FileOp) (hallowed : Allowed enc plain file content op) :
    (TextFile.apply dec enc op).wp fileEnv (Keeps enc signature plain file content op)
      file content := by
  cases op with
  | write text =>
      simp only [TextFile.apply, Prog.bind_eq_bind, Prog.wp_bind]
      refine Prog.wp_mono _ ?_ (wp_write_signed hsigns hfile text hallowed)
      rintro result next world ⟨hnext, honce, -⟩
      cases result with
      | ok value => exact ⟨hnext, honce⟩
      | error error => exact ⟨hnext, honce⟩
  | truncate size => exact wp_apply_truncate hfile size hallowed
  | seek cookie => exact wp_apply_seek hfile cookie hallowed
  | seekEnd => exact wp_apply_seekEnd hfile hallowed
  | tell =>
      simp only [TextFile.apply, Prog.bind_eq_bind, Prog.wp_bind]
      apply wp_tell hfile.buffer hfile.decoder
      exact ⟨hfile, fun honce _ => honce⟩

/-! ## Runs -/

/-- The file on the disk and the file object that has it open. -/
structure Session (σ κ : Type) where
  content : Bytes
  file : Option (TextFile σ κ)

/-- Opening for writing: `x` finds no file, `w` leaves nothing of it. -/
def opened (info : ModeInfo) (content : Bytes) : Bytes :=
  if info.truncate then [] else content

/-- What a run of opens and allowed operations makes of a file. -/
inductive ReachedBy (dec : TextDecoder σ) (enc : Encoder κ)
    (allowed : TextFile σ κ → Bytes → FileOp → Prop) (start : Bytes) : Session σ κ → Prop
  | start : ReachedBy dec enc allowed start ⟨start, none⟩
  | opened {session : Session σ κ} (handle : Handle) (fd : Fd) (info : ModeInfo)
      (newline : Newline) (linesep : Text) (hreached : ReachedBy dec enc allowed start session)
      (hwritable : info.writable = true)
      (hnew : info.createNew = true → session.content = []) :
      ReachedBy dec enc allowed start
        ⟨opened info session.content,
          some (.new (.new handle fd (opened info session.content).length info) newline linesep)⟩
  | applied {file next : TextFile σ κ} {content content' : Bytes} {result : Except PyError Unit}
      (op : FileOp) (hreached : ReachedBy dec enc allowed start ⟨content, some file⟩)
      (hallowed : allowed file content op)
      (hends : Ends fileEnv (TextFile.apply dec enc op) file content result next content') :
      ReachedBy dec enc allowed start ⟨content', some next⟩

/-- Every file object of an allowed run has its encoder where the next write
needs it, and steps that spare the signature leave the content signed once. -/
theorem ReachedBy.writing (hsigns : Signs enc signature plain)
    {allowed : TextFile σ κ → Bytes → FileOp → Prop}
    (hallowed : ∀ file content op, allowed file content op → Allowed enc plain file content op)
    {start : Bytes} {session : Session σ κ}
    (hreached : ReachedBy dec enc allowed start session) :
    (∀ file, session.file = some file → Writing enc file session.content) ∧
      ((∀ file content op, allowed file content op → Spares signature file content op) →
        SignedOnce signature plain start → SignedOnce signature plain session.content) := by
  induction hreached with
  | start => exact ⟨fun file hfile => (by cases hfile), fun _ hstart => hstart⟩
  | @opened session handle fd info newline linesep _ hwritable _ ih =>
      refine ⟨fun file hfile => ?_, fun hspares hstart => ?_⟩
      · obtain rfl := Option.some.inj hfile
        exact ⟨Aligned.new handle fd _ info _, hwritable, rfl, rfl,
          fun state hstate => (by cases hstate)⟩
      · change SignedOnce signature plain (Text.opened info session.content)
        unfold Text.opened
        split
        · exact .inl rfl
        · exact ih.2 hspares hstart
  | @applied file next content content' result op _ hstep hends ih =>
      have hkeeps := (Prog.wp_safe _ (wp_apply hsigns (ih.1 file rfl) op
        (hallowed _ _ _ hstep))).ends hends
      refine ⟨fun after hafter => ?_, fun hspares hstart => ?_⟩
      · obtain rfl := Option.some.inj hafter
        exact hkeeps.1
      · exact hkeeps.2 (ih.2 hspares hstart) (hspares _ _ _ hstep)

theorem ReachedBy.mono {allowed allowed' : TextFile σ κ → Bytes → FileOp → Prop}
    (himp : ∀ file content op, allowed file content op → allowed' file content op)
    {start : Bytes} {session : Session σ κ}
    (hreached : ReachedBy dec enc allowed start session) :
    ReachedBy dec enc allowed' start session := by
  induction hreached with
  | start => exact .start
  | opened handle fd info newline linesep _ hwritable hnew ih =>
      exact .opened handle fd info newline linesep ih hwritable hnew
  | applied op _ hallowed hends ih => exact .applied op ih (himp _ _ _ hallowed) hends

def utf16Plain (text : Text) : Bytes :=
  text.flatMap fun char => [UInt8.ofNat char, UInt8.ofNat (char / 256)]

/-- `utf-16` on a little-endian machine, for characters of the basic plane: the
state is whether the byte order has not been written yet. -/
def utf16 : Encoder Bool where
  initial := true
  encode atStart text := (.ok ((if atStart then [255, 254] else []) ++ utf16Plain text), false)
  setstate flags := flags != 0

end Turbofile.Text
