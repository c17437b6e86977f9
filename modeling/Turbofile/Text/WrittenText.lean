import Turbofile.Text.Cursor
import Turbofile.Text.Signature

/-!
# Text that is written reads back

Texts go through newline replacement and an incremental encoder into a new
file; the same file is then read, marked and repositioned.  What comes back is
the text with its newlines as the setting leaves them, whatever the pieces in
which it was written.
-/

namespace Turbofile.Text

open Turbofile.Core
open Turbofile.Coroutine
open Turbofile.Binary
open Turbofile.Codecs

/-! ## Newlines there and back -/

/-- A text as it is encoded, with its newlines replaced. -/
def sent (newline : Newline) (linesep text : Text) : Text :=
  match newline.writenl linesep with
  | none => text
  | some replacement => replaceNewline replacement text

/-- What a decoder with the same setting makes of it. -/
def readBack (newline : Newline) (linesep text : Text) : Text :=
  translated newline.readtranslate (sent newline linesep text)

/-- The texts that come back as they were. -/
def Newline.Keeps (newline : Newline) (text : Text) : Prop :=
  match newline with
  | .none => Codecs.cr ∉ text
  | .empty | .lf => True
  | .cr | .crlf => Codecs.lf ∉ text

section Newlines

variable {replacement text : Text}

theorem cr_notMem_translateNewlines (text : Text) : cr ∉ translateNewlines text := by
  have hlf : cr ≠ lf := by decide
  induction text using translateNewlines.induct with
  | case1 => simp [translateNewlines]
  | case2 => simp [translateNewlines, hlf]
  | case3 rest ih => simp [translateNewlines, hlf, ih]
  | case4 next rest hnext ih =>
      simp only [translateNewlines, if_true, hnext, if_false] at ih ⊢
      simp [hlf, ih]
  | case5 char text hchar ih =>
      rw [translateNewlines_cons hchar]
      simp [Ne.symm hchar, ih]

theorem replaceNewline_cons (replacement text : Text) (char : ℕ) :
    replaceNewline replacement (char :: text) =
      (if char = lf then replacement else [char]) ++ replaceNewline replacement text :=
  List.flatMap_cons

/-- A text without newlines is written as it is. -/
theorem replaceNewline_of_notMem (hlf : lf ∉ text) : replaceNewline replacement text = text := by
  induction text with
  | nil => rfl
  | cons char text ih =>
      obtain ⟨hchar, htext⟩ := List.ne_and_not_mem_of_not_mem_cons hlf
      rw [replaceNewline_cons, if_neg (Ne.symm hchar), ih htext]
      rfl

/-- What is not a newline stays one character. -/
theorem length_replaceNewline (other : ℕ) (text : Text) :
    (replaceNewline [other, lf] text).length = text.length + text.count lf := by
  induction text with
  | nil => rfl
  | cons char text ih =>
      rw [replaceNewline_cons, List.length_append, ih, List.length_cons, List.count_cons]
      by_cases hchar : char = lf
      · simp only [hchar, beq_self_eq_true, if_true, List.length_cons,
          List.length_nil]
        omega
      · simp only [if_neg hchar, beq_iff_eq, List.length_cons, List.length_nil]
        omega

theorem lf_notMem_replaceNewline (hreplacement : lf ∉ replacement) (text : Text) :
    lf ∉ replaceNewline replacement text := by
  intro hmem
  obtain ⟨char, -, hchar⟩ := List.mem_flatMap.mp hmem
  split at hchar
  · exact hreplacement hchar
  · next hne => exact hne (List.mem_singleton.mp hchar).symm

/-- A separator is read as one newline, also in front of another one. -/
theorem translateNewlines_replaced (hreplacement : translateNewlines replacement = [lf])
    (hbetween : replacement.getLast? = some cr → lf ∉ replacement) (hcr : cr ∉ text) :
    translateNewlines (replaceNewline replacement text) = text := by
  induction text with
  | nil => rfl
  | cons char text ih =>
      obtain ⟨hchar, htext⟩ := List.ne_and_not_mem_of_not_mem_cons hcr
      rw [replaceNewline_cons]
      split
      · next hlf =>
          rw [translateNewlines_append, hreplacement, ih htext, hlf]
          · rfl
          · intro hlast hhead
            have hmem : lf ∈ replaceNewline replacement text := List.mem_of_mem_head? hhead
            obtain ⟨other, -, hother⟩ := List.mem_flatMap.mp hmem
            split at hother
            · exact hbetween hlast hother
            · next hne => exact hne (List.mem_singleton.mp hother).symm
      · rw [List.singleton_append, translateNewlines_cons (Ne.symm hchar), ih htext]

/-- With any `os.linesep` there is, a text comes back unchanged exactly when
the newline setting keeps it. -/
theorem readBack_eq_iff (newline : Newline) {linesep : Text}
    (hlinesep : linesep ∈ [[lf], [cr, lf], [cr]]) (text : Text) :
    readBack newline linesep text = text ↔ newline.Keeps text := by
  cases newline with
  | none =>
      change translateNewlines (replaceNewline linesep text) = text ↔ cr ∉ text
      constructor
      · intro hsame
        rw [← hsame]
        exact cr_notMem_translateNewlines _
      · intro hcr
        simp only [List.mem_cons, List.not_mem_nil, or_false] at hlinesep
        rcases hlinesep with rfl | rfl | rfl
        · exact translateNewlines_replaced (by simp [translateNewlines, cr, lf]) (by decide) hcr
        · exact translateNewlines_replaced (by simp [translateNewlines]) (by decide) hcr
        · exact translateNewlines_replaced (by simp [translateNewlines]) (by decide) hcr
  | empty => exact iff_of_true rfl trivial
  | lf => exact iff_of_true rfl trivial
  | cr =>
      change replaceNewline [cr] text = text ↔ lf ∉ text
      constructor
      · intro hsame
        rw [← hsame]
        exact lf_notMem_replaceNewline (by decide) text
      · exact replaceNewline_of_notMem
  | crlf =>
      change replaceNewline [cr, lf] text = text ↔ lf ∉ text
      constructor
      · intro hsame
        have hlength := length_replaceNewline cr text
        rw [hsame] at hlength
        exact List.count_eq_zero.mp (by omega)
      · exact replaceNewline_of_notMem

end Newlines

/-! ## Codecs -/

variable {σ κ : Type}

/-- Texts encoded one after another. -/
def Encoder.encodeAll (enc : Encoder κ) : κ → List Text → Except PyError Bytes
  | _, [] => .ok []
  | state, text :: texts =>
      match enc.encode state text with
      | (.error error, _) => .error error
      | (.ok payload, next) => (enc.encodeAll next texts).map (payload ++ ·)

/-- The codec decodes what the encoder makes of a text, in however many pieces. -/
def ReadsBack (enc : Encoder κ) (codec : TextDecoder σ) : Prop :=
  ∀ (texts : List Text) (bytes : Bytes), enc.encodeAll enc.initial texts = .ok bytes →
    ∃ last, codec.decode codec.initial bytes true = .ok (texts.flatten, last)

theorem encodeAll_cons {enc : Encoder κ} {state : κ} {text : Text} {texts : List Text}
    {bytes : Bytes} (hencode : enc.encodeAll state (text :: texts) = .ok bytes) :
    ∃ payload next rest, enc.encode state text = (.ok payload, next) ∧
      enc.encodeAll next texts = .ok rest ∧ bytes = payload ++ rest := by
  simp only [Encoder.encodeAll] at hencode
  split at hencode
  · cases hencode
  · next payload next hpiece =>
      cases hrest : enc.encodeAll next texts with
      | error error =>
          rw [hrest] at hencode
          cases hencode
      | ok rest =>
          rw [hrest] at hencode
          exact ⟨payload, next, rest, hpiece, hrest, (Except.ok.inj hencode).symm⟩

theorem flatten_sent (newline : Newline) (linesep : Text) (texts : List Text) :
    (texts.map (sent newline linesep)).flatten = sent newline linesep texts.flatten := by
  unfold sent
  cases newline.writenl linesep with
  | none => rw [List.map_id']
  | some replacement =>
      induction texts with
      | nil => rfl
      | cons text texts ih =>
          rw [List.map_cons, List.flatten_cons, List.flatten_cons, ih]
          exact (List.flatMap_append ..).symm

/-! ## Writing -/

/-- `writelines`. -/
def TextFile.writelines (dec : TextDecoder σ) (enc : Encoder κ) : List Text → TextProg σ κ Unit
  | [] => pure ()
  | line :: lines => do
      let _ ← write dec enc line
      writelines dec enc lines

variable {dec : TextDecoder σ} {enc : Encoder κ} {info : ModeInfo} {newline : Newline}
  {linesep : Text} {file : TextFile σ κ} {content : Bytes}

/-- A file that has been written to its end, with the encoder in this state. -/
structure Written (enc : Encoder κ) (info : ModeInfo) (newline : Newline) (linesep : Text)
    (state : κ) (file : TextFile σ κ) (content : Bytes) : Prop where
  buffer : Aligned info file.buffer content
  pos : file.buffer.pos = content.length
  writenl : file.writenl = newline.writenl linesep
  newline : file.newline = newline
  decoder : file.decoder = none
  encoder : file.encoderState enc = state
  decoded : file.decoded = []
  used : file.used = 0
  snapshot : file.snapshot = none

theorem Written.new (handle : Handle) (fd : Fd) :
    Written enc info newline linesep enc.initial
      (.new (.new handle fd 0 info) newline linesep : TextFile σ κ) [] where
  buffer := Aligned.new handle fd 0 info []
  pos := by
    change (if info.append then 0 else 0) = 0
    split <;> rfl
  writenl := rfl
  newline := rfl
  decoder := rfl
  encoder := rfl
  decoded := rfl
  used := rfl
  snapshot := rfl

/-- A write at the end of the file. -/
theorem wp_write_end {state next : κ}
    (hwritten : Written enc info newline linesep state file content)
    (hwritable : info.writable = true) {text : Text} {payload : Bytes}
    (hencode : enc.encode state (sent newline linesep text) = (.ok payload, next)) :
    (TextFile.write dec enc text).wp fileEnv
      (fun result after world => result = .ok text.length ∧ world = content ++ payload ∧
        Written enc info newline linesep next after world) file content := by
  have houtgoing : file.outgoing text = sent newline linesep text := by
    cases hreplacement : newline.writenl linesep with
    | none => simp only [TextFile.outgoing, sent, hwritten.writenl, hreplacement]
    | some replacement => simp only [TextFile.outgoing, sent, hwritten.writenl, hreplacement]
  have hpiece : enc.encode (file.encoderState enc) (file.outgoing text) = (.ok payload, next) := by
    rw [hwritten.encoder, houtgoing, hencode]
  have hdone : ∀ buffer : BinaryFile, Aligned info buffer (content ++ payload) →
      buffer.pos = (content ++ payload).length →
      Written enc info newline linesep next
        { ({ file with buffer := buffer, encoder := some next } : TextFile σ κ).dropDecoded with
          decoder := file.decoder.map fun _ => dec.initial } (content ++ payload) :=
    fun buffer hbuffer hpos =>
      { buffer := hbuffer
        pos := hpos
        writenl := hwritten.writenl
        newline := hwritten.newline
        decoder := by
          change file.decoder.map _ = none
          rw [hwritten.decoder]
          rfl
        encoder := rfl
        decoded := rfl
        used := rfl
        snapshot := rfl }
  simp only [TextFile.write, Prog.bind_eq_bind, Prog.wp_bind]
  apply wp_checkOpen hwritten.buffer
  rw [Prog.after_ok, Prog.wp_bind]
  apply wp_checkWritable hwritten.buffer hwritable
  simp only [Prog.after_ok, Prog.wp_bind, Prog.wp_state]
  apply wp_encodePiece hpiece
  simp only [Prog.after_ok]
  cases hempty : payload.isEmpty with
  | true =>
      obtain rfl := List.isEmpty_iff.mp hempty
      have hlast := hdone file.buffer
      rw [List.append_nil] at hlast ⊢
      exact ⟨rfl, rfl, hlast hwritten.buffer hwritten.pos⟩
  | false =>
      simp only [Bool.false_eq_true, if_false, Prog.wp_bind]
      apply wp_onBuffer
      apply Binary.wp_write hwritten.buffer
      · intro _ buffer content' hcontent hnext
        have hplaced : content' = content ++ payload ∧
            buffer.pos = (content ++ payload).length := by
          rw [List.length_append]
          split at hcontent
          · exact hcontent
          · rw [hwritten.pos, splice_end] at hcontent
            exact hcontent
        obtain ⟨rfl, hpos⟩ := hplaced
        exact ⟨rfl, rfl, hdone buffer hnext hpos⟩
      · intro hrefused
        rw [hwritable] at hrefused
        cases hrefused

theorem wp_writelines {state : κ} (hwritten : Written enc info newline linesep state file content)
    (hwritable : info.writable = true) {texts : List Text} {bytes : Bytes}
    (hencode : enc.encodeAll state (texts.map (sent newline linesep)) = .ok bytes) :
    (TextFile.writelines dec enc texts).wp fileEnv
      (fun result after world => result = .ok () ∧ world = content ++ bytes ∧
        ∃ last, Written enc info newline linesep last after world) file content := by
  induction texts generalizing state file content bytes with
  | nil =>
      obtain rfl : [] = bytes := Except.ok.inj hencode
      refine ⟨rfl, (List.append_nil content).symm, state, ?_⟩
      exact hwritten
  | cons text texts ih =>
      obtain ⟨payload, next, rest, hpiece, hrest, rfl⟩ := encodeAll_cons hencode
      simp only [TextFile.writelines, Prog.bind_eq_bind, Prog.wp_bind]
      refine Prog.wp_mono _ ?_ (wp_write_end hwritten hwritable hpiece)
      rintro result after world ⟨rfl, rfl, hnext⟩
      rw [Prog.after_ok]
      refine Prog.wp_mono _ ?_ (ih hnext hrest)
      rintro result last world ⟨rfl, rfl, hlast⟩
      exact ⟨rfl, (List.append_assoc ..), hlast⟩

/-! ## Reading back -/

/-- Writing the texts and then reading in the same file. -/
def TextFile.writeAndMove (dec : TextDecoder σ) (enc : Encoder κ) (texts : List Text)
    (ops : List CursorOp) : TextProg σ κ (List (Option Text)) := do
  writelines dec enc texts
  moveAll dec enc [] ops

/-- A written file is at the end of its text. -/
theorem Written.follows {state : κ} {whole : Text} (hseekable : Seekable dec content whole)
    (hwritten : Written enc info newline linesep state file content) :
    Follows dec info content whole newline ⟨[], []⟩ [] file := by
  have hstate : file.decoderState dec = dec.initial := by
    rw [TextFile.decoderState, hwritten.decoder]
    rfl
  have hsought : Sought dec info content whole [] file file :=
    .atEnd hseekable.final (.inr ⟨rfl, rfl⟩) hwritten.buffer hwritten.pos hstate
      hwritten.snapshot hwritten.decoded hwritten.used rfl id
  exact ⟨hsought.ready, hsought.placed, hsought.rest, hwritten.newline, .nil, fun _ => .nil⟩

/-- Texts written to a new file are there to be read: the file holds their
encoding, every script of reads, marks and seeks answers as the cursor in the
text does, and that text is what was written exactly when the newline setting
keeps it. -/
theorem written_reads_back {codec : TextDecoder σ} (hlawful : codec.Lawful)
    (hresumable : codec.Resumable) (hflags : ∀ state, (codec.getstate state).2 < 2 ^ 63)
    {enc : Encoder κ} (hback : ReadsBack enc codec) (newline : Newline) {linesep : Text}
    (hlinesep : linesep ∈ [[lf], [cr, lf], [cr]]) (handle : Handle) (fd : Fd)
    (hread : info.read = true) (hwritable : info.writable = true) {texts : List Text}
    {bytes : Bytes}
    (hencode : enc.encodeAll enc.initial (texts.map (sent newline linesep)) = .ok bytes)
    (hbytes : bytes.length < 2 ^ 64) (hchars : (sent newline linesep texts.flatten).length < 2 ^ 64)
    (ops : List CursorOp) :
    Safe fileEnv
      (fun result _ world => world = bytes ∧ result =
        .ok (Cursor.run newline (readBack newline linesep texts.flatten) ⟨[], []⟩ ops))
      (TextFile.writeAndMove (makeDecoder codec newline) enc texts ops)
      (.new (.new handle fd 0 info) newline linesep :
        TextFile (DecoderState σ newline) κ) [] ∧
    (readBack newline linesep texts.flatten = texts.flatten ↔ newline.Keeps texts.flatten) := by
  refine ⟨Prog.wp_safe _ ?_, readBack_eq_iff newline hlinesep texts.flatten⟩
  obtain ⟨last, hdecode⟩ := hback _ bytes hencode
  rw [flatten_sent] at hdecode
  have hseekable : Seekable (makeDecoder codec newline) bytes
      (readBack newline linesep texts.flatten) :=
    { lawful := makeDecoder_lawful hlawful newline
      resumable := makeDecoder_resumable hresumable newline
      flags := makeDecoder_flags hflags newline
      bytes := hbytes
      chars := (length_translated_le _ _).trans_lt hchars
      decodes := makeDecoder_whole hdecode newline }
  simp only [TextFile.writeAndMove, Prog.bind_eq_bind, Prog.wp_bind]
  refine Prog.wp_mono _ ?_ (wp_writelines (.new handle fd) hwritable hencode)
  rintro result after world ⟨rfl, rfl, last, hwritten⟩
  rw [Prog.after_ok]
  exact wp_moveAll hseekable hread (hwritten.follows hseekable) ops

theorem latin1_readsBack : ReadsBack latin1Encoder latin1 := by
  intro texts bytes hencode
  refine ⟨(), ?_⟩
  induction texts generalizing bytes with
  | nil =>
      obtain rfl : [] = bytes := Except.ok.inj hencode
      rfl
  | cons text texts ih =>
      obtain ⟨payload, next, rest, hpiece, hrest, rfl⟩ := encodeAll_cons hencode
      have htail := (Prod.mk.inj (Except.ok.inj (ih rest hrest))).1
      have hsmall : (if text.all (· < 256) then Except.ok (text.map UInt8.ofNat)
          else .error (PyError.valueError "ordinal not in range(256)")) = Except.ok payload :=
        (Prod.mk.inj hpiece).1
      split at hsmall
      · next hall =>
          obtain rfl := Except.ok.inj hsmall
          have hsame : (text.map UInt8.ofNat).map UInt8.toNat = text := by
            rw [List.map_map]
            refine (List.map_congr_left fun char hchar => ?_).trans (List.map_id text)
            have hlt : char < 256 := by simpa using List.all_eq_true.mp hall char hchar
            exact Nat.mod_eq_of_lt hlt
          change Except.ok ((text.map UInt8.ofNat ++ rest).map UInt8.toNat, ()) =
            .ok ((text :: texts).flatten, ())
          rw [List.map_append, hsame, htail, List.flatten_cons]
      · cases hsmall

/-- `"a\n"` and `"b"`, written with `"\r\n"`, are read line by line; a mark
between the lines is gone back to. -/
theorem written_reads_back_latin1 :
    Safe fileEnv
      (fun result _ world => world = [97, 13, 10, 98] ∧ result =
        .ok [none, some [97, 10], none, some [98], none, some [98]])
      (TextFile.writeAndMove (makeDecoder latin1 .none) latin1Encoder [[97, 10], [98]]
        [.rewind, .readline none, .tell, .read none, .restore 0, .read (some 1)])
      (.new (.new 1 3 0 ⟨true, true, false, true, true, false, false⟩) .none [cr, lf] :
        TextFile (Unit × Bool) Unit) [] ∧
    (readBack .none [cr, lf] [97, 10, 98] = [97, 10, 98] ↔ Newline.none.Keeps [97, 10, 98]) := by
  have hback : readBack .none [cr, lf] [97, 10, 98] = [97, 10, 98] :=
    (readBack_eq_iff .none (by decide) _).mpr (show cr ∉ [97, 10, 98] by decide)
  have hrun : Cursor.run .none [97, 10, 98] ⟨[], []⟩
      [.rewind, .readline none, .tell, .read none, .restore 0, .read (some 1)] =
      [none, some [97, 10], none, some [98], none, some [98]] := by decide
  have hwritten := @written_reads_back Unit Unit
    ⟨true, true, false, true, true, false, false⟩ latin1 latin1_lawful latin1_resumable
    (fun _ => Nat.two_pow_pos 63) latin1Encoder latin1_readsBack .none [cr, lf] (by decide) 1 3 rfl
    rfl [[97, 10], [98]] [97, 13, 10, 98] rfl (by decide) (by decide)
    [.rewind, .readline none, .tell, .read none, .restore 0, .read (some 1)]
  have htexts : ([[97, 10], [98]] : List Text).flatten = [97, 10, 98] := rfl
  rw [htexts, hback, hrun] at hwritten
  rw [hback]
  exact hwritten

end Turbofile.Text
