import Turbofile.Text.Reading

/-!
# Sequences of text reads

Whatever sequence of reads is made of a file nobody changes, what they return
is the text of the file in order: nothing is dropped or repeated at the edge of
a chunk, of a character or of a line.
-/

namespace Turbofile.Text

open Turbofile.Core
open Turbofile.Coroutine
open Turbofile.Binary
open Turbofile.Codecs

/-! ## The decoder of a file -/

/-- Universal newlines wrap the decoder of the codec. -/
abbrev DecoderState (σ : Type) : Newline → Type
  | .none | .empty => σ × Bool
  | .lf | .cr | .crlf => σ

def makeDecoder {σ : Type} (codec : TextDecoder σ) :
    (newline : Newline) → TextDecoder (DecoderState σ newline)
  | .none => codec.newlines true
  | .empty => codec.newlines false
  | .lf | .cr | .crlf => codec

theorem makeDecoder_lawful {σ : Type} {codec : TextDecoder σ} (hlawful : codec.Lawful)
    (newline : Newline) : (makeDecoder codec newline).Lawful := by
  cases newline with
  | none => exact hlawful.newlines true
  | empty => exact hlawful.newlines false
  | lf => exact hlawful
  | cr => exact hlawful
  | crlf => exact hlawful

/-- The text of the file: what the codec makes of it in one piece, with its
newlines translated when `newline` is `None`. -/
theorem makeDecoder_whole {σ : Type} {codec : TextDecoder σ} {bytes : Bytes} {text : Text}
    {last : σ} (hdecode : codec.decode codec.initial bytes true = .ok (text, last))
    (newline : Newline) :
    ∃ last, (makeDecoder codec newline).decode (makeDecoder codec newline).initial bytes true =
      .ok (translated newline.readtranslate text, last) := by
  cases newline with
  | none => exact ⟨_, Decoder.newlines_whole true codec hdecode⟩
  | empty => exact ⟨_, Decoder.newlines_whole false codec hdecode⟩
  | lf => exact ⟨last, hdecode⟩
  | cr => exact ⟨last, hdecode⟩
  | crlf => exact ⟨last, hdecode⟩

/-! ## Operations -/

inductive ReadOp
  | read (size : Option ℤ)
  | readline (size : Option ℤ)
  | readlines (hint : Option ℤ)
  deriving DecidableEq

/-- A size of zero asks for nothing. -/
def ReadOp.asksForText : ReadOp → Prop
  | .read size | .readline size => size ≠ some 0
  | .readlines _ => True

namespace TextFile

variable {σ κ : Type}

/-- The strings an operation returns. -/
def perform (dec : TextDecoder σ) : ReadOp → TextProg σ κ (List Text)
  | .read size => do pure [← read dec size]
  | .readline size => do pure [← readline dec size]
  | .readlines hint => readlines dec hint

def performAll (dec : TextDecoder σ) : List ReadOp → TextProg σ κ (List (ReadOp × List Text))
  | [] => pure []
  | op :: ops => do
      let strings ← perform dec op
      let results ← performAll dec ops
      pure ((op, strings) :: results)

end TextFile

variable {σ κ : Type} {dec : TextDecoder σ} {info : ModeInfo} {file : TextFile σ κ}
  {content : Bytes} {env : Env bridge PyError Bytes}

/-- The call hands out the beginning of what is left, and nothing only when
nothing is left. -/
structure Hands (dec : TextDecoder σ) (info : ModeInfo) (file : TextFile σ κ) (content : Bytes)
    (asks : Prop) (result : Except PyError (List Text)) (next : TextFile σ κ) (world : Bytes) :
    Prop where
  world : world = content
  ready : Ready dec info next content
  newline : next.newline = file.newline
  strings : ∃ strings, result = .ok strings ∧
    strings.flatten ++ remaining dec next content = remaining dec file content ∧
    (asks → strings.flatten = [] → remaining dec file content = [])

/-- One string, of as many characters as the call asks for. -/
theorem Gives.hands {n : ℕ} {result : Except PyError Text} {next : TextFile σ κ} {world : Bytes}
    (hgives : Gives dec info file content n result next world) {asks : Prop}
    (hasks : asks → remaining dec file content ≠ [] → 0 < n) :
    ∃ text, result = .ok text ∧ Hands dec info file content asks (.ok [text]) next world := by
  refine ⟨_, hgives.result, hgives.world, hgives.ready, hgives.newline, _, rfl, ?_,
    fun hask hnil => ?_⟩
  · rw [hgives.rest, List.flatten_cons, List.flatten_nil, List.append_nil,
      List.take_append_drop]
  · by_contra hleft
    have hpos := hasks hask hleft
    have htaken : (remaining dec file content).take n = [] := by simpa using hnil
    rcases List.take_eq_nil_iff.mp htaken with hzero | hempty
    · omega
    · exact hleft hempty

theorem asked_pos {size : Option ℤ} {n : ℕ} (hasked : asked size = some n)
    (hsize : size ≠ some 0) : 0 < n := by
  cases size with
  | none => cases hasked
  | some size =>
      simp only [asked] at hasked
      split_ifs at hasked with hneg
      have hn := Option.some.inj hasked
      have hne : size ≠ 0 := fun hzero => hsize (congrArg some hzero)
      omega

theorem lineAsked_pos (newline : Newline) {size : Option ℤ} {rest : Text}
    (hsize : size ≠ some 0) (hrest : rest ≠ []) : 0 < lineAsked newline size rest := by
  have hpos := lineLen_pos newline hrest
  have hne : size.getD (-1) ≠ 0 := by
    cases size with
    | none => decide
    | some size => exact fun hzero => hsize (congrArg some hzero)
  simp only [lineAsked]
  split_ifs <;> omega

/-- Without a limit a line is a line. -/
theorem lineAsked_none (newline : Newline) (rest : Text) :
    lineAsked newline (some (-1)) rest = lineLen newline rest := by
  simp [lineAsked]

/-- `readlines` hands out lines until there are none, or enough. -/
theorem wp_readlines (hserves : Serves env) (hlawful : dec.Lawful)
    (hready : Ready dec info file content) (hread : info.read = true) (hint : Option ℤ) :
    (TextFile.readlines dec hint).wp env (Hands dec info file content True) file content := by
  refine Prog.wp_loop
    (fun value (state : TextFile σ κ) world => world = content ∧ Ready dec info state content ∧
      state.newline = file.newline ∧
      value.1.flatten ++ remaining dec state content = remaining dec file content)
    (fun _ state _ => (remaining dec state content).length) ?_ ⟨rfl, hready, rfl, rfl⟩
  rintro ⟨lines, total⟩ state world ⟨rfl, hready, hnewline, hsofar⟩
  simp only [TextFile.nextLine, Prog.bind_eq_bind, Prog.wp_bind]
  refine Prog.wp_mono _ ?_ (wp_readline hserves hlawful hready hread (some (-1)))
  rintro result next world ⟨rfl, rfl, hrest, hnext, hkept⟩
  replace hnewline := hkept.trans hnewline
  rw [lineAsked_none] at hrest ⊢
  have hpos := @lineLen_pos state.newline (remaining dec state world)
  generalize lineLen state.newline (remaining dec state world) = length at hrest hpos ⊢
  have hjoin : (lines ++ [(remaining dec state world).take length]).flatten ++
      remaining dec next world = remaining dec file world := by
    rw [← hsofar, hrest, List.flatten_append, List.flatten_singleton, List.append_assoc,
      List.take_append_drop]
  simp only [Prog.after_ok]
  split
  · next hempty =>
      have hnil : (remaining dec state world).take length = [] := List.isEmpty_iff.mp hempty
      have hleft : remaining dec state world = [] := by
        by_contra hleft
        rcases List.take_eq_nil_iff.mp hnil with hzero | hempty
        · exact absurd (hpos hleft) (by omega)
        · exact hleft hempty
      refine ⟨rfl, hnext, hnewline, lines, rfl, ?_, fun _ hlines => ?_⟩
      · rw [← hsofar, hrest, hleft, List.drop_nil]
      · rw [← hsofar, hlines, hleft]
        rfl
  · next hline =>
      have hsome : (remaining dec state world).take length ≠ [] :=
        fun hnil => hline (List.isEmpty_iff.mpr hnil)
      split
      · refine ⟨rfl, hnext, hnewline, _, rfl, hjoin, fun _ hnil => absurd ?_ hsome⟩
        rw [List.flatten_append, List.flatten_singleton, List.append_eq_nil_iff] at hnil
        exact hnil.2
      · refine ⟨⟨rfl, hnext, hnewline, hjoin⟩, ?_⟩
        have htaken := List.length_pos_iff.mpr hsome
        rw [List.length_take] at htaken
        rw [hrest, List.length_drop]
        omega

theorem wp_perform (hserves : Serves env) (hlawful : dec.Lawful)
    (hready : Ready dec info file content) (hread : info.read = true) (op : ReadOp) :
    (TextFile.perform dec op).wp env (Hands dec info file content op.asksForText)
      file content := by
  cases op with
  | read size =>
      simp only [TextFile.perform, Prog.bind_eq_bind, Prog.wp_bind]
      refine Prog.wp_mono _ ?_ (wp_read hserves hlawful hready hread size)
      intro result next world hgives
      have hasks : (ReadOp.read size).asksForText → remaining dec file content ≠ [] →
          0 < (asked size).getD (remaining dec file content).length := by
        intro hsize hleft
        cases hasked : asked size with
        | none => exact List.length_pos_iff.mpr hleft
        | some n => exact asked_pos hasked hsize
      obtain ⟨text, rfl, hhands⟩ := hgives.hands hasks
      exact hhands
  | readline size =>
      simp only [TextFile.perform, Prog.bind_eq_bind, Prog.wp_bind]
      refine Prog.wp_mono _ ?_ (wp_readline hserves hlawful hready hread size)
      intro result next world hgives
      have hasks : (ReadOp.readline size).asksForText → remaining dec file content ≠ [] →
          0 < lineAsked file.newline size (remaining dec file content) :=
        lineAsked_pos file.newline
      obtain ⟨text, rfl, hhands⟩ := hgives.hands hasks
      exact hhands
  | readlines hint => exact wp_readlines hserves hlawful hready hread hint

/-! ## Every sequence -/

/-- All the text that the results hold. -/
def textOf (results : List (ReadOp × List Text)) : Text :=
  results.flatMap fun result => result.2.flatten

/-- The calls return `text` from its start on, each a part of it; one that asks
for text returns none only at its end. -/
structure Delivered (text : Text) (ops : List ReadOp) (results : List (ReadOp × List Text)) :
    Prop where
  calls : results.map Prod.fst = ops
  leading : textOf results <+: text
  ended : ∀ front op strings back, results = front ++ (op, strings) :: back → op.asksForText →
    strings.flatten = [] → textOf front = text

/-- What a sequence of reads does to a file that has `text` left. -/
def DeliveredAll (content : Bytes) (text : Text) (ops : List ReadOp) :
    Post (TextFile σ κ) PyError Bytes (List (ReadOp × List Text)) :=
  fun result file world =>
    world = content ∧ 0 ≤ file.used ∧ file.used ≤ file.decoded.length ∧
      ∃ results, result = .ok results ∧ Delivered text ops results

theorem Delivered.cons {text head tail : Text} {op : ReadOp} {strings : List Text}
    {ops : List ReadOp} {results : List (ReadOp × List Text)} (hhead : strings.flatten = head)
    (htext : head ++ tail = text)
    (hended : op.asksForText → head = [] → text = []) (hrest : Delivered tail ops results) :
    Delivered text (op :: ops) ((op, strings) :: results) where
  calls := congrArg _ hrest.calls
  leading := by
    rw [← htext, ← hhead, textOf, List.flatMap_cons]
    exact (List.prefix_append_right_inj _).mpr hrest.leading
  ended := by
    intro front other others back hresults hasks hempty
    cases front with
    | nil =>
        obtain ⟨hpair, -⟩ := List.cons.inj hresults
        obtain ⟨rfl, rfl⟩ := Prod.mk.inj hpair
        exact (hended hasks (hhead.symm.trans hempty)).symm
    | cons first front =>
        obtain ⟨hfirst, htail⟩ := List.cons.inj hresults
        have hfront := hrest.ended front other others back htail hasks hempty
        rw [textOf, List.flatMap_cons, ← hfirst, ← htext, hhead]
        exact congrArg (head ++ ·) hfront

theorem wp_performAll (hserves : Serves env) (hlawful : dec.Lawful)
    (hready : Ready dec info file content) (hread : info.read = true) (ops : List ReadOp) :
    (TextFile.performAll dec ops).wp env
      (DeliveredAll content (remaining dec file content) ops) file content := by
  induction ops generalizing file with
  | nil =>
      refine ⟨rfl, hready.low, hready.high, [], rfl, rfl, List.nil_prefix, ?_⟩
      intro front op strings back hresults
      cases front <;> cases hresults
  | cons op ops ih =>
      simp only [TextFile.performAll, Prog.bind_eq_bind, Prog.wp_bind]
      refine Prog.wp_mono _ ?_ (wp_perform hserves hlawful hready hread op)
      rintro result next world ⟨rfl, hnext, -, strings, rfl, hjoin, hended⟩
      simp only [Prog.after_ok, Prog.wp_bind]
      refine Prog.wp_mono _ ?_ (ih hnext)
      rintro result last world ⟨rfl, hlow, hhigh, results, rfl, hdelivered⟩
      exact ⟨rfl, hlow, hhigh, _, rfl, .cons rfl hjoin hended hdelivered⟩

/-- A file as it was opened has the text behind its position left. -/
theorem ready_new {newline : Newline} (linesep : Text) {buffer : BinaryFile} {text : Text}
    {last : σ} (hbuffer : Aligned info buffer content)
    (hdecode : dec.decode dec.initial (content.drop buffer.pos) true = .ok (text, last)) :
    Ready dec info (.new buffer newline linesep : TextFile σ κ) content ∧
      remaining dec (.new buffer newline linesep : TextFile σ κ) content = text := by
  have hahead : ahead dec (.new buffer newline linesep : TextFile σ κ) content = text :=
    ahead_eq hdecode
  refine ⟨⟨hbuffer, le_rfl, le_rfl, last, ?_⟩, ?_⟩
  · rw [hahead]
    exact hdecode
  · rw [remaining, hahead]
    rfl

/-- Whatever is read of a file nobody changes, with any newline setting and any
sizes: the calls return the one-shot text of the content in order.  It is the
content behind the position of the opened file, which is 0 unless the file was
opened to append. -/
theorem reads_deliver {codec : TextDecoder σ} (hlawful : codec.Lawful) (newline : Newline)
    (linesep : Text) (handle : Handle) (fd : Fd) (size : ℕ) (hread : info.read = true)
    {text : Text} {last : σ}
    (hdecode : codec.decode codec.initial
      (content.drop (BinaryFile.new handle fd size info).pos) true = .ok (text, last))
    (ops : List ReadOp) :
    Safe fileEnv (DeliveredAll content (translated newline.readtranslate text) ops)
      (TextFile.performAll (makeDecoder codec newline) ops)
      (.new (.new handle fd size info) newline linesep : TextFile (DecoderState σ newline) κ)
      content := by
  obtain ⟨last, hwhole⟩ := makeDecoder_whole hdecode newline
  obtain ⟨hready, hleft⟩ := ready_new linesep (Aligned.new handle fd size info content) hwhole
  have hwp := wp_performAll fileEnv_serves (makeDecoder_lawful hlawful newline) hready hread ops
  rw [hleft] at hwp
  exact Prog.wp_safe _ hwp

/-- `latin-1`: a byte is a character, and there is no state. -/
def latin1 : TextDecoder Unit where
  initial := ()
  decode _ bytes _ := .ok (bytes.map UInt8.toNat, ())
  getstate _ := ([], 0)
  setstate _ := ()

theorem latin1_lawful : latin1.Lawful where
  split state last front back final text := by
    constructor
    · intro hdecode
      have htext := (Prod.mk.inj (Except.ok.inj hdecode)).1
      exact ⟨_, (), _, rfl, rfl, htext.symm.trans List.map_append⟩
    · rintro ⟨_, _, _, hhead, htail, rfl⟩
      obtain ⟨rfl, -⟩ := Prod.mk.inj (Except.ok.inj hhead)
      obtain ⟨rfl, -⟩ := Prod.mk.inj (Except.ok.inj htail)
      change Except.ok ((front ++ back).map UInt8.toNat, ()) = _
      rw [List.map_append]
  restore _ := rfl
  rebuild _ := rfl
  ended _ _ _ _ _ := rfl

/-- A line and the rest of `"a\r\nb"`. -/
theorem reads_deliver_latin1 :
    Safe fileEnv (DeliveredAll [97, 13, 10, 98] [97, 10, 98] [.readline none, .read (some 5)])
      (TextFile.performAll (makeDecoder latin1 .none) [.readline none, .read (some 5)])
      (.new (.new 1 3 4 ⟨true, false, false, false, false, false, true⟩) .none [lf] :
        TextFile (Unit × Bool) Unit) [97, 13, 10, 98] := by
  have htext : translated true [97, 13, 10, 98] = [97, 10, 98] := by
    simp [translated, translateNewlines, cr, lf]
  rw [← htext]
  exact @reads_deliver Unit Unit ⟨true, false, false, false, false, false, true⟩
    [97, 13, 10, 98] latin1 latin1_lawful .none [lf] 1 3 4 rfl [97, 13, 10, 98] () rfl
    [.readline none, .read (some 5)]

end Turbofile.Text
