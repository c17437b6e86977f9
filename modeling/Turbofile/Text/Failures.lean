import Turbofile.Binary.Failures
import Turbofile.Text.Signature

/-!
# Text operations that fail

A call on the buffer can raise at its await, with an error of the kernel or
because the task is cancelled.  What the text file then still knows is compared
with what it knew before: its fields, the characters that following reads
return and the bytes that a following write produces.
-/

namespace Turbofile.Text

open Turbofile.Core
open Turbofile.Coroutine
open Turbofile.Binary
open Turbofile.Codecs

/-- The errors of the kernel and of cancelled tasks. -/
def fromKernel : PyError → Bool
  | .osError _ | .cancelledError => true
  | .invalidArgument | .valueError _ | .unsupportedOperation _ | .overflowError => false

inductive TextOp
  | read (size : Option ℤ)
  | readline (size : Option ℤ)
  | write (text : Text)
  deriving DecidableEq

namespace TextFile

variable {σ κ : Type}

/-- An operation whose result nobody looks at. -/
def attempted (dec : TextDecoder σ) (enc : Encoder κ) : TextOp → TextProg σ κ Unit
  | .read size => do
      let _ ← read dec size
      pure ()
  | .readline size => do
      let _ ← readline dec size
      pure ()
  | .write text => do
      let _ ← write dec enc text
      pure ()

/-- One read after the other; an error ends a read, not the sequence. -/
def performEach (dec : TextDecoder σ) :
    List ReadOp → TextProg σ κ (List (ReadOp × Except PyError (List Text)))
  | [] => pure []
  | op :: ops => do
      let strings ← (perform dec op).attempt
      let results ← performEach dec ops
      pure ((op, strings) :: results)

end TextFile

variable {σ κ ω : Type} {dec : TextDecoder σ} {enc : Encoder κ} {env : Env bridge PyError ω}
  {file : TextFile σ κ} {world : ω}

/-! ## What nobody sees

A codec made early is the codec made late, and the `FastPath` decides how a
read is served, not what it returns. -/

structure SameText (dec : TextDecoder σ) (file other : TextFile σ κ) : Prop where
  buffer : SameButFast file.buffer other.buffer
  newline : other.newline = file.newline
  writenl : other.writenl = file.writenl
  decoder : other.decoderState dec = file.decoderState dec
  decoded : other.decoded = file.decoded
  used : other.used = file.used
  snapshot : other.snapshot = file.snapshot

theorem SameText.symm {other : TextFile σ κ} (hsame : SameText dec file other) :
    SameText dec other file where
  buffer := by
    obtain ⟨fast, hbuffer⟩ := hsame.buffer
    exact ⟨file.buffer.fast, by rw [hbuffer]⟩
  newline := hsame.newline.symm
  writenl := hsame.writenl.symm
  decoder := hsame.decoder.symm
  decoded := hsame.decoded.symm
  used := hsame.used.symm
  snapshot := hsame.snapshot.symm

/-- What a program does on a file nobody else changes, whatever nobody sees. -/
abbrev SameRuns {α : Type} (dec : TextDecoder σ) (prog : TextProg σ κ α) : Prop :=
  Blind fileEnv (SameText dec) prog

theorem sameRuns_onBuffer {α : Type} {prog : BinaryProg α} (hprog : Served prog) :
    SameRuns dec (onBuffer prog : TextProg σ κ α) :=
  hprog.zoom (fun hsame => hsame.buffer) fun hsame hnext =>
    { hsame with buffer := hnext, decoder := hsame.decoder }

theorem wlp_theDecoder {post : Post (TextFile σ κ) PyError ω σ}
    (hpost : post (.ok (file.decoderState dec))
      { file with decoder := some (file.decoderState dec) } world) :
    (TextFile.theDecoder dec).wlp env post file world := by
  obtain ⟨buffer, newline, writenl, decoder, encoder, decoded, used, snapshot⟩ := file
  cases decoder with
  | none => exact hpost
  | some decoder => exact hpost

theorem ends_theDecoder : Ends env (TextFile.theDecoder dec) file world
    (.ok (file.decoderState dec)) { file with decoder := some (file.decoderState dec) } world := by
  obtain ⟨buffer, newline, writenl, decoder, encoder, decoded, used, snapshot⟩ := file
  cases decoder with
  | none => exact .silent rfl (.silent rfl (.silent rfl (.returned rfl)))
  | some decoder => exact .silent rfl (.returned rfl)

theorem sameRuns_theDecoder : SameRuns dec (TextFile.theDecoder dec : TextProg σ κ σ) := by
  intro file other last content final result hsame hends
  have hmade : (TextFile.theDecoder dec).wlp fileEnv (fun result last final =>
      result = .ok (file.decoderState dec) ∧
        last = { file with decoder := some (file.decoderState dec) } ∧ final = content)
      file content := wlp_theDecoder ⟨rfl, rfl, rfl⟩
  obtain ⟨rfl, rfl, rfl⟩ := (Prog.wlp_iff_ends ..).mp hmade _ _ _ hends
  refine ⟨{ other with decoder := some (other.decoderState dec) },
    { hsame with decoder := hsame.decoder }, ?_⟩
  rw [← hsame.decoder]
  exact ends_theDecoder

theorem sameRuns_modify {f : TextFile σ κ → TextFile σ κ}
    (hf : ∀ {file other : TextFile σ κ}, SameText dec file other →
      SameText dec (f file) (f other)) : SameRuns dec (.modify f) :=
  blind_modify hf

theorem sameRuns_decodePiece (data : Bytes) (final : Bool) :
    SameRuns dec (TextFile.decodePiece dec data final : TextProg σ κ Text) := by
  refine sameRuns_theDecoder.bind fun decoder => ?_
  cases dec.decode decoder data final with
  | error error => exact blind_raise error
  | ok piece =>
      refine Blind.bind (sameRuns_modify fun hsame => ?_) fun _ => blind_done _
      exact { hsame with decoder := rfl }

theorem sameRuns_takeChars (n : Option ℤ) :
    SameRuns dec (TextFile.takeChars n : TextProg σ κ Text) := by
  have hspend : SameRuns dec (.modify fun self : TextFile σ κ =>
      { self with used := self.decoded.length }) :=
    sameRuns_modify fun hsame =>
      { hsame with
        used := congrArg (fun text : Text => (text.length : ℤ)) hsame.decoded
        decoder := hsame.decoder }
  refine blind_state (fun hsame => ?_) fun file => ?_
  · dsimp only
    rw [hsame.decoded, hsame.used]
  · cases n with
    | none => exact hspend.bind fun _ => blind_done _
    | some n =>
        dsimp only
        split
        · exact hspend.bind fun _ => blind_done _
        · refine Blind.bind (sameRuns_modify fun hsame => ?_) fun _ => blind_done _
          exact { hsame with used := congrArg (· + n) hsame.used, decoder := hsame.decoder }

theorem sameRuns_fill : SameRuns dec (TextFile.fill dec : TextProg σ κ Bool) := by
  refine sameRuns_theDecoder.bind fun decoder => ?_
  refine (sameRuns_onBuffer (served_read1 _)).bind fun chunk => ?_
  refine (sameRuns_decodePiece _ _).bind fun decoded => ?_
  refine Blind.bind (sameRuns_modify fun hsame => ?_) fun _ => blind_done _
  exact { hsame with decoded := rfl, used := rfl, snapshot := rfl, decoder := hsame.decoder }

theorem sameRuns_checks {α : Type} {f : Unit → TextProg σ κ α} (hf : SameRuns dec (f ())) :
    SameRuns dec ((onBuffer BinaryFile.checkOpen).bind fun _ =>
      (onBuffer BinaryFile.checkReadable).bind f) := by
  refine (sameRuns_onBuffer (served_check (·.isOpen) _ fun _ _ => rfl)).bind fun _ => ?_
  exact (sameRuns_onBuffer (served_check (·.info.read) _ fun _ _ => rfl)).bind fun _ => hf

theorem sameRuns_readMore (size : ℕ) (result : Text) :
    SameRuns dec (TextFile.readMore dec size result : TextProg σ κ (Text ⊕ Text)) := by
  unfold TextFile.readMore
  split
  · refine sameRuns_fill.bind fun more => (sameRuns_takeChars _).bind fun taken => ?_
    dsimp only
    split
    · exact blind_done _
    · exact blind_done _
  · exact blind_done _

theorem sameRuns_read (size : Option ℤ) :
    SameRuns dec (TextFile.read dec size : TextProg σ κ Text) := by
  refine sameRuns_checks (sameRuns_theDecoder.bind fun _ => ?_)
  cases asked size with
  | none =>
      refine (sameRuns_onBuffer (served_read none)).bind fun rest => ?_
      refine (sameRuns_takeChars none).bind fun front => ?_
      refine (sameRuns_decodePiece rest true).bind fun back => ?_
      refine Blind.bind (sameRuns_modify fun hsame => ?_) fun _ => blind_done _
      exact { hsame with decoded := rfl, used := rfl, snapshot := rfl, decoder := hsame.decoder }
  | some size =>
      exact (sameRuns_takeChars _).bind fun result => .repeatUntil (sameRuns_readMore size) result

theorem sameRuns_fillUntilDecoded :
    SameRuns dec (TextFile.fillUntilDecoded dec : TextProg σ κ Unit) := by
  refine Blind.repeatUntil (fun _ => sameRuns_fill.bind fun more => ?_) ()
  refine blind_state (fun hsame => by rw [hsame.decoded]) fun file => ?_
  split
  · exact blind_done _
  · exact blind_done _

theorem sameRuns_searchLine (newline : Newline) (limit : ℤ) (line : Text × ℕ) :
    SameRuns dec (TextFile.searchLine dec newline limit line :
      TextProg σ κ (Text × ℕ ⊕ Text × Option ℕ)) := by
  obtain ⟨line, start⟩ := line
  simp only [TextFile.searchLine]
  cases TextFile.lineEnd newline line start with
  | found endpos => exact blind_done _
  | searchFrom start =>
      dsimp only
      split
      · exact blind_done _
      · refine sameRuns_fillUntilDecoded.bind fun _ => ?_
        refine blind_state (fun hsame => by rw [hsame.decoded]) fun file => ?_
        split
        · refine Blind.bind (sameRuns_modify fun hsame => ?_) fun _ => blind_done _
          exact { hsame with snapshot := rfl, decoder := hsame.decoder }
        · exact (sameRuns_takeChars none).bind fun more => blind_done _

theorem sameRuns_finishLine (limit : ℤ) (last : Text × Option ℕ) :
    SameRuns dec (TextFile.finishLine limit last : TextProg σ κ Text) := by
  obtain ⟨line, endpos⟩ := last
  cases endpos with
  | none => exact blind_done line
  | some endpos =>
      refine Blind.bind (sameRuns_modify fun hsame => ?_) fun _ => blind_done _
      exact { hsame with used := congrArg (· - _) hsame.used, decoder := hsame.decoder }

theorem sameRuns_readline (size : Option ℤ) :
    SameRuns dec (TextFile.readline dec size : TextProg σ κ Text) := by
  refine sameRuns_checks (sameRuns_theDecoder.bind fun _ => ?_)
  refine blind_state (fun hsame => by rw [hsame.newline]) fun file => ?_
  refine (sameRuns_takeChars none).bind fun line => ?_
  refine Blind.bind (.repeatUntil (sameRuns_searchLine _ _) _) fun last => ?_
  exact sameRuns_finishLine _ last

theorem sameRuns_perform (op : ReadOp) :
    SameRuns dec (TextFile.perform dec op : TextProg σ κ (List Text)) := by
  cases op with
  | read size => exact (sameRuns_read size).bind fun _ => blind_done _
  | readline size => exact (sameRuns_readline size).bind fun _ => blind_done _
  | readlines hint =>
      refine Blind.repeatUntil (fun lines => (sameRuns_readline _).bind fun line => ?_) _
      split
      · exact blind_done _
      · split
        · exact blind_done _
        · exact blind_done _

theorem sameRuns_performEach (ops : List ReadOp) :
    SameRuns dec (TextFile.performEach dec ops :
      TextProg σ κ (List (ReadOp × Except PyError (List Text)))) := by
  induction ops with
  | nil => exact blind_done _
  | cons op ops ih =>
      exact (sameRuns_perform op).attempt.bind fun strings => ih.bind fun _ => blind_done _

/-! ## What a failed operation loses -/

/-- Reads after the failed call, on a file that holds `content` by then, can
return these results. -/
def Returns (dec : TextDecoder σ) (file : TextFile σ κ) (content : Bytes) (ops : List ReadOp)
    (results : List (ReadOp × Except PyError (List Text))) : Prop :=
  ∃ next content', Ends fileEnv (TextFile.performEach dec ops) file content (.ok results) next
    content'

/-- The call has left every field as it was, and so what reads return and what
bytes a write produces. -/
structure LosesNothing (dec : TextDecoder σ) (enc : Encoder κ) (before after : TextFile σ κ) :
    Prop extends SameText dec before after where
  encoder : after.encoderState enc = before.encoderState enc
  reads : ∀ content ops results,
    Returns dec after content ops results ↔ Returns dec before content ops results
  writes : ∀ text, (enc.encode (after.encoderState enc) (after.outgoing text)).1 =
    (enc.encode (before.encoderState enc) (before.outgoing text)).1

/-- The fields say it all. -/
theorem losesNothing_of_same {before after : TextFile σ κ} (hsame : SameText dec before after)
    (hencoder : after.encoderState enc = before.encoderState enc) :
    LosesNothing dec enc before after where
  toSameText := hsame
  encoder := hencoder
  reads content ops results := by
    constructor
    · rintro ⟨next, content', hends⟩
      obtain ⟨last, -, hends'⟩ := sameRuns_performEach ops hsame.symm hends
      exact ⟨last, content', hends'⟩
    · rintro ⟨next, content', hends⟩
      obtain ⟨last, -, hends'⟩ := sameRuns_performEach ops hsame hends
      exact ⟨last, content', hends'⟩
  writes text := by
    rw [hencoder, TextFile.outgoing, TextFile.outgoing, hsame.writenl]

/-! ## What a failed operation leaves -/

section Buffer

variable {buffer next : BinaryFile} {last : ω}

/-- A check that fails changes nothing. -/
theorem wlp_checked {α : Type} (test : BinaryFile → Bool) (error : PyError)
    {f : Unit → BinaryProg α} {post : Post BinaryFile PyError ω α}
    (hf : (f ()).wlp env post buffer world) (herror : post (.error error) buffer world) :
    ((Prog.state.bind fun self => if test self then pure () else .raise error :
      BinaryProg Unit).bind f).wlp env post buffer world := by
  simp only [Prog.wlp_bind, Prog.wlp_state, Prog.afterwards_ok]
  split
  · exact hf
  · exact herror

/-- `read1` moves the position by what it returns, and not at all when it fails. -/
theorem wlp_read1 (size : ℤ) :
    (BinaryFile.read1 size).wlp env (fun result next _ =>
      (∀ error, result = .error error → SameButFast buffer next) ∧
        ∀ chunk, result = .ok chunk → next.pos = buffer.pos + chunk.length) buffer world := by
  have hfailed : ∀ (error : PyError) (fast : Bool),
      (∀ error', (.error error : Except PyError Bytes) = .error error' →
        SameButFast buffer { buffer with fast := fast }) ∧
      ∀ chunk, (.error error : Except PyError Bytes) = .ok chunk →
        { buffer with fast := fast }.pos = buffer.pos + chunk.length :=
    fun error fast => ⟨fun _ _ => ⟨fast, rfl⟩, fun _ hchunk => by cases hchunk⟩
  simp only [BinaryFile.read1, Prog.bind_eq_bind]
  refine wlp_checked (·.isOpen) _ (wlp_checked (·.info.read) _ ?_ (hfailed _ buffer.fast))
    (hfailed _ buffer.fast)
  simp only [Prog.wlp_bind, Prog.wlp_state, Prog.afterwards_ok]
  split
  · rw [Prog.wlp_bind]
    apply wlp_fetch
    intro result fast next
    cases result with
    | error error => exact hfailed error fast
    | ok data =>
        constructor
        · rintro error ⟨⟩
        · rintro _ ⟨⟩
          rfl
  · constructor
    · rintro error ⟨⟩
    · rintro _ ⟨⟩
      rfl

theorem read1_failed {size : ℤ} {error : PyError}
    (hends : Ends env (BinaryFile.read1 size) buffer world (.error error) next last) :
    SameButFast buffer next :=
  ((Prog.wlp_iff_ends ..).mp (wlp_read1 size) _ _ _ hends).1 error rfl

theorem read1_moved {size : ℤ} {chunk : Bytes}
    (hends : Ends env (BinaryFile.read1 size) buffer world (.ok chunk) next last) :
    next.pos = buffer.pos + chunk.length :=
  ((Prog.wlp_iff_ends ..).mp (wlp_read1 size) _ _ _ hends).2 chunk rfl

theorem readAll_failed {error : PyError}
    (hends : Ends env (BinaryFile.read none) buffer world (.error error) next last) :
    SameButFast buffer next := by
  have hwlp : (BinaryFile.read none).wlp env (FailsIn buffer) buffer world := by
    simp only [BinaryFile.read, Prog.bind_eq_bind]
    refine wlp_checked (·.isOpen) _ (wlp_checked (·.info.read) _ failsIn_readRest ?_) ?_
    · exact failsIn_same _ buffer.fast world
    · exact failsIn_same _ buffer.fast world
  exact (Prog.wlp_iff_ends ..).mp hwlp _ _ _ hends error rfl

/-- A write has dropped the read-ahead when the kernel fails it. -/
theorem write_failed {data : Bytes} {error : PyError} (herror : fromKernel error = true)
    (hends : Ends env (BinaryFile.write data) buffer world (.error error) next last) :
    next = { buffer with pending := [] } := by
  have hwlp : (BinaryFile.write data).wlp env (fun result next _ => ∀ error,
      result = .error error → fromKernel error = true → next = { buffer with pending := [] })
      buffer world := by
    simp only [BinaryFile.write, Prog.bind_eq_bind]
    refine wlp_checked (·.isOpen) _ (wlp_checked (·.info.writable) _ ?_ ?_) ?_
    · simp only [Prog.wlp_bind, Prog.wlp_modify, Prog.wlp_state, Prog.afterwards_ok]
      apply wlp_ask
      intro answer last
      cases answer with
      | error error => exact fun _ _ _ => rfl
      | ok value =>
          rintro error ⟨⟩
    · rintro _ ⟨⟩ ⟨⟩
    · rintro _ ⟨⟩ ⟨⟩
  exact (Prog.wlp_iff_ends ..).mp hwlp _ _ _ hends error rfl herror

end Buffer

/-- Every run of a call on the buffer. -/
theorem wlp_onBuffer {α : Type} {prog : BinaryProg α} {post : Post (TextFile σ κ) PyError ω α}
    (hpost : ∀ result buffer next, Ends env prog file.buffer world result buffer next →
      post result { file with buffer := buffer } next) :
    (onBuffer prog).wlp env post file world :=
  (Prog.wlp_zoom (bufferPart σ κ) prog post file world).mpr (Prog.wlp_of_ends prog hpost)

/-- A codec raises errors of its own. -/
structure CodecErrors (dec : TextDecoder σ) (enc : Encoder κ) : Prop where
  decode : ∀ state piece final error, dec.decode state piece final = .error error →
    fromKernel error = false
  encode : ∀ state text error, (enc.encode state text).1 = .error error →
    fromKernel error = false

/-- Only errors of the kernel are looked at. -/
def WhenFailed {α : Type} (post : TextFile σ κ → ω → Prop) : Post (TextFile σ κ) PyError ω α :=
  fun result after last => ∀ error, result = .error error → fromKernel error = true →
    post after last

theorem whenFailed_ok {α : Type} {post : TextFile σ κ → ω → Prop} (value : α)
    (after : TextFile σ κ) (last : ω) : WhenFailed post (.ok value) after last := by
  rintro error ⟨⟩

theorem whenFailed_other {α : Type} {post : TextFile σ κ → ω → Prop} {error : PyError}
    (herror : fromKernel error = false) (after : TextFile σ κ) (last : ω) :
    WhenFailed post (.error error : Except PyError α) after last := by
  rintro _ ⟨⟩ hkernel
  rw [herror] at hkernel
  cases hkernel

/-- An error is handed on. -/
theorem WhenFailed.raised {α β : Type} {post : TextFile σ κ → ω → Prop} {error : PyError}
    {after : TextFile σ κ} {last : ω}
    (hfailed : WhenFailed post (.error error : Except PyError α) after last) :
    WhenFailed post (.error error : Except PyError β) after last := by
  rintro _ ⟨⟩ hkernel
  exact hfailed error rfl hkernel

theorem wlp_decodePiece (hcodec : CodecErrors dec enc) {data : Bytes} {final : Bool}
    {post : Post (TextFile σ κ) PyError ω Text}
    (hraise : ∀ error after last, fromKernel error = false → post (.error error) after last)
    (hpost : ∀ text next, dec.decode (file.decoderState dec) data final = .ok (text, next) →
      post (.ok text) { file with decoder := some next } world) :
    (TextFile.decodePiece dec data final).wlp env post file world := by
  simp only [TextFile.decodePiece, Prog.bind_eq_bind, Prog.wlp_bind]
  apply wlp_theDecoder
  rw [Prog.afterwards_ok]
  cases hdecode : dec.decode (file.decoderState dec) data final with
  | error error => exact hraise error _ _ (hcodec.decode _ _ _ _ hdecode)
  | ok piece => exact hpost piece.1 piece.2 hdecode

/-- What a chunk brings, or how it fails. -/
theorem wlp_fill (hcodec : CodecErrors dec enc) {post : Post (TextFile σ κ) PyError ω Bool}
    (hraise : ∀ error after last, fromKernel error = false → post (.error error) after last)
    (hfailed : ∀ error buffer last,
      Ends env (BinaryFile.read1 CHUNK) file.buffer world (.error error) buffer last →
      post (.error error)
        { file with buffer := buffer, decoder := some (file.decoderState dec) } last)
    (hpost : ∀ chunk buffer last decoded next (snapshot : ℕ × Bytes),
      Ends env (BinaryFile.read1 CHUNK) file.buffer world (.ok chunk) buffer last →
      dec.decode (file.decoderState dec) chunk chunk.isEmpty = .ok (decoded, next) →
      post (.ok !chunk.isEmpty)
        { file with
          buffer := buffer
          decoder := some next
          decoded := decoded
          used := 0
          snapshot := some snapshot } last) :
    (TextFile.fill dec).wlp env post file world := by
  simp only [TextFile.fill, Prog.bind_eq_bind, Prog.wlp_bind]
  apply wlp_theDecoder
  simp only [Prog.afterwards_ok, Prog.wlp_bind]
  apply wlp_onBuffer
  intro result buffer last hread
  cases result with
  | error error => exact hfailed error buffer last hread
  | ok chunk =>
      simp only [Prog.afterwards_ok, Prog.wlp_bind]
      apply wlp_decodePiece hcodec
      · exact fun error after last herror => hraise error after last herror
      · intro decoded next hdecode
        exact hpost chunk buffer last decoded next _ hread hdecode

/-! ### Reads -/

/-- The buffer's next read fails, at its await. -/
def Refused (env : Env bridge PyError ω) (buffer : BinaryFile) (world : ω) : Prop :=
  ∃ error next last, Ends env (BinaryFile.read1 CHUNK) buffer world (.error error) next last

/-- The buffer's next read returns. -/
def Accepted (env : Env bridge PyError ω) (buffer : BinaryFile) (world : ω) : Prop :=
  ∃ chunk next last, Ends env (BinaryFile.read1 CHUNK) buffer world (.ok chunk) next last

/-- All that was decoded has been taken. -/
def TextFile.spent (dec : TextDecoder σ) (file : TextFile σ κ) : TextFile σ κ :=
  { file with decoder := some (file.decoderState dec), used := file.decoded.length }

/-- The buffer is further on, or the decoder has given its last text. -/
def Moved (dec : TextDecoder σ) (before after : TextFile σ κ) : Prop :=
  before.buffer.pos < after.buffer.pos ∨
  before.buffer.pos ≤ after.buffer.pos ∧ ∃ text last,
    dec.decode (before.decoderState dec) [] true = .ok (text, last) ∧ text ≠ [] ∧
    after.decoder = some last

/-- A read on its way: nothing was read yet, or something was. -/
def Underway (dec : TextDecoder σ) (env : Env bridge PyError ω) (before : TextFile σ κ)
    (world : ω) (now : TextFile σ κ) (between : ω) : Prop :=
  now = before.spent dec ∧ between = world ∨
    Accepted env before.buffer world ∧ Moved dec before now

/-- What a read that fails leaves. -/
def ReadFailed (dec : TextDecoder σ) (env : Env bridge PyError ω) (before : TextFile σ κ)
    (world : ω) (after : TextFile σ κ) (_ : ω) : Prop :=
  (Refused env before.buffer world ∧
    ∃ fast, after = { before.spent dec with buffer := { before.buffer with fast := fast } }) ∨
  Accepted env before.buffer world ∧ Moved dec before after

variable {before now after : TextFile σ κ} {between : ω}

theorem Moved.of_same (hmoved : Moved dec before now) (hpos : after.buffer.pos = now.buffer.pos)
    (hdecoder : now.decoder.isSome → after.decoder = now.decoder) : Moved dec before after := by
  rcases hmoved with hlt | ⟨hle, text, last, hdecode, htext, hlast⟩
  · exact .inl (hpos ▸ hlt)
  · refine .inr ⟨hpos ▸ hle, text, last, hdecode, htext, ?_⟩
    rw [hdecoder (by rw [hlast]; rfl), hlast]

/-- A read that has moved the buffer or the decoder keeps them moved. -/
theorem Moved.read (hlawful : dec.Lawful) (hmoved : Moved dec before now) {chunk : Bytes}
    (hpos : after.buffer.pos = now.buffer.pos + chunk.length) {text : Text} {next : σ}
    (hdecode : dec.decode (now.decoderState dec) chunk chunk.isEmpty = .ok (text, next))
    (hnext : after.decoder = some next) : Moved dec before after := by
  rcases hmoved with hlt | ⟨hle, flushed, last, hflush, hflushed, hlast⟩
  · exact .inl (by omega)
  · cases chunk with
    | cons byte chunk =>
        rw [List.length_cons] at hpos
        exact .inl (by omega)
    | nil =>
        rw [List.length_nil, Nat.add_zero] at hpos
        have hstate : now.decoderState dec = last := by rw [TextFile.decoderState, hlast]; rfl
        rw [hstate] at hdecode
        have hended := (hlawful.ended _ _ _ _ hflush).symm.trans hdecode
        obtain ⟨-, rfl⟩ := Prod.mk.inj (Except.ok.inj hended)
        exact .inr ⟨hpos ▸ hle, flushed, last, hflush, hflushed, hnext⟩

/-- What a chunk does to a read on its way. -/
def Filled (dec : TextDecoder σ) (env : Env bridge PyError ω) (before : TextFile σ κ)
    (world : ω) : Post (TextFile σ κ) PyError ω Bool :=
  fun result after last =>
    (∀ more, result = .ok more →
      Accepted env before.buffer world ∧ Moved dec before after ∨
      more = false ∧ after.decoded = []) ∧
    WhenFailed (ReadFailed dec env before world) result after last

theorem Underway.fill (hlawful : dec.Lawful) (hcodec : CodecErrors dec enc)
    (hunderway : Underway dec env before world now between) :
    (TextFile.fill dec).wlp env (Filled dec env before world) now between := by
  apply wlp_fill hcodec
  · intro error after last herror
    exact ⟨fun more hmore => (by cases hmore), whenFailed_other herror after last⟩
  · intro error buffer last hread
    refine ⟨fun more hmore => (by cases hmore), fun _ _ _ => ?_⟩
    obtain ⟨fast, rfl⟩ := read1_failed hread
    rcases hunderway with ⟨rfl, rfl⟩ | ⟨haccepted, hmoved⟩
    · exact .inl ⟨⟨error, _, _, hread⟩, fast, rfl⟩
    · refine .inr ⟨haccepted, hmoved.of_same rfl fun hsome => ?_⟩
      obtain ⟨state, hstate⟩ := Option.isSome_iff_exists.mp hsome
      rw [TextFile.decoderState, hstate]
      rfl
  · intro chunk buffer last decoded next snapshot hread hdecode
    refine ⟨?_, whenFailed_ok _ _ _⟩
    rintro _ ⟨⟩
    have hpos := read1_moved hread
    rcases hunderway with ⟨rfl, rfl⟩ | ⟨haccepted, hmoved⟩
    · have haccepted : Accepted env before.buffer between := ⟨chunk, buffer, last, hread⟩
      cases chunk with
      | cons byte chunk =>
          refine .inl ⟨haccepted, .inl ?_⟩
          rw [List.length_cons] at hpos
          change before.buffer.pos < buffer.pos
          change buffer.pos = before.buffer.pos + _ at hpos
          omega
      | nil =>
          by_cases hempty : decoded = []
          · exact .inr ⟨rfl, hempty⟩
          · exact .inl ⟨haccepted, .inr ⟨hpos.ge, decoded, next, hdecode, hempty, rfl⟩⟩
    · exact .inl ⟨haccepted, hmoved.read hlawful hpos hdecode rfl⟩

theorem wlp_takeSome (n : ℕ) {post : Post (TextFile σ κ) PyError ω Text}
    (hall : ∀ text, post (.ok text) { file with used := file.decoded.length } world)
    (hpart : ∀ text used, text.length = n → post (.ok text) { file with used := used } world) :
    (TextFile.takeChars (some (n : ℤ))).wlp env post file world := by
  simp only [TextFile.takeChars, Prog.bind_eq_bind, Prog.wlp_bind, Prog.wlp_state,
    Prog.afterwards_ok]
  split
  · exact hall _
  · refine hpart _ _ ?_
    rw [List.length_take]
    omega

theorem wlp_takeAll {post : Post (TextFile σ κ) PyError ω Text}
    (hpost : post (.ok (sliceFrom file.decoded file.used))
      { file with used := file.decoded.length } world) :
    (TextFile.takeChars none).wlp env post file world := hpost

theorem wlp_takeChars (n : Option ℤ) {post : Post (TextFile σ κ) PyError ω Text}
    (hpost : ∀ text used, post (.ok text) { file with used := used } world) :
    (TextFile.takeChars n).wlp env post file world := by
  simp only [TextFile.takeChars, Prog.bind_eq_bind, Prog.wlp_bind, Prog.wlp_state,
    Prog.afterwards_ok]
  cases n with
  | none => exact hpost _ _
  | some n =>
      dsimp only
      split
      · exact hpost _ _
      · exact hpost _ _

/-- The loop of a sized read. -/
theorem wlp_readMore (hlawful : dec.Lawful) (hcodec : CodecErrors dec enc) {size : ℕ}
    {result : Text}
    (hstart : Underway dec env before world now between ∨ size ≤ result.length) :
    (Prog.repeatUntil (TextFile.readMore dec size) result).wlp env
      (WhenFailed (ReadFailed dec env before world)) now between := by
  refine Prog.wlp_loop (fun result now between =>
    Underway dec env before world now between ∨ size ≤ result.length) ?_ hstart
  intro result now between hinv
  simp only [TextFile.readMore]
  split
  · next hlt =>
      have hunderway := hinv.resolve_right (not_le.mpr hlt)
      simp only [Prog.bind_eq_bind, Prog.wlp_bind]
      refine Prog.wlp_mono _ ?_ (hunderway.fill hlawful hcodec)
      rintro filled after last ⟨hmore, hfailed⟩
      cases filled with
      | error error => exact hfailed.raised
      | ok more =>
          simp only [Prog.afterwards_ok, Prog.wlp_bind]
          apply wlp_takeChars
          intro text used
          cases more with
          | false => exact whenFailed_ok _ _ _
          | true =>
              obtain ⟨haccepted, hmoved⟩ :=
                (hmore true rfl).resolve_right fun hboth => by cases hboth.1
              exact .inl (.inr ⟨haccepted, hmoved.of_same rfl fun _ => rfl⟩)
  · exact whenFailed_ok _ _ _

theorem wlp_fillUntilDecoded (hlawful : dec.Lawful) (hcodec : CodecErrors dec enc)
    (hunderway : Underway dec env before world now between) :
    (TextFile.fillUntilDecoded dec).wlp env (fun result after last =>
      (result = .ok () → Accepted env before.buffer world ∧ Moved dec before after ∨
        after.decoded = []) ∧
      WhenFailed (ReadFailed dec env before world) result after last) now between := by
  refine Prog.wlp_loop (fun _ now between => Underway dec env before world now between) ?_
    hunderway
  intro _ now between hunderway
  simp only [Prog.bind_eq_bind, Prog.wlp_bind]
  refine Prog.wlp_mono _ ?_ (hunderway.fill hlawful hcodec)
  rintro filled after last ⟨hmore, hfailed⟩
  cases filled with
  | error error => exact ⟨fun hok => (by cases hok), hfailed.raised⟩
  | ok more =>
      simp only [Prog.afterwards_ok, Prog.wlp_bind, Prog.wlp_state]
      split
      · next hagain =>
          obtain ⟨rfl, -⟩ := hagain
          exact .inr ((hmore true rfl).resolve_right fun hboth => by cases hboth.1)
      · refine ⟨fun _ => ?_, whenFailed_ok _ _ _⟩
        exact (hmore more rfl).imp id And.right

theorem wlp_finishLine {post : TextFile σ κ → ω → Prop} (limit : ℤ) (last : Text × Option ℕ) :
    (TextFile.finishLine limit last).wlp env (WhenFailed post) file world := by
  obtain ⟨line, endpos⟩ := last
  cases endpos with
  | none => exact whenFailed_ok _ _ _
  | some endpos => exact whenFailed_ok _ _ _

/-- One round of `readline`'s loop. -/
theorem wlp_searchLine (hlawful : dec.Lawful) (hcodec : CodecErrors dec enc) (newline : Newline)
    (limit : ℤ) (line : Text × ℕ) (hunderway : Underway dec env before world now between) :
    (TextFile.searchLine dec newline limit line).wlp env (fun result after last =>
      (∀ next, result = .ok (.inl next) → Underway dec env before world after last) ∧
      WhenFailed (ReadFailed dec env before world) result after last) now between := by
  obtain ⟨line, start⟩ := line
  have hended : ∀ (ended : Text × Option ℕ) (after : TextFile σ κ) (last : ω),
      (∀ next, (.ok (.inr ended) : Except PyError (Text × ℕ ⊕ Text × Option ℕ)) = .ok (.inl next) →
        Underway dec env before world after last) ∧
      WhenFailed (ReadFailed dec env before world)
        (.ok (.inr ended) : Except PyError (Text × ℕ ⊕ Text × Option ℕ)) after last :=
    fun ended after last => ⟨fun next hnext => (by cases hnext), whenFailed_ok _ _ _⟩
  simp only [TextFile.searchLine]
  cases TextFile.lineEnd newline line start with
  | found endpos => exact hended _ _ _
  | searchFrom start =>
      dsimp only
      split
      · exact hended _ _ _
      · simp only [Prog.bind_eq_bind, Prog.wlp_bind]
        refine Prog.wlp_mono _ ?_ (wlp_fillUntilDecoded hlawful hcodec hunderway)
        rintro filled after last ⟨hfilled, hfailed⟩
        cases filled with
        | error error => exact ⟨fun next hnext => (by cases hnext), hfailed.raised⟩
        | ok value =>
            simp only [Prog.afterwards_ok, Prog.wlp_bind, Prog.wlp_state]
            split
            · exact hended _ _ _
            · next hdecoded =>
                obtain ⟨haccepted, hmoved⟩ := (hfilled rfl).resolve_right hdecoded
                simp only [Prog.wlp_bind]
                apply wlp_takeChars
                intro text used
                refine ⟨fun _ _ => .inr ⟨haccepted, ?_⟩, whenFailed_ok _ _ _⟩
                exact hmoved.of_same rfl fun _ => rfl

/-- A check of the buffer raises no error of the kernel. -/
theorem wlp_bufferChecked {α : Type} {test : BinaryFile → Bool} {error : PyError}
    (herror : fromKernel error = false) {f : Unit → TextProg σ κ α}
    {post : TextFile σ κ → ω → Prop} (hf : (f ()).wlp env (WhenFailed post) file world) :
    ((onBuffer (Prog.state.bind fun self => if test self then pure () else .raise error)).bind
      f).wlp env (WhenFailed post) file world := by
  rw [Prog.wlp_bind]
  refine (Prog.wlp_zoom (bufferPart σ κ) _ _ _ _).mpr ?_
  simp only [Prog.wlp_bind, Prog.wlp_state, Prog.afterwards_ok]
  split
  · exact hf
  · exact whenFailed_other herror _ _

theorem wlp_read (hlawful : dec.Lawful) (hcodec : CodecErrors dec enc) {size : Option ℤ} {n : ℕ}
    (hsize : asked size = some n) :
    (TextFile.read dec size).wlp env (WhenFailed (ReadFailed dec env file world)) file world := by
  refine wlp_bufferChecked rfl (wlp_bufferChecked rfl ?_)
  simp only [Prog.bind_eq_bind, Prog.wlp_bind, hsize]
  apply wlp_theDecoder
  simp only [Prog.afterwards_ok, Prog.wlp_bind]
  apply wlp_takeSome
  · exact fun text => wlp_readMore hlawful hcodec (.inl (.inl ⟨rfl, rfl⟩))
  · exact fun text used hlength => wlp_readMore hlawful hcodec (.inr hlength.ge)

theorem wlp_readline (hlawful : dec.Lawful) (hcodec : CodecErrors dec enc) (size : Option ℤ) :
    (TextFile.readline dec size).wlp env (WhenFailed (ReadFailed dec env file world))
      file world := by
  refine wlp_bufferChecked rfl (wlp_bufferChecked rfl ?_)
  simp only [Prog.bind_eq_bind, Prog.wlp_bind]
  apply wlp_theDecoder
  simp only [Prog.afterwards_ok, Prog.wlp_bind, Prog.wlp_state]
  apply wlp_takeAll
  simp only [Prog.afterwards_ok, Prog.wlp_bind]
  refine Prog.wlp_loop (fun _ now between => Underway dec env file world now between) ?_
    (.inl ⟨rfl, rfl⟩)
  intro line now between hunderway
  refine Prog.wlp_mono _ ?_ (wlp_searchLine hlawful hcodec _ _ line hunderway)
  rintro (error | next | last) after final ⟨hnext, hfailed⟩
  · exact hfailed.raised
  · exact hnext next rfl
  · exact wlp_finishLine _ last

/-- `read` without a size takes nothing before it has all it reads. -/
theorem wlp_readAll (hcodec : CodecErrors dec enc) {size : Option ℤ} (hsize : asked size = none) :
    (TextFile.read dec size).wlp env (WhenFailed fun after _ => ∃ fast, after =
      { file with
        decoder := some (file.decoderState dec)
        buffer := { file.buffer with fast := fast } }) file world := by
  refine wlp_bufferChecked rfl (wlp_bufferChecked rfl ?_)
  simp only [Prog.bind_eq_bind, Prog.wlp_bind, hsize]
  apply wlp_theDecoder
  simp only [Prog.afterwards_ok, Prog.wlp_bind]
  apply wlp_onBuffer
  intro result buffer last hread
  cases result with
  | error error =>
      obtain ⟨fast, rfl⟩ := readAll_failed hread
      exact fun _ _ _ => ⟨fast, rfl⟩
  | ok rest =>
      simp only [Prog.afterwards_ok, Prog.wlp_bind]
      apply wlp_takeChars
      intro front used
      simp only [Prog.afterwards_ok, Prog.wlp_bind]
      apply wlp_decodePiece hcodec
      · intro error after last herror
        rw [Prog.afterwards_error]
        exact whenFailed_other herror after last
      · intro text next _
        simp only [Prog.afterwards_ok, Prog.wlp_bind, Prog.wlp_modify, Prog.pure_eq_done,
          Prog.wlp_done]
        exact whenFailed_ok _ _ _

/-- `write` has encoded the text when the kernel fails it. -/
theorem wlp_write (hcodec : CodecErrors dec enc) (text : Text) :
    (TextFile.write dec enc text).wlp env (WhenFailed fun after _ => after =
      { file with
        buffer := { file.buffer with pending := [] }
        encoder := some (enc.encode (file.encoderState enc) (file.outgoing text)).2 })
      file world := by
  refine wlp_bufferChecked rfl (wlp_bufferChecked rfl ?_)
  simp only [TextFile.encodePiece, Prog.bind_eq_bind, Prog.wlp_bind, Prog.wlp_state,
    Prog.afterwards_ok, Prog.wlp_modify]
  cases hencode : (enc.encode (file.encoder.getD enc.initial) (file.outgoing text)).1 with
  | error error =>
      exact whenFailed_other (hcodec.encode _ _ _ hencode) _ _
  | ok payload =>
      simp only [Prog.pure_eq_done, Prog.wlp_done, Prog.afterwards_ok]
      split
      · exact whenFailed_ok _ _ _
      · simp only [Prog.wlp_bind]
        apply wlp_onBuffer
        intro result buffer last hwrite
        cases result with
        | error error =>
            rintro _ ⟨⟩ herror
            rw [write_failed herror hwrite]
            rfl
        | ok count => exact whenFailed_ok _ _ _

/-! ## When nothing is lost -/

/-- The calls a failure in this state takes nothing from. -/
def KeepsAll (enc : Encoder κ) (env : Env bridge PyError ω)
    (file : TextFile σ κ) (world : ω) : TextOp → Prop
  | .read size =>
      asked size = none ∨ file.used = file.decoded.length ∧ Refused env file.buffer world
  | .readline _ => file.used = file.decoded.length ∧ Refused env file.buffer world
  | .write text =>
      file.buffer.pending = [] ∧
        (enc.encode (file.encoderState enc) (file.outgoing text)).2 = file.encoderState enc

/-- A file that was read further is not as it was. -/
theorem Moved.not_same (hlawful : dec.Lawful) (hmoved : Moved dec before after) :
    ¬ SameText dec before after := by
  intro hsame
  obtain ⟨fast, hbuffer⟩ := hsame.buffer
  have hpos : after.buffer.pos = before.buffer.pos := by rw [hbuffer]
  rcases hmoved with hlt | ⟨-, text, last, hdecode, htext, hlast⟩
  · exact hlt.ne' hpos
  · have hstate : before.decoderState dec = last := by
      rw [← hsame.decoder, TextFile.decoderState, hlast]
      rfl
    have hended := hlawful.ended _ _ _ _ hdecode
    rw [← hstate, hdecode] at hended
    exact htext (Prod.mk.inj (Except.ok.inj hended)).1

theorem ReadFailed.losesNothing_iff {script : Script bridge PyError} {rest : Script bridge PyError}
    (hlawful : dec.Lawful) (hfailed : ReadFailed dec scripted before script after rest) :
    LosesNothing dec enc before after ↔
      before.used = before.decoded.length ∧ Refused scripted before.buffer script := by
  rcases hfailed with ⟨hrefused, fast, rfl⟩ | ⟨⟨chunk, next, last, haccepted⟩, hmoved⟩
  · constructor
    · intro hloses
      exact ⟨hloses.used.symm, hrefused⟩
    · rintro ⟨hused, -⟩
      refine losesNothing_of_same ⟨⟨fast, rfl⟩, rfl, rfl, rfl, rfl, hused.symm, rfl⟩ rfl
  · constructor
    · exact fun hloses => absurd hloses.toSameText (hmoved.not_same hlawful)
    · rintro ⟨-, error, next', last', hrefused⟩
      obtain ⟨hresult, -, -⟩ := haccepted.script_unique hrefused
      cases hresult

/-- **Failed text operations.**  When the kernel or a cancellation fails an
operation, in any run and so in the script of its answers, nothing is lost
exactly in these cases: a `read` without a size; a sized `read` or a `readline`
when every decoded character had been handed out and it is the first read of the
buffer that fails; a `write` when the buffer has no read-ahead and encoding the
text leaves the encoder as it was. -/
theorem failed_text_loses_nothing_iff (hlawful : dec.Lawful) (hcodec : CodecErrors dec enc)
    {op : TextOp} {script rest : Script bridge PyError} {error : PyError}
    (herror : fromKernel error = true)
    (hends : Ends scripted (TextFile.attempted dec enc op) before script (.error error) after
      rest) :
    LosesNothing dec enc before after ↔ KeepsAll enc scripted before script op := by
  have hbare : ∀ {α : Type} {prog : TextProg σ κ α},
      Ends scripted (prog.bind fun _ => .done ()) before script (.error error) after rest →
      Ends scripted prog before script (.error error) after rest := by
    intro α prog hends
    obtain ⟨first, mid, between, hprog, hrest⟩ := hends.of_bind
    cases first with
    | ok value =>
        cases hrest with
        | returned hstep => cases hstep
        | silent hstep => cases hstep
        | asks hstep => cases hstep
    | error error' =>
        obtain ⟨hsame, rfl, rfl⟩ := hrest
        obtain rfl := Except.error.inj hsame
        exact hprog
  cases op with
  | read size =>
      cases hsize : asked size with
      | none =>
          obtain ⟨fast, rfl⟩ := (Prog.wlp_iff_ends ..).mp (wlp_readAll hcodec hsize) _ _ _
            (hbare hends) error rfl herror
          refine iff_of_true ?_ (.inl hsize)
          exact losesNothing_of_same ⟨⟨fast, rfl⟩, rfl, rfl, rfl, rfl, rfl, rfl⟩ rfl
      | some n =>
          have hfailed := (Prog.wlp_iff_ends ..).mp (wlp_read hlawful hcodec hsize) _ _ _
            (hbare hends) error rfl herror
          rw [hfailed.losesNothing_iff hlawful, KeepsAll, hsize]
          simp
  | readline size =>
      have hfailed := (Prog.wlp_iff_ends ..).mp (wlp_readline hlawful hcodec size) _ _ _
        (hbare hends) error rfl herror
      exact hfailed.losesNothing_iff hlawful
  | write text =>
      obtain rfl := (Prog.wlp_iff_ends ..).mp (wlp_write hcodec text) _ _ _
        (hbare hends) error rfl herror
      constructor
      · intro hloses
        obtain ⟨fast, hbuffer⟩ := hloses.buffer
        exact ⟨(congrArg BinaryFile.pending hbuffer).symm, hloses.encoder⟩
      · rintro ⟨hpending, hencoder⟩
        refine losesNothing_of_same ⟨⟨before.buffer.fast, ?_⟩, rfl, rfl, rfl, rfl, rfl, rfl⟩
          hencoder
        rw [← hpending]

/-- A text file open for reading, with this much decoded and nothing taken. -/
def decodedAhead (decoded : Text) : TextFile Unit Bool where
  buffer := { reading [] with fast := false }
  newline := .lf
  writenl := none
  decoder := some ()
  decoded := decoded

theorem latin1_errors : CodecErrors latin1 utf16 where
  decode _ _ _ _ hdecode := by cases hdecode
  encode _ _ _ hencode := by cases hencode

/-- A program whose task is cancelled at its first await. -/
theorem script_of_wp {prog : TextProg Unit Bool Unit} {file : TextFile Unit Bool}
    {property : TextFile Unit Bool → Prop}
    (hwp : prog.wp cancelledNext (fun result after _ =>
      result = .error .cancelledError ∧ property after) file ()) :
    ∃ script after, Ends scripted prog file script (.error .cancelledError) after [] ∧
      property after := by
  have hsafe := Prog.wp_safe _ hwp
  obtain ⟨result, after, final, hends⟩ :=
    hsafe.exists_ends fun c _ => ⟨.error .cancelledError, (), rfl⟩
  obtain ⟨rfl, hafter⟩ := hsafe.ends hends
  obtain ⟨script, hscript⟩ := hends.exists_script
  exact ⟨script, after, hscript, hafter⟩

/-- `read()` is cancelled while characters are decoded ahead. -/
theorem cancelled_read_all_loses_nothing :
    ∃ script after, Ends scripted (TextFile.attempted latin1 utf16 (.read none))
        (decodedAhead [97, 98]) script (.error .cancelledError) after [] ∧
      LosesNothing latin1 utf16 (decodedAhead [97, 98]) after := by
  have hwp : (TextFile.attempted latin1 utf16 (.read none)).wp cancelledNext
      (fun result after _ => result = .error .cancelledError ∧ True)
      (decodedAhead [97, 98]) () := by
    rintro answer next rfl
    exact ⟨rfl, trivial⟩
  obtain ⟨script, after, hends, -⟩ := script_of_wp hwp
  exact ⟨script, after, hends,
    (failed_text_loses_nothing_iff latin1_lawful latin1_errors rfl hends).mpr (.inl rfl)⟩

/-- `read(5)` has taken the two characters that were decoded when it is
cancelled: they are in no result, and the position is behind them. -/
theorem cancelled_read_loses :
    ∃ script after, Ends scripted (TextFile.attempted latin1 utf16 (.read (some 5)))
        (decodedAhead [97, 98]) script (.error .cancelledError) after [] ∧
      ¬ LosesNothing latin1 utf16 (decodedAhead [97, 98]) after := by
  have hwp : (TextFile.attempted latin1 utf16 (.read (some 5))).wp cancelledNext
      (fun result after _ => result = .error .cancelledError ∧ after.used = 2)
      (decodedAhead [97, 98]) () := by
    refine Prog.wp_round ?_
    rintro answer next rfl
    exact ⟨rfl, rfl⟩
  obtain ⟨script, after, hends, hused⟩ := script_of_wp hwp
  refine ⟨script, after, hends, fun hloses => ?_⟩
  have hsame : after.used = 0 := hloses.used
  rw [hused] at hsame
  cases hsame

end Turbofile.Text
