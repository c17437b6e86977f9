import Turbofile.Binary.BinaryFile
import Turbofile.Library.Decoder

/-!
# Text async file objects

`TextFile` method by method, over a binary file as its buffer.  The codec is a
parameter: what `codecs` gives for the encoding of the file.
-/

namespace Turbofile.Text

open Turbofile.Core
open Turbofile.Coroutine
open Turbofile.Binary
open Turbofile.Codecs

def CHUNK : ℕ := 8192

/-- The newline settings `open` accepts. -/
inductive Newline
  | none
  | empty
  | lf
  | cr
  | crlf
  deriving DecidableEq

namespace Newline

def text : Newline → Text
  | .none | .empty => []
  | .lf => [Codecs.lf]
  | .cr => [Codecs.cr]
  | .crlf => [Codecs.cr, Codecs.lf]

def readuniversal : Newline → Bool
  | .none | .empty => true
  | .lf | .cr | .crlf => false

def readtranslate : Newline → Bool
  | .none => true
  | .empty | .lf | .cr | .crlf => false

def writenl (linesep : Text) : Newline → Option Text
  | .empty | .lf => Option.none
  | .none => some linesep
  | .cr => some Newline.cr.text
  | .crlf => some Newline.crlf.text

end Newline

/-- An incremental encoder; `encode` may leave a new state even when it raises. -/
structure Encoder (κ : Type) where
  initial : κ
  encode : κ → Text → Except PyError Bytes × κ
  setstate : ℕ → κ

structure TextFile (σ κ : Type) where
  buffer : BinaryFile
  newline : Newline
  writenl : Option Text
  decoder : Option σ := none
  encoder : Option κ := none
  decoded : Text := []
  used : ℤ := 0
  snapshot : Option (ℕ × Bytes) := none

/-- `text[start:]`. -/
def sliceFrom (text : Text) (start : ℤ) : Text :=
  if start < 0 then text.drop (text.length - (-start).toNat) else text.drop start.toNat

/-- `text.find(sub, start)`. -/
def find (sub text : Text) (start : ℕ) : Option ℕ :=
  (List.range' start (text.length + 1 - start)).find? fun index =>
    sub.isPrefixOf (text.drop index)

/-- `text.replace("\n", by)`. -/
def replaceNewline (replacement text : Text) : Text :=
  text.flatMap fun char => if char = lf then replacement else [char]

/-! ## Cookies -/

structure Cookie where
  position : ℕ
  decFlags : ℕ := 0
  bytesToFeed : ℕ := 0
  needEof : Bool := false
  charsToSkip : ℕ := 0
  deriving DecidableEq

def packCookie (cookie : Cookie) : ℕ :=
  cookie.position ||| (cookie.decFlags <<< 64) ||| (cookie.bytesToFeed <<< 128) |||
    (cookie.charsToSkip <<< 192) ||| (cookie.needEof.toNat <<< 256)

def unpackCookie (packed : ℕ) : Cookie where
  position := packed % 2 ^ 64
  decFlags := packed / 2 ^ 64 % 2 ^ 64
  bytesToFeed := packed / 2 ^ 64 / 2 ^ 64 % 2 ^ 64
  charsToSkip := packed / 2 ^ 64 / 2 ^ 64 / 2 ^ 64 % 2 ^ 64
  needEof := packed / 2 ^ 64 / 2 ^ 64 / 2 ^ 64 / 2 ^ 64 != 0

/-- The counters of `tell`'s loop, and the decoder it walks with. -/
structure Walk (σ : Type) where
  state : σ
  startPos : ℕ
  startFlags : ℕ
  bytesFed : ℕ := 0
  charsDecoded : ℕ := 0
  charsToSkip : ℕ

abbrev TextDecoder (σ : Type) := Decoder σ Byte PyError

/-- The counters after one byte; a clean decoder point moves the start there. -/
def Walk.feed {σ : Type} (dec : TextDecoder σ) (walk : Walk σ) (text : Text) (next : σ) : Walk σ :=
  let fed := { walk with
    state := next
    bytesFed := walk.bytesFed + 1
    charsDecoded := walk.charsDecoded + text.length }
  let (decBuffer, flags) := dec.getstate next
  if decBuffer.isEmpty ∧ fed.charsDecoded ≤ fed.charsToSkip then
    { fed with
      startPos := fed.startPos + fed.bytesFed
      startFlags := flags
      bytesFed := 0
      charsToSkip := fed.charsToSkip - fed.charsDecoded
      charsDecoded := 0 }
  else fed

/-- The loop over the bytes, and whether it was left by its `break`. -/
def Walk.run {σ : Type} (dec : TextDecoder σ) : Walk σ → Bytes → Except PyError (Walk σ × Bool)
  | walk, [] => .ok (walk, false)
  | walk, byte :: bytes =>
      match dec.decode walk.state [byte] false with
      | .error error => .error error
      | .ok (text, next) =>
          let fed := walk.feed dec text next
          if fed.charsToSkip ≤ fed.charsDecoded then .ok (fed, true) else fed.run dec bytes

def cannotReconstruct : PyError :=
  .osError (.custom .other "can't reconstruct logical file position")

def cannotRestore : PyError := .osError (.custom .other "can't restore logical file position")

/-- The cookie for the place `charsToSkip` characters into the chunk. -/
def Walk.cookie {σ : Type} (dec : TextDecoder σ) (walk : Walk σ) (nextInput : Bytes) :
    Except PyError Cookie :=
  match walk.run dec nextInput with
  | .error error => .error error
  | .ok (walk, true) =>
      .ok ⟨walk.startPos, walk.startFlags, walk.bytesFed, false, walk.charsToSkip⟩
  | .ok (walk, false) =>
      match dec.decode walk.state [] true with
      | .error error => .error error
      | .ok (text, _) =>
          if walk.charsDecoded + text.length < walk.charsToSkip then .error cannotReconstruct
          else .ok ⟨walk.startPos, walk.startFlags, walk.bytesFed, true, walk.charsToSkip⟩

/-! ## The methods -/

variable {σ κ : Type}

/-- The buffer of a text file. -/
def bufferPart (σ κ : Type) : Part (TextFile σ κ) BinaryFile where
  get := fun file => file.buffer
  put := fun buffer file => { file with buffer := buffer }
  get_put := fun _ _ => rfl
  put_get := fun _ => rfl
  put_put := fun _ _ _ => rfl

abbrev TextProg (σ κ : Type) := Prog bridge (TextFile σ κ) PyError

def onBuffer {α : Type} (prog : BinaryProg α) : TextProg σ κ α := prog.zoom (bufferPart σ κ)

namespace TextFile

def new (buffer : BinaryFile) (newline : Newline) (linesep : Text) : TextFile σ κ where
  buffer := buffer
  newline := newline
  writenl := newline.writenl linesep

section Reading

variable (dec : TextDecoder σ)

/-- `self.decoder`, made if there is none. -/
def theDecoder : TextProg σ κ σ := do
  let self ← .state
  match self.decoder with
  | some decoder => pure decoder
  | none => do
      .modify fun self => { self with decoder := some dec.initial }
      pure dec.initial

/-- `self.decoder.decode(data, final)`. -/
def decodePiece (data : Bytes) (final : Bool) : TextProg σ κ Text := do
  let decoder ← theDecoder dec
  match dec.decode decoder data final with
  | .error error => .raise error
  | .ok (text, next) => do
      .modify fun self => { self with decoder := some next }
      pure text

def takeChars (n : Option ℤ) : TextProg σ κ Text := do
  let self ← .state
  let avail := sliceFrom self.decoded self.used
  match n with
  | none => do
      .modify fun self => { self with used := self.decoded.length }
      pure avail
  | some n =>
      if n < 0 ∨ avail.length ≤ n then do
        .modify fun self => { self with used := self.decoded.length }
        pure avail
      else do
        .modify fun self => { self with used := self.used + n }
        pure (avail.take n.toNat)

def rewindChars (n : ℤ) : TextProg σ κ Unit :=
  .modify fun self => { self with used := self.used - n }

def fill : TextProg σ κ Bool := do
  let decoder ← theDecoder dec
  let (decBuffer, decFlags) := dec.getstate decoder
  let chunk ← onBuffer (BinaryFile.read1 CHUNK)
  let eof := chunk.isEmpty
  let decoded ← decodePiece dec chunk eof
  .modify fun self =>
    { self with decoded := decoded, used := 0, snapshot := some (decFlags, decBuffer ++ chunk) }
  pure !eof

/-- One round of `read`'s loop. -/
def readMore (size : ℕ) (result : Text) : TextProg σ κ (Text ⊕ Text) := do
  if result.length < size then do
    let more ← fill dec
    let taken ← takeChars (some (size - result.length : ℤ))
    let result := result ++ taken
    if more then pure (.inl result) else pure (.inr result)
  else pure (.inr result)

def read (size : Option ℤ) : TextProg σ κ Text := do
  onBuffer BinaryFile.checkOpen
  onBuffer BinaryFile.checkReadable
  let _ ← theDecoder dec
  match asked size with
  | none => do
      let rest ← onBuffer (BinaryFile.read none)
      let front ← takeChars none
      let back ← decodePiece dec rest true
      .modify fun self => { self with decoded := [], used := 0, snapshot := none }
      pure (front ++ back)
  | some size => do
      let result ← takeChars (some (size : ℤ))
      .repeatUntil (readMore dec size) result

/-! ### Lines -/

/-- Where the line in `line` ends, or from where to look when there is more. -/
inductive LineEnd
  | found (endpos : ℕ)
  | searchFrom (start : ℕ)
  deriving DecidableEq

/-- The search with `newline=""`. -/
def universalEnd (line : Text) (start : ℕ) : LineEnd :=
  match find [Codecs.cr] line start with
  | none =>
      match find [Codecs.lf] line start with
      | none => .searchFrom line.length
      | some nlpos => .found (nlpos + 1)
  | some crpos =>
      match find [Codecs.lf] line start with
      | none => if crpos + 1 = line.length then .searchFrom crpos else .found (crpos + 1)
      | some nlpos =>
          if nlpos < crpos then .found (nlpos + 1)
          else if nlpos = crpos + 1 then .found (nlpos + 1)
          else .found (crpos + 1)

def lineEnd (newline : Newline) (line : Text) (start : ℕ) : LineEnd :=
  if newline.readtranslate then
    match find [Codecs.lf] line start with
    | some pos => .found (pos + 1)
    | none => .searchFrom line.length
  else if newline.readuniversal then universalEnd line start
  else
    match find newline.text line start with
    | some pos => .found (pos + newline.text.length)
    | none => .searchFrom (line.length + 1 - newline.text.length)

/-- `while await self.fill(): if self.decoded: break`. -/
def fillUntilDecoded : TextProg σ κ Unit :=
  .repeatUntil
    (fun _ => do
      let more ← fill dec
      let self ← .state
      if more ∧ self.decoded = [] then pure (.inl ()) else pure (.inr ()))
    ()

/-- One round of `readline`'s loop; it ends with the line and, unless the file
has ended, the place to cut it. -/
def searchLine (newline : Newline) (limit : ℤ) :
    Text × ℕ → TextProg σ κ (Text × ℕ ⊕ Text × Option ℕ)
  | (line, start) =>
      match lineEnd newline line start with
      | .found endpos => pure (.inr (line, some endpos))
      | .searchFrom start =>
          if 0 ≤ limit ∧ limit ≤ line.length then pure (.inr (line, some limit.toNat))
          else do
            fillUntilDecoded dec
            let self ← .state
            if self.decoded = [] then do
              .modify fun self => { self with snapshot := none }
              pure (.inr (line, none))
            else do
              let more ← takeChars none
              pure (.inl (line ++ more, start))

/-- The line the loop ends with, cut at its end or at the limit; what is behind
the cut is put back. -/
def finishLine (limit : ℤ) : Text × Option ℕ → TextProg σ κ Text
  | (line, none) => pure line
  | (line, some endpos) => do
      let endpos := if 0 ≤ limit ∧ limit < endpos then limit.toNat else endpos
      rewindChars (line.length - endpos)
      pure (line.take endpos)

def readline (size : Option ℤ) : TextProg σ κ Text := do
  onBuffer BinaryFile.checkOpen
  onBuffer BinaryFile.checkReadable
  let limit := size.getD (-1)
  let _ ← theDecoder dec
  let self ← .state
  let line ← takeChars none
  let last ← .repeatUntil (searchLine dec self.newline limit) (line, 0)
  finishLine limit last

/-- One round of `readlines`' loop: the lines so far and their total length. -/
def nextLine (hint : Option ℤ) : List Text × ℕ → TextProg σ κ (List Text × ℕ ⊕ List Text)
  | (lines, total) => do
      let line ← readline dec (some (-1))
      if line.isEmpty then pure (.inr lines)
      else if hint.any fun size => 0 < size ∧ size ≤ ((total + line.length : ℕ) : ℤ) then
        pure (.inr (lines ++ [line]))
      else pure (.inl (lines ++ [line], total + line.length))

def readlines (hint : Option ℤ) : TextProg σ κ (List Text) :=
  .repeatUntil (nextLine dec hint) ([], 0)

/-! ### Positions -/

/-- The walk `tell` makes when characters of the chunk have been consumed, and
the bytes it walks over. -/
def walkOf (self : TextFile σ κ) : Option (Walk σ × Bytes) :=
  match self.decoder, self.snapshot with
  | some _, some (decFlags, nextInput) =>
      if self.used = 0 then none
      else
        some
          ({ state := dec.setstate ([], decFlags)
             startPos := self.buffer.pos - nextInput.length
             startFlags := decFlags
             charsToSkip := self.used.toNat }, nextInput)
  | _, _ => none

/-- What `tell` computes, which awaits nothing. -/
def cookieNow (self : TextFile σ κ) : Except PyError ℕ :=
  match walkOf dec self with
  | some (walk, nextInput) => (walk.cookie dec nextInput).map packCookie
  | none =>
      match self.decoder, self.snapshot with
      | some _, some (decFlags, nextInput) =>
          .ok (packCookie
            { position := self.buffer.pos - nextInput.length, decFlags := decFlags })
      | _, _ => .ok self.buffer.pos

/-- However a walk ends, the `finally` puts the decoder back. -/
def tell : TextProg σ κ ℕ := do
  onBuffer BinaryFile.checkOpen
  let self ← .state
  if (walkOf dec self).isSome then
    .modify fun self =>
      { self with decoder := self.decoder.map fun decoder => dec.setstate (dec.getstate decoder) }
  else pure ()
  match cookieNow dec self with
  | .error error => .raise error
  | .ok cookie => pure cookie

variable (enc : Encoder κ)

/-- Forget what was decoded. -/
def dropDecoded (self : TextFile σ κ) : TextFile σ κ :=
  { self with decoded := [], used := 0, snapshot := none }

def seekEnd : TextProg σ κ ℤ := do
  let position ← onBuffer (BinaryFile.seek 0 2)
  .modify fun self =>
    { self.dropDecoded with
      decoder := self.decoder.map fun _ => dec.initial
      encoder := self.encoder.map fun _ => enc.setstate 0 }
  pure position

/-- The decoder where the cookie starts. -/
def restoreDecoder (packed : ℕ) (cookie : Cookie) (self : TextFile σ κ) : TextFile σ κ :=
  if packed = 0 ∧ self.decoder.isSome then
    { self with decoder := some dec.initial, snapshot := some (0, []) }
  else if self.decoder.isSome ∨ cookie.decFlags ≠ 0 ∨ cookie.charsToSkip ≠ 0 then
    { self with
      decoder := some (dec.setstate ([], cookie.decFlags))
      snapshot := some (cookie.decFlags, []) }
  else self

/-- Decode the chunk of the cookie again and skip its characters. -/
def restoreChunk (cookie : Cookie) : TextProg σ κ Unit := do
  let chunk ← onBuffer (BinaryFile.read (some (cookie.bytesToFeed : ℤ)))
  let decoded ← decodePiece dec chunk cookie.needEof
  .modify fun self =>
    { self with decoded := decoded, used := 0, snapshot := some (cookie.decFlags, chunk) }
  if decoded.length < cookie.charsToSkip then .raise cannotRestore
  else .modify fun self => { self with used := cookie.charsToSkip }

def restoreEncoder (cookie : Cookie) (self : TextFile σ κ) : TextFile σ κ :=
  { self with
    encoder := self.encoder.map fun _ =>
      if cookie.position = 0 ∧ cookie.charsToSkip = 0 then enc.initial else enc.setstate 0 }

def seekCookie (packed : ℕ) : TextProg σ κ ℤ := do
  let cookie := unpackCookie packed
  let _ ← onBuffer (BinaryFile.seek cookie.position 0)
  .modify fun self => restoreDecoder dec packed cookie self.dropDecoded
  if cookie.charsToSkip = 0 then pure () else restoreChunk dec cookie
  .modify (restoreEncoder enc cookie)
  pure packed

def seek (cookie whence : ℤ) : TextProg σ κ ℤ := do
  onBuffer BinaryFile.checkOpen
  if whence = 1 then
    if cookie = 0 then do
      let packed ← tell dec
      seekCookie dec enc packed
    else .raise (.unsupportedOperation "can't do nonzero cur-relative seeks")
  else if whence = 2 then
    if cookie = 0 then seekEnd dec enc
    else .raise (.unsupportedOperation "can't do nonzero end-relative seeks")
  else if whence ≠ 0 then
    .raise (.valueError s!"invalid whence ({whence}, should be 0, 1 or 2)")
  else if cookie < 0 then .raise (.valueError s!"negative seek position {cookie}")
  else seekCookie dec enc cookie.toNat

def truncate (size : Option ℤ) : TextProg σ κ ℤ := do
  match size with
  | some size => onBuffer (BinaryFile.truncate (some size))
  | none => do
      let packed ← tell dec
      let cookie := unpackCookie packed
      if cookie.decFlags ≠ 0 ∨ cookie.bytesToFeed ≠ 0 ∨ cookie.needEof = true ∨
          cookie.charsToSkip ≠ 0 then
        .raise (.unsupportedOperation
          "can't truncate at a position with pending decoder state")
      else onBuffer (BinaryFile.truncate (some (cookie.position : ℤ)))

/-! ### Writes -/

/-- `self.encoder.encode(text)`, with the encoder made if there is none. -/
def encodePiece (text : Text) : TextProg σ κ Bytes := do
  let self ← .state
  let (payload, next) := enc.encode (self.encoder.getD enc.initial) text
  .modify fun self => { self with encoder := some next }
  match payload with
  | .error error => .raise error
  | .ok payload => pure payload

/-- The text as it is encoded. -/
def outgoing (self : TextFile σ κ) (text : Text) : Text :=
  match self.writenl with
  | none => text
  | some replacement => replaceNewline replacement text

def write (text : Text) : TextProg σ κ ℕ := do
  onBuffer BinaryFile.checkOpen
  onBuffer BinaryFile.checkWritable
  let self ← .state
  let payload ← encodePiece enc (self.outgoing text)
  if payload.isEmpty then pure () else do
    let _ ← onBuffer (BinaryFile.write payload)
    pure ()
  .modify fun self =>
    { self.dropDecoded with decoder := self.decoder.map fun _ => dec.initial }
  pure text.length

end Reading

end TextFile

end Turbofile.Text
