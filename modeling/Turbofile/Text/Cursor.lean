import Turbofile.Text.Positions
import Turbofile.Text.Sequences

/-!
# A text file as a cursor

Reads, `tell` and `seek` on an open file are moves of a cursor in a fixed text:
it keeps what is left to read and, for each cookie, what was left there.  The
bytes, the chunks, the decoder and its snapshots do not show.
-/

namespace Turbofile.Text

open Turbofile.Core
open Turbofile.Coroutine
open Turbofile.Binary
open Turbofile.Codecs

/-! ## The cursor -/

/-- `restore` seeks to the cookie that an earlier `tell` returned, `stay` is
`seek(0, 1)`, `rewind` is `seek(0)` and `toEnd` is `seek(0, 2)`. -/
inductive CursorOp
  | read (size : Option ℤ)
  | readline (size : Option ℤ)
  | tell
  | restore (index : ℕ)
  | stay
  | rewind
  | toEnd
  deriving DecidableEq

structure Cursor where
  rest : Text
  marks : List Text
  deriving DecidableEq

namespace Cursor

/-- The next `n` characters. -/
def take (cursor : Cursor) (n : ℕ) : Option Text × Cursor :=
  (some (cursor.rest.take n), { cursor with rest := cursor.rest.drop n })

def go (cursor : Cursor) (rest : Text) : Option Text × Cursor :=
  (none, { cursor with rest := rest })

/-- What an operation returns in a text `whole`, and the cursor after it. -/
def step (newline : Newline) (whole : Text) (cursor : Cursor) : CursorOp → Option Text × Cursor
  | .read size => cursor.take ((asked size).getD cursor.rest.length)
  | .readline size => cursor.take (lineAsked newline size cursor.rest)
  | .tell => (none, { cursor with marks := cursor.marks ++ [cursor.rest] })
  | .restore index => cursor.go (cursor.marks[index]?.getD cursor.rest)
  | .stay => cursor.go cursor.rest
  | .rewind => cursor.go whole
  | .toEnd => cursor.go []

def run (newline : Newline) (whole : Text) : Cursor → List CursorOp → List (Option Text)
  | _, [] => []
  | cursor, op :: ops =>
      let (answer, next) := cursor.step newline whole op
      answer :: run newline whole next ops

end Cursor

/-! ## The file -/

variable {σ κ : Type}

namespace TextFile

/-- `seek` to a cookie, if there is one. -/
def restore (dec : TextDecoder σ) (enc : Encoder κ) : Option ℕ → TextProg σ κ Unit
  | none => pure ()
  | some cookie => do
      let _ ← seek dec enc cookie 0
      pure ()

/-- An operation with the cookies so far: the text it returns and the cookies then. -/
def move (dec : TextDecoder σ) (enc : Encoder κ) (cookies : List ℕ) :
    CursorOp → TextProg σ κ (Option Text × List ℕ)
  | .read size => do
      let text ← read dec size
      pure (some text, cookies)
  | .readline size => do
      let text ← readline dec size
      pure (some text, cookies)
  | .tell => do
      let cookie ← tell dec
      pure (none, cookies ++ [cookie])
  | .restore index => do
      restore dec enc cookies[index]?
      pure (none, cookies)
  | .stay => do
      let _ ← seek dec enc 0 1
      pure (none, cookies)
  | .rewind => do
      let _ ← seek dec enc 0 0
      pure (none, cookies)
  | .toEnd => do
      let _ ← seek dec enc 0 2
      pure (none, cookies)

def moveAll (dec : TextDecoder σ) (enc : Encoder κ) :
    List ℕ → List CursorOp → TextProg σ κ (List (Option Text))
  | _, [] => pure []
  | cookies, op :: ops => do
      let (answer, cookies) ← move dec enc cookies op
      let answers ← moveAll dec enc cookies ops
      pure (answer :: answers)

end TextFile

/-! ## The refinement -/

variable {dec : TextDecoder σ} {enc : Encoder κ} {info : ModeInfo} {file next : TextFile σ κ}
  {content : Bytes} {whole rest : Text} {newline : Newline} {cursor : Cursor} {cookies : List ℕ}

/-- The file is where the cursor is, and its cookies are the cursor's marks. -/
structure Follows (dec : TextDecoder σ) (info : ModeInfo) (content : Bytes) (whole : Text)
    (newline : Newline) (cursor : Cursor) (cookies : List ℕ) (file : TextFile σ κ) : Prop where
  ready : Ready dec info file content
  placed : Placed dec info content whole file
  rest : remaining dec file content = cursor.rest
  newline : file.newline = newline
  marks : List.Forall₂ (Marks dec content whole) cookies cursor.marks
  /-- Before there is a decoder only the two ends have been marked. -/
  ends : file.decoder = none → List.Forall₂ (IsEnd content whole) cookies cursor.marks

/-- The answer of the cursor, with the file at its new place. -/
def Moves (dec : TextDecoder σ) (info : ModeInfo) (content : Bytes) (whole : Text)
    (newline : Newline) (moved : Option Text × Cursor) :
    Post (TextFile σ κ) PyError Bytes (Option Text × List ℕ) :=
  fun result file world => world = content ∧ ∃ cookies, result = .ok (moved.1, cookies) ∧
    Follows dec info content whole newline moved.2 cookies file

/-- Related lists have related elements at each index. -/
theorem at_forall₂ {α β : Type*} {related : α → β → Prop} {front : List α} {back : List β}
    (hrelated : List.Forall₂ related front back) (index : ℕ) :
    front[index]? = none ∧ back[index]? = none ∨
      ∃ x y, front[index]? = some x ∧ back[index]? = some y ∧ related x y := by
  induction hrelated generalizing index with
  | nil => exact .inl ⟨rfl, rfl⟩
  | cons hhead _ ih =>
      cases index with
      | zero => exact .inr ⟨_, _, rfl, rfl, hhead⟩
      | succ index => exact ih index

/-- A read that takes the next `n` characters. -/
theorem moves_take (hfollows : Follows dec info content whole newline cursor cookies file)
    {n : ℕ} {prog : TextProg σ κ Text}
    (hwp : prog.wp fileEnv (Gives dec info file content n) file content)
    (hwlp : prog.wlp fileEnv (Stays dec info content whole) file content) :
    (prog.bind fun text => pure (some text, cookies)).wp fileEnv
      (Moves dec info content whole newline (cursor.take n)) file content := by
  rw [Prog.wp_bind]
  refine Prog.wp_mono _ ?_ (Prog.wp_and_wlp prog hwp hwlp)
  rintro result next world ⟨⟨rfl, rfl, hrest, hready, hnewline⟩, -, hdecoding⟩
  rw [hfollows.rest] at hrest ⊢
  exact ⟨rfl, cookies, rfl, hready, hdecoding.placed, hrest, hnewline.trans hfollows.newline,
    hfollows.marks, fun hnone => absurd hnone hdecoding.made⟩

/-- The file after a `seek` follows the cursor there. -/
theorem Follows.sought (hfollows : Follows dec info content whole newline cursor cookies file)
    (hsought : Sought dec info content whole rest file next) :
    Follows dec info content whole newline { cursor with rest := rest } cookies next where
  ready := hsought.ready
  placed := hsought.placed
  rest := hsought.rest
  newline := hsought.newline.trans hfollows.newline
  marks := hfollows.marks
  ends := fun hnone => hfollows.ends (hsought.decoder hnone)

/-- What `seek(cookie)` checks before it goes there. -/
theorem wp_seek_cookie (hseekable : Seekable dec content whole) (hread : info.read = true)
    (hbuffer : Aligned info file.buffer content) {packed : ℕ}
    (hmarks : Marks dec content whole packed rest)
    (hend : file.decoder = none → IsEnd content whole packed rest)
    {post : Post (TextFile σ κ) PyError Bytes ℤ}
    (hpost : ∀ next : TextFile σ κ, Sought dec info content whole rest file next →
      post (.ok packed) next content) :
    (TextFile.seek dec enc packed 0).wp fileEnv post file content := by
  simp only [TextFile.seek, Prog.bind_eq_bind, Prog.wp_bind]
  apply wp_checkOpen hbuffer
  rw [Prog.after_ok, if_neg (by decide), if_neg (by decide), if_neg (by decide),
    if_neg (not_lt.mpr (Int.natCast_nonneg packed)), Int.toNat_natCast]
  exact wp_seekCookie hseekable hread hbuffer hmarks hend hpost

/-- One operation moves the file as it moves the cursor. -/
theorem wp_move (hseekable : Seekable dec content whole) (hread : info.read = true)
    (hfollows : Follows dec info content whole newline cursor cookies file) (op : CursorOp) :
    (TextFile.move dec enc cookies op).wp fileEnv
      (Moves dec info content whole newline (cursor.step newline whole op)) file content := by
  have hready := hfollows.ready
  have hplaced := hfollows.placed
  have hsought : ∀ (rest : Text) (next : TextFile σ κ),
      Sought dec info content whole rest file next →
        Moves dec info content whole newline (cursor.go rest) (.ok (none, cookies)) next content :=
    fun rest next hnext => ⟨rfl, cookies, rfl, hfollows.sought hnext⟩
  cases op with
  | read size =>
      have hwp := wp_read fileEnv_serves hseekable.lawful hready hread size
      rw [hfollows.rest] at hwp
      exact moves_take hfollows hwp (stays_read fileEnv_serves hseekable hread hplaced size)
  | readline size =>
      have hwp := wp_readline fileEnv_serves hseekable.lawful hready hread size
      rw [hfollows.rest, hfollows.newline] at hwp
      exact moves_take hfollows hwp (stays_readline fileEnv_serves hseekable hread hplaced size)
  | tell =>
      simp only [TextFile.move, Prog.bind_eq_bind, Prog.wp_bind]
      apply wp_tell_placed hseekable hready hplaced
      intro packed hmarks hend
      rw [hfollows.rest] at hmarks hend
      exact ⟨rfl, cookies ++ [packed], rfl, hready, hplaced, hfollows.rest, hfollows.newline,
        List.rel_append hfollows.marks (.cons hmarks .nil),
        fun hnone => List.rel_append (hfollows.ends hnone) (.cons (hend hnone) .nil)⟩
  | restore index =>
      simp only [TextFile.move, Cursor.step, Prog.bind_eq_bind, Prog.wp_bind]
      rcases at_forall₂ hfollows.marks index
        with ⟨hcookie, hmark⟩ | ⟨packed, rest, hcookie, hmark, hmarks⟩
      · rw [hcookie, hmark]
        exact ⟨rfl, cookies, rfl, hfollows⟩
      · have hend : file.decoder = none → IsEnd content whole packed rest := by
          intro hnone
          rcases at_forall₂ (hfollows.ends hnone) index with ⟨hcookie', -⟩ |
            ⟨packed', rest', hcookie', hmark', hend⟩
          · rw [hcookie] at hcookie'
            cases hcookie'
          · obtain rfl := Option.some.inj (hcookie.symm.trans hcookie')
            obtain rfl := Option.some.inj (hmark.symm.trans hmark')
            exact hend
        rw [hcookie, hmark]
        simp only [TextFile.restore, Prog.bind_eq_bind, Prog.wp_bind]
        exact wp_seek_cookie hseekable hread hready.buffer hmarks hend (hsought rest)
  | stay =>
      simp only [TextFile.move, TextFile.seek, Prog.bind_eq_bind, Prog.wp_bind]
      apply wp_checkOpen hready.buffer
      rw [Prog.after_ok, if_true, if_true, Prog.wp_bind]
      apply wp_tell_placed hseekable hready hplaced
      intro packed hmarks hend
      rw [Prog.after_ok]
      apply wp_seekCookie hseekable hread hready.buffer hmarks hend
      rw [hfollows.rest]
      exact hsought cursor.rest
  | rewind =>
      simp only [TextFile.move, Prog.bind_eq_bind, Prog.wp_bind]
      have hstart : IsEnd content whole 0 whole := .inl ⟨rfl, rfl⟩
      exact wp_seek_cookie hseekable hread hready.buffer (.ends hstart) (fun _ => hstart)
        (hsought whole)
  | toEnd =>
      simp only [TextFile.move, TextFile.seek, Prog.bind_eq_bind, Prog.wp_bind]
      apply wp_checkOpen hready.buffer
      rw [Prog.after_ok, if_neg (by decide), if_true, if_true]
      exact wp_seekEnd_sought hseekable hready.buffer (hsought [])

/-- Every script of operations moves the file as it moves the cursor. -/
theorem wp_moveAll (hseekable : Seekable dec content whole) (hread : info.read = true)
    (hfollows : Follows dec info content whole newline cursor cookies file)
    (ops : List CursorOp) :
    (TextFile.moveAll dec enc cookies ops).wp fileEnv
      (fun result _ world => world = content ∧ result = .ok (cursor.run newline whole ops))
      file content := by
  induction ops generalizing file cursor cookies with
  | nil => exact ⟨rfl, rfl⟩
  | cons op ops ih =>
      simp only [TextFile.moveAll, Prog.bind_eq_bind, Prog.wp_bind]
      refine Prog.wp_mono _ ?_ (wp_move hseekable hread hfollows op)
      rintro result next world ⟨rfl, cookies, rfl, hnext⟩
      simp only [Prog.after_ok, Prog.wp_bind]
      refine Prog.wp_mono _ ?_ (ih hnext)
      rintro result last world ⟨rfl, rfl⟩
      exact ⟨rfl, rfl⟩

/-! ## The decoder of a file -/

theorem length_translateNewlines_le (text : Text) :
    (translateNewlines text).length ≤ text.length := by
  induction text using translateNewlines.induct with
  | case1 => exact le_rfl
  | case2 => exact le_rfl
  | case3 rest ih =>
      simp only [translateNewlines, if_true, List.length_cons]
      omega
  | case4 next rest hnext ih =>
      simp only [translateNewlines, if_true, hnext, if_false, List.length_cons] at ih ⊢
      omega
  | case5 char text hchar ih =>
      rw [translateNewlines_cons hchar, List.length_cons, List.length_cons]
      omega

theorem length_translated_le (translate : Bool) (text : Text) :
    (translated translate text).length ≤ text.length := by
  cases translate with
  | true => exact length_translateNewlines_le text
  | false => exact le_rfl

theorem makeDecoder_resumable {codec : TextDecoder σ} (hresumable : codec.Resumable)
    (newline : Newline) : (makeDecoder codec newline).Resumable := by
  cases newline with
  | none => exact hresumable.newlines true
  | empty => exact hresumable.newlines false
  | lf => exact hresumable
  | cr => exact hresumable
  | crlf => exact hresumable

/-- A kept-back `"\r"` is one more bit of the flags. -/
theorem newlines_flags {codec : TextDecoder σ} (hflags : ∀ state, (codec.getstate state).2 < 2 ^ 63)
    (translate : Bool) (state : σ × Bool) :
    ((codec.newlines translate).getstate state).2 < 2 ^ 64 := by
  have hinner := hflags state.1
  have hbit := Bool.toNat_le state.2
  change 2 * (codec.getstate state.1).2 + state.2.toNat < 2 ^ 64
  omega

theorem makeDecoder_flags {codec : TextDecoder σ}
    (hflags : ∀ state, (codec.getstate state).2 < 2 ^ 63) (newline : Newline)
    (state : DecoderState σ newline) : ((makeDecoder codec newline).getstate state).2 < 2 ^ 64 := by
  have hsame : ∀ state : σ, (codec.getstate state).2 < 2 ^ 64 :=
    fun state => (hflags state).trans (by decide)
  cases newline with
  | none => exact newlines_flags hflags true state
  | empty => exact newlines_flags hflags false state
  | lf => exact hsame state
  | cr => exact hsame state
  | crlf => exact hsame state

/-! ## Every script -/

/-- A newly opened file is at the start of its text, or at the end to append. -/
theorem follows_new (hseekable : Seekable dec content whole) (linesep : Text) (handle : Handle)
    (fd : Fd) :
    Follows dec info content whole newline ⟨if info.append then [] else whole, []⟩ []
      (.new (.new handle fd content.length info) newline linesep : TextFile σ κ) := by
  have hsought : ∀ (pos : ℕ) (rest : Text),
      (BinaryFile.new handle fd content.length info).pos = pos →
      dec.Stands content whole pos dec.initial rest → IsEnd content whole pos rest →
      Follows dec info content whole newline ⟨rest, []⟩ []
        (.new (.new handle fd content.length info) newline linesep : TextFile σ κ) := by
    intro pos rest hpos hstands hend
    have hsought : Sought dec info content whole rest
        (.new (.new handle fd content.length info) newline linesep : TextFile σ κ)
        (.new (.new handle fd content.length info) newline linesep : TextFile σ κ) :=
      .atEnd hstands hend (Aligned.new handle fd content.length info content) hpos rfl rfl rfl rfl
        rfl id
    exact ⟨hsought.ready, hsought.placed, hsought.rest, rfl, .nil, fun _ => .nil⟩
  cases happend : info.append with
  | true =>
      exact hsought content.length [] (if_pos happend) hseekable.final (.inr ⟨rfl, rfl⟩)
  | false =>
      refine hsought 0 whole (if_neg ?_) hseekable.initial (.inl ⟨rfl, rfl⟩)
      rw [happend]
      exact Bool.false_ne_true

/-- Whatever is read, marked with `tell` and gone back to with `seek`, in any
order and with any newline setting, a text file nobody changes answers as the
cursor in its text does; none of the calls raises. -/
theorem moves_refine_cursor {codec : TextDecoder σ} (hlawful : codec.Lawful)
    (hresumable : codec.Resumable) (hflags : ∀ state, (codec.getstate state).2 < 2 ^ 63)
    (enc : Encoder κ) (newline : Newline) (linesep : Text) (handle : Handle) (fd : Fd)
    (hread : info.read = true) {text : Text} {last : σ}
    (hdecode : codec.decode codec.initial content true = .ok (text, last))
    (hbytes : content.length < 2 ^ 64) (hchars : text.length < 2 ^ 64) (ops : List CursorOp) :
    Safe fileEnv
      (fun result _ world => world = content ∧
        result = .ok (Cursor.run newline (translated newline.readtranslate text)
          ⟨if info.append then [] else translated newline.readtranslate text, []⟩ ops))
      (TextFile.moveAll (makeDecoder codec newline) enc [] ops)
      (.new (.new handle fd content.length info) newline linesep :
        TextFile (DecoderState σ newline) κ) content := by
  have hseekable : Seekable (makeDecoder codec newline) content
      (translated newline.readtranslate text) :=
    { lawful := makeDecoder_lawful hlawful newline
      resumable := makeDecoder_resumable hresumable newline
      flags := makeDecoder_flags hflags newline
      bytes := hbytes
      chars := (length_translated_le _ _).trans_lt hchars
      decodes := makeDecoder_whole hdecode newline }
  exact Prog.wp_safe _ (wp_moveAll hseekable hread (follows_new hseekable linesep handle fd) ops)

/-- `latin-1` writes the characters it has. -/
def latin1Encoder : Encoder Unit where
  initial := ()
  encode _ text :=
    (if text.all (· < 256) then .ok (text.map UInt8.ofNat)
      else .error (.valueError "ordinal not in range(256)"), ())
  setstate _ := ()

theorem latin1_resumable : latin1.Resumable where
  fresh := rfl
  cleared _ := rfl
  recent _ _ _ _ _ := List.nil_suffix
  silent state next piece text hdecode hheld := by
    have hnil : [] = piece := hheld
    obtain ⟨rfl, -⟩ := Prod.mk.inj (Except.ok.inj hdecode)
    rw [← hnil]
    rfl
  flushed _ _ _ _ _ := rfl
  empty := ⟨(), rfl⟩
  idle := ⟨(), rfl⟩

/-- Of `"a\r\nb"` the `"a"`, a mark behind it, the rest of the line, and all
from the mark on; then the end, and the first line again. -/
theorem moves_refine_cursor_latin1 :
    Safe fileEnv
      (fun result _ world => world = [97, 13, 10, 98] ∧
        result = .ok [some [97], none, some [10], none, some [10, 98], none, none,
          some [97, 10]])
      (TextFile.moveAll (makeDecoder latin1 .none) latin1Encoder []
        [.read (some 1), .tell, .readline none, .restore 0, .read none, .toEnd, .rewind,
          .readline none])
      (.new (.new 1 3 4 ⟨true, false, false, false, false, false, true⟩) .none [lf] :
        TextFile (Unit × Bool) Unit) [97, 13, 10, 98] := by
  have htext : translated Newline.none.readtranslate [97, 13, 10, 98] = [97, 10, 98] := by
    simp [translated, Newline.readtranslate, translateNewlines, cr, lf]
  have hrun : Cursor.run .none [97, 10, 98] ⟨[97, 10, 98], []⟩
      [.read (some 1), .tell, .readline none, .restore 0, .read none, .toEnd, .rewind,
        .readline none] =
      [some [97], none, some [10], none, some [10, 98], none, none, some [97, 10]] := by decide
  have hmoves := @moves_refine_cursor Unit Unit
    ⟨true, false, false, false, false, false, true⟩ [97, 13, 10, 98] latin1 latin1_lawful
    latin1_resumable (fun _ => Nat.two_pow_pos 63) latin1Encoder .none [lf] 1 3
    rfl [97, 13, 10, 98] () rfl (by decide) (by decide)
    [.read (some 1), .tell, .readline none, .restore 0, .read none, .toEnd, .rewind,
      .readline none]
  rw [htext] at hmoves
  rw [← hrun]
  exact hmoves

end Turbofile.Text
