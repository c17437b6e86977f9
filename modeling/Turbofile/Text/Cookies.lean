import Turbofile.Binary.Environment
import Turbofile.Library.Resuming
import Turbofile.Text.TextFile

/-!
# Cookies

A cookie packs where a decoder was clean and how to get from there to a place in
the text: the bytes to feed and the characters to skip.  What `tell` packs,
`seek` unpacks, and the walk of `tell` ends with a cookie whose replay succeeds.
-/

namespace Turbofile.Text

open Turbofile.Core
open Turbofile.Binary
open Turbofile.Codecs

/-! ## Packing -/

/-- Each field fits in its 64 bits. -/
structure Cookie.Fits (cookie : Cookie) : Prop where
  position : cookie.position < 2 ^ 64
  decFlags : cookie.decFlags < 2 ^ 64
  bytesToFeed : cookie.bytesToFeed < 2 ^ 64
  charsToSkip : cookie.charsToSkip < 2 ^ 64

theorem or_shiftLeft {low : ℕ} (high : ℕ) {bits : ℕ} (hlow : low < 2 ^ bits) :
    low ||| high <<< bits = low + high * 2 ^ bits := by
  rw [Nat.or_comm, ← Nat.shiftLeft_add_eq_or_of_lt hlow, Nat.shiftLeft_eq, Nat.add_comm]

theorem packCookie_eq {cookie : Cookie} (hfits : cookie.Fits) :
    packCookie cookie = cookie.position + cookie.decFlags * 2 ^ 64 +
      cookie.bytesToFeed * 2 ^ 128 + cookie.charsToSkip * 2 ^ 192 +
      cookie.needEof.toNat * 2 ^ 256 := by
  obtain ⟨hposition, hflags, hbytes, hchars⟩ := hfits
  rw [packCookie, or_shiftLeft cookie.decFlags hposition,
    or_shiftLeft cookie.bytesToFeed (by omega), or_shiftLeft cookie.charsToSkip (by omega),
    or_shiftLeft cookie.needEof.toNat (by omega)]

/-- `seek` unpacks what `tell` packed. -/
theorem unpackCookie_packCookie {cookie : Cookie} (hfits : cookie.Fits) :
    unpackCookie (packCookie cookie) = cookie := by
  rw [packCookie_eq hfits]
  obtain ⟨position, decFlags, bytesToFeed, needEof, charsToSkip⟩ := cookie
  obtain ⟨hposition, hflags, hbytes, hchars⟩ := hfits
  have heof := Bool.toNat_le needEof
  simp only at hposition hflags hbytes hchars ⊢
  have hrest : (position + decFlags * 2 ^ 64 + bytesToFeed * 2 ^ 128 + charsToSkip * 2 ^ 192 +
      needEof.toNat * 2 ^ 256) / 2 ^ 64 =
      decFlags + bytesToFeed * 2 ^ 64 + charsToSkip * 2 ^ 128 + needEof.toNat * 2 ^ 192 := by
    omega
  have hbytesOn : (decFlags + bytesToFeed * 2 ^ 64 + charsToSkip * 2 ^ 128 +
      needEof.toNat * 2 ^ 192) / 2 ^ 64 =
      bytesToFeed + charsToSkip * 2 ^ 64 + needEof.toNat * 2 ^ 128 := by
    omega
  have hcharsOn : (bytesToFeed + charsToSkip * 2 ^ 64 + needEof.toNat * 2 ^ 128) / 2 ^ 64 =
      charsToSkip + needEof.toNat * 2 ^ 64 := by
    omega
  have heofOn : (charsToSkip + needEof.toNat * 2 ^ 64) / 2 ^ 64 = needEof.toNat := by omega
  rw [unpackCookie, hrest, hbytesOn, hcharsOn, heofOn, Cookie.mk.injEq]
  refine ⟨by omega, by omega, by omega, ?_, by omega⟩
  cases needEof <;> rfl

/-- A position without decoder state is its own cookie. -/
theorem unpackCookie_position {position : ℕ} (hposition : position < 2 ^ 64) :
    unpackCookie position = { position := position } := by
  have hzero : 0 < 2 ^ 64 := Nat.two_pow_pos 64
  have hfits : Cookie.Fits { position := position } := ⟨hposition, hzero, hzero, hzero⟩
  have hpacked : packCookie { position := position } = position := by
    rw [packCookie_eq hfits]
    simp
  conv_lhs => rw [← hpacked]
  exact unpackCookie_packCookie hfits

/-! ## What a cookie stands for -/

section Cookies

variable {σ : Type}

/-- The bytes that a cookie feeds decode again, to at least what it skips. -/
structure Replays (dec : TextDecoder σ) (content : Bytes) (cookie : Cookie) : Prop where
  within : cookie.position + cookie.bytesToFeed ≤ content.length
  ends : cookie.needEof = true → cookie.position + cookie.bytesToFeed = content.length
  decodes : ∃ decoded next, dec.decode (dec.setstate ([], cookie.decFlags))
      (slice content cookie.position cookie.bytesToFeed) cookie.needEof = .ok (decoded, next) ∧
    cookie.charsToSkip ≤ decoded.length

/-- The two ends of a text, whose cookies are plain positions. -/
def IsEnd (content : Bytes) (whole : Text) (packed : ℕ) (rest : Text) : Prop :=
  packed = 0 ∧ rest = whole ∨ packed = content.length ∧ rest = []

/-- The cookie stands for the place in the text with `rest` behind it. -/
inductive Marks (dec : TextDecoder σ) (content : Bytes) (whole : Text) : ℕ → Text → Prop
  | ends {packed : ℕ} {rest : Text} (hend : IsEnd content whole packed rest) :
      Marks dec content whole packed rest
  | resumes {cookie : Cookie} {text : Text} (hfits : cookie.Fits)
      (hstands : dec.Stands content whole cookie.position (dec.setstate ([], cookie.decFlags)) text)
      (hreplays : cookie.charsToSkip ≠ 0 → Replays dec content cookie) :
      Marks dec content whole (packCookie cookie) (text.drop cookie.charsToSkip)

/-! ## The walk of `tell` -/

/-- The walk has some bytes before it: from its start on it can be replayed, and
what is behind the characters it still skips is `rest`. -/
structure Walking (dec : TextDecoder σ) (content : Bytes) (whole rest : Text) (final : Bool)
    (walk : Walk σ) (bytes : Bytes) : Prop where
  start : ∃ text, dec.Stands content whole walk.startPos
    (dec.setstate ([], walk.startFlags)) text ∧ text.drop walk.charsToSkip = rest
  fed : ∃ text, dec.decode (dec.setstate ([], walk.startFlags))
      (slice content walk.startPos walk.bytesFed) false = .ok (text, walk.state) ∧
    text.length = walk.charsDecoded
  before : bytes <+: content.drop (walk.startPos + walk.bytesFed)
  within : walk.startPos + walk.bytesFed + bytes.length ≤ content.length
  ends : final = true → walk.startPos + walk.bytesFed + bytes.length = content.length
  enough : ∃ text last, dec.decode walk.state bytes final = .ok (text, last) ∧
    walk.charsToSkip ≤ walk.charsDecoded + text.length
  flags : walk.startFlags < 2 ^ 64
  skips : walk.charsToSkip < 2 ^ 64

variable {dec : TextDecoder σ} {content : Bytes} {whole rest : Text} {final : Bool}
  {walk : Walk σ} {byte : Byte} {bytes : Bytes}

/-- The bytes fed so far and the next one. -/
theorem slice_succ (hbefore : byte :: bytes <+: content.drop (walk.startPos + walk.bytesFed)) :
    slice content walk.startPos (walk.bytesFed + 1) =
      slice content walk.startPos walk.bytesFed ++ [byte] := by
  obtain ⟨behind, hbehind⟩ := hbefore
  rw [slice_add]
  congr 1
  rw [slice, ← hbehind]
  rfl

/-- One byte keeps the walk; where the decoder is clean it can start anew. -/
theorem Walking.feed (hlawful : dec.Lawful) (hresumable : dec.Resumable)
    (hflags : ∀ state, (dec.getstate state).2 < 2 ^ 64)
    (hwalking : Walking dec content whole rest final walk (byte :: bytes)) :
    ∃ text next, dec.decode walk.state [byte] false = .ok (text, next) ∧
      Walking dec content whole rest final (walk.feed dec text next) bytes := by
  obtain ⟨⟨ahead, hstands, hrest⟩, ⟨fed, hfed, hlength⟩, hbefore, hwithin, hends,
    ⟨back, last, hback, henough⟩, hsmall, hskips⟩ := hwalking
  obtain ⟨text, next, tail, htext, htail, rfl⟩ := (hlawful.split walk.state last [byte] ..).mp hback
  refine ⟨text, next, htext, ?_⟩
  have hslice := slice_succ hbefore
  have hjoined : dec.decode (dec.setstate ([], walk.startFlags))
      (slice content walk.startPos (walk.bytesFed + 1)) false = .ok (fed ++ text, next) := by
    rw [hslice, hlawful.split]
    exact ⟨fed, walk.state, text, hfed, htext, rfl⟩
  have hbehind : bytes <+: content.drop (walk.startPos + (walk.bytesFed + 1)) := by
    obtain ⟨behind, hbehind⟩ := hbefore
    rw [← Nat.add_assoc, ← List.drop_drop, ← hbehind]
    exact List.prefix_append bytes behind
  rw [List.length_cons] at hwithin hends
  rw [List.length_append] at henough
  simp only [Walk.feed]
  split
  · next hclean =>
      obtain ⟨hheld, hle⟩ := hclean
      have hcount : (slice content walk.startPos (walk.bytesFed + 1)).length =
          walk.bytesFed + 1 := by
        rw [length_slice]
        omega
      obtain ⟨given, state, later, hgiven, rfl, hlater⟩ :=
        hstands.feed hlawful hresumable (slice_leading _ _ (walk.bytesFed + 1))
      obtain ⟨rfl, rfl⟩ := Prod.mk.inj (Except.ok.inj (hjoined.symm.trans hgiven))
      have hskip : (fed ++ text).length ≤ walk.charsToSkip := by
        rw [List.length_append, hlength]
        exact hle
      have hstate : dec.setstate ([], (dec.getstate next).2) = next := by
        have hrestore := hlawful.restore next
        rwa [← List.isEmpty_iff.mp hheld]
      rw [hcount] at hlater
      exact
        { start := by
            refine ⟨later, by rwa [hstate], ?_⟩
            rw [← hrest, List.drop_append, List.drop_eq_nil_of_le hskip, List.nil_append,
              List.length_append, hlength]
          fed := by
            rw [hstate]
            exact ⟨[], hlawful.decode_nil next, rfl⟩
          before := hbehind
          within := by
            change walk.startPos + (walk.bytesFed + 1) + 0 + bytes.length ≤ content.length
            omega
          ends := fun heof => by
            have hend := hends heof
            change walk.startPos + (walk.bytesFed + 1) + 0 + bytes.length = content.length
            omega
          enough := ⟨tail, last, htail, by
            change walk.charsToSkip - (walk.charsDecoded + text.length) ≤ 0 + tail.length
            omega⟩
          flags := hflags next
          skips := (Nat.sub_le _ _).trans_lt hskips }
  · exact
      { start := ⟨ahead, hstands, hrest⟩
        fed := ⟨fed ++ text, hjoined, by rw [List.length_append, hlength]⟩
        before := hbehind
        within := by
          change walk.startPos + (walk.bytesFed + 1) + bytes.length ≤ content.length
          omega
        ends := fun heof => by
          have hend := hends heof
          change walk.startPos + (walk.bytesFed + 1) + bytes.length = content.length
          omega
        enough := ⟨tail, last, htail, by
          change walk.charsToSkip ≤ walk.charsDecoded + text.length + tail.length
          omega⟩
        flags := hsmall
        skips := hskips }

/-- The loop ends behind its characters, or before them at the end of the bytes. -/
theorem Walking.run (hlawful : dec.Lawful) (hresumable : dec.Resumable)
    (hflags : ∀ state, (dec.getstate state).2 < 2 ^ 64)
    (hwalking : Walking dec content whole rest final walk bytes)
    (hopen : walk.charsDecoded < walk.charsToSkip) :
    ∃ walk' broke, walk.run dec bytes = .ok (walk', broke) ∧
      (broke = true → walk'.charsToSkip ≤ walk'.charsDecoded ∧
        ∃ bytes', Walking dec content whole rest final walk' bytes') ∧
      (broke = false → walk'.charsDecoded < walk'.charsToSkip ∧
        Walking dec content whole rest final walk' []) := by
  induction bytes generalizing walk with
  | nil => exact ⟨walk, false, rfl, fun htrue => (by cases htrue), fun _ => ⟨hopen, hwalking⟩⟩
  | cons byte bytes ih =>
      obtain ⟨text, next, hdecode, hfed⟩ := hwalking.feed hlawful hresumable hflags
      simp only [Walk.run, hdecode]
      split
      · next hbreak =>
          exact ⟨_, true, rfl, fun _ => ⟨hbreak, bytes, hfed⟩, fun hfalse => (by cases hfalse)⟩
      · next hgoes => exact ih hfed (Nat.lt_of_not_le hgoes)

/-- The walk ends with a cookie for the place. -/
theorem Walking.cookie (hlawful : dec.Lawful) (hresumable : dec.Resumable)
    (hflags : ∀ state, (dec.getstate state).2 < 2 ^ 64) (hlength : content.length < 2 ^ 64)
    (hwalking : Walking dec content whole rest final walk bytes)
    (hopen : walk.charsDecoded < walk.charsToSkip) :
    ∃ cookie, walk.cookie dec bytes = .ok cookie ∧
      Marks dec content whole (packCookie cookie) rest := by
  obtain ⟨last, broke, hrun, hbroke, hended⟩ := hwalking.run hlawful hresumable hflags hopen
  simp only [Walk.cookie, hrun]
  cases broke with
  | true =>
      obtain ⟨hbreak, behind, ⟨ahead, hstands, rfl⟩, ⟨fed, hfed, hcount⟩, -, hwithin, -, -, hsmall,
        hskips⟩ := hbroke rfl
      have hfits : Cookie.Fits ⟨last.startPos, last.startFlags, last.bytesFed, false,
          last.charsToSkip⟩ :=
        ⟨by simp only; omega, hsmall, by simp only; omega, hskips⟩
      refine ⟨_, rfl, .resumes hfits hstands fun _ => ⟨?_, fun hfalse => (by cases hfalse), ?_⟩⟩
      · simp only
        omega
      · exact ⟨fed, last.state, hfed, hcount.symm ▸ hbreak⟩
  | false =>
      obtain ⟨hopen, ⟨ahead, hstands, rfl⟩, ⟨fed, hfed, hcount⟩, -, hwithin, hends,
        ⟨tail, state, htail, henough⟩, hsmall, hskips⟩ := hended rfl
      rw [List.length_nil] at hwithin hends
      have hfits : Cookie.Fits ⟨last.startPos, last.startFlags, last.bytesFed, true,
          last.charsToSkip⟩ :=
        ⟨by simp only; omega, hsmall, by simp only; omega, hskips⟩
      cases final with
      | false =>
          -- Without an end of the input all of the chunk has been decoded.
          obtain ⟨rfl, -⟩ :=
            Prod.mk.inj (Except.ok.inj (htail.symm.trans (hlawful.decode_nil last.state)))
          rw [List.length_nil] at henough
          omega
      | true =>
          simp only [htail]
          rw [if_neg (Nat.not_lt.mpr henough)]
          refine ⟨_, rfl, .resumes hfits hstands fun _ => ⟨hwithin, hends, ?_⟩⟩
          refine ⟨fed ++ tail, state, ?_, ?_⟩
          · conv_lhs => rw [← List.append_nil (slice content last.startPos last.bytesFed)]
            rw [hlawful.split]
            exact ⟨fed, last.state, tail, hfed, htail, rfl⟩
          · rw [List.length_append, hcount]
            exact henough

end Cookies

end Turbofile.Text
