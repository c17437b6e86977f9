import Turbofile.Library.Decoder

/-!
# Decoders that resume

A decoder that reads some bytes from their start has text ahead of it wherever
it stands.  What it holds are the last bytes it read and has not decoded yet, so
a decoder made from its flags alone, those bytes further back, has the same text
ahead.
-/

namespace Turbofile.Codecs

namespace Decoder

variable {σ β ε : Type*}

/-- What the held bytes of a decoder are. -/
structure Resumable (dec : Decoder σ β ε) : Prop where
  fresh : (dec.getstate dec.initial).1 = []
  cleared : ∀ flags, (dec.getstate (dec.setstate ([], flags))).1 = []
  /-- The end of the input. -/
  recent : ∀ (state next : σ) (piece : List β) (text : Text),
    dec.decode state piece false = .ok (text, next) →
      (dec.getstate next).1 <:+ (dec.getstate state).1 ++ piece
  /-- While all of the input is held there is no text. -/
  silent : ∀ (state next : σ) (piece : List β) (text : Text),
    dec.decode state piece false = .ok (text, next) →
      (dec.getstate next).1 = (dec.getstate state).1 ++ piece → text = []
  /-- Nothing is held behind the last piece. -/
  flushed : ∀ (state last : σ) (piece : List β) (text : Text),
    dec.decode state piece true = .ok (text, last) → (dec.getstate last).1 = []
  /-- Without input there is no text, from the start or from the flags 0. -/
  empty : ∃ last, dec.decode dec.initial [] true = .ok ([], last)
  idle : ∃ last, dec.decode (dec.setstate ([], 0)) [] true = .ok ([], last)

/-- The decoder for universal newlines inherits the laws: a `"\r"` it keeps back
is in its flags. -/
theorem Resumable.newlines {dec : Decoder σ β ε} (hresumable : dec.Resumable) (translate : Bool) :
    (dec.newlines translate).Resumable where
  fresh := hresumable.fresh
  cleared flags := hresumable.cleared (flags / 2)
  recent state next piece text hdecode := by
    obtain ⟨output, hinner, -, -⟩ := (newlines_decode ..).mp hdecode
    exact hresumable.recent _ _ _ _ hinner
  silent state next piece text hdecode hheld := by
    obtain ⟨output, hinner, rfl, -⟩ := (newlines_decode ..).mp hdecode
    obtain rfl := hresumable.silent _ _ _ _ hinner hheld
    cases state.2 <;> cases translate <;> rfl
  flushed state last piece text hdecode := by
    obtain ⟨output, hinner, -, -⟩ := (newlines_decode ..).mp hdecode
    exact hresumable.flushed _ _ _ _ hinner
  empty := by
    obtain ⟨last, hempty⟩ := hresumable.empty
    refine ⟨(last, false), (newlines_decode ..).mpr ⟨[], hempty, ?_, rfl⟩⟩
    cases translate <;> rfl
  idle := by
    obtain ⟨last, hidle⟩ := hresumable.idle
    have hcleared : (dec.newlines translate).setstate ([], 0) = (dec.setstate ([], 0), false) := by
      simp [Decoder.newlines]
    rw [hcleared]
    refine ⟨(last, false), (newlines_decode ..).mpr ⟨[], hidle, ?_, rfl⟩⟩
    cases translate <;> rfl

/-! ## Where a decoder stands -/

/-- The decoder has read the bytes up to `pos`, and `rest` is the part of the
whole text that it has not given. -/
structure Stands (dec : Decoder σ β ε) (bytes : List β) (whole : Text) (pos : ℕ) (state : σ)
    (rest : Text) : Prop where
  within : pos ≤ bytes.length
  held : (dec.getstate state).1 <:+ bytes.take pos
  decodes : ∃ last, dec.decode state (bytes.drop pos) true = .ok (rest, last)
  suffix : rest <:+ whole
  /-- Nothing was given of bytes that are all held. -/
  first : (dec.getstate state).1.length = pos → rest = whole

variable {dec : Decoder σ β ε} {bytes : List β} {whole rest : Text} {pos : ℕ} {state : σ}

theorem Stands.initial (hresumable : dec.Resumable) {last : σ}
    (hwhole : dec.decode dec.initial bytes true = .ok (whole, last)) :
    dec.Stands bytes whole 0 dec.initial whole where
  within := Nat.zero_le _
  held := by
    rw [hresumable.fresh]
    exact List.nil_suffix
  decodes := ⟨last, hwhole⟩
  suffix := List.suffix_rfl
  first := fun _ => rfl

/-- A decoder that holds nothing and has no text for no bytes, at the end. -/
theorem Stands.last (hresumable : dec.Resumable) {final : σ}
    (hwhole : dec.decode dec.initial bytes true = .ok (whole, final))
    (hheld : (dec.getstate state).1 = [])
    (hidle : ∃ last, dec.decode state [] true = .ok ([], last)) :
    dec.Stands bytes whole bytes.length state [] where
  within := le_rfl
  held := by
    rw [hheld]
    exact List.nil_suffix
  decodes := by
    rw [List.drop_length]
    exact hidle
  suffix := List.nil_suffix
  first := by
    intro hlength
    rw [hheld] at hlength
    obtain rfl := List.length_eq_zero_iff.mp hlength.symm
    obtain ⟨last, hempty⟩ := hresumable.empty
    exact (Prod.mk.inj (Except.ok.inj (hempty.symm.trans hwhole))).1

/-- A piece that has been read is a part of what the decoder stands behind. -/
theorem take_append_of_leading {chunk : List β} (hchunk : chunk <+: bytes.drop pos) :
    bytes.take (pos + chunk.length) = bytes.take pos ++ chunk := by
  rw [List.take_add]
  congr 1
  exact (List.prefix_iff_eq_take.mp hchunk).symm

/-- The next piece of the bytes moves the decoder behind it. -/
theorem Stands.feed (hlawful : dec.Lawful) (hresumable : dec.Resumable)
    (hstands : dec.Stands bytes whole pos state rest) {chunk : List β}
    (hchunk : chunk <+: bytes.drop pos) :
    ∃ text next later, dec.decode state chunk false = .ok (text, next) ∧ rest = text ++ later ∧
      dec.Stands bytes whole (pos + chunk.length) next later := by
  obtain ⟨behind, hbehind⟩ := hchunk
  obtain ⟨last, hdecodes⟩ := hstands.decodes
  rw [← hbehind] at hdecodes
  obtain ⟨text, next, later, htext, hlater, rfl⟩ := (hlawful.split ..).mp hdecodes
  have hlength : chunk.length + behind.length = bytes.length - pos := by
    rw [← List.length_append, hbehind, List.length_drop]
  have hwithin := hstands.within
  have hheld := hresumable.recent _ _ _ _ htext
  refine ⟨text, next, later, htext, rfl, ?_, ?_, ⟨last, ?_⟩, ?_, fun hfirst => ?_⟩
  · omega
  · rw [take_append_of_leading ⟨behind, hbehind⟩]
    exact hheld.trans ((List.suffix_append_self_iff).mpr hstands.held)
  · rw [← List.drop_drop, ← hbehind, List.drop_left]
    exact hlater
  · exact (List.suffix_append text later).trans hstands.suffix
  · -- All was held before, and all is held now.
    have hbefore := hstands.held.length_le
    have hnow := hheld.length_le
    rw [List.length_take] at hbefore
    rw [List.length_append] at hnow
    have hsame : (dec.getstate next).1 = (dec.getstate state).1 ++ chunk := by
      apply hheld.eq_of_length
      rw [List.length_append]
      omega
    have hwhole := hstands.first (by omega)
    rwa [hresumable.silent _ _ _ _ htext hsame] at hwhole

/-- The last piece leaves nothing ahead. -/
theorem Stands.finish (hlawful : dec.Lawful) (hresumable : dec.Resumable) {final : σ}
    (hwhole : dec.decode dec.initial bytes true = .ok (whole, final))
    (hstands : dec.Stands bytes whole pos state rest) :
    ∃ last, dec.decode state (bytes.drop pos) true = .ok (rest, last) ∧
      dec.Stands bytes whole bytes.length last [] := by
  obtain ⟨last, hdecodes⟩ := hstands.decodes
  exact ⟨last, hdecodes, .last hresumable hwhole (hresumable.flushed _ _ _ _ hdecodes)
    ⟨last, hlawful.ended _ _ _ _ hdecodes⟩⟩

/-- A piece, the last one only at the end of the bytes. -/
theorem Stands.decode (hlawful : dec.Lawful) (hresumable : dec.Resumable) {final : σ}
    (hwhole : dec.decode dec.initial bytes true = .ok (whole, final))
    (hstands : dec.Stands bytes whole pos state rest) {chunk : List β} {ends : Bool}
    (hchunk : chunk <+: bytes.drop pos)
    (hends : ends = true → pos + chunk.length = bytes.length) :
    ∃ text next later, dec.decode state chunk ends = .ok (text, next) ∧ rest = text ++ later ∧
      dec.Stands bytes whole (pos + chunk.length) next later := by
  cases ends with
  | false => exact hstands.feed hlawful hresumable hchunk
  | true =>
      have hlength := hends rfl
      have hall : chunk = bytes.drop pos := by
        apply hchunk.eq_of_length
        rw [List.length_drop]
        omega
      obtain ⟨last, hdecodes, hlast⟩ := hstands.finish hlawful hresumable hwhole
      rw [hlength, hall]
      exact ⟨rest, last, [], hdecodes, (List.append_nil rest).symm, hlast⟩

/-- The flags, fed the held bytes and a piece, decode it like the state itself. -/
theorem Lawful.decode_saved (hlawful : dec.Lawful) (state last : σ) (piece : List β)
    (ends : Bool) (text : Text) :
    dec.decode (dec.setstate ([], (dec.getstate state).2)) ((dec.getstate state).1 ++ piece) ends =
      .ok (text, last) ↔ dec.decode state piece ends = .ok (text, last) := by
  rw [hlawful.split]
  constructor
  · rintro ⟨head, next, tail, hhead, htail, rfl⟩
    have hsame := hhead.symm.trans (hlawful.rebuild state)
    obtain ⟨rfl, rfl⟩ := Prod.mk.inj (Except.ok.inj hsame)
    exact htail
  · exact fun hdecode => ⟨[], state, text, hlawful.rebuild state, hdecode, rfl⟩

/-- The held bytes are the last that were read. -/
theorem Stands.drop_held (hstands : dec.Stands bytes whole pos state rest) :
    bytes.drop (pos - (dec.getstate state).1.length) =
      (dec.getstate state).1 ++ bytes.drop pos := by
  obtain ⟨front, hfront⟩ := hstands.held
  have hlength : front.length = pos - (dec.getstate state).1.length := by
    have hsum := congrArg List.length hfront
    rw [List.length_append, List.length_take, min_eq_left hstands.within] at hsum
    omega
  rw [← hlength]
  conv_lhs => rw [← List.take_append_drop pos bytes, ← hfront, List.append_assoc]
  exact List.drop_left

theorem Stands.length_held (hstands : dec.Stands bytes whole pos state rest) :
    (dec.getstate state).1.length ≤ pos := by
  have hle := hstands.held.length_le
  rwa [List.length_take, min_eq_left hstands.within] at hle

/-- The flags alone, where the held bytes start. -/
theorem Stands.saved (hlawful : dec.Lawful) (hresumable : dec.Resumable)
    (hstands : dec.Stands bytes whole pos state rest) :
    dec.Stands bytes whole (pos - (dec.getstate state).1.length)
      (dec.setstate ([], (dec.getstate state).2)) rest where
  within := (Nat.sub_le _ _).trans hstands.within
  held := by
    rw [hresumable.cleared]
    exact List.nil_suffix
  decodes := by
    obtain ⟨last, hdecodes⟩ := hstands.decodes
    refine ⟨last, ?_⟩
    rw [hstands.drop_held]
    exact (hlawful.decode_saved ..).mpr hdecodes
  suffix := hstands.suffix
  first := by
    intro hzero
    rw [hresumable.cleared] at hzero
    have hle := hstands.length_held
    have hnil : 0 = pos - (dec.getstate state).1.length := hzero
    exact hstands.first (by omega)

end Decoder

end Turbofile.Codecs
