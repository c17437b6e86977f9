import Mathlib

/-!
# Incremental decoders

A decoder turns bytes into text piece by piece.  What it keeps between two
pieces is its state, which can be saved and restored.  The laws below say that
pieces add up and that a saved state can be rebuilt from its flags and its held
bytes.  The universal-newline decoder wraps another one; it inherits the laws.
-/

namespace Turbofile.Codecs

/-- Text as its code points. -/
abbrev Text := List ℕ

def lf : ℕ := 10
def cr : ℕ := 13

/-- `decode` takes a piece and whether it is the last one. -/
structure Decoder (σ β ε : Type*) where
  initial : σ
  decode : σ → List β → Bool → Except ε (Text × σ)
  getstate : σ → List β × ℕ
  setstate : List β × ℕ → σ

namespace Decoder

variable {σ β ε : Type*}

structure Lawful (dec : Decoder σ β ε) : Prop where
  /-- Pieces add up, and a text that decodes in one piece does in two. -/
  split : ∀ (state last : σ) (front back : List β) (final : Bool) (text : Text),
    dec.decode state (front ++ back) final = .ok (text, last) ↔
      ∃ head next tail, dec.decode state front false = .ok (head, next) ∧
        dec.decode next back final = .ok (tail, last) ∧ text = head ++ tail
  restore : ∀ state, dec.setstate (dec.getstate state) = state
  /-- The held bytes, fed to the flags alone, give the state and no text. -/
  rebuild : ∀ state, dec.decode (dec.setstate ([], (dec.getstate state).2))
    (dec.getstate state).1 false = .ok ([], state)
  /-- After its last piece a decoder has nothing left to give. -/
  ended : ∀ (state last : σ) (piece : List β) (text : Text),
    dec.decode state piece true = .ok (text, last) → dec.decode last [] true = .ok ([], last)

variable {dec : Decoder σ β ε}

/-- An empty piece changes nothing. -/
theorem Lawful.decode_nil (hlawful : dec.Lawful) (state : σ) :
    dec.decode state [] false = .ok ([], state) := by
  have hrebuild := hlawful.rebuild state
  rw [← List.append_nil (dec.getstate state).1] at hrebuild
  obtain ⟨head, next, tail, hhead, htail, hnil⟩ := (hlawful.split ..).mp hrebuild
  have hsame := hhead.symm.trans (hlawful.rebuild state)
  obtain ⟨-, rfl⟩ := Prod.mk.inj (Except.ok.inj hsame)
  obtain ⟨-, rfl⟩ := List.append_eq_nil_iff.mp hnil.symm
  exact htail

end Decoder

/-! ## Universal newlines -/

/-- `"\r\n"` and then `"\r"` replaced by `"\n"`. -/
def translateNewlines : Text → Text
  | [] => []
  | char :: text =>
      if char = cr then
        match text with
        | [] => [lf]
        | next :: rest =>
            if next = lf then lf :: translateNewlines rest
            else lf :: translateNewlines (next :: rest)
      else char :: translateNewlines text

/-- A `"\r"` that was kept back. -/
def held (pendingcr : Bool) : Text := if pendingcr then [cr] else []

/-- What `IncrementalNewlineDecoder` makes of the text of one piece: a last
`"\r"` is kept back until it is known whether a `"\n"` follows. -/
def keepBack (pendingcr : Bool) (output : Text) (final : Bool) : Text × Bool :=
  let text := held pendingcr ++ output
  if text.getLast? = some cr ∧ final = false then (text.dropLast, true) else (text, false)

def translated (translate : Bool) (text : Text) : Text :=
  if translate then translateNewlines text else text

/-- `IncrementalNewlineDecoder` around a decoder. -/
def Decoder.newlines {σ β ε : Type*} (translate : Bool) (dec : Decoder σ β ε) :
    Decoder (σ × Bool) β ε where
  initial := (dec.initial, false)
  decode state piece final :=
    match dec.decode state.1 piece final with
    | .error error => .error error
    | .ok (output, next) =>
        let (text, pendingcr) := keepBack state.2 output final
        .ok (translated translate text, (next, pendingcr))
  getstate state :=
    let (held, flags) := dec.getstate state.1
    (held, 2 * flags + state.2.toNat)
  setstate state := (dec.setstate (state.1, state.2 / 2), state.2 % 2 == 1)

theorem getLast?_of_tail {char last : ℕ} {text : Text} (hlast : text.getLast? = some last) :
    (char :: text).getLast? = some last := by
  rw [List.getLast?_cons, hlast, Option.getD_some]

theorem translateNewlines_cons {char : ℕ} (hchar : char ≠ cr) (text : Text) :
    translateNewlines (char :: text) = char :: translateNewlines text := by
  cases text <;> simp [translateNewlines, hchar]

theorem translateNewlines_append {front back : Text}
    (hbetween : front.getLast? = some cr → back.head? ≠ some lf) :
    translateNewlines (front ++ back) = translateNewlines front ++ translateNewlines back := by
  induction front using translateNewlines.induct with
  | case1 => rfl
  | case2 =>
      cases back with
      | nil => simp [translateNewlines]
      | cons next back =>
          have hnext : next ≠ lf := by simpa using hbetween
          simp [translateNewlines, hnext]
  | case3 rest ih =>
      have hrest := ih fun hlast => hbetween (getLast?_of_tail (getLast?_of_tail hlast))
      simp [translateNewlines, hrest]
  | case4 next rest hnext ih =>
      have hrest := ih fun hlast => hbetween (getLast?_of_tail hlast)
      simpa [translateNewlines, hnext] using hrest
  | case5 char text hchar ih =>
      have hrest := ih fun hlast => hbetween (getLast?_of_tail hlast)
      rw [List.cons_append, translateNewlines_cons hchar, translateNewlines_cons hchar, hrest]
      rfl

theorem keepBack_final (pendingcr : Bool) (output : Text) :
    keepBack pendingcr output true = (held pendingcr ++ output, false) := by
  simp [keepBack]

/-- Nothing is lost: what is given and what is kept back make up the text. -/
theorem keepBack_held (pendingcr : Bool) (output : Text) :
    (keepBack pendingcr output false).1 ++ held (keepBack pendingcr output false).2 =
      held pendingcr ++ output := by
  simp only [keepBack, and_true]
  split_ifs with hlast
  · simp only [held, if_true]
    exact List.dropLast_append_getLast? cr hlast
  · simp [held]

theorem keepBack_last (pendingcr : Bool) (output : Text) :
    (keepBack pendingcr output false).2 = true ↔
      (held pendingcr ++ output).getLast? = some cr := by
  simp only [keepBack, and_true]
  split_ifs with hlast
  · exact ⟨fun _ => hlast, fun _ => rfl⟩
  · exact ⟨fun hfalse => (by cases hfalse), fun htrue => absurd htrue hlast⟩

/-- Two pieces in a row, and the two together. -/
theorem keepBack_append (pendingcr : Bool) (front back : Text) (final : Bool) :
    keepBack pendingcr (front ++ back) final =
      ((keepBack pendingcr front false).1 ++
          (keepBack (keepBack pendingcr front false).2 back final).1,
        (keepBack (keepBack pendingcr front false).2 back final).2) := by
  have hheld := keepBack_held pendingcr front
  have hlast := keepBack_last pendingcr front
  generalize keepBack pendingcr front false = pair at hheld hlast ⊢
  obtain ⟨given, kept⟩ := pair
  have hjoin : held pendingcr ++ (front ++ back) = given ++ (held kept ++ back) := by
    rw [← List.append_assoc, ← hheld, List.append_assoc]
  simp only [keepBack, hjoin]
  by_cases hnil : held kept ++ back = []
  · -- With nothing kept and nothing new the last character is not a "\r".
    have hgiven : given.getLast? ≠ some cr := by
      obtain ⟨hkept, -⟩ := List.append_eq_nil_iff.mp hnil
      rw [← hheld, hkept, List.append_nil] at hlast
      cases kept with
      | true => cases hkept
      | false => exact fun hcr => Bool.false_ne_true (hlast.mpr hcr)
    simp [hnil, hgiven]
  · rw [List.getLast?_append_of_ne_nil _ hnil, List.dropLast_append_of_ne_nil hnil]
    split_ifs <;> rfl

theorem translated_append (translate : Bool) {front back : Text}
    (hbetween : front.getLast? = some cr → back.head? ≠ some lf) :
    translated translate (front ++ back) =
      translated translate front ++ translated translate back := by
  cases translate with
  | true => exact translateNewlines_append hbetween
  | false => rfl

/-- The pieces of a text are cut where translation does not see across. -/
theorem keepBack_between (pendingcr : Bool) (front back : Text) (final : Bool) :
    (keepBack pendingcr front false).1.getLast? = some cr →
      (keepBack (keepBack pendingcr front false).2 back final).1.head? ≠ some lf := by
  intro hcr
  have hheld := keepBack_held pendingcr front
  have hlast := keepBack_last pendingcr front
  generalize keepBack pendingcr front false = pair at hheld hlast hcr ⊢
  obtain ⟨given, kept⟩ := pair
  cases kept with
  | false =>
      rw [held, if_neg Bool.false_ne_true, List.append_nil] at hheld
      rw [← hheld] at hlast
      exact absurd (hlast.mpr hcr) Bool.false_ne_true
  | true =>
      simp only [keepBack, held, if_true, List.singleton_append]
      split_ifs
      · cases back with
        | nil => simp
        | cons next back => simp [cr, lf]
      · simp [cr, lf]

theorem Decoder.newlines_decode {σ β ε : Type*} (translate : Bool) (dec : Decoder σ β ε)
    (state last : σ × Bool) (piece : List β) (final : Bool) (text : Text) :
    (dec.newlines translate).decode state piece final = .ok (text, last) ↔
      ∃ output, dec.decode state.1 piece final = .ok (output, last.1) ∧
        text = translated translate (keepBack state.2 output final).1 ∧
        last.2 = (keepBack state.2 output final).2 := by
  simp only [Decoder.newlines]
  cases hdecode : dec.decode state.1 piece final with
  | error error => simp
  | ok result =>
      obtain ⟨output, next⟩ := result
      obtain ⟨inner, pendingcr⟩ := last
      simp only [Except.ok.injEq, Prod.mk.injEq]
      constructor
      · rintro ⟨rfl, rfl, rfl⟩
        exact ⟨output, ⟨rfl, rfl⟩, rfl, rfl⟩
      · rintro ⟨_, ⟨rfl, rfl⟩, rfl, rfl⟩
        exact ⟨rfl, rfl, rfl⟩

theorem flags_half (flags : ℕ) (pendingcr : Bool) :
    (2 * flags + pendingcr.toNat) / 2 = flags := by
  have hle := Bool.toNat_le pendingcr
  omega

theorem flags_bit (flags : ℕ) (pendingcr : Bool) :
    ((2 * flags + pendingcr.toNat) % 2 == 1) = pendingcr := by
  cases pendingcr <;> simp

/-- The wrapped decoder inherits the laws. -/
theorem Decoder.Lawful.newlines {σ β ε : Type*} {dec : Decoder σ β ε} (hlawful : dec.Lawful)
    (translate : Bool) : (dec.newlines translate).Lawful where
  split state last front back final text := by
    simp only [Decoder.newlines_decode]
    constructor
    · rintro ⟨output, hdecode, rfl, hlast⟩
      obtain ⟨head, next, tail, hhead, htail, rfl⟩ := (hlawful.split ..).mp hdecode
      have hjoin := keepBack_append state.2 head tail final
      have hbetween := keepBack_between state.2 head tail final
      refine ⟨_, (next, (keepBack state.2 head false).2), _, ⟨head, hhead, rfl, rfl⟩,
        ⟨tail, htail, rfl, ?_⟩, ?_⟩
      · rw [hlast, hjoin]
      · rw [hjoin, translated_append translate hbetween]
    · rintro ⟨_, next, _, ⟨head, hhead, rfl, hnext⟩, ⟨tail, htail, rfl, hlast⟩, rfl⟩
      have hjoin := keepBack_append state.2 head tail final
      have hbetween := keepBack_between state.2 head tail final
      rw [hnext] at hlast ⊢
      refine ⟨head ++ tail, (hlawful.split ..).mpr ⟨head, next.1, tail, hhead, htail, rfl⟩, ?_, ?_⟩
      · rw [hjoin, translated_append translate hbetween]
      · rw [hlast, hjoin]
  restore state := by
    obtain ⟨inner, pendingcr⟩ := state
    simp only [Decoder.newlines, flags_half, flags_bit, hlawful.restore]
  rebuild state := by
    obtain ⟨inner, pendingcr⟩ := state
    rw [Decoder.newlines_decode]
    simp only [Decoder.newlines, flags_half, flags_bit]
    refine ⟨[], hlawful.rebuild inner, ?_, ?_⟩
    · cases pendingcr <;> cases translate <;> rfl
    · cases pendingcr <;> rfl
  ended state last piece text hdecode := by
    rw [Decoder.newlines_decode] at hdecode ⊢
    obtain ⟨output, hdecode, -, hlast⟩ := hdecode
    rw [keepBack_final] at hlast
    refine ⟨[], hlawful.ended _ _ _ _ hdecode, ?_, ?_⟩
    · cases translate <;> simp [hlast, keepBack_final, held, translated, translateNewlines]
    · rw [hlast, keepBack_final]

/-- In one piece the wrapped decoder translates the text of the other. -/
theorem Decoder.newlines_whole {σ β ε : Type*} (translate : Bool) (dec : Decoder σ β ε)
    {content : List β} {text : Text} {last : σ}
    (hdecode : dec.decode dec.initial content true = .ok (text, last)) :
    (dec.newlines translate).decode (dec.newlines translate).initial content true =
      .ok (translated translate text, (last, false)) := by
  rw [Decoder.newlines_decode]
  refine ⟨text, hdecode, ?_, ?_⟩
  · rw [keepBack_final]
    rfl
  · rw [keepBack_final]

end Turbofile.Codecs
