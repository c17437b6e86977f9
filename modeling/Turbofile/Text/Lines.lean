import Turbofile.Text.TextFile

/-!
# Where a line ends

`readline` searches what it has read so far and, when the line does not end
there, goes on in what comes next.  The search finds the same end in every text
that goes on in the same way, and the place it continues from misses none.
-/

namespace Turbofile.Text

open Turbofile.Codecs

/-! ## Searching -/

/-- `sub` stands at an index. -/
def At (sub text : Text) (index : ℕ) : Prop := sub <+: text.drop index

theorem At.lt {sub text : Text} {index : ℕ} (hat : At sub text index) (hne : sub ≠ []) :
    index + sub.length ≤ text.length := by
  have hle := hat.length_le
  have hpos := List.length_pos_iff.mpr hne
  rw [List.length_drop] at hle
  omega

theorem find_eq_some {sub text : Text} {start index : ℕ} (hne : sub ≠ []) :
    find sub text start = some index ↔
      At sub text index ∧ start ≤ index ∧ ∀ other, start ≤ other → other < index →
        ¬ At sub text other := by
  rw [find, List.find?_range'_eq_some]
  simp only [List.isPrefixOf_iff_prefix, List.mem_range'_1, Bool.not_eq_true',
    Bool.eq_false_iff, ne_eq]
  constructor
  · rintro ⟨hat, ⟨hle, -⟩, hfirst⟩
    exact ⟨hat, hle, hfirst⟩
  · rintro ⟨hat, hle, hfirst⟩
    have hlt := hat.lt hne
    have hpos := List.length_pos_iff.mpr hne
    exact ⟨hat, ⟨hle, by omega⟩, hfirst⟩

theorem find_eq_none {sub text : Text} {start : ℕ} (hne : sub ≠ []) :
    find sub text start = none ↔ ∀ index, start ≤ index → ¬ At sub text index := by
  rw [find, List.find?_range'_eq_none]
  simp only [Bool.not_eq_true', Bool.eq_false_iff, ne_eq, List.isPrefixOf_iff_prefix]
  constructor
  · intro hnone index hle hat
    have hlt := hat.lt hne
    have hpos := List.length_pos_iff.mpr hne
    exact hnone index hle (by omega) hat
  · exact fun hnone index hle _ => hnone index hle

theorem At.append {sub text : Text} {index : ℕ} (hat : At sub text index) (hne : sub ≠ [])
    (more : Text) : At sub (text ++ more) index := by
  have hlt := hat.lt hne
  rw [At, List.drop_append_of_le_length (by omega)]
  exact hat.trans (List.prefix_append _ _)

theorem At.of_append {sub text more : Text} {index : ℕ} (hat : At sub (text ++ more) index)
    (hle : index + sub.length ≤ text.length) : At sub text index := by
  rw [At, List.drop_append_of_le_length (by omega)] at hat
  exact List.prefix_of_prefix_length_le hat (List.prefix_append _ _)
    (by rw [List.length_drop]; omega)

/-- What is found stays where it is when the text goes on. -/
theorem find_append {sub text : Text} {index : ℕ} (hne : sub ≠ [])
    (hfind : find sub text 0 = some index) (more : Text) :
    find sub (text ++ more) 0 = some index := by
  rw [find_eq_some hne] at hfind ⊢
  obtain ⟨hat, hle, hfirst⟩ := hfind
  refine ⟨hat.append hne more, hle, fun other hother hlt hat' => ?_⟩
  have hroom := hat.lt hne
  exact hfirst other hother hlt (hat'.of_append (by omega))

/-- What is not found yet ends behind the text. -/
theorem find_behind {sub text more : Text} {index : ℕ} (hne : sub ≠ [])
    (hnone : find sub text 0 = none) (hfind : find sub (text ++ more) 0 = some index) :
    text.length < index + sub.length := by
  rw [find_eq_none hne] at hnone
  rw [find_eq_some hne] at hfind
  by_contra hle
  exact hnone index (Nat.zero_le _) (hfind.1.of_append (by omega))

/-- A search may begin where nothing stands before. -/
theorem find_skip {sub text : Text} {start : ℕ} (hne : sub ≠ [])
    (hskip : ∀ index < start, ¬ At sub text index) : find sub text start = find sub text 0 := by
  cases hfind : find sub text 0 with
  | none =>
      rw [find_eq_none hne] at hfind ⊢
      exact fun index _ => hfind index (Nat.zero_le _)
  | some index =>
      rw [find_eq_some hne] at hfind ⊢
      obtain ⟨hat, -, hfirst⟩ := hfind
      have hle : start ≤ index := not_lt.mp fun hlt => hskip index hlt hat
      exact ⟨hat, hle, fun other _ hlt => hfirst other (Nat.zero_le _) hlt⟩

/-- The search goes on behind a text that does not hold `sub`. -/
theorem find_later {sub text : Text} {start : ℕ} (hne : sub ≠ [])
    (hnone : find sub text 0 = none) (hstart : start + sub.length ≤ text.length + 1) (more : Text) :
    find sub (text ++ more) start = find sub (text ++ more) 0 := by
  rw [find_eq_none hne] at hnone
  refine find_skip hne fun index hlt hat => ?_
  exact hnone index (Nat.zero_le _) (hat.of_append (by omega))

/-! ## The end of the first line -/

open TextFile (LineEnd lineEnd universalEnd)

/-- The length of the first line of a whole text. -/
def lineLen (newline : Newline) (text : Text) : ℕ :=
  match lineEnd newline text 0 with
  | .found endpos => endpos
  | .searchFrom _ => text.length

/-- A search that found the end, or knows from where to go on. -/
structure Settles (search : Text → ℕ → LineEnd) : Prop where
  found : ∀ line endpos, search line 0 = .found endpos → ∀ more,
    search (line ++ more) 0 = .found endpos
  within : ∀ line endpos, search line 0 = .found endpos → 0 < endpos ∧ endpos ≤ line.length
  resume : ∀ line start, search line 0 = .searchFrom start → ∀ more,
    search (line ++ more) start = search (line ++ more) 0
  behind : ∀ line start more endpos, search line 0 = .searchFrom start →
    search (line ++ more) 0 = .found endpos → line.length ≤ endpos

/-- The search for a separator. -/
def separatorEnd (sub line : Text) (start : ℕ) : LineEnd :=
  match find sub line start with
  | some pos => .found (pos + sub.length)
  | none => .searchFrom (line.length + 1 - sub.length)

theorem separatorEnd_settles {sub : Text} (hne : sub ≠ []) : Settles (separatorEnd sub) where
  found line endpos hfound more := by
    unfold separatorEnd at hfound ⊢
    cases hfind : find sub line 0 with
    | none => rw [hfind] at hfound; cases hfound
    | some pos =>
        rw [hfind] at hfound
        rw [find_append hne hfind more]
        exact hfound
  within line endpos hfound := by
    unfold separatorEnd at hfound
    cases hfind : find sub line 0 with
    | none => rw [hfind] at hfound; cases hfound
    | some pos =>
        rw [hfind] at hfound
        obtain rfl := LineEnd.found.inj hfound
        have hat := ((find_eq_some hne).mp hfind).1.lt hne
        have hpos := List.length_pos_iff.mpr hne
        omega
  resume line start hsearch more := by
    unfold separatorEnd at hsearch ⊢
    cases hfind : find sub line 0 with
    | some pos => rw [hfind] at hsearch; cases hsearch
    | none =>
        rw [hfind] at hsearch
        obtain rfl := LineEnd.searchFrom.inj hsearch
        by_cases hshort : sub.length ≤ line.length + 1
        · rw [find_later hne hfind (by omega) more]
        · have hzero : line.length + 1 - sub.length = 0 := by omega
          rw [hzero]
  behind line start more endpos hsearch hfound := by
    unfold separatorEnd at hsearch hfound
    cases hfind : find sub line 0 with
    | some pos => rw [hfind] at hsearch; cases hsearch
    | none =>
        cases hmore : find sub (line ++ more) 0 with
        | none => rw [hmore] at hfound; cases hfound
        | some pos =>
            rw [hmore] at hfound
            obtain rfl := LineEnd.found.inj hfound
            exact (find_behind hne hfind hmore).le

theorem cr_ne : [cr] ≠ [] := List.cons_ne_nil _ _

theorem lf_ne : [lf] ≠ [] := List.cons_ne_nil _ _

theorem find_lt {char : ℕ} {text : Text} {start index : ℕ}
    (hfind : find [char] text start = some index) : index < text.length :=
  ((find_eq_some (List.cons_ne_nil _ _)).mp hfind).1.lt (List.cons_ne_nil _ _)

/-- It goes on only from the end, or from a "\r" there. -/
theorem universalEnd_searchFrom {line : Text} {start : ℕ}
    (hsearch : universalEnd line 0 = .searchFrom start) :
    find [lf] line 0 = none ∧
      (find [cr] line 0 = none ∧ start = line.length ∨
        find [cr] line 0 = some start ∧ start + 1 = line.length) := by
  unfold universalEnd at hsearch
  cases hcr : find [cr] line 0 with
  | none =>
      cases hlf : find [lf] line 0 with
      | none =>
          rw [hcr, hlf] at hsearch
          obtain rfl := LineEnd.searchFrom.inj hsearch
          exact ⟨rfl, .inl ⟨rfl, rfl⟩⟩
      | some nlpos => rw [hcr, hlf] at hsearch; cases hsearch
  | some crpos =>
      cases hlf : find [lf] line 0 with
      | none =>
          rw [hcr, hlf] at hsearch
          simp only at hsearch
          split_ifs at hsearch with hlast
          obtain rfl := LineEnd.searchFrom.inj hsearch
          exact ⟨rfl, .inr ⟨rfl, hlast⟩⟩
      | some nlpos =>
          rw [hcr, hlf] at hsearch
          simp only at hsearch
          split_ifs at hsearch

/-- The search that ends at whichever newline comes first: a "\r" at the very
end is looked at again when it is known what follows. -/
theorem universalEnd_settles : Settles universalEnd where
  found line endpos hfound more := by
    unfold universalEnd at hfound ⊢
    cases hcr : find [cr] line 0 with
    | none =>
        cases hlf : find [lf] line 0 with
        | none => rw [hcr, hlf] at hfound; cases hfound
        | some nlpos =>
            rw [hcr, hlf] at hfound
            rw [find_append lf_ne hlf more]
            cases hmore : find [cr] (line ++ more) 0 with
            | none => exact hfound
            | some crpos =>
                have hbehind := find_behind cr_ne hcr hmore
                have hlt := find_lt hlf
                have hbefore : nlpos < crpos := by
                  rw [List.length_singleton] at hbehind
                  omega
                simpa only [if_pos hbefore] using hfound
    | some crpos =>
        have hlt := find_lt hcr
        rw [find_append cr_ne hcr more]
        cases hlf : find [lf] line 0 with
        | some nlpos =>
            rw [hcr, hlf] at hfound
            rw [find_append lf_ne hlf more]
            exact hfound
        | none =>
            rw [hcr, hlf] at hfound
            simp only at hfound
            split_ifs at hfound with hlast
            obtain rfl := LineEnd.found.inj hfound
            cases hmore : find [lf] (line ++ more) 0 with
            | none =>
                have hinside : crpos + 1 ≠ (line ++ more).length := by
                  rw [List.length_append]
                  omega
                simp only [if_neg hinside]
            | some nlpos =>
                have hbehind := find_behind lf_ne hlf hmore
                rw [List.length_singleton] at hbehind
                have hnotbefore : ¬ nlpos < crpos := by omega
                have hnotnext : nlpos ≠ crpos + 1 := by omega
                simp only [if_neg hnotbefore, if_neg hnotnext]
  within line endpos hfound := by
    unfold universalEnd at hfound
    cases hcr : find [cr] line 0 with
    | none =>
        cases hlf : find [lf] line 0 with
        | none => rw [hcr, hlf] at hfound; cases hfound
        | some nlpos =>
            rw [hcr, hlf] at hfound
            obtain rfl := LineEnd.found.inj hfound
            exact ⟨Nat.succ_pos _, find_lt hlf⟩
    | some crpos =>
        have hlt := find_lt hcr
        cases hlf : find [lf] line 0 with
        | none =>
            rw [hcr, hlf] at hfound
            simp only at hfound
            split_ifs at hfound with hlast
            obtain rfl := LineEnd.found.inj hfound
            exact ⟨Nat.succ_pos _, hlt⟩
        | some nlpos =>
            have hltlf := find_lt hlf
            rw [hcr, hlf] at hfound
            simp only at hfound
            split_ifs at hfound
            · obtain rfl := LineEnd.found.inj hfound
              exact ⟨Nat.succ_pos _, hltlf⟩
            · obtain rfl := LineEnd.found.inj hfound
              exact ⟨Nat.succ_pos _, hltlf⟩
            · obtain rfl := LineEnd.found.inj hfound
              exact ⟨Nat.succ_pos _, hlt⟩
  resume line start hsearch more := by
    obtain ⟨hlf, ⟨hcr, rfl⟩ | ⟨hcr, hlast⟩⟩ := universalEnd_searchFrom hsearch
    · simp only [universalEnd, find_later cr_ne hcr (Nat.le_refl _) more,
        find_later lf_ne hlf (Nat.le_refl _) more]
    · have hsame : find [cr] (line ++ more) start = find [cr] (line ++ more) 0 := by
        refine find_skip cr_ne fun index hlt hat => ?_
        have hfirst := ((find_eq_some cr_ne).mp hcr).2.2 index (Nat.zero_le _) hlt
        exact hfirst (hat.of_append (by rw [List.length_singleton]; omega))
      have hlater : start + [lf].length ≤ line.length + 1 := by
        rw [List.length_singleton]
        omega
      simp only [universalEnd, hsame, find_later lf_ne hlf hlater more]
  behind line start more endpos hsearch hfound := by
    obtain ⟨hlf, hcase⟩ := universalEnd_searchFrom hsearch
    have hnl : ∀ nlpos, find [lf] (line ++ more) 0 = some nlpos → line.length ≤ nlpos := by
      intro nlpos hfind
      have hbehind := find_behind lf_ne hlf hfind
      rw [List.length_singleton] at hbehind
      omega
    have hreturn : ∀ crpos, find [cr] (line ++ more) 0 = some crpos → line.length ≤ crpos + 1 := by
      intro crpos hfind
      obtain ⟨hcr, -⟩ | ⟨hcr, hlast⟩ := hcase
      · exact (find_behind cr_ne hcr hfind).le
      · have hsame := (find_append cr_ne hcr more).symm.trans hfind
        rw [← Option.some.inj hsame]
        exact hlast.ge
    unfold universalEnd at hfound
    cases hcr : find [cr] (line ++ more) 0 with
    | none =>
        cases hmore : find [lf] (line ++ more) 0 with
        | none => rw [hcr, hmore] at hfound; cases hfound
        | some nlpos =>
            rw [hcr, hmore] at hfound
            obtain rfl := LineEnd.found.inj hfound
            exact Nat.le_succ_of_le (hnl nlpos hmore)
    | some crpos =>
        have hcrpos := hreturn crpos hcr
        cases hmore : find [lf] (line ++ more) 0 with
        | none =>
            rw [hcr, hmore] at hfound
            simp only at hfound
            split_ifs at hfound
            obtain rfl := LineEnd.found.inj hfound
            exact hcrpos
        | some nlpos =>
            have hnlpos := hnl nlpos hmore
            rw [hcr, hmore] at hfound
            simp only at hfound
            split_ifs at hfound <;> obtain rfl := LineEnd.found.inj hfound <;> omega

theorem lineEnd_settles (newline : Newline) : Settles (lineEnd newline) := by
  have hseparator : ∀ sub : Text, sub ≠ [] → lineEnd newline = separatorEnd sub →
      Settles (lineEnd newline) := by
    intro sub hne hsame
    rw [hsame]
    exact separatorEnd_settles hne
  cases newline with
  | none => exact hseparator [lf] lf_ne rfl
  | empty => exact universalEnd_settles
  | lf => exact hseparator [lf] lf_ne rfl
  | cr => exact hseparator [cr] cr_ne rfl
  | crlf => exact hseparator [cr, lf] (List.cons_ne_nil _ _) rfl

/-- What has been searched without an end is no longer than the line. -/
theorem length_le_lineLen {newline : Newline} {line : Text} {start : ℕ}
    (hsearch : lineEnd newline line 0 = .searchFrom start) (more : Text) :
    line.length ≤ lineLen newline (line ++ more) := by
  unfold lineLen
  cases hmore : lineEnd newline (line ++ more) 0 with
  | found endpos => exact (lineEnd_settles newline).behind line start more endpos hsearch hmore
  | searchFrom other => exact (List.prefix_append line more).length_le

theorem lineLen_of_found {newline : Newline} {line : Text} {endpos : ℕ}
    (hfound : lineEnd newline line 0 = .found endpos) (more : Text) :
    lineLen newline (line ++ more) = endpos := by
  simp only [lineLen, (lineEnd_settles newline).found line endpos hfound more]

theorem lineLen_of_searchFrom {newline : Newline} {line : Text} {start : ℕ}
    (hsearch : lineEnd newline line 0 = .searchFrom start) :
    lineLen newline line = line.length := by
  simp only [lineLen, hsearch]

theorem lineLen_le (newline : Newline) (text : Text) : lineLen newline text ≤ text.length := by
  unfold lineLen
  cases hend : lineEnd newline text 0 with
  | found endpos => exact ((lineEnd_settles newline).within text endpos hend).2
  | searchFrom start => exact Nat.le_refl _

/-- A line of a text that is not empty has a character. -/
theorem lineLen_pos (newline : Newline) {text : Text} (htext : text ≠ []) :
    0 < lineLen newline text := by
  unfold lineLen
  cases hend : lineEnd newline text 0 with
  | found endpos => exact ((lineEnd_settles newline).within text endpos hend).1
  | searchFrom start => exact List.length_pos_iff.mpr htext

end Turbofile.Text
