import Turbofile.Text.Sequences

/-!
# The next line

A line is meant to be the shortest beginning of the text that ends with a
terminator of the mode.  `readline` returns it, or what a limit leaves of it,
however the text comes in chunks and whatever was read before.
-/

namespace Turbofile.Text

open Turbofile.Core
open Turbofile.Coroutine
open Turbofile.Binary
open Turbofile.Codecs

/-! ## Lines as they are meant -/

/-- What ends a line. -/
def Newline.terminators : Newline → List Text
  | .none | .lf => [[Codecs.lf]]
  | .empty => [[Codecs.lf], [Codecs.cr], [Codecs.cr, Codecs.lf]]
  | .cr => [[Codecs.cr]]
  | .crlf => [[Codecs.cr, Codecs.lf]]

/-- A beginning of the text that ends with a terminator, and not inside of one. -/
structure Terminated (newline : Newline) (text line : Text) : Prop where
  leading : line <+: text
  ends : ∃ terminator ∈ newline.terminators, terminator <:+ line
  unsplit : ∀ terminator ∈ newline.terminators, ∀ front back, terminator = front ++ back →
    front ≠ [] → back ≠ [] → front <:+ line → ¬ line ++ back <+: text

/-- The shortest terminated beginning, or all the text when there is none. -/
def IsNextLine (newline : Newline) (text line : Text) : Prop :=
  (Terminated newline text line ∧
    ∀ other, Terminated newline text other → line.length ≤ other.length) ∨
  (line = text ∧ ∀ other, ¬ Terminated newline text other)

/-- What a limit leaves of a line; a negative one leaves it whole. -/
def cutLine (limit : Option ℤ) (line : Text) : Text :=
  match asked limit with
  | none => line
  | some limit => line.take limit

theorem suffix_take_iff {sub text : Text} {n : ℕ} (hn : n ≤ text.length) :
    sub <:+ text.take n ↔ ∃ index, At sub text index ∧ n = index + sub.length := by
  constructor
  · rintro ⟨front, hjoin⟩
    have hlength := congrArg List.length hjoin
    rw [List.length_append, List.length_take, Nat.min_eq_left hn] at hlength
    refine ⟨front.length, ?_, hlength.symm⟩
    rw [At, ← List.take_append_drop n text, ← hjoin, List.append_assoc, List.drop_left]
    exact List.prefix_append _ _
  · rintro ⟨index, ⟨rest, hrest⟩, rfl⟩
    refine ⟨text.take index, ?_⟩
    rw [List.take_add, ← hrest, List.take_left]

theorem take_append_prefix_iff {back text : Text} (n : ℕ) :
    text.take n ++ back <+: text ↔ At back text n := by
  calc text.take n ++ back <+: text
      ↔ text.take n ++ back <+: text.take n ++ text.drop n := by rw [List.take_append_drop]
    _ ↔ At back text n := List.prefix_append_right_inj _

/-- The mode with one terminator, no part of which ends another. -/
theorem terminated_separator {newline : Newline} {sub text : Text} {n : ℕ}
    (hsub : newline.terminators = [sub])
    (hparts : ∀ front back, sub = front ++ back → front ≠ [] → back ≠ [] → ¬ front <:+ sub)
    (hn : n ≤ text.length) :
    Terminated newline text (text.take n) ↔
      ∃ index, At sub text index ∧ n = index + sub.length := by
  rw [← suffix_take_iff hn]
  constructor
  · intro hterminated
    obtain ⟨terminator, hmem, hends⟩ := hterminated.ends
    rw [hsub, List.mem_singleton] at hmem
    rwa [hmem] at hends
  · intro hends
    refine ⟨List.take_prefix _ _, ⟨sub, ?_, hends⟩, ?_⟩
    · rw [hsub]
      exact List.mem_singleton_self sub
    · intro terminator hmem front back hjoin hfront hback hsuffix
      rw [hsub, List.mem_singleton] at hmem
      subst hmem
      have hshort : front.length ≤ terminator.length := by
        rw [hjoin, List.length_append]
        exact Nat.le_add_right _ _
      exact absurd (List.suffix_of_suffix_length_le hsuffix hends hshort)
        (hparts front back hjoin hfront hback)

/-- With `newline=""` a line ends behind a "\n", or behind a "\r" that no "\n"
follows. -/
theorem terminated_universal {text : Text} {n : ℕ} (hn : n ≤ text.length) :
    Terminated .empty text (text.take n) ↔
      ∃ index, n = index + 1 ∧
        (At [lf] text index ∨ At [cr] text index ∧ ¬ At [lf] text (index + 1)) := by
  constructor
  · intro hterminated
    obtain ⟨terminator, hmem, hends⟩ := hterminated.ends
    simp only [Newline.terminators, List.mem_cons, List.not_mem_nil, or_false] at hmem
    obtain ⟨index, hat, rfl⟩ := (suffix_take_iff hn).mp hends
    rcases hmem with rfl | rfl | rfl
    · exact ⟨index, rfl, .inl hat⟩
    · refine ⟨index, rfl, .inr ⟨hat, fun hnext => ?_⟩⟩
      refine hterminated.unsplit [cr, lf] (by simp [Newline.terminators]) [cr] [lf] rfl
        (List.cons_ne_nil _ _) (List.cons_ne_nil _ _) hends ?_
      exact (take_append_prefix_iff _).mpr hnext
    · refine ⟨index + 1, rfl, .inl ?_⟩
      obtain ⟨rest, hrest⟩ := hat
      refine ⟨rest, ?_⟩
      rw [← List.drop_drop, ← hrest]
      rfl
  · rintro ⟨index, rfl, hat⟩
    have hends : ∀ char, At [char] text index → [char] <:+ text.take (index + 1) :=
      fun char hat => (suffix_take_iff hn).mpr ⟨index, hat, rfl⟩
    refine ⟨List.take_prefix _ _, ?_, ?_⟩
    · rcases hat with hlf | ⟨hcr, -⟩
      · exact ⟨[lf], by simp [Newline.terminators], hends lf hlf⟩
      · exact ⟨[cr], by simp [Newline.terminators], hends cr hcr⟩
    · intro terminator hmem front back hjoin hfront hback hsuffix hgoes
      -- Only "\r\n" has two parts, and its first is the "\r".
      obtain ⟨rfl, rfl⟩ : front = [cr] ∧ back = [lf] := by
        simp only [Newline.terminators, List.mem_cons, List.not_mem_nil, or_false] at hmem
        rcases hmem with rfl | rfl | rfl
        all_goals
          rcases front with _ | ⟨first, _ | ⟨second, front⟩⟩
          · exact absurd rfl hfront
          · simp_all
          · simp_all
      have hnext := (take_append_prefix_iff _).mp hgoes
      rcases hat with hlf | ⟨-, hnone⟩
      · have hsame := List.suffix_of_suffix_length_le hsuffix (hends lf hlf) le_rfl
        have hchar := hsame.eq_of_length rfl
        simp [cr, lf] at hchar
      · exact hnone hnext

/-! ## Lines as they are found -/

/-- The first place where a line may end, when there is one. -/
theorem isNextLine_of_least {newline : Newline} {text : Text} {n : ℕ} (hn : n ≤ text.length)
    (hends : Terminated newline text (text.take n))
    (hleast : ∀ m < n, ¬ Terminated newline text (text.take m)) :
    IsNextLine newline text (text.take n) := by
  refine .inl ⟨hends, fun other hother => ?_⟩
  rw [List.length_take, Nat.min_eq_left hn]
  by_contra hlt
  have htake := List.prefix_iff_eq_take.mp hother.leading
  rw [htake] at hother
  exact hleast other.length (not_le.mp hlt) hother

theorem isNextLine_of_none {newline : Newline} {text : Text}
    (hnone : ∀ n ≤ text.length, ¬ Terminated newline text (text.take n)) :
    IsNextLine newline text text := by
  refine .inr ⟨rfl, fun other hother => ?_⟩
  have htake := List.prefix_iff_eq_take.mp hother.leading
  have hlength := hother.leading.length_le
  rw [htake] at hother
  exact hnone other.length hlength hother

theorem isNextLine_separator {newline : Newline} {sub : Text} (hne : sub ≠ [])
    (hsub : newline.terminators = [sub])
    (hparts : ∀ front back, sub = front ++ back → front ≠ [] → back ≠ [] → ¬ front <:+ sub)
    (hsearch : TextFile.lineEnd newline = separatorEnd sub) (text : Text) :
    IsNextLine newline text (text.take (lineLen newline text)) := by
  have hlen : lineLen newline text =
      ((find sub text 0).map (· + sub.length)).getD text.length := by
    rw [lineLen, hsearch, separatorEnd]
    cases find sub text 0 with
    | none => rfl
    | some index => rfl
  rw [hlen]
  cases hfind : find sub text 0 with
  | none =>
      rw [Option.map_none, Option.getD_none, List.take_length]
      refine isNextLine_of_none fun n hn hends => ?_
      obtain ⟨index, hat, -⟩ := (terminated_separator hsub hparts hn).mp hends
      exact (find_eq_none hne).mp hfind index (Nat.zero_le _) hat
  | some index =>
      obtain ⟨hat, -, hfirst⟩ := (find_eq_some hne).mp hfind
      have hn := hat.lt hne
      rw [Option.map_some, Option.getD_some]
      refine isNextLine_of_least hn ?_ fun m hm hends => ?_
      · exact (terminated_separator hsub hparts hn).mpr ⟨index, hat, rfl⟩
      · obtain ⟨other, hother, rfl⟩ := (terminated_separator hsub hparts (by omega)).mp hends
        exact hfirst other (Nat.zero_le _) (by omega) hother

/-- A "\r\n" is one terminator: its "\r" is none. -/
theorem isNextLine_universal (text : Text) :
    IsNextLine .empty text (text.take (lineLen .empty text)) := by
  have hleast : ∀ index, index < text.length →
      (At [lf] text index ∨ At [cr] text index ∧ ¬ At [lf] text (index + 1)) →
      (∀ other < index, ¬ At [lf] text other ∧
        (At [cr] text other → At [lf] text (other + 1))) →
      IsNextLine .empty text (text.take (index + 1)) := by
    intro index hlt hat hfirst
    refine isNextLine_of_least hlt ((terminated_universal hlt).mpr ⟨index, rfl, hat⟩) ?_
    intro m hm hends
    obtain ⟨other, rfl, hother⟩ := (terminated_universal (by omega)).mp hends
    obtain ⟨hlf, hcr⟩ := hfirst other (by omega)
    rcases hother with hat | ⟨hat, hnext⟩
    · exact hlf hat
    · exact hnext (hcr hat)
  have hsearch : TextFile.lineEnd .empty text 0 = TextFile.universalEnd text 0 := rfl
  rw [lineLen, hsearch, TextFile.universalEnd]
  cases hcr : find [cr] text 0 with
  | none =>
      have hnocr := (find_eq_none cr_ne).mp hcr
      cases hlf : find [lf] text 0 with
      | none =>
          have hnolf := (find_eq_none lf_ne).mp hlf
          dsimp only
          rw [List.take_length]
          refine isNextLine_of_none fun n hn hends => ?_
          obtain ⟨index, -, hat⟩ := (terminated_universal hn).mp hends
          rcases hat with hat | ⟨hat, -⟩
          · exact hnolf index (Nat.zero_le _) hat
          · exact hnocr index (Nat.zero_le _) hat
      | some nlpos =>
          obtain ⟨hat, -, hfirst⟩ := (find_eq_some lf_ne).mp hlf
          refine hleast nlpos (find_lt hlf) (.inl hat) fun other hlt => ⟨?_, fun hother => ?_⟩
          · exact hfirst other (Nat.zero_le _) hlt
          · exact absurd hother (hnocr other (Nat.zero_le _))
  | some crpos =>
      obtain ⟨hatcr, -, hfirstcr⟩ := (find_eq_some cr_ne).mp hcr
      have hltcr := find_lt hcr
      cases hlf : find [lf] text 0 with
      | none =>
          have hnolf := (find_eq_none lf_ne).mp hlf
          have hline := hleast crpos hltcr (.inr ⟨hatcr, hnolf _ (Nat.zero_le _)⟩)
            fun other hlt => ⟨hnolf other (Nat.zero_le _), fun hother =>
              absurd hother (hfirstcr other (Nat.zero_le _) hlt)⟩
          dsimp only
          split_ifs with hlast
          · -- A "\r" at the end of the text ends the line.
            dsimp only
            rwa [← hlast]
          · exact hline
      | some nlpos =>
          obtain ⟨hatlf, -, hfirstlf⟩ := (find_eq_some lf_ne).mp hlf
          have hltlf := find_lt hlf
          dsimp only
          split_ifs with hbefore hnext
          · refine hleast nlpos hltlf (.inl hatlf) fun other hlt => ⟨?_, fun hother => ?_⟩
            · exact hfirstlf other (Nat.zero_le _) hlt
            · exact absurd hother (hfirstcr other (Nat.zero_le _) (by omega))
          · refine hleast nlpos hltlf (.inl hatlf) fun other hlt => ⟨?_, fun hother => ?_⟩
            · exact hfirstlf other (Nat.zero_le _) hlt
            · have hsame : other = crpos := by
                by_contra hne
                exact hfirstcr other (Nat.zero_le _) (by omega) hother
              rwa [hsame, ← hnext]
          · refine hleast crpos hltcr (.inr ⟨hatcr, ?_⟩) fun other hlt => ⟨?_, fun hother => ?_⟩
            · exact hfirstlf _ (Nat.zero_le _) (by
                have hdistinct : nlpos ≠ crpos := by
                  rintro rfl
                  exact absurd (List.IsPrefix.eq_of_length (List.prefix_of_prefix_length_le hatcr
                    hatlf le_rfl) rfl) (by simp [cr, lf])
                omega)
            · exact hfirstlf other (Nat.zero_le _) (by omega)
            · exact absurd hother (hfirstcr other (Nat.zero_le _) hlt)

theorem isNextLine_lineLen (newline : Newline) (text : Text) :
    IsNextLine newline text (text.take (lineLen newline text)) := by
  have hchar : ∀ char : ℕ, ∀ front back, [char] = front ++ back → front ≠ [] → back ≠ [] →
      ¬ front <:+ [char] := by
    intro char front back hjoin hfront hback
    rcases front with _ | ⟨first, front⟩
    · exact absurd rfl hfront
    · rw [List.cons_append] at hjoin
      have hnil := (List.cons.inj hjoin).2
      exact absurd (List.append_eq_nil_iff.mp hnil.symm).2 hback
  cases newline with
  | none => exact isNextLine_separator lf_ne rfl (hchar lf) rfl text
  | empty => exact isNextLine_universal text
  | lf => exact isNextLine_separator lf_ne rfl (hchar lf) rfl text
  | cr => exact isNextLine_separator cr_ne rfl (hchar cr) rfl text
  | crlf =>
      refine isNextLine_separator (List.cons_ne_nil _ _) rfl ?_ rfl text
      intro front back hjoin hfront hback hsuffix
      rcases front with _ | ⟨first, _ | ⟨second, front⟩⟩
      · exact hfront rfl
      · obtain ⟨rfl, -⟩ := List.cons.inj hjoin
        have hlast := List.suffix_of_suffix_length_le hsuffix (List.suffix_cons cr [lf]) le_rfl
        have hsame := hlast.eq_of_length rfl
        simp [cr, lf] at hsame
      · rw [List.cons_append, List.cons_append] at hjoin
        have hnil := (List.cons.inj (List.cons.inj hjoin).2).2
        exact hback (List.append_eq_nil_iff.mp hnil.symm).2

/-- What `readline` returns is the next line, cut to the limit. -/
theorem take_lineAsked (newline : Newline) (limit : Option ℤ) (text : Text) :
    text.take (lineAsked newline limit text) =
      cutLine limit (text.take (lineLen newline text)) := by
  have hlimit : asked limit =
      if 0 ≤ limit.getD (-1) then some (limit.getD (-1)).toNat else none := by
    cases limit with
    | none => rfl
    | some limit =>
        simp only [asked, Option.getD_some]
        split_ifs <;> first | rfl | omega
  rw [lineAsked, cutLine, hlimit]
  by_cases hpos : 0 ≤ limit.getD (-1)
  · rw [if_pos hpos]
    simp only [List.take_take]
    split_ifs <;> congr 1 <;> omega
  · rw [if_neg hpos, if_neg (fun hboth => hpos hboth.1)]

theorem length_cutLine (newline : Newline) (limit : Option ℤ) (text : Text) :
    (cutLine limit (text.take (lineLen newline text))).length = lineAsked newline limit text := by
  have hle : lineAsked newline limit text ≤ lineLen newline text := by
    rw [lineAsked]
    split_ifs <;> omega
  have hlen := lineLen_le newline text
  rw [← take_lineAsked, List.length_take, Nat.min_eq_left (hle.trans hlen)]

/-! ## However the text comes -/

/-- A file nobody else changes, of which a sized read may return less than it
asks for: one byte or more while there is any. -/
def shortEnv : Env bridge PyError Bytes
  | .read _ pos size, content, answer, next =>
      next = content ∧ ∃ n ≤ size, (0 < size → 0 < n) ∧ answer = .ok (slice content pos n)
  | .fast _ (.read pos size), content, answer, next =>
      next = content ∧ (answer = .ok none ∨
        ∃ n ≤ size, (0 < size → 0 < n) ∧ answer = .ok (some (slice content pos n)))
  | call, content, answer, next => fileEnv call content answer next

/-- The calls that are not sized reads. -/
def unsized : BridgeCall → Bool
  | .read .. | .fast _ (.read ..) => false
  | _ => true

theorem shortEnv_unsized {call : BridgeCall} (hcall : unsized call = true) :
    shortEnv call = fileEnv call := by
  cases call with
  | read handle pos size => cases hcall
  | fast fd probe =>
      cases probe with
      | read pos size => cases hcall
      | _ => rfl
  | _ => rfl

theorem unsized_inlineSize (fd : Fd) (fast : Bool) :
    (inlineSize fd fast).Only (unsized · = true) := by
  unfold inlineSize
  split
  · exact Prog.only_await rfl
  · trivial

theorem unsized_readToEofParallel (handle : Handle) (fd : Fd) (fast : Bool) (start : ℕ) :
    (readToEofParallel handle fd fast start).Only (unsized · = true) := by
  have hsize : (sizeSnapshot handle fd fast).Only (unsized · = true) := by
    refine (unsized_inlineSize fd fast).bind fun size => ?_
    cases size with
    | some size => trivial
    | none => exact Prog.only_await rfl
  refine hsize.bind fun sizeNow => ?_
  refine Prog.Only.bind (Prog.only_await rfl) fun first => ?_
  dsimp only
  split
  · trivial
  · refine (unsized_inlineSize fd fast).bind fun confirmed => ?_
    split
    · trivial
    · refine ⟨fun value => Prog.Only.bind (Prog.only_await rfl) fun tail => ?_, fun _ => trivial⟩
      dsimp only
      split <;> trivial

theorem unsized_fastDeclined : BinaryFile.fastDeclined.Only (unsized · = true) := by
  intro self
  change (if self.fast then _ else _ : BinaryProg Unit).Only _
  split
  · refine Prog.Only.bind (Prog.only_await rfl) fun supported => ?_
    split
    · trivial
    · exact fun _ => trivial
  · trivial

theorem unsized_resident (start : ℕ) :
    (BinaryFile.resident (.readAll start)).Only (unsized · = true) := by
  have hdeclined : (BinaryFile.fastDeclined.bind fun _ =>
      .done none : BinaryProg (Option Bytes)).Only (unsized · = true) :=
    unsized_fastDeclined.bind fun _ => trivial
  intro self
  change (if self.fast then _ else _ : BinaryProg (Option Bytes)).Only _
  split
  · refine Prog.Only.bind (Prog.only_await rfl) fun data => ?_
    cases data with
    | some data => trivial
    | none => exact hdeclined
  · exact hdeclined

theorem unsized_readRest : BinaryFile.readRest.Only (unsized · = true) := by
  intro self
  change (if _ then _ else _ : BinaryProg Bytes).Only _
  split
  · intro self
    refine (unsized_readToEofParallel _ _ _ _).bind fun rest => ?_
    exact fun _ _ => trivial
  · refine Prog.Only.bind (fun self => (unsized_resident _).bind fun data => ?_) fun rest => ?_
    · cases data with
      | some data => trivial
      | none => exact Prog.only_await rfl
    · exact fun _ _ => trivial

theorem unsized_readAll : (BinaryFile.read none).Only (unsized · = true) := by
  have hcheck : ∀ (test : BinaryFile → Bool) (error : PyError),
      (Prog.state.bind fun self => if test self then pure () else .raise error :
        BinaryProg Unit).Only (unsized · = true) := by
    intro test error self
    change (if test self then pure () else .raise error : BinaryProg Unit).Only _
    split <;> trivial
  refine Prog.Only.bind (hcheck (·.isOpen) _) fun _ => ?_
  exact Prog.Only.bind (hcheck (·.info.read) _) fun _ => unsized_readRest

theorem wp_unsized {α : Type} {prog : BinaryProg α} (hprog : prog.Only (unsized · = true))
    {file : BinaryFile} {content : Bytes} {post : Post BinaryFile PyError Bytes α}
    (hwp : prog.wp fileEnv post file content) : prog.wp shortEnv post file content := by
  refine hprog.wp ?_ hwp
  intro call hcall world answer next hanswer
  rwa [shortEnv_unsized hcall] at hanswer

theorem wp_shortFetch {file : BinaryFile} {content : Bytes} {pos size : ℕ}
    {post : Post BinaryFile PyError Bytes Bytes}
    (hpost : ∀ n ≤ size, (0 < size → 0 < n) → ∀ fast,
      post (.ok (slice content pos n)) { file with fast := fast } content) :
    (BinaryFile.fetch pos size).wp shortEnv post file content := by
  have hask : ∀ (call : BridgeCall) (file : BinaryFile)
      {post : Post BinaryFile PyError Bytes call.Answer},
      (∀ answer next, shortEnv call content answer next → post answer file next) →
      (ask call).wp shortEnv post file content := fun call file {post} hanswers =>
    (@Prog.wp_await bridge BinaryFile PyError Bytes shortEnv call post file content).mpr hanswers
  simp only [BinaryFile.fetch, BinaryFile.resident, Prog.bind_eq_bind, Prog.wp_bind,
    Prog.wp_state, Prog.after_ok]
  have hdeclined : BinaryFile.fastDeclined.wp shortEnv
      (Prog.after shortEnv (fun _ => (ask (.read file.handle pos size))) post) file content := by
    apply wp_unsized unsized_fastDeclined
    apply wp_fastDeclined
    intro fast
    apply hask
    rintro answer next ⟨rfl, n, hle, hpos, rfl⟩
    exact hpost n hle hpos fast
  split
  · rw [Prog.wp_bind]
    apply hask
    rintro answer next ⟨rfl, rfl | ⟨n, hle, hpos, rfl⟩⟩
    · simp only [Prog.after_ok, Prog.wp_bind]
      refine Prog.wp_mono _ ?_ hdeclined
      intro result state world hresult
      cases result with
      | ok value => exact hresult
      | error error => exact hresult
    · exact hpost n hle hpos file.fast
  · simp only [Prog.pure_eq_done, Prog.wp_bind, Prog.wp_done, Prog.after_ok]
    refine Prog.wp_mono _ ?_ hdeclined
    intro result state world hresult
    cases result with
    | ok value => exact hresult
    | error error => exact hresult

theorem shortEnv_serves : Serves shortEnv where
  read1 := by
    intro info file content hfile hread post hpost
    simp only [BinaryFile.read1, BinaryFile.checkOpen, BinaryFile.checkReadable,
      Prog.bind_eq_bind, Prog.wp_bind, Prog.wp_state, Prog.after_ok, hfile.isOpen, hfile.info,
      hread, if_true, Prog.pure_eq_done, Prog.wp_done]
    split
    · next hempty =>
        have hnil := List.isEmpty_iff.mp hempty
        rw [Prog.wp_bind]
        apply wp_shortFetch
        intro n _ hpositive fast
        refine hpost _ _ (slice_leading _ _ n) (fun hdata => ?_) rfl
          (hfile.withoutPending hnil rfl rfl)
        rw [slice, List.take_eq_nil_iff] at hdata
        exact hdata.resolve_left (hpositive (by decide)).ne'
    · next hpending =>
        have hne : file.pending ≠ [] := by simpa using hpending
        have honly : ∀ n, (BinaryFile.takePending n).Only (unsized · = true) :=
          fun _ _ _ => trivial
        apply wp_unsized (honly _)
        apply wp_takePending hfile
        intro next hpos hnext
        refine hpost _ next ((List.take_prefix _ _).trans hfile.leading_rest) (fun hdata => ?_)
          hpos hnext
        rw [List.take_eq_nil_iff] at hdata
        exact absurd (hdata.resolve_left (by decide)) hne
  readAll hfile hread post hpost :=
    wp_unsized unsized_readAll (fileEnv_serves.readAll hfile hread hpost)

/-! ## One line among reads -/

/-- Some reads, one `readline` and more reads: the line is the next one of the
text the first reads left, and the last reads get what is behind it. -/
def LineBetween {σ κ : Type} (newline : Newline) (limit : Option ℤ) (text : Text)
    (before after : List ReadOp) :
    Post (TextFile σ κ) PyError Bytes (List (ReadOp × List Text)) :=
  fun result _ _ =>
    ∃ front line back rest,
      result = .ok (front ++ (.readline limit, [cutLine limit line]) :: back) ∧
      front.map Prod.fst = before ∧ textOf front ++ rest = text ∧
      IsNextLine newline rest line ∧
      Delivered (rest.drop (cutLine limit line).length) after back

variable {σ κ : Type} {dec : TextDecoder σ} {info : ModeInfo} {file : TextFile σ κ}
  {content : Bytes} {env : Env bridge PyError Bytes}

theorem wp_lineBetween (hserves : Serves env) (hlawful : dec.Lawful)
    (hready : Ready dec info file content) (hread : info.read = true)
    (before after : List ReadOp) (limit : Option ℤ) :
    (TextFile.performAll dec (before ++ .readline limit :: after)).wp env
      (LineBetween file.newline limit (remaining dec file content) before after)
      file content := by
  induction before generalizing file with
  | nil =>
      simp only [List.nil_append, TextFile.performAll, TextFile.perform, Prog.bind_eq_bind,
        Prog.wp_bind]
      refine Prog.wp_mono _ ?_ (wp_readline hserves hlawful hready hread limit)
      rintro _ next world ⟨rfl, rfl, hrest, hnext, -⟩
      generalize remaining dec file world = rest at hrest ⊢
      have hline := isNextLine_lineLen file.newline rest
      have hlength := length_cutLine file.newline limit rest
      rw [take_lineAsked]
      simp only [Prog.pure_eq_done, Prog.after_ok, Prog.wp_done, Prog.wp_bind]
      refine Prog.wp_mono _ ?_ (wp_performAll hserves hlawful hnext hread after)
      rintro _ last _ ⟨-, -, -, results, rfl, hdelivered⟩
      rw [hrest, ← hlength] at hdelivered
      exact ⟨[], _, results, rest, rfl, rfl, rfl, hline, hdelivered⟩
  | cons op before ih =>
      simp only [List.cons_append, TextFile.performAll, Prog.bind_eq_bind, Prog.wp_bind]
      refine Prog.wp_mono _ ?_ (wp_perform hserves hlawful hready hread op)
      rintro _ next _ ⟨rfl, hnext, hnewline, strings, rfl, hjoin, -⟩
      simp only [Prog.after_ok, Prog.wp_bind]
      refine Prog.wp_mono _ ?_ (ih hnext)
      rintro _ last _ ⟨front, line, back, rest, rfl, hfront, htext, hline, hdelivered⟩
      refine ⟨(op, strings) :: front, line, back, rest, rfl, ?_, ?_, hnewline ▸ hline, hdelivered⟩
      · rw [List.map_cons, hfront]
      · rw [← hjoin, ← htext]
        simp [textOf]

/-- **The next line.**  Whatever was read before, however the text comes in
chunks, with any newline setting and any limit: `readline` returns the next
line, cut to the limit, and the rest is what later reads return. -/
theorem readline_next {codec : TextDecoder σ} (hlawful : codec.Lawful) (newline : Newline)
    (linesep : Text) (handle : Handle) (fd : Fd) (size : ℕ) (hread : info.read = true)
    {text : Text} {last : σ}
    (hdecode : codec.decode codec.initial
      (content.drop (BinaryFile.new handle fd size info).pos) true = .ok (text, last))
    (before after : List ReadOp) (limit : Option ℤ) :
    Safe shortEnv
      (LineBetween newline limit (translated newline.readtranslate text) before after)
      (TextFile.performAll (makeDecoder codec newline) (before ++ .readline limit :: after))
      (.new (.new handle fd size info) newline linesep : TextFile (DecoderState σ newline) κ)
      content := by
  obtain ⟨last, hwhole⟩ := makeDecoder_whole hdecode newline
  obtain ⟨hready, hleft⟩ := ready_new linesep (Aligned.new handle fd size info content) hwhole
  have hwp := wp_lineBetween shortEnv_serves (makeDecoder_lawful hlawful newline) hready hread
    before after limit
  rw [hleft] at hwp
  exact Prog.wp_safe _ hwp

/-- The second line of `"a\r\nb\rc"` when newlines are kept, read one
character short. -/
theorem readline_next_latin1 :
    Safe shortEnv (LineBetween .empty (some 1) [97, 13, 10, 98, 13, 99] [.readline none]
        [.read (some 2)])
      (TextFile.performAll (makeDecoder latin1 .empty)
        [.readline none, .readline (some 1), .read (some 2)])
      (.new (.new 1 3 6 ⟨true, false, false, false, false, false, true⟩) .empty [lf] :
        TextFile (Unit × Bool) Unit) [97, 13, 10, 98, 13, 99] :=
  @readline_next Unit Unit ⟨true, false, false, false, false, false, true⟩
    [97, 13, 10, 98, 13, 99] latin1 latin1_lawful .empty [lf] 1 3 6 rfl
    [97, 13, 10, 98, 13, 99] () rfl [.readline none] [.read (some 2)] (some 1)

end Turbofile.Text
