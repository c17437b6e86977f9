import Turbofile.Binary.Environment

/-!
# The reads of a binary file

Each read ends with what the file holds at the position, whatever the inline
probes answer and whatever the size hint is.
-/

namespace Turbofile.Binary

open Turbofile.Core
open Turbofile.Coroutine

variable {room : Room} {info : ModeInfo} {file : BinaryFile} {content : Bytes}

theorem wp_takePending (hfile : Aligned info file content) (n : ℕ)
    {post : Post BinaryFile PyError Bytes Bytes}
    (hpost : ∀ next : BinaryFile, next.pos = file.pos + (file.pending.take n).length →
      Aligned info next content → post (.ok (file.pending.take n)) next content) :
    (BinaryFile.takePending n).wp room.env post file content := by
  simp only [BinaryFile.takePending, Prog.bind_eq_bind, Prog.wp_bind, Prog.wp_state,
    Prog.after_ok, Prog.wp_modify, Prog.pure_eq_done, Prog.wp_done]
  apply hpost
  · rfl
  · by_cases hle : n ≤ file.pending.length
    · refine hfile.withPending (n := file.pending.length - n) ?_ rfl rfl
      change file.pending.drop n = slice content (file.pos + (file.pending.take n).length) _
      rw [List.length_take, Nat.min_eq_left hle]
      exact hfile.drop_pending n
    · refine hfile.withoutPending ?_ rfl rfl
      exact List.drop_eq_nil_of_le (Nat.le_of_not_le hle)

theorem wp_readSized (hfile : Aligned info file content) (size : ℕ) :
    (BinaryFile.readSized size).wp room.env
      (Returned info content (file.pos + (slice content file.pos size).length)
        (slice content file.pos size)) file content := by
  simp only [BinaryFile.readSized, Prog.bind_eq_bind, Prog.wp_bind, Prog.wp_state,
    Prog.after_ok]
  split
  · next hle =>
      rw [← hfile.take_pending hle]
      apply wp_takePending hfile
      exact fun next hpos hnext => ⟨rfl, rfl, hpos, hnext⟩
  · next hlt =>
      have hjoin : file.pending ++
          slice content (file.pos + file.pending.length) (size - file.pending.length) =
            slice content file.pos size := by
        rw [hfile.append_slice]
        congr 1
        omega
      simp only [Prog.wp_bind, Prog.wp_modify, Prog.after_ok]
      apply wp_fetch
      intro fast
      simp only [Prog.after_ok, Prog.wp_bind, Prog.wp_modify, Prog.pure_eq_done,
        Prog.wp_done, hjoin]
      exact ⟨rfl, rfl, rfl, hfile.withoutPending rfl rfl rfl⟩

theorem wp_readTail (file : BinaryFile) (handle : Handle) (parts : List Bytes)
    (start offset : ℕ) (hparts : parts.flatten ++ content.drop offset = content.drop start) :
    (Prog.repeatUntil (readTail handle) (parts, offset)).wp room.env
      (fun result next world =>
        result = .ok (content.drop start) ∧ next = file ∧ world = content)
      file content := by
  refine Prog.wp_loop
    (fun value state world => value.1.flatten ++ content.drop value.2 = content.drop start ∧
      state = file ∧ world = content)
    (fun value _ _ => content.length - value.2) ?_ ⟨hparts, rfl, rfl⟩
  rintro ⟨parts, offset⟩ state world ⟨hjoin, rfl, rfl⟩
  simp only [readTail, Prog.bind_eq_bind, Prog.wp_bind]
  apply wp_ask
  rintro answer next ⟨rfl, rfl⟩
  simp only [Prog.after_ok]
  split
  · next hempty =>
      have hend : next.drop offset = [] := List.isEmpty_iff.mp hempty
      rw [hend, List.append_nil] at hjoin
      exact ⟨congrArg Except.ok hjoin, rfl, rfl⟩
  · next hmore =>
      have hlength : offset < next.length := by simpa using hmore
      refine ⟨⟨?_, rfl, rfl⟩, ?_⟩
      · rw [List.flatten_concat, List.append_assoc, ← List.drop_drop,
          List.drop_length, List.append_nil]
        exact hjoin
      · simp only [List.length_drop]
        omega

theorem wp_inlineSize (fd : Fd) (fast : Bool) {post : Post BinaryFile PyError Bytes (Option ℕ)}
    (hnone : post (.ok none) file content)
    (hsome : post (.ok (some content.length)) file content) :
    (inlineSize fd fast).wp room.env post file content := by
  unfold inlineSize
  split
  · apply wp_ask
    rintro answer next ⟨rfl, rfl | rfl⟩
    · exact hnone
    · exact hsome
  · exact hnone

theorem wp_sizeSnapshot (handle : Handle) (fd : Fd) (fast : Bool)
    {post : Post BinaryFile PyError Bytes ℕ}
    (hpost : post (.ok content.length) file content) :
    (sizeSnapshot handle fd fast).wp room.env post file content := by
  simp only [sizeSnapshot, Prog.bind_eq_bind, Prog.wp_bind]
  apply wp_inlineSize
  · apply wp_ask
    rintro answer next ⟨rfl, rfl⟩
    exact hpost
  · exact hpost

theorem wp_readToEofParallel (handle : Handle) (fd : Fd) (fast : Bool) (start : ℕ) :
    (readToEofParallel handle fd fast start).wp room.env
      (fun result next world =>
        result = .ok (content.drop start) ∧ next = file ∧ world = content)
      file content := by
  have hfull : slice content start (content.length - start) = content.drop start :=
    slice_ge content (Nat.le_refl _)
  simp only [readToEofParallel, Prog.bind_eq_bind, Prog.wp_bind]
  apply wp_sizeSnapshot
  simp only [Prog.after_ok, Prog.wp_bind]
  apply wp_ask
  rintro answer next ⟨rfl, rfl⟩
  rw [hfull, Prog.after_ok, if_neg (by rw [List.length_drop]; exact Nat.lt_irrefl _),
    Prog.wp_bind]
  have htail := @wp_readTail room _ file handle [next.drop start] start
    (start + (next.drop start).length) (by
      rw [List.flatten_singleton, ← List.drop_drop, List.drop_length, List.append_nil])
  apply wp_inlineSize
  · exact htail
  · simp only [Prog.after_ok, if_true]
    exact ⟨rfl, rfl, rfl⟩

theorem wp_readRest (hfile : Aligned info file content) :
    BinaryFile.readRest.wp room.env
      (Returned info content (file.pos + (content.drop file.pos).length)
        (content.drop file.pos)) file content := by
  have hjoin := hfile.append_rest
  simp only [BinaryFile.readRest, Prog.bind_eq_bind, Prog.wp_bind, Prog.wp_state,
    Prog.after_ok]
  split
  · simp only [BinaryFile.readAllLarge, Prog.bind_eq_bind, Prog.wp_bind, Prog.wp_state,
      Prog.after_ok]
    refine Prog.wp_mono _ ?_ (wp_readToEofParallel _ _ _ _)
    rintro result next world ⟨rfl, rfl, rfl⟩
    simp only [Prog.after_ok, Prog.wp_bind, Prog.wp_state, Prog.wp_modify,
      Prog.pure_eq_done, Prog.wp_done, hjoin]
    refine ⟨rfl, rfl, ?_, hfile.withoutPending rfl rfl rfl⟩
    rw [← hjoin, List.length_append, Nat.add_assoc]
  · simp only [Prog.wp_bind]
    apply wp_fetchAll
    intro fast
    simp only [Prog.after_ok, Prog.wp_bind, Prog.wp_state, Prog.wp_modify,
      Prog.pure_eq_done, Prog.wp_done, hjoin]
    exact ⟨rfl, rfl, rfl, hfile.withoutPending rfl rfl rfl⟩

theorem wp_read1 (hfile : Aligned info file content) (size : ℤ)
    {post : Post BinaryFile PyError Bytes Bytes}
    (hpost : info.read = true → ∀ (data : Bytes) (next : BinaryFile),
      data <+: content.drop file.pos →
      data.length ≤ (if size < 0 then CHUNK else size.toNat) →
      (data = [] → content.drop file.pos = [] ∨ (if size < 0 then CHUNK else size.toNat) = 0) →
      next.pos = file.pos + data.length → Aligned info next content →
      post (.ok data) next content)
    (hrefused : info.read = false → post (.error notReadable) file content) :
    (BinaryFile.read1 size).wp room.env post file content := by
  simp only [BinaryFile.read1, Prog.bind_eq_bind]
  apply wp_readable hfile _ hrefused
  intro hread
  replace hpost := hpost hread
  generalize (if size < 0 then CHUNK else size.toNat) = want at hpost ⊢
  simp only [Prog.wp_bind, Prog.wp_state, Prog.after_ok]
  split
  · next hempty =>
      have hnil : file.pending = [] := List.isEmpty_iff.mp hempty
      simp only [Prog.wp_bind]
      apply wp_fetch
      intro fast
      simp only [Prog.after_ok, Prog.wp_bind, Prog.wp_modify, Prog.pure_eq_done, Prog.wp_done]
      apply hpost
      · exact slice_leading content file.pos want
      · exact List.length_take_le _ _
      · intro hdata
        rw [slice, List.take_eq_nil_iff] at hdata
        exact hdata.symm
      · rfl
      · exact hfile.withoutPending hnil rfl rfl
  · next hpending =>
      have hne : file.pending ≠ [] := by simpa using hpending
      apply wp_takePending hfile
      intro next hpos hnext
      apply hpost
      · exact (List.take_prefix _ _).trans hfile.leading_rest
      · exact List.length_take_le _ _
      · intro hdata
        rw [List.take_eq_nil_iff] at hdata
        exact Or.inr (hdata.resolve_right hne)
      · exact hpos
      · exact hnext

theorem wp_peek (hfile : Aligned info file content) (size : ℤ)
    {post : Post BinaryFile PyError Bytes Bytes}
    (hpost : info.read = true → ∀ (data : Bytes) (next : BinaryFile),
      data <+: content.drop file.pos → (data = [] → content.drop file.pos = []) →
      next.pos = file.pos → Aligned info next content → post (.ok data) next content)
    (hrefused : info.read = false → post (.error notReadable) file content) :
    (BinaryFile.peek size).wp room.env post file content := by
  simp only [BinaryFile.peek, Prog.bind_eq_bind]
  apply wp_readable hfile _ hrefused
  intro hread
  simp only [Prog.wp_bind, Prog.wp_state, Prog.after_ok]
  split
  · simp only [Prog.wp_bind]
    apply wp_fetch
    intro fast
    simp only [Prog.after_ok, Prog.wp_bind, Prog.wp_modify, Prog.pure_eq_done, Prog.wp_done]
    apply hpost hread
    · exact slice_leading content file.pos CHUNK
    · intro hdata
      rw [slice, List.take_eq_nil_iff] at hdata
      exact hdata.resolve_left (by decide)
    · rfl
    · exact hfile.withPending rfl rfl rfl
  · next hpending =>
      apply hpost hread
      · exact hfile.leading_rest
      · intro hdata
        simp [hdata] at hpending
      · rfl
      · exact hfile

/-- `readline`'s loop fetches what is enough to know the next line. -/
theorem wp_fillLine (hfile : Aligned info file content) (limit : Option ℕ)
    {post : Post BinaryFile PyError Bytes Unit}
    (hpost : ∀ next : BinaryFile, next.pos = file.pos → Aligned info next content →
      lineLength limit next.pending = lineLength limit (content.drop file.pos) →
      post (.ok ()) next content) :
    (BinaryFile.fillLine limit).wp room.env post file content := by
  simp only [BinaryFile.fillLine, Prog.bind_eq_bind, Prog.wp_bind, Prog.wp_state,
    Prog.after_ok]
  split
  · next hneed =>
      rw [Prog.wp_bind]
      refine Prog.wp_loop
        (fun value state world =>
          value.2 = value.1.flatten.length ∧
            value.1.flatten = slice content file.pos value.2 ∧
            (∃ fast, state = { file with fast := fast }) ∧ world = content)
        (fun value _ _ => content.length - (file.pos + value.2)) ?_
        ⟨by simp, by simpa using hfile.pending, ⟨file.fast, rfl⟩, rfl⟩
      rintro ⟨parts, total⟩ state world ⟨htotal, hparts, ⟨fast, rfl⟩, rfl⟩
      simp only [BinaryFile.fetchLine, Prog.bind_eq_bind, Prog.wp_bind, Prog.wp_state,
        Prog.after_ok]
      apply wp_fetch
      intro fast'
      have hchunk := length_slice world (file.pos + total) CHUNK
      have hleading : parts.flatten ++ slice world (file.pos + total) CHUNK =
          slice world file.pos (total + CHUNK) := by rw [hparts, slice_add]
      generalize slice world (file.pos + total) CHUNK = chunk at hchunk hleading ⊢
      have hjoin : (parts ++ [chunk]).flatten = parts.flatten ++ chunk := List.flatten_concat ..
      have hlength : (parts ++ [chunk]).flatten.length = total + chunk.length := by
        rw [hjoin, List.length_append]
        exact congrArg (· + chunk.length) htotal.symm
      have hnext : ∀ fast : Bool, Aligned info
          { file with fast := fast, pending := (parts ++ [chunk]).flatten } world :=
        fun fast => hfile.withPending (hjoin.trans hleading) rfl rfl
      have hrest : (parts ++ [chunk]).flatten <+: world.drop file.pos := by
        rw [hjoin, hleading]
        exact slice_leading _ _ _
      simp only [Prog.after_ok]
      split
      · next hempty =>
          have hnil : chunk = [] := List.isEmpty_iff.mp hempty
          have hall : parts.flatten = world.drop file.pos := by
            rw [hnil, List.length_nil] at hchunk
            rw [hparts, slice_ge]
            have hpositive : 0 < CHUNK := by decide
            omega
          exact hpost _ rfl (hfile.withPending hparts rfl rfl) (congrArg (lineLength limit) hall)
      · split
        · next hfound =>
            refine hpost _ rfl (hnext _) (lineLength_leading limit hrest (Or.inl ?_))
            rw [findNewline_isSome] at hfound ⊢
            rw [hjoin, List.any_append, hfound, Bool.or_true]
        · split
          · next hlimit =>
              refine hpost _ rfl (hnext _)
                (lineLength_leading limit hrest (Or.inr (Or.inl ?_)))
              rwa [hlength]
          · next hmore _ _ =>
              have hpositive : chunk.length ≠ 0 := by simpa using hmore
              refine ⟨⟨hlength.symm, ?_, ⟨fast', rfl⟩, rfl⟩, ?_⟩
              · rw [← hlength, hjoin, hleading, slice_length]
              · change world.length - (file.pos + (total + chunk.length)) <
                  world.length - (file.pos + total)
                omega
  · next henough =>
      refine hpost file rfl hfile (lineLength_leading limit hfile.leading_rest ?_)
      cases limit with
      | none =>
          left
          exact Option.isSome_iff_ne_none.mpr (by simpa using henough)
      | some limit =>
          rw [Option.all_some, not_and_or] at henough
          rcases henough with hfound | hlimit
          · left
            exact Option.isSome_iff_ne_none.mpr (by simpa using hfound)
          · right
            left
            simpa using hlimit

theorem wp_readline (hfile : Aligned info file content) (size : Option ℤ)
    {post : Post BinaryFile PyError Bytes Bytes}
    (hpost : info.read = true → ∀ next : BinaryFile,
      next.pos = file.pos + lineLength (asked size) (content.drop file.pos) →
      Aligned info next content →
      post (.ok (slice content file.pos (lineLength (asked size) (content.drop file.pos))))
        next content)
    (hrefused : info.read = false → post (.error notReadable) file content) :
    (BinaryFile.readline size).wp room.env post file content := by
  simp only [BinaryFile.readline, Prog.bind_eq_bind]
  apply wp_readable hfile _ hrefused
  intro hread
  rw [Prog.wp_bind]
  apply wp_fillLine hfile
  intro ahead hpos hahead hline
  have hle := lineLength_le (asked size) ahead.pending
  have htaken := hahead.take_pending hle
  have hleft := hahead.drop_pending (lineLength (asked size) ahead.pending)
  simp only [Prog.after_ok, Prog.wp_bind, Prog.wp_state, Prog.wp_modify, Prog.pure_eq_done,
    Prog.wp_done]
  rw [htaken, hline, hpos]
  apply hpost hread
  · rfl
  · rw [← hline, ← hpos]
    exact hahead.withPending hleft rfl rfl

theorem wp_readlines (hfile : Aligned info file content) (hint : Option ℤ)
    {post : Post BinaryFile PyError Bytes (List Bytes)}
    (hpost : info.read = true → ∀ next : BinaryFile,
      next.pos = file.pos +
        (takeLines hint 0 (splitLines (content.drop file.pos))).flatten.length →
      Aligned info next content →
      post (.ok (takeLines hint 0 (splitLines (content.drop file.pos)))) next content)
    (hrefused : info.read = false → post (.error notReadable) file content) :
    (BinaryFile.readlines hint).wp room.env post file content := by
  -- the lines so far and those of the rest are the lines of the whole
  refine Prog.wp_loop
    (fun value state world =>
      world = content ∧ Aligned info state content ∧ (info.read = false → state = file) ∧
        value.2 = value.1.flatten.length ∧ state.pos = file.pos + value.2 ∧
        value.1 ++ takeLines hint value.2 (splitLines (content.drop state.pos)) =
          takeLines hint 0 (splitLines (content.drop file.pos)))
    (fun _ state _ => content.length - state.pos) ?_
    ⟨rfl, hfile, fun _ => rfl, rfl, rfl, rfl⟩
  rintro ⟨lines, total⟩ state world ⟨rfl, hstate, hsame, htotal, hpos, hlines⟩
  replace htotal : total = lines.flatten.length := htotal
  replace hpos : state.pos = file.pos + total := hpos
  replace hlines : lines ++ takeLines hint total (splitLines (world.drop state.pos)) =
    takeLines hint 0 (splitLines (world.drop file.pos)) := hlines
  simp only [BinaryFile.nextLine, Prog.bind_eq_bind, Prog.wp_bind]
  apply wp_readline hstate
  · intro hread next hnext haligned
    replace hnext : next.pos = state.pos + lineEnd (world.drop state.pos) := hnext
    change Prog.after _ _ _ (.ok ((world.drop state.pos).take (lineEnd (world.drop state.pos))))
      next world
    have hle := lineEnd_le (world.drop state.pos)
    have hdrop : (world.drop state.pos).drop (lineEnd (world.drop state.pos)) =
        world.drop next.pos := by rw [List.drop_drop, hnext]
    have hbound : (world.drop state.pos).length = world.length - state.pos := List.length_drop
    generalize hrest : world.drop state.pos = rest at hlines hnext hle hdrop hbound ⊢
    have hlength : (rest.take (lineEnd rest)).length = lineEnd rest := by
      rw [List.length_take, Nat.min_eq_left hle]
    simp only [Prog.after_ok, hlength]
    split
    · next hempty =>
        have hnil : rest = [] := by
          by_contra hne
          have hpositive := lineEnd_pos hne
          rw [List.isEmpty_iff] at hempty
          rw [hempty, List.length_nil] at hlength
          omega
        subst hnil
        have hdone : lines = takeLines hint 0 (splitLines (world.drop file.pos)) := by
          simpa [splitLines, takeLines] using hlines
        subst hdone
        refine hpost hread next ?_ haligned
        rw [hnext, hpos, htotal]
        rfl
    · next hmore =>
        have hne : rest ≠ [] := by
          rintro rfl
          simp at hmore
        have hpositive := lineEnd_pos hne
        have hflat : (lines ++ [rest.take (lineEnd rest)]).flatten.length =
            total + lineEnd rest := by
          rw [List.flatten_concat, List.length_append, hlength, htotal]
        rw [takeLines_splitLines hint total hne, hdrop] at hlines
        split
        · next hreached =>
            rw [if_pos hreached] at hlines
            simp only [Prog.pure_eq_done, Prog.wp_done]
            rw [hlines] at hflat ⊢
            refine hpost hread next ?_ haligned
            rw [hflat, hnext, hpos, Nat.add_assoc]
        · next hunreached =>
            rw [if_neg hunreached] at hlines
            refine ⟨⟨rfl, haligned, fun hfalse => ?_, hflat.symm, ?_, ?_⟩, ?_⟩
            · rw [hread] at hfalse
              cases hfalse
            · rw [hnext, hpos, Nat.add_assoc]
            · rw [List.append_assoc]
              exact hlines
            · omega
  · intro hread
    rw [hsame hread]
    exact hrefused hread

theorem wp_readinto (hfile : Aligned info file content) (buffer : Bytes)
    {post : Post BinaryFile PyError Bytes (ℕ × Bytes)}
    (hpost : info.read = true → ∀ next : BinaryFile,
      next.pos = file.pos + (slice content file.pos buffer.length).length →
      Aligned info next content →
      post (.ok ((slice content file.pos buffer.length).length,
        slice content file.pos buffer.length ++
          buffer.drop (slice content file.pos buffer.length).length)) next content)
    (hrefused : info.read = false → post (.error notReadable) file content) :
    (BinaryFile.readinto buffer).wp room.env post file content := by
  simp only [BinaryFile.readinto, Prog.bind_eq_bind]
  apply wp_readable hfile _ hrefused
  intro hread
  simp only [Prog.wp_bind, Prog.wp_state, Prog.after_ok]
  split
  · next hempty =>
      have hnil : file.pending = [] := List.isEmpty_iff.mp hempty
      rw [Prog.wp_bind]
      apply wp_fetchInto
      intro fast
      simp only [Prog.after_ok, Prog.wp_bind, Prog.wp_modify, Prog.pure_eq_done, Prog.wp_done]
      exact hpost hread _ rfl (hfile.withoutPending hnil rfl rfl)
  · have hfront := hfile.take_pending (Nat.min_le_right buffer.length file.pending.length)
    have hback := hfile.drop_pending (min buffer.length file.pending.length)
    simp only [Prog.wp_bind, Prog.wp_modify, Prog.after_ok]
    split
    · next hall =>
        have hlength : (slice content file.pos buffer.length).length = buffer.length := by
          rw [hall] at hfront
          rw [← hfront, List.length_take]
          exact hall
        rw [hall] at hfront hback ⊢
        rw [hlength, List.drop_length, List.append_nil] at hpost
        rw [hfront]
        exact hpost hread _ rfl (hfile.withPending hback rfl rfl)
    · next hpart =>
        have hmin : min buffer.length file.pending.length = file.pending.length := by omega
        have hjoin : file.pending ++
            slice content (file.pos + file.pending.length)
              (buffer.length - file.pending.length) =
            slice content file.pos buffer.length := by
          rw [hfile.append_slice]
          congr 1
          omega
        rw [hmin, List.take_length, List.drop_length]
        simp only [Prog.wp_bind, Prog.wp_state, Prog.after_ok]
        apply wp_fetchInto
        intro fast
        simp only [Prog.after_ok, Prog.wp_bind, Prog.wp_modify, Prog.pure_eq_done,
          Prog.wp_done]
        rw [← hjoin, List.length_append] at hpost
        refine hpost hread _ ?_ (hfile.withoutPending rfl rfl rfl)
        rw [Nat.add_assoc]

theorem wp_read (hfile : Aligned info file content) (size : Option ℤ)
    {post : Post BinaryFile PyError Bytes Bytes}
    (hpost : info.read = true → ∀ (data : Bytes) (next : BinaryFile),
      data = (match asked size with
        | none => content.drop file.pos
        | some n => slice content file.pos n) →
      next.pos = file.pos + data.length → Aligned info next content →
      post (.ok data) next content)
    (hrefused : info.read = false → post (.error notReadable) file content) :
    (BinaryFile.read size).wp room.env post file content := by
  simp only [BinaryFile.read, Prog.bind_eq_bind]
  apply wp_readable hfile _ hrefused
  intro hread
  replace hpost := hpost hread
  cases hsize : asked size with
  | none =>
      rw [hsize] at hpost
      apply Prog.wp_mono _ _ (wp_readRest hfile)
      rintro result next world ⟨rfl, rfl, hpos, hnext⟩
      exact hpost _ next rfl hpos hnext
  | some n =>
      rw [hsize] at hpost
      apply Prog.wp_mono _ _ (wp_readSized hfile n)
      rintro result next world ⟨rfl, rfl, hpos, hnext⟩
      exact hpost _ next rfl hpos hnext

end Turbofile.Binary
