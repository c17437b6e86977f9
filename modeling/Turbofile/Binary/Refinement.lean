import Turbofile.Binary.Reads

/-!
# `BinaryFile` refines the reference file

Every operation ends with a result and a next state the reference file allows,
and from it every sequence of operations.
-/

namespace Turbofile.Binary

open Turbofile.Core
open Turbofile.Coroutine

variable {room : Room} {info : ModeInfo} {file : BinaryFile} {content : Bytes}

/-! ## Writes and positions -/

/-- A write ends as the reference file's does. -/
theorem Room.wp_write (hfile : Aligned info file content) (data : Bytes)
    {post : Post BinaryFile PyError Bytes ℕ}
    (hpost : ∀ (result : Except PyError ℕ) (next : BinaryFile) (content' : Bytes),
      room.RefStep info (.write data) ⟨content, file.pos⟩ (result.map fun n => .int n)
        ⟨content', next.pos⟩ → Aligned info next content' → post result next content') :
    (BinaryFile.write data).wp room.env post file content := by
  simp only [BinaryFile.write, Prog.bind_eq_bind]
  apply wp_writable hfile
  · intro hwrite
    simp only [Room.RefStep, hwrite, if_true] at hpost
    simp only [Prog.wp_bind, Prog.wp_modify, Prog.wp_state, Prog.after_ok, hfile.info]
    apply wp_ask
    intro answer content' hanswer
    simp only [Room.env] at hanswer
    cases hverdict : room.ofWrite info.append content file.pos data with
    | fits =>
        simp only [hverdict] at hanswer hpost
        obtain ⟨rfl, rfl⟩ := hanswer
        exact hpost (.ok data.length) _ _ ⟨rfl, rfl⟩ (hfile.withoutPending rfl rfl hfile.info.symm)
    | overflows =>
        simp only [hverdict] at hanswer hpost
        obtain ⟨rfl, rfl⟩ := hanswer
        exact hpost (.error .overflowError) _ _ ⟨rfl, rfl⟩
          (hfile.withoutPending rfl rfl hfile.info.symm)
    | refused =>
        simp only [hverdict] at hanswer hpost
        obtain ⟨⟨stored, hstored, rfl⟩, errno, rfl⟩ := hanswer
        exact hpost (.error (.osError (.os errno))) _ _ ⟨⟨errno, rfl⟩, stored, hstored, rfl⟩
          (hfile.withoutPending rfl rfl hfile.info.symm)
    | astray =>
        simp only [hverdict] at hpost
        cases answer with
        | error error =>
            exact hpost (.error error) _ _ trivial (hfile.withoutPending rfl rfl hfile.info.symm)
        | ok answer =>
            obtain ⟨n, finish⟩ := answer
            exact hpost (.ok n) _ _ trivial (hfile.withoutPending rfl rfl hfile.info.symm)
  · intro hwrite
    simp only [Room.RefStep, hwrite, Bool.false_eq_true, if_false] at hpost
    exact hpost (.error notWritable) _ _ ⟨rfl, rfl⟩ hfile

/-- With room for everything a write stores its bytes. -/
theorem wp_write (hfile : Aligned info file content) (data : Bytes)
    {post : Post BinaryFile PyError Bytes ℕ}
    (hpost : info.writable = true → ∀ (next : BinaryFile) (content' : Bytes),
      (if info.append then content' = content ++ data ∧ next.pos = content.length + data.length
        else content' = splice content file.pos data ∧ next.pos = file.pos + data.length) →
      Aligned info next content' → post (.ok data.length) next content')
    (hrefused : info.writable = false → post (.error notWritable) file content) :
    (BinaryFile.write data).wp fileEnv post file content := by
  simp only [BinaryFile.write, Prog.bind_eq_bind]
  apply wp_writable hfile _ hrefused
  intro hwrite
  simp only [Prog.wp_bind, Prog.wp_modify, Prog.wp_state, Prog.after_ok, hfile.info]
  apply wp_ask
  rintro answer content' ⟨rfl, rfl⟩
  refine hpost hwrite _ _ ?_ (hfile.withoutPending rfl rfl hfile.info.symm)
  unfold placed placeOf
  split <;> exact ⟨rfl, rfl⟩

theorem wp_seekFrom (hfile : Aligned info file content) (pos whence : ℤ)
    {post : Post BinaryFile PyError Bytes ℤ}
    (hpost : ∀ next : BinaryFile, next.pos = file.pos → Aligned info next content →
      post (seekTarget ⟨content, file.pos⟩ pos whence) next content) :
    (BinaryFile.seekFrom pos whence).wp room.env post file content := by
  simp only [seekTarget] at hpost
  simp only [BinaryFile.seekFrom, Prog.bind_eq_bind, Prog.wp_bind, Prog.wp_state, Prog.after_ok]
  by_cases hstart : whence = 0
  · simp only [if_pos hstart] at hpost ⊢
    exact hpost file rfl hfile
  · by_cases hcurrent : whence = 1
    · simp only [if_neg hstart, if_pos hcurrent] at hpost ⊢
      exact hpost file rfl hfile
    · by_cases hend : whence = 2
      · simp only [if_neg hstart, if_neg hcurrent, if_pos hend] at hpost ⊢
        rw [Prog.wp_bind]
        apply wp_ask
        rintro answer next ⟨rfl, rfl⟩
        exact hpost _ rfl (hfile.withPending hfile.pending rfl rfl)
      · simp only [if_neg hstart, if_neg hcurrent, if_neg hend] at hpost ⊢
        exact hpost file rfl hfile

theorem wp_seek (hfile : Aligned info file content) (pos whence : ℤ)
    {post : Post BinaryFile PyError Bytes ℤ}
    (herror : ∀ (error : PyError) (next : BinaryFile),
      seekTarget ⟨content, file.pos⟩ pos whence = .error error → next.pos = file.pos →
      Aligned info next content → post (.error error) next content)
    (hnegative : ∀ (target : ℤ) (next : BinaryFile),
      seekTarget ⟨content, file.pos⟩ pos whence = .ok target → target < 0 →
      next.pos = file.pos → Aligned info next content →
      post (.error .invalidArgument) next content)
    (hpost : ∀ (target : ℤ) (next : BinaryFile),
      seekTarget ⟨content, file.pos⟩ pos whence = .ok target → ¬target < 0 →
      next.pos = target.toNat → Aligned info next content → post (.ok target) next content) :
    (BinaryFile.seek pos whence).wp room.env post file content := by
  simp only [BinaryFile.seek, Prog.bind_eq_bind]
  apply wp_opened hfile
  rw [Prog.wp_bind]
  apply wp_seekFrom hfile
  intro next hpos hnext
  cases htarget : seekTarget ⟨content, file.pos⟩ pos whence with
  | error error => exact herror error next htarget hpos hnext
  | ok target =>
      rw [Prog.after_ok]
      split
      · next hlt => exact hnegative target next htarget hlt hpos hnext
      · next hge =>
          simp only [Prog.wp_bind, Prog.wp_modify, Prog.after_ok, Prog.pure_eq_done,
            Prog.wp_done]
          exact hpost target _ htarget hge rfl (hnext.withoutPending rfl rfl rfl)

theorem wp_tell (hfile : Aligned info file content) {post : Post BinaryFile PyError Bytes ℕ}
    (hpost : post (.ok file.pos) file content) :
    BinaryFile.tell.wp room.env post file content := by
  simp only [BinaryFile.tell, Prog.bind_eq_bind]
  apply wp_opened hfile
  simpa only [Prog.wp_bind, Prog.wp_state, Prog.after_ok, Prog.pure_eq_done, Prog.wp_done]
    using hpost

/-- A truncation ends as the reference file's does. -/
theorem Room.wp_truncate (hfile : Aligned info file content) (size : Option ℤ)
    {post : Post BinaryFile PyError Bytes ℤ}
    (hpost : ∀ (result : Except PyError ℤ) (next : BinaryFile) (content' : Bytes),
      room.RefStep info (.truncate size) ⟨content, file.pos⟩ (result.map .int)
        ⟨content', next.pos⟩ → Aligned info next content' → post result next content') :
    (BinaryFile.truncate size).wp room.env post file content := by
  simp only [BinaryFile.truncate, Prog.bind_eq_bind]
  apply wp_writable hfile
  · intro hwrite
    simp only [Room.RefStep, hwrite, if_true] at hpost
    simp only [Prog.wp_bind, Prog.wp_modify, Prog.wp_state, Prog.after_ok]
    apply wp_ask
    intro answer content' hanswer
    simp only [Room.env] at hanswer
    have hcleared : ∀ kept pos, Aligned info
        { file with pos := pos, sizeHint := kept, pending := [] } content' :=
      fun _ _ => hfile.withoutPending rfl rfl rfl
    cases hverdict : room.ofSize (size.getD file.pos) with
    | fits =>
        simp only [hverdict] at hanswer hpost
        obtain ⟨rfl, rfl⟩ := hanswer
        exact hpost (.ok (size.getD file.pos)) _ _ ⟨rfl, rfl⟩ (hcleared _ _)
    | overflows =>
        simp only [hverdict] at hanswer hpost
        obtain ⟨rfl, rfl⟩ := hanswer
        exact hpost (.error .overflowError) _ _ ⟨rfl, rfl⟩ (hcleared _ _)
    | refused | astray =>
        simp only [hverdict] at hanswer hpost
        obtain ⟨rfl, errno, rfl⟩ := hanswer
        exact hpost (.error (.osError (.os errno))) _ _ ⟨⟨errno, rfl⟩, rfl⟩ (hcleared _ _)
  · intro hwrite
    simp only [Room.RefStep, hwrite, Bool.false_eq_true, if_false] at hpost
    exact hpost (.error notWritable) _ _ ⟨rfl, rfl⟩ hfile

theorem wp_truncate (hfile : Aligned info file content) (size : Option ℤ)
    {post : Post BinaryFile PyError Bytes ℤ}
    (hnegative : info.writable = true → size.getD file.pos < 0 →
      ∀ next : BinaryFile, next.pos = file.pos → Aligned info next content →
      post (.error .overflowError) next content)
    (hpost : info.writable = true → ¬size.getD file.pos < 0 →
      ∀ next : BinaryFile, next.pos = file.pos →
      Aligned info next (resize content (size.getD file.pos).toNat) →
      post (.ok (size.getD file.pos)) next (resize content (size.getD file.pos).toNat))
    (hrefused : info.writable = false → post (.error notWritable) file content) :
    (BinaryFile.truncate size).wp fileEnv post file content := by
  simp only [BinaryFile.truncate, Prog.bind_eq_bind]
  apply wp_writable hfile _ hrefused
  intro hwrite
  simp only [Prog.wp_bind, Prog.wp_modify, Prog.wp_state, Prog.after_ok]
  apply wp_ask
  intro answer next hanswer
  simp only [Room.env, Room.ofSize] at hanswer
  by_cases hlt : size.getD file.pos < 0
  · rw [if_pos hlt] at hanswer
    obtain ⟨rfl, rfl⟩ := hanswer
    exact hnegative hwrite hlt _ rfl (hfile.withoutPending rfl rfl rfl)
  · rw [if_neg hlt] at hanswer
    obtain ⟨rfl, rfl⟩ := hanswer
    exact hpost hwrite hlt _ rfl (hfile.withoutPending rfl rfl rfl)

/-! ## Every operation -/

/-- What the reference file allows an operation to do from here. -/
def Allowed (room : Room) (info : ModeInfo) (op : BinOp) (before : RefFile) :
    Post BinaryFile PyError Bytes Value :=
  fun result file content =>
    room.RefStep info op before result ⟨content, file.pos⟩ ∧ Aligned info file content

theorem RefFile.rest_mk (content : Bytes) (cursor : ℕ) :
    RefFile.rest ⟨content, cursor⟩ = content.drop cursor := rfl

theorem RefFile.take_mk (content : Bytes) (cursor n : ℕ) :
    RefFile.take ⟨content, cursor⟩ n =
      (slice content cursor n, ⟨content, cursor + (slice content cursor n).length⟩) := rfl

theorem RefFile.all_mk (content : Bytes) (cursor : ℕ) :
    RefFile.all ⟨content, cursor⟩ =
      (content.drop cursor, ⟨content, cursor + (content.drop cursor).length⟩) := by
  rw [RefFile.all, RefFile.take_mk, RefFile.rest_mk, List.length_drop,
    slice_ge content (Nat.le_refl _), List.length_drop]

/-- The operations that `check_readable` guards. -/
def BinOp.isRead : BinOp → Bool
  | .read _ | .readall | .read1 _ | .peek _ | .readline _ | .readlines _ | .readinto _ => true
  | .write _ | .seek _ _ | .tell | .truncate _ => false

theorem refStep_read {op : BinOp} (hop : op.isRead = true) (before after : RefFile)
    (result : Result) :
    room.RefStep info op before result after ↔
      if info.read then ∃ value, result = .ok value ∧ RefRead op before value after
      else result = .error notReadable ∧ after = before := by
  cases op with
  | write data => cases hop
  | seek pos whence => cases hop
  | tell => cases hop
  | truncate size => cases hop
  | read size => exact Iff.rfl
  | read1 size => exact Iff.rfl
  | readall => exact Iff.rfl
  | peek size => exact Iff.rfl
  | readline size => exact Iff.rfl
  | readlines hint => exact Iff.rfl
  | readinto buffer => exact Iff.rfl

/-- A read the mode refuses. -/
theorem refused_read (hfile : Aligned info file content) {op : BinOp}
    (hop : op.isRead = true) (hread : info.read = false) :
    Allowed room info op ⟨content, file.pos⟩ (.error notReadable) file content := by
  refine ⟨(refStep_read hop _ _ _).mpr ?_, hfile⟩
  rw [hread]
  exact ⟨rfl, rfl⟩

/-- A read the mode permits. -/
theorem allowed_read {op : BinOp} {before : RefFile} {next : BinaryFile} {value : Value}
    (hop : op.isRead = true) (hread : info.read = true) (hnext : Aligned info next content)
    (hvalue : RefRead op before value ⟨content, next.pos⟩) :
    Allowed room info op before (.ok value) next content := by
  refine ⟨(refStep_read hop _ _ _).mpr ?_, hnext⟩
  rw [hread]
  exact ⟨value, rfl, hvalue⟩

/-- `perform` names the operation and wraps its result. -/
theorem wp_performed {α : Type} {op : BinOp} {prog : BinaryProg α} {wrap : α → BinaryProg Value}
    {post : Post BinaryFile PyError Bytes Value}
    (hop : BinaryFile.perform op = prog.bind wrap)
    (hprog : prog.wp room.env (Prog.after room.env wrap post) file content) :
    (BinaryFile.perform op).wp room.env post file content := by
  rw [hop, Prog.wp_bind]
  exact hprog

theorem perform_read (hfile : Aligned info file content) (size : Option ℤ) :
    (BinaryFile.perform (.read size)).wp room.env
      (Allowed room info (.read size) ⟨content, file.pos⟩) file content := by
  apply wp_performed rfl
  apply wp_read hfile
  · intro hread data next hdata hpos hnext
    apply allowed_read rfl hread hnext
    cases hsize : asked size with
    | none =>
        rw [hsize] at hdata
        simp only [RefRead, hsize, RefFile.all_mk]
        rw [hpos, hdata]
        exact ⟨rfl, rfl⟩
    | some n =>
        rw [hsize] at hdata
        simp only [RefRead, hsize, RefFile.take_mk]
        rw [hpos, hdata]
        exact ⟨rfl, rfl⟩
  · exact refused_read hfile rfl

theorem perform_readall (hfile : Aligned info file content) :
    (BinaryFile.perform .readall).wp room.env (Allowed room info .readall ⟨content, file.pos⟩)
      file content := by
  apply @wp_performed room file content _ _ (BinaryFile.read (some (-1))) _ _ rfl
  apply wp_read hfile
  · intro hread data next hdata hpos hnext
    replace hdata : data = content.drop file.pos := hdata
    apply allowed_read rfl hread hnext
    simp only [RefRead]
    rw [RefFile.all_mk, hpos, hdata]
    exact ⟨rfl, rfl⟩
  · exact refused_read hfile rfl

theorem perform_read1 (hfile : Aligned info file content) (size : ℤ) :
    (BinaryFile.perform (.read1 size)).wp room.env
      (Allowed room info (.read1 size) ⟨content, file.pos⟩) file content := by
  apply wp_performed rfl
  apply wp_read1 hfile
  · intro hread data next hleading hlength hempty hpos hnext
    apply allowed_read rfl hread hnext
    exact ⟨data, hleading, hlength, hempty, rfl, by rw [hpos]⟩
  · exact refused_read hfile rfl

theorem perform_peek (hfile : Aligned info file content) (size : ℤ) :
    (BinaryFile.perform (.peek size)).wp room.env
      (Allowed room info (.peek size) ⟨content, file.pos⟩) file content := by
  apply wp_performed rfl
  apply wp_peek hfile
  · intro hread data next hleading hempty hpos hnext
    apply allowed_read rfl hread hnext
    exact ⟨data, hleading, hempty, rfl, by rw [hpos]⟩
  · exact refused_read hfile rfl

theorem perform_readline (hfile : Aligned info file content) (size : Option ℤ) :
    (BinaryFile.perform (.readline size)).wp room.env
      (Allowed room info (.readline size) ⟨content, file.pos⟩) file content := by
  apply wp_performed rfl
  apply wp_readline hfile
  · intro hread next hpos hnext
    apply allowed_read rfl hread hnext
    simp only [RefRead, RefFile.rest_mk, RefFile.take_mk]
    refine ⟨trivial, ?_⟩
    have hle := lineLength_le (asked size) (content.drop file.pos)
    rw [List.length_drop] at hle
    rw [hpos, length_slice, Nat.min_eq_left hle]
  · exact refused_read hfile rfl

theorem perform_readlines (hfile : Aligned info file content) (hint : Option ℤ) :
    (BinaryFile.perform (.readlines hint)).wp room.env
      (Allowed room info (.readlines hint) ⟨content, file.pos⟩) file content := by
  apply wp_performed rfl
  apply wp_readlines hfile
  · intro hread next hpos hnext
    apply allowed_read rfl hread hnext
    simp [RefRead, RefFile.rest_mk, hpos]
  · exact refused_read hfile rfl

theorem perform_readinto (hfile : Aligned info file content) (buffer : Bytes) :
    (BinaryFile.perform (.readinto buffer)).wp room.env
      (Allowed room info (.readinto buffer) ⟨content, file.pos⟩) file content := by
  apply wp_performed rfl
  apply wp_readinto hfile
  · intro hread next hpos hnext
    apply allowed_read rfl hread hnext
    simp [RefRead, RefFile.take_mk, hpos]
  · exact refused_read hfile rfl

theorem perform_write (hfile : Aligned info file content) (data : Bytes) :
    (BinaryFile.perform (.write data)).wp room.env
      (Allowed room info (.write data) ⟨content, file.pos⟩) file content := by
  apply wp_performed rfl
  apply Room.wp_write hfile
  intro result next content' hstep hnext
  cases result with
  | ok n => exact ⟨hstep, hnext⟩
  | error error => exact ⟨hstep, hnext⟩

theorem perform_seek (hfile : Aligned info file content) (pos whence : ℤ) :
    (BinaryFile.perform (.seek pos whence)).wp room.env
      (Allowed room info (.seek pos whence) ⟨content, file.pos⟩) file content := by
  apply wp_performed rfl
  apply wp_seek hfile
  · intro error next htarget hpos hnext
    refine ⟨?_, hnext⟩
    simp [Room.RefStep, htarget, hpos]
  · intro target next htarget hlt hpos hnext
    refine ⟨?_, hnext⟩
    simp [Room.RefStep, htarget, hpos, if_pos hlt]
  · intro target next htarget hge hpos hnext
    refine ⟨?_, hnext⟩
    simp [Room.RefStep, htarget, hpos, if_neg hge]

theorem perform_tell (hfile : Aligned info file content) :
    (BinaryFile.perform .tell).wp room.env (Allowed room info .tell ⟨content, file.pos⟩)
      file content := by
  apply wp_performed rfl
  apply wp_tell hfile
  exact ⟨⟨rfl, rfl⟩, hfile⟩

theorem perform_truncate (hfile : Aligned info file content) (size : Option ℤ) :
    (BinaryFile.perform (.truncate size)).wp room.env
      (Allowed room info (.truncate size) ⟨content, file.pos⟩) file content := by
  apply wp_performed rfl
  apply Room.wp_truncate hfile
  intro result next content' hstep hnext
  cases result with
  | ok target => exact ⟨hstep, hnext⟩
  | error error => exact ⟨hstep, hnext⟩

/-- Every operation does what the reference file allows. -/
theorem wp_perform (hfile : Aligned info file content) (op : BinOp) :
    (BinaryFile.perform op).wp room.env (Allowed room info op ⟨content, file.pos⟩)
      file content := by
  cases op with
  | read size => exact perform_read hfile size
  | read1 size => exact perform_read1 hfile size
  | readall => exact perform_readall hfile
  | peek size => exact perform_peek hfile size
  | readline size => exact perform_readline hfile size
  | readlines hint => exact perform_readlines hfile hint
  | readinto buffer => exact perform_readinto hfile buffer
  | write data => exact perform_write hfile data
  | seek pos whence => exact perform_seek hfile pos whence
  | tell => exact perform_tell hfile
  | truncate size => exact perform_truncate hfile size

/-! ## Every sequence of operations -/

/-- What the reference file allows a sequence of operations to do from here. -/
def AllowedAll (room : Room) (info : ModeInfo) (ops : List BinOp) (before : RefFile) :
    Post BinaryFile PyError Bytes (List (BinOp × Result)) :=
  fun result file content =>
    ∃ results, result = .ok results ∧ results.map Prod.fst = ops ∧
      room.RefRun info before results ⟨content, file.pos⟩ ∧ Aligned info file content

theorem wp_performAll (hfile : Aligned info file content) (ops : List BinOp) :
    (BinaryFile.performAll ops).wp room.env (AllowedAll room info ops ⟨content, file.pos⟩)
      file content := by
  induction ops generalizing file content with
  | nil => exact ⟨[], rfl, rfl, .nil _, hfile⟩
  | cons op ops ih =>
      simp only [BinaryFile.performAll, Prog.bind_eq_bind, Prog.wp_bind, Prog.wp_attempt,
        Prog.after_ok]
      apply Prog.wp_mono _ _ (wp_perform hfile op)
      rintro result next content' ⟨hstep, hnext⟩
      apply Prog.wp_mono _ _ (ih hnext)
      rintro _ last world ⟨results, rfl, hops, hrun, hlast⟩
      refine ⟨(op, result) :: results, rfl, ?_, .cons hstep hrun, hlast⟩
      rw [List.map_cons, hops]

theorem Aligned.new (handle : Handle) (fd : Fd) (size : ℕ) (info : ModeInfo)
    (content : Bytes) : Aligned info (.new handle fd size info) content :=
  ⟨rfl, rfl, rfl⟩

end Turbofile.Binary
