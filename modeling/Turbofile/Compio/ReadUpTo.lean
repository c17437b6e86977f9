import Turbofile.Compio.Step

/-!
# `read_up_to` over short reads

The loop of `read_up_to` on its own, over a file that stays as it is and a
kernel that answers each call with some number of bytes.  Every call is given
the whole buffer, so the bytes of every call land at its start.
-/

namespace Turbofile.Compio

open Turbofile.Core

/-! ## The loop -/

/-- `file.read_at(buf, offset)` when the kernel returns `count` bytes. -/
def readAt (content : List Byte) (offset count : ℕ) (buf : Buf) : ℕ × Buf :=
  let data := (content.drop offset).take count
  (data.length, buf.fill data)

/-- `read_up_to` with the cancel flag unset, for so many rounds at most; the
kernel answers the calls with `counts 0`, `counts 1`, ... -/
def readUpTo (content : List Byte) (pos len : ℕ) (counts : ℕ → ℕ) (buf : Buf) :
    ℕ → Option (ℕ × Buf)
  | 0 => none
  | rounds + 1 =>
      let filled := buf.len
      if len ≤ filled then some (filled, buf)
      else
        let (n, buf) := readAt content (pos + filled) (counts 0) buf
        if n = 0 then some (buf.len, buf)
        else readUpTo content pos len (fun call => counts (call + 1)) buf rounds

def destLen : Dest → ℕ
  | .alloc len => len
  | .into _ len => len

/-- The buffer `execute` starts with.  A `Vec` may have room to spare, and the
memory holds what it held before. -/
def destBuf (dest : Dest) (spare : ℕ) (memory : List Byte) : Buf :=
  match dest with
  | .alloc len => ⟨len + spare, 0, memory⟩
  | .into _ len => ⟨len, 0, memory⟩

def destReply (dest : Dest) (n : ℕ) (buf : Buf) : Reply :=
  match dest with
  | .alloc _ => .bytes (buf.mem.take buf.len)
  | .into _ _ => .read n

@[simp]
theorem destBuf_len (dest : Dest) (spare : ℕ) (memory : List Byte) :
    (destBuf dest spare memory).len = 0 := by
  cases dest <;> rfl

/-- What one call leaves in the buffer: its bytes are at the start, wherever
they come from. -/
theorem readUpTo_call {content : List Byte} {pos len : ℕ} {counts : ℕ → ℕ} {buf : Buf}
    (hlen : buf.len < len) (hcount : counts 0 ≤ content.length - (pos + buf.len)) :
    ∃ next : Buf, next.len = max buf.len (counts 0) ∧
      next.mem.take (counts 0) = (content.drop (pos + buf.len)).take (counts 0) ∧
      ∀ rounds, readUpTo content pos len counts buf (rounds + 1) =
        if counts 0 = 0 then some (next.len, next)
        else readUpTo content pos len (fun call => counts (call + 1)) next rounds := by
  have hdata : ((content.drop (pos + buf.len)).take (counts 0)).length = counts 0 := by
    rw [List.length_take, List.length_drop]
    exact min_eq_left hcount
  refine ⟨buf.fill ((content.drop (pos + buf.len)).take (counts 0)), ?_, ?_, ?_⟩
  · rw [Buf.fill, hdata]
  · rw [Buf.fill, List.take_left' hdata]
  · intro rounds
    rw [readUpTo, if_neg (Nat.not_le_of_lt hlen), readAt, hdata]

/-! ## What the kernel may answer -/

/-- One answer: nothing exactly at the end of the file, otherwise no more than
the request and the file leave. -/
def MayReturn (size pos len filled count : ℕ) : Prop :=
  if pos + filled < size then
    0 < count ∧ count ≤ len - filled ∧ count ≤ size - (pos + filled)
  else count = 0

/-- The initialised length after so many more calls. -/
def filledAfter (filled : ℕ) (counts : ℕ → ℕ) : ℕ → ℕ
  | 0 => filled
  | calls + 1 => filledAfter (max filled (counts 0)) (fun call => counts (call + 1)) calls

/-- Every call the loop goes on to make is answered as the kernel may. -/
def Answered (size pos len filled : ℕ) (counts : ℕ → ℕ) : Prop :=
  ∀ calls, filledAfter filled counts calls < len → (∀ call < calls, counts call ≠ 0) →
    MayReturn size pos len (filledAfter filled counts calls) (counts calls)

theorem Answered.head {size pos len filled : ℕ} {counts : ℕ → ℕ}
    (hanswered : Answered size pos len filled counts) (hlen : filled < len) :
    MayReturn size pos len filled (counts 0) :=
  hanswered 0 hlen (by simp)

theorem Answered.next {size pos len filled : ℕ} {counts : ℕ → ℕ}
    (hanswered : Answered size pos len filled counts) (hcount : counts 0 ≠ 0) :
    Answered size pos len (max filled (counts 0)) fun call => counts (call + 1) := by
  intro calls hlen hearlier
  apply hanswered (calls + 1) hlen
  intro call hcall
  cases call with
  | zero => exact hcount
  | succ call => exact hearlier call (Nat.lt_of_succ_lt_succ hcall)

/-! ## One call is enough, or none is -/

/-- The range the op asks for, as far as the file has it. -/
def rangeLength (size pos len : ℕ) : ℕ := min len (size - pos)

/-- A call of `read_up_to` with these counts returns, with the range. -/
def ReadsRange (content : List Byte) (pos len : ℕ) (counts : ℕ → ℕ) (buf : Buf) : Prop :=
  ∃ rounds n filled, readUpTo content pos len counts buf rounds = some (n, filled) ∧
    n = rangeLength content.length pos len ∧
    filled.mem.take n = (content.drop pos).take n

/-- After the range has been read, the loop returns it: it is full, or the
next call is at the end of the file. -/
theorem readUpTo_whole {content : List Byte} {pos len : ℕ} (counts : ℕ → ℕ) {buf : Buf}
    (hwhole : buf.len = rangeLength content.length pos len) :
    readUpTo content pos len counts buf 1 = some (buf.len, buf) := by
  rw [readUpTo]
  by_cases hall : len ≤ buf.len
  · rw [if_pos hall]
  · have hend : content.drop (pos + buf.len) = [] := by
      rw [List.drop_eq_nil_iff]
      simp only [rangeLength] at hwhole
      omega
    rw [if_neg hall, readAt, hend]
    simp [Buf.fill]

/-- A first call that returns the whole range leaves the loop nothing to read. -/
theorem readsRange_of_whole {content : List Byte} {pos len : ℕ} {counts : ℕ → ℕ}
    {buf : Buf} (hbuf : buf.len = 0) (hlen : 0 < len)
    (hwhole : counts 0 = rangeLength content.length pos len) :
    ReadsRange content pos len counts buf := by
  have hcount : counts 0 ≤ content.length - (pos + buf.len) := by
    rw [hwhole, hbuf]
    exact min_le_right _ _
  obtain ⟨next, hnext, hmem, hround⟩ := readUpTo_call (hbuf ▸ hlen) hcount
  rw [hbuf, Nat.zero_max] at hnext
  rw [hbuf, Nat.add_zero] at hmem
  refine ⟨2, counts 0, next, ?_, hwhole, hmem⟩
  rw [hround]
  by_cases hzero : counts 0 = 0
  · rw [if_pos hzero, hnext]
  · rw [if_neg hzero, readUpTo_whole _ (hnext.trans hwhole), hnext]

/-- Once a call has returned part of the range no later one can fill it: each
starts over at the first byte and is asked for less than the range. -/
theorem readUpTo_eq_none {content : List Byte} {pos len : ℕ} (rounds : ℕ)
    {counts : ℕ → ℕ} {buf : Buf} (hsome : 0 < buf.len)
    (hpart : buf.len < rangeLength content.length pos len)
    (hanswered : Answered content.length pos len buf.len counts) :
    readUpTo content pos len counts buf rounds = none := by
  induction rounds generalizing counts buf with
  | zero => rfl
  | succ rounds ih =>
      simp only [rangeLength] at hpart
      have hmay := hanswered.head (by omega)
      rw [MayReturn, if_pos (by omega)] at hmay
      obtain ⟨hpos, hrequest, hfile⟩ := hmay
      have hroom : buf.len < len := by omega
      obtain ⟨next, hnext, -, hround⟩ := readUpTo_call hroom hfile
      rw [hround, if_neg hpos.ne']
      apply ih
      · omega
      · simp only [rangeLength]
        omega
      · rw [hnext]
        exact hanswered.next hpos.ne'

/-- A first call that returns part of the range keeps the loop going for ever. -/
theorem not_readsRange_of_short {content : List Byte} {pos len : ℕ} {counts : ℕ → ℕ}
    {buf : Buf} (hbuf : buf.len = 0) (hlen : 0 < len)
    (hanswered : Answered content.length pos len 0 counts)
    (hshort : counts 0 ≠ rangeLength content.length pos len) :
    ¬ ReadsRange content pos len counts buf := by
  rintro ⟨rounds, n, filled, hreturns, -, -⟩
  have hmay := hanswered.head hlen
  simp only [MayReturn, Nat.add_zero, Nat.sub_zero] at hmay
  simp only [rangeLength] at hshort
  have hfile : pos < content.length := by
    by_contra hend
    rw [if_neg hend] at hmay
    omega
  rw [if_pos hfile] at hmay
  obtain ⟨hpos, hrequest, hrest⟩ := hmay
  have hroom : buf.len < len := hbuf ▸ hlen
  have hcount : counts 0 ≤ content.length - (pos + buf.len) := by rwa [hbuf]
  obtain ⟨next, hnext, -, hround⟩ := readUpTo_call hroom hcount
  rw [hbuf, Nat.zero_max] at hnext
  cases rounds with
  | zero => cases hreturns
  | succ rounds =>
      have hpart : next.len < rangeLength content.length pos len := by
        simp only [rangeLength]
        omega
      have hrestAnswered := hanswered.next hpos.ne'
      rw [Nat.zero_max, ← hnext] at hrestAnswered
      rw [hround, if_neg hpos.ne',
        readUpTo_eq_none rounds (by omega) hpart hrestAnswered] at hreturns
      cases hreturns

/-- **Short reads.**  `read_up_to` returns the range it was asked for exactly
when the first call already does, or nothing is asked for. -/
theorem readUpTo_correct_iff (content : List Byte) (pos spare : ℕ) (memory : List Byte)
    (dest : Dest) (counts : ℕ → ℕ)
    (hanswered : Answered content.length pos (destLen dest) 0 counts) :
    ReadsRange content pos (destLen dest) counts (destBuf dest spare memory) ↔
      destLen dest = 0 ∨
        counts 0 = rangeLength content.length pos (destLen dest) := by
  have hbuf := destBuf_len dest spare memory
  constructor
  · intro hreads
    by_contra hnot
    rw [not_or] at hnot
    exact not_readsRange_of_short hbuf (Nat.pos_of_ne_zero hnot.1) hanswered hnot.2 hreads
  · intro hcases
    by_cases hzero : destLen dest = 0
    · refine ⟨1, 0, destBuf dest spare memory, ?_, ?_, rfl⟩
      · simp [readUpTo, hzero]
      · simp [rangeLength, hzero]
    · exact readsRange_of_whole hbuf (Nat.pos_of_ne_zero hzero)
        (hcases.resolve_left hzero)

theorem filledAfter_const (n calls : ℕ) : filledAfter n (fun _ => n) calls = n := by
  induction calls with
  | zero => rfl
  | succ calls ih => rw [filledAfter, max_self, ih]

theorem readUpTo_correct_iff_whole :
    ReadsRange [10, 20, 30] 1 2 (fun _ => 2) (destBuf (.into 4096 2) 0 [0, 0]) := by
  apply (readUpTo_correct_iff [10, 20, 30] 1 0 [0, 0] (.into 4096 2) (fun _ => 2) ?_).mpr
  · exact Or.inr (by decide)
  · intro calls hlen _
    cases calls with
    | zero => simp [MayReturn, filledAfter, destLen]
    | succ calls =>
        rw [filledAfter, Nat.zero_max, filledAfter_const] at hlen
        exact absurd hlen (by decide)

/-- Two bytes read one at a time: each call returns what it may, and the loop
reads the second byte over the first one for ever. -/
theorem bytewise_read_never_ends :
    Answered [10, 20].length 0 2 0 (fun _ => 1) ∧
      ¬ ReadsRange [10, 20] 0 2 (fun _ => 1) (destBuf (.into 4096 2) 0 [0, 0]) := by
  have hanswered : Answered [10, 20].length 0 2 0 (fun _ => 1) := by
    intro calls _ _
    cases calls with
    | zero => simp [MayReturn, filledAfter]
    | succ calls =>
        rw [filledAfter, Nat.zero_max, filledAfter_const]
        simp [MayReturn]
  exact ⟨hanswered, not_readsRange_of_short rfl (by decide) hanswered (by decide)⟩

/-! ## In the driver -/

namespace State

variable {state : State} {index : ℕ} {task : Task} {fd : Fd}

theorem get_suspend (hindex : index < state.tasks.length) (stage : Stage) :
    (state.suspend index task stage).tasks[index]? = some { task with stage := stage } :=
  List.getElem?_set_self hindex

/-- Where the task waited does not matter to its end. -/
theorem finish_suspend (stage : Stage) (held : Option Fd) (result : Outcome) :
    (state.suspend index task stage).finish index { task with stage := stage } held result =
      state.finish index task held result := by
  simp only [finish, suspend, List.eraseIdx_set_eq]

theorem readUpTo_full {dest : Dest} {buf : Buf} (hrun : state.cancelled task.id = false)
    (hfull : destLen dest ≤ buf.len) :
    state.readUpTo index task fd dest buf =
      state.finish index task (some fd) (.ok (destReply dest buf.len buf)) := by
  cases dest with
  | alloc len =>
      have hle : len ≤ buf.len := hfull
      simp [readUpTo, hrun, hle, destReply]
  | into ptr len =>
      have hle : len ≤ buf.len := hfull
      simp [readUpTo, hrun, hle, destReply]

theorem readUpTo_room {dest : Dest} {buf : Buf} (hrun : state.cancelled task.id = false)
    (hroom : ¬ destLen dest ≤ buf.len) :
    state.readUpTo index task fd dest buf =
      state.suspend index task (.reading fd buf) := by
  cases dest with
  | alloc len =>
      have hlt : ¬ len ≤ buf.len := hroom
      simp [readUpTo, hrun, hlt]
  | into ptr len =>
      have hlt : ¬ len ≤ buf.len := hroom
      simp [readUpTo, hrun, hlt]

theorem poll_reading {handle : Handle} {pos : ℕ} {dest : Dest} {buf : Buf}
    (hget : state.tasks[index]? = some { task with stage := .reading fd buf })
    (hop : task.op = .readAt handle pos dest) (data : List Byte) :
    state.poll { data := .ok data } index =
      some (if data = [] then
          state.finish index { task with stage := .reading fd buf } (some fd)
            (.ok (destReply dest buf.len buf))
        else state.readUpTo index { task with stage := .reading fd buf } fd dest
          (buf.fill data)) := by
  simp only [poll, hget, hop, orFail]
  cases dest <;> rfl

/-- Polls of a task that waits for `read_at`, answered from the file. -/
def pollReads (content : List Byte) (pos index : ℕ) : ℕ → (ℕ → ℕ) → State → Option State
  | 0, _, state => some state
  | polls + 1, counts, state =>
      match state.tasks[index]? with
      | some ⟨_, _, _, _, .reading _ buf⟩ =>
          (state.poll
            { data := .ok ((content.drop (pos + buf.len)).take (counts 0)) } index).bind
            (pollReads content pos index polls fun call => counts (call + 1))
      | _ => none

/-- Polled until it ends, the task settles its op with what the loop returns. -/
theorem pollReads_readUpTo {content : List Byte} {pos : ℕ} {counts : ℕ → ℕ} {handle : Handle}
    {dest : Dest} {buf : Buf} {rounds n : ℕ} {filled : Buf}
    (hindex : index < state.tasks.length) (hop : task.op = .readAt handle pos dest)
    (hrun : state.cancelled task.id = false)
    (hreturns : Compio.readUpTo content pos (destLen dest) counts buf rounds =
      some (n, filled)) :
    ∃ polls, pollReads content pos index polls counts
        (state.readUpTo index task fd dest buf) =
      some (state.finish index task (some fd) (.ok (destReply dest n filled))) := by
  induction rounds generalizing state task counts buf with
  | zero => cases hreturns
  | succ rounds ih =>
      rw [Compio.readUpTo] at hreturns
      by_cases hfull : destLen dest ≤ buf.len
      · rw [if_pos hfull] at hreturns
        cases hreturns
        exact ⟨0, congrArg some (readUpTo_full hrun hfull)⟩
      obtain ⟨data, hdata⟩ : ∃ data, data = (content.drop (pos + buf.len)).take (counts 0) :=
        ⟨_, rfl⟩
      simp only [if_neg hfull, Compio.readAt, ← hdata] at hreturns
      rw [readUpTo_room hrun hfull]
      have hget : (state.suspend index task (.reading fd buf)).tasks[index]? =
          some { task with stage := .reading fd buf } := get_suspend hindex _
      have hround : ∀ polls, pollReads content pos index (polls + 1) counts
          (state.suspend index task (.reading fd buf)) =
          ((state.suspend index task (.reading fd buf)).poll { data := .ok data } index).bind
            (pollReads content pos index polls fun call => counts (call + 1)) := by
        intro polls
        simp only [pollReads, hget, hdata]
      have hpoll := poll_reading hget hop data
      by_cases hend : data = []
      · rw [hend] at hreturns
        simp only [Buf.fill, List.length_nil, Nat.max_zero, List.nil_append,
          List.drop_zero, if_true, Option.some.injEq, Prod.mk.injEq] at hreturns
        obtain ⟨rfl, rfl⟩ := hreturns
        refine ⟨1, ?_⟩
        rw [hround, hpoll, if_pos hend, Option.bind_some, finish_suspend]
        rfl
      · rw [if_neg (by rwa [List.length_eq_zero_iff])] at hreturns
        have hindex' : index < (state.suspend index task (.reading fd buf)).tasks.length := by
          rwa [suspend, List.length_set]
        have hop' : ({ task with stage := .reading fd buf } : Task).op =
            .readAt handle pos dest := hop
        have hrun' : (state.suspend index task (.reading fd buf)).cancelled
            ({ task with stage := .reading fd buf } : Task).id = false := hrun
        obtain ⟨polls, hpolls⟩ := ih hindex' hop' hrun' hreturns
        refine ⟨polls + 1, ?_⟩
        rw [hround, hpoll, if_neg hend, Option.bind_some, hpolls, finish_suspend]

end State

end Turbofile.Compio
