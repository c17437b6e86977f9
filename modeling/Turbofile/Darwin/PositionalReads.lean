import Turbofile.Darwin.ReadToEnd

/-!
# Positional reads

A `ReadAt` asks for what is missing of its range, request after request, until
the range is full or an answer is empty.  A `Vec` may have been given more room
than was asked for; the driver asks the kernel to fill that, too.
-/

namespace Turbofile.Darwin

open Turbofile.Core
open State

/-! ## What a positional read may ask and answer -/

/-- Position and destination of a positional read. -/
def Op.readAt? : Op → Option (ℕ × Dest)
  | .readAt _ pos dest => some (pos, dest)
  | _ => none

/-- No more may be stored than was asked for. -/
def Dest.bounded : Dest → Bool
  | .alloc _ => false
  | .into _ _ => true

/-- A call for the rest of a range of which `filled` bytes are there. -/
def Syscall.ReadsRest (pos : ℕ) (dest : Dest) (filled : ℕ) : Syscall → Prop
  | .aioRead offset start nbytes | .pread offset start nbytes =>
      offset = ((pos + filled : ℕ) : ℤ) ∧ start = filled ∧ filled < Dest.asked dest ∧
        Dest.asked dest ≤ start + nbytes ∧
        (Dest.bounded dest = true → start + nbytes = Dest.asked dest)
  | _ => False

/-- What the calls have stored in the buffer, each where it was asked to. -/
def stored : List Chunk → List Byte
  | [] => []
  | chunk :: earlier => (stored earlier).take chunk.call.start ++ chunk.transferred.data

/-- A kernel with the file: nothing comes from behind its end alone. -/
structure Chunk.Reads (file : List Byte) (chunk : Chunk) : Prop extends chunk.Delivers file where
  ended : chunk.transferred.n = 0 → 0 < chunk.call.nbytes → ∀ offset : ℕ,
    chunk.call.offset = some (offset : ℤ) → file.length ≤ offset

def Dest.reply (chunks : List Chunk) : Dest → Reply
  | .alloc _ => .bytes (stored chunks)
  | .into _ _ => .read (moved chunks)

/-- In a step that logs `events`, a positional read asks for the rest of its
range, and replies with the bytes the file has there. -/
structure ReadsRange (file : List Byte) (id : OpId) (pos : ℕ) (dest : Dest)
    (earlier chunks : List Chunk) (events : List Event) : Prop where
  requests : ∀ fd call, Event.syscall id fd call ∈ events → call.transfers = true →
    call.ReadsRest pos dest (moved earlier)
  replies : ∀ reply, Event.settled id (.ok reply) ∈ events → Reply.moves reply = true →
    reply = Dest.reply chunks dest ∧ stored chunks = (file.drop pos).take (moved chunks) ∧
      min (Dest.asked dest) (file.length - pos) ≤ moved chunks ∧
      moved chunks ≤ file.length - pos ∧
      (Dest.bounded dest = true → moved chunks ≤ Dest.asked dest)

/-! ## The job of a positional read -/

variable {file : List Byte} {op : Op} {pos : ℕ} {dest : Dest} {chunks : List Chunk}
  {kind : JobKind}

/-- The buffer of a positional read with the given room. -/
def Dest.buf (room : ℕ) (mem : List Byte) : Dest → ReadBuf
  | .alloc _ => .owned room mem
  | .into ptr len => .external ptr len mem

/-- A positional read that has not filled its range. -/
structure ReadsAt (file : List Byte) (pos : ℕ) (dest : Dest) (chunks : List Chunk)
    (kind : JobKind) : Prop where
  kind : ∃ handle fd room, kind = .read ⟨handle, fd, false, pos, .exact (Dest.asked dest),
    Dest.buf room (stored chunks) dest, moved chunks⟩ ∧ Dest.asked dest ≤ room ∧
      (Dest.bounded dest = true → room = Dest.asked dest)
  missing : moved chunks < Dest.asked dest
  whole : stored chunks = (file.drop pos).take (moved chunks)
  length : (stored chunks).length = moved chunks
  inFile : moved chunks = 0 ∨ pos + moved chunks ≤ file.length

theorem readsAt_start (hread : Op.readAt? op = some (pos, dest)) (hstarts : Op.starts op kind) :
    ReadsAt file pos dest [] kind := by
  cases op with
  | readAt handle pos' dest' =>
      obtain ⟨rfl, rfl⟩ : pos' = pos ∧ dest' = dest := by simpa [Op.readAt?] using hread
      cases dest' with
      | alloc len =>
          obtain ⟨hsome, fd, slack, rfl⟩ := hstarts
          exact ⟨⟨some handle, fd, len + slack, rfl, Nat.le_add_right _ _, fun hbounded => by
            cases hbounded⟩, hsome, rfl, rfl, .inl rfl⟩
      | into ptr len =>
          obtain ⟨hsome, fd, rfl⟩ := hstarts
          exact ⟨⟨some handle, fd, len, rfl, Nat.le_refl _, fun _ => rfl⟩, hsome, rfl, rfl,
            .inl rfl⟩
  | _ => cases hread

/-- The room that is left, in either kind of buffer. -/
theorem chunk_buf {room : ℕ} (hroom : Dest.bounded dest = true → room = Dest.asked dest)
    (mem : List Byte) (filled : ℕ) :
    (Dest.buf room mem dest).chunk filled = (filled, room - filled) := by
  cases dest with
  | alloc len => rfl
  | into ptr len =>
      obtain rfl := hroom rfl
      rfl

/-- The call is for the room that is left. -/
theorem ReadsAt.asks (hreads : ReadsAt file pos dest chunks kind) (hpos : pos < 2 ^ 63)
    (hfile : file.length < 2 ^ 63) {call : Syscall} (hasks : kind.Asks call) :
    call.ReadsRest pos dest (moved chunks) := by
  obtain ⟨handle, fd, room, rfl, hlen, hroom⟩ := hreads.kind
  have hmissing := hreads.missing
  have hoffset : asOffT (u64Add pos (moved chunks)) = ((pos + moved chunks : ℕ) : ℤ) := by
    apply asOffT_u64Add
    rcases hreads.inFile with hnone | hinside
    · omega
    · omega
  have hrest : Dest.asked dest ≤ moved chunks + (room - moved chunks) ∧
      (Dest.bounded dest = true → moved chunks + (room - moved chunks) = Dest.asked dest) := by
    refine ⟨by omega, fun hbounded => ?_⟩
    have hexact := hroom hbounded
    omega
  rcases hasks with rfl | rfl
  · simp only [prepare, chunk_buf hroom]
    exact ⟨hoffset, rfl, hmissing, hrest⟩
  · simp only [syncCall, chunk_buf hroom]
    exact ⟨hoffset, rfl, hmissing, hrest⟩

/-- What the kernel delivers next is the file from where the job has come to. -/
theorem ReadsAt.delivered (hreads : ReadsAt file pos dest chunks kind) (hpos : pos < 2 ^ 63)
    (hfile : file.length < 2 ^ 63) {chunk : Chunk} (hasks : kind.Asks chunk.call)
    (hchunk : chunk.Reads file) :
    stored (chunk :: chunks) = stored chunks ++ chunk.transferred.data ∧
      stored (chunk :: chunks) = (file.drop pos).take (moved (chunk :: chunks)) ∧
      (stored (chunk :: chunks)).length = moved (chunk :: chunks) ∧
      (moved (chunk :: chunks) = 0 ∨ pos + moved (chunk :: chunks) ≤ file.length) ∧
      (chunk.transferred.n = 0 → file.length ≤ pos + moved chunks) := by
  have hrest := hreads.asks hpos hfile hasks
  obtain ⟨⟨hcounted, -, offset, hoffset, hbytes⟩, hended⟩ := hchunk
  obtain ⟨hplace, hstart, hroom⟩ : offset = pos + moved chunks ∧
      chunk.call.start = moved chunks ∧ 0 < chunk.call.nbytes := by
    cases hcall : chunk.call with
    | aioRead offset' start nbytes =>
        rw [hcall] at hrest hoffset
        obtain ⟨hsame, rfl, hmissing, hfits, -⟩ := hrest
        have hequal : offset' = (offset : ℤ) := Option.some.inj hoffset
        refine ⟨by omega, rfl, ?_⟩
        change 0 < nbytes
        omega
    | pread offset' start nbytes =>
        rw [hcall] at hrest hoffset
        obtain ⟨hsame, rfl, hmissing, hfits, -⟩ := hrest
        have hequal : offset' = (offset : ℤ) := Option.some.inj hoffset
        refine ⟨by omega, rfl, ?_⟩
        change 0 < nbytes
        omega
    | _ =>
        rw [hcall] at hrest
        exact hrest.elim
  have hjoin : stored (chunk :: chunks) = stored chunks ++ chunk.transferred.data := by
    rw [stored, hstart, List.take_of_length_le hreads.length.le]
  have hshort : chunk.transferred.n ≤ file.length - offset := by
    rw [← List.length_drop, ← hcounted, hbytes, List.length_take]
    exact Nat.min_le_right _ _
  have hwhole : stored (chunk :: chunks) = (file.drop pos).take (moved (chunk :: chunks)) := by
    rw [hjoin, hreads.whole, hbytes, hplace, ← List.drop_drop, moved_cons, Nat.add_comm,
      List.take_add]
  refine ⟨hjoin, hwhole, ?_, ?_, fun hnone => ?_⟩
  · rw [hjoin, List.length_append, hreads.length, hcounted, moved_cons, Nat.add_comm]
  · rcases Nat.eq_zero_or_pos chunk.transferred.n with hnone | hsome
    · rw [moved_cons, hnone, Nat.zero_add]
      exact hreads.inFile
    · right
      rw [moved_cons]
      omega
  · rw [← hplace]
    exact hended hnone hroom offset hoffset

theorem deposit_buf (room : ℕ) (mem data : List Byte) :
    (Dest.buf room mem dest).deposit mem.length data = Dest.buf room (mem ++ data) dest := by
  cases dest <;> simp [Dest.buf, ReadBuf.deposit]

/-- A chunk of a positional read is the last, or the job goes on with the same
buffer. -/
theorem after_readAt {handle : Option Handle} {fd : Fd} {room : ℕ} {mem : List Byte}
    (hlen : Dest.asked dest ≤ room) (chunk : Chunk) :
    (JobKind.read ⟨handle, fd, false, pos, .exact (Dest.asked dest), Dest.buf room mem dest,
        mem.length⟩).after chunk =
      (.read ⟨handle, fd, false, pos, .exact (Dest.asked dest),
          Dest.buf room (mem ++ chunk.transferred.data) dest, mem.length + chunk.transferred.n⟩,
        if chunk.transferred.n = 0 ∨ Dest.asked dest ≤ mem.length + chunk.transferred.n then
          some (readReply ⟨handle, fd, false, pos, .exact (Dest.asked dest),
            Dest.buf room (mem ++ chunk.transferred.data) dest,
            mem.length + chunk.transferred.n⟩)
        else none) := by
  simp only [JobKind.after, State.stepJob, deposit_buf, State.complete]
  by_cases hzero : chunk.transferred.n = 0
  · rw [if_pos hzero, if_pos (.inl hzero)]
  · rw [if_neg hzero]
    by_cases hfull : Dest.asked dest ≤ mem.length + chunk.transferred.n
    · rw [if_pos (.inr hfull), decide_eq_true hfull]
    · rw [if_neg (not_or.mpr ⟨hzero, hfull⟩), decide_eq_false hfull]
      cases dest with
      | alloc len =>
          have hpart : mem.length + chunk.transferred.n ≠ room := by omega
          simp only [Dest.buf, if_neg hpart]
      | into ptr len => rfl

theorem JobRun.readsAt (hrun : JobRun op chunks kind) (hread : Op.readAt? op = some (pos, dest))
    (hpos : pos < 2 ^ 63) (hfile : file.length < 2 ^ 63)
    (hchunks : ∀ chunk ∈ chunks, chunk.Reads file) : ReadsAt file pos dest chunks kind := by
  induction hrun with
  | start hstarts => exact readsAt_start hread hstarts
  | @more earlier chunk _ kind' hrun hasks hafter ih =>
      have hreads := ih fun chunk hmem => hchunks chunk (List.mem_cons_of_mem _ hmem)
      obtain ⟨hjoin, hwhole, hlength, hinside, -⟩ :=
        hreads.delivered hpos hfile hasks (hchunks _ List.mem_cons_self)
      obtain ⟨handle, fd, room, rfl, hlen, hroom⟩ := hreads.kind
      rw [← hreads.length, after_readAt hlen, Prod.mk.injEq] at hafter
      obtain ⟨rfl, hmore⟩ := hafter
      have hsum : (stored earlier).length + chunk.transferred.n = moved (chunk :: earlier) := by
        rw [hreads.length, moved_cons, Nat.add_comm]
      rw [hsum] at hmore
      have hmissing : moved (chunk :: earlier) < Dest.asked dest := by
        by_contra hfull
        rw [if_pos (.inr (not_lt.mp hfull))] at hmore
        cases hmore
      rw [hsum, ← hjoin]
      exact ⟨⟨handle, fd, room, rfl, hlen, hroom⟩, hmissing, hwhole, hlength, hinside⟩

/-- A reply of the job is the file as far as the range and the file go. -/
theorem Replied.readAt {reply : Reply} (hreplied : Replied op chunks reply)
    (hread : Op.readAt? op = some (pos, dest)) (hpos : pos < 2 ^ 63) (hfile : file.length < 2 ^ 63)
    (hchunks : ∀ chunk ∈ chunks, chunk.Reads file) :
    reply = Dest.reply chunks dest ∧ stored chunks = (file.drop pos).take (moved chunks) ∧
      min (Dest.asked dest) (file.length - pos) ≤ moved chunks ∧
      moved chunks ≤ file.length - pos ∧
      (Dest.bounded dest = true → moved chunks ≤ Dest.asked dest) := by
  obtain ⟨chunk, earlier, kind, kind', rfl, hrun, hasks, hafter⟩ := hreplied
  have hreads := hrun.readsAt hread hpos hfile
    fun chunk hmem => hchunks chunk (List.mem_cons_of_mem _ hmem)
  have hchunk := hchunks chunk List.mem_cons_self
  have hrest := hreads.asks hpos hfile hasks
  obtain ⟨hjoin, hwhole, hlength, hinside, hended⟩ := hreads.delivered hpos hfile hasks hchunk
  obtain ⟨handle, fd, room, rfl, hlen, hroom⟩ := hreads.kind
  rw [← hreads.length, after_readAt hlen, Prod.mk.injEq] at hafter
  obtain ⟨-, hreply⟩ := hafter
  have hsum : (stored earlier).length + chunk.transferred.n = moved (chunk :: earlier) := by
    rw [hreads.length, moved_cons, Nat.add_comm]
  rw [hsum, ← hjoin] at hreply
  have hmoved : moved (chunk :: earlier) = chunk.transferred.n + moved earlier := rfl
  refine ⟨?_, hwhole, ?_, by omega, fun hbounded => ?_⟩
  · split at hreply
    · cases dest with
      | alloc len => exact (Except.ok.inj (Option.some.inj hreply)).symm
      | into ptr len => exact (Except.ok.inj (Option.some.inj hreply)).symm
    · cases hreply
  · split at hreply
    · next hlast =>
        rcases hlast with hnone | hfull
        · have hend := hended hnone
          omega
        · omega
    · cases hreply
  · have hasked := hchunk.asked
    obtain ⟨hstart, hexact⟩ : chunk.call.start = moved earlier ∧
        chunk.call.start + chunk.call.nbytes = Dest.asked dest := by
      cases hcall : chunk.call with
      | aioRead offset start nbytes =>
          rw [hcall] at hrest
          exact ⟨hrest.2.1, hrest.2.2.2.2 hbounded⟩
      | pread offset start nbytes =>
          rw [hcall] at hrest
          exact ⟨hrest.2.1, hrest.2.2.2.2 hbounded⟩
      | _ =>
          rw [hcall] at hrest
          exact hrest.elim
    omega

/-! ## Along a run -/

/-- In every step of every run a positional read asks for the rest of its range
at its place in the file, and replies with what the file has there: all of the
range, or as much of it as there is. -/
theorem reads_range {state next : State} {label : Label} {record : List (OpId × Chunk)}
    (hrun : driver.Recorded State.chunk? state record)
    (hstep : Darwin.step state label = some next) {id : OpId} (hsent : Sent next.log id op)
    (hread : Op.readAt? op = some (pos, dest)) (hpos : pos < 2 ^ 63) (hfile : file.length < 2 ^ 63)
    (hchunks : ∀ chunk ∈ chunksThen state label record id, chunk.Reads file) :
    ReadsRange file id pos dest (chunksOf record id) (chunksThen state label record id)
      (newEvents state next) where
  requests fd call hevent htransfers := by
    obtain ⟨kind, hjob, hasks⟩ := request_of_recorded hrun hstep hsent hevent htransfers
    have hreads := hjob.readsAt hread hpos hfile
      fun chunk hmem => hchunks chunk (mem_chunksThen hmem)
    exact hreads.asks hpos hfile hasks
  replies reply hevent hmoves := by
    rcases reply_of_recorded hrun hstep hsent hevent hmoves with ⟨hanswers, hnone⟩ | hreplied
    · rw [hnone]
      obtain ⟨hempty, rfl⟩ : Dest.asked dest = 0 ∧ reply = Dest.reply [] dest := by
        cases op with
        | readAt handle pos' dest' =>
            obtain ⟨rfl, rfl⟩ : pos' = pos ∧ dest' = dest := by simpa [Op.readAt?] using hread
            cases dest' with
            | alloc len =>
                cases len with
                | zero =>
                    cases reply with
                    | bytes data => exact ⟨rfl, congrArg Reply.bytes hanswers⟩
                    | _ => exact hanswers.elim
                | succ len => exact hanswers.elim
            | into ptr len =>
                cases len with
                | zero =>
                    cases reply with
                    | read n => exact ⟨rfl, congrArg Reply.read hanswers⟩
                    | _ => exact hanswers.elim
                | succ len => exact hanswers.elim
        | _ => cases hread
      refine ⟨rfl, rfl, ?_, Nat.zero_le _, fun _ => Nat.zero_le _⟩
      rw [hempty, Nat.zero_min]
      exact Nat.zero_le _
    · exact hreplied.readAt hread hpos hfile hchunks

/-- The kernel gives two bytes of three and is asked for the third. -/
def shortRead : List Label :=
  [.submit 1 (.openFile [97] { read := true }), .drive { openFd := .ok 3, stat := .ok ⟨5, true⟩ },
    .drive {}, .submit 2 (.readAt 1 1 (.into 0 3))] ++ List.replicate 10 (.drive {}) ++
    [.drive { aio := .done ⟨2, [2, 3]⟩ }, .drive {}, .drive {}]

theorem reads_range_short : ∃ state next record,
    ReadsRange [1, 2, 3, 4, 5] 2 1 (.into 0 3) (chunksOf record 2)
      (chunksThen state (.drive { aio := .done ⟨1, [4]⟩ }) record 2) (newEvents state next) ∧
    stored (chunksThen state (.drive { aio := .done ⟨1, [4]⟩ }) record 2) = [2, 3, 4] ∧
    Event.settled 2 (.ok (.read 3)) ∈ newEvents state next := by
  have hinit : driver.Recorded State.chunk? (State.new 2 1) [] :=
    .init ⟨0, 1, Nat.one_pos, rfl⟩
  obtain ⟨state, hexec⟩ : ∃ state, driver.exec (State.new 2 1) shortRead = some state := ⟨_, rfl⟩
  obtain ⟨next, hstep⟩ : ∃ next,
      Darwin.step state (.drive { aio := .done ⟨1, [4]⟩ }) = some next := by
    cases hexec
    exact ⟨_, rfl⟩
  have hsent : Sent next.log 2 (.readAt 1 1 (.into 0 3)) := by
    cases hexec
    cases hstep
    exact ⟨2, List.mem_of_getElem? (i := 4) rfl⟩
  have hchunks : chunksThen state (.drive { aio := .done ⟨1, [4]⟩ })
      (driver.record State.chunk? (State.new 2 1) [] shortRead) 2 =
      [⟨.aioRead 3 2 1, ⟨1, [4]⟩, .ok ⟨0, true⟩, 0⟩,
        ⟨.aioRead 1 0 3, ⟨2, [2, 3]⟩, .ok ⟨0, true⟩, 0⟩] := by
    cases hexec
    rfl
  have hsettled : Event.settled 2 (.ok (.read 3)) ∈ newEvents state next := by
    cases hexec
    cases hstep
    exact List.mem_of_getElem? (i := 0) rfl
  refine ⟨state, next, _, reads_range (hinit.ofExec hexec) hstep hsent rfl (by decide) (by decide)
    ?_, ?_, hsettled⟩
  · intro chunk hmem
    rw [hchunks] at hmem
    rcases List.mem_pair.mp hmem with rfl | rfl
    · exact ⟨⟨rfl, by decide, 3, rfl, rfl⟩, fun hnone => (by cases hnone)⟩
    · exact ⟨⟨rfl, by decide, 1, rfl, rfl⟩, fun hnone => (by cases hnone)⟩
  · rw [hchunks]
    rfl

end Turbofile.Darwin
