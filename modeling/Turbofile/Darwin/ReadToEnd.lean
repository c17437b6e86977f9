import Turbofile.Darwin.Chunks

/-!
# Reads to the end

A read to the end goes on in chunks until one comes back empty or a regular
file's size is reached, and its buffer grows when it is full.  `Vec::reserve`
counts from the vector's own length, which stays 0, so it does nothing for a
buffer of 64 KiB or more: the next request is for no bytes at all, and its
empty answer is taken for the end of the file.  Apart from that the reply is
the file from the position on.
-/

namespace Turbofile.Darwin

open Turbofile.Core
open State

/-! ## What a read to the end may ask and answer -/

/-- Position of the ops that read to the end. -/
def Op.readToEnd? : Op → Option ℕ
  | .readToEnd _ pos => some pos
  | .readFile _ _ => some 0
  | _ => none

/-- The bytes read reach the size a regular file has then. -/
def Chunk.AtEnd (pos filled : ℕ) (chunk : Chunk) : Prop :=
  ∃ size, regularFileSize chunk.stat = some size ∧ size ≤ pos + filled

/-- The kernel delivers the bytes of the file from the offset asked for. -/
structure Chunk.Delivers (file : List Byte) (chunk : Chunk) : Prop where
  counted : chunk.transferred.data.length = chunk.transferred.n
  asked : chunk.transferred.n ≤ chunk.call.nbytes
  bytes : ∃ offset : ℕ, chunk.call.offset = some (offset : ℤ) ∧
    chunk.transferred.data = (file.drop offset).take chunk.transferred.n

/-- A chunk fills a buffer of 64 KiB or more, and it is not the last. -/
def Chunk.Stalls (pos filled : ℕ) (chunk : Chunk) : Prop :=
  chunk.transferred.n = chunk.call.nbytes ∧ 65536 ≤ chunk.call.start + chunk.call.nbytes ∧
    ¬chunk.AtEnd pos (filled + chunk.transferred.n)

def NeverStalls (pos : ℕ) : List Chunk → Prop
  | [] => True
  | chunk :: earlier => ¬chunk.Stalls pos (moved earlier) ∧ NeverStalls pos earlier

/-- In a step that logs `events`, a read to the end asks for at least one byte,
and replies with the bytes of the file up to an empty answer or the size. -/
structure ReadsFile (file : List Byte) (id : OpId) (pos : ℕ) (chunks : List Chunk)
    (events : List Event) : Prop where
  requests : ∀ fd call, Event.syscall id fd call ∈ events → call.transfers = true →
    0 < call.nbytes
  replies : ∀ data, Event.settled id (.ok (.bytes data)) ∈ events →
    data = (file.drop pos).take (moved chunks) ∧ data.length = moved chunks ∧
      ∃ chunk earlier, chunks = chunk :: earlier ∧
        (chunk.transferred.n = 0 ∧ 0 < chunk.call.nbytes ∨ chunk.AtEnd pos (moved chunks))

/-! ## One chunk -/

/-- `Vec::reserve` after a full buffer makes room below 64 KiB only. -/
theorem lt_vecReserve {cap : ℕ} (hsmall : cap < 65536) (slack : ℕ) :
    cap < vecReserve cap 0 (max cap 65536) slack := by
  unfold vecReserve
  split
  · omega
  · omega

theorem vecReserve_of_le {cap : ℕ} (hlarge : 65536 ≤ cap) (slack : ℕ) :
    vecReserve cap 0 (max cap 65536) slack = cap := by
  unfold vecReserve
  rw [if_pos (by omega)]

/-- A chunk of a read to the end is the last, or the job goes on, with a larger
buffer if this one is full. -/
theorem after_readToEnd {read : ReadJob} {cap : ℕ} {mem : List Byte} (hwant : read.want = .toEnd)
    (hbuf : read.buf = .owned cap mem) (chunk : Chunk)
    (hfits : read.pos + (read.filled + chunk.transferred.n) < 2 ^ 64) :
    let data := mem.take read.filled ++ chunk.transferred.data
    let filled := read.filled + chunk.transferred.n
    ((chunk.transferred.n = 0 ∨ chunk.AtEnd read.pos filled) ∧
      ((JobKind.read read).after chunk).2 = some (.ok (.bytes data))) ∨
    (chunk.transferred.n ≠ 0 ∧ ¬chunk.AtEnd read.pos filled ∧
      (JobKind.read read).after chunk =
        (.read { read with
            filled := filled
            buf := .owned (if filled = cap then vecReserve cap 0 (max cap 65536) chunk.slack
              else cap) data }, none)) := by
  obtain ⟨handle, fd, ownedFd, pos, want, buf, filled⟩ := read
  simp only at hwant hbuf hfits ⊢
  subst hwant hbuf
  by_cases hzero : chunk.transferred.n = 0
  · left
    refine ⟨Or.inl hzero, ?_⟩
    simp [JobKind.after, State.stepJob, hzero, readReply, ReadBuf.deposit]
  · cases hsize : regularFileSize chunk.stat with
    | none =>
        right
        refine ⟨hzero, ?_, ?_⟩
        · rintro ⟨size, hsome, -⟩
          rw [hsize] at hsome
          cases hsome
        · simp only [JobKind.after, State.stepJob, State.complete, hzero, if_false, hsize,
            ReadBuf.deposit]
          split <;> rfl
    | some size =>
        by_cases hend : size ≤ pos + (filled + chunk.transferred.n)
        · left
          refine ⟨Or.inr ⟨size, hsize, hend⟩, ?_⟩
          simp [JobKind.after, State.stepJob, State.complete, hzero, hsize, u64Add_eq hfits, hend,
            readReply, ReadBuf.deposit]
        · right
          refine ⟨hzero, ?_, ?_⟩
          · rintro ⟨other, hother, hle⟩
            rw [hsize, Option.some.injEq] at hother
            omega
          · simp only [JobKind.after, State.stepJob, State.complete, hzero, if_false, hsize,
              u64Add_eq hfits, hend, decide_false, ReadBuf.deposit]
            split <;> rfl

/-! ## The job of a read to the end -/

section Job

variable {file : List Byte} {op : Op} {pos : ℕ} {chunks : List Chunk} {kind : JobKind}

/-- A read to the end with room left in its buffer, which holds the file from
the position on. -/
structure ReadsOn (file : List Byte) (pos : ℕ) (chunks : List Chunk) (kind : JobKind) : Prop where
  kind : ∃ handle fd ownedFd cap, kind = .read ⟨handle, fd, ownedFd, pos, .toEnd,
    .owned cap ((file.drop pos).take (moved chunks)), moved chunks⟩ ∧ moved chunks < cap
  length : ((file.drop pos).take (moved chunks)).length = moved chunks
  inFile : moved chunks = 0 ∨ pos + moved chunks ≤ file.length

theorem readsOn_start (hread : Op.readToEnd? op = some pos) (hstarts : Op.starts op kind) :
    ReadsOn file pos [] kind := by
  refine ⟨?_, rfl, Or.inl rfl⟩
  cases op with
  | readToEnd handle pos' =>
      obtain rfl : pos' = pos := by simpa [Op.readToEnd?] using hread
      obtain ⟨fd, hint, slack, rfl⟩ := hstarts
      refine ⟨some handle, fd, false, max hint 1 + slack, rfl, ?_⟩
      rw [moved_nil]
      omega
  | readFile path inlineMax =>
      obtain rfl : 0 = pos := by simpa [Op.readToEnd?] using hread
      obtain ⟨after, hafter, hstarts⟩ := hstarts
      obtain rfl : .readFile inlineMax = after := by simpa [Op.after] using hafter
      obtain ⟨fd, size, slack, rfl⟩ := hstarts
      refine ⟨none, fd, true, max size 1 + slack, rfl, ?_⟩
      rw [moved_nil]
      omega
  | _ => cases hread

/-- What the kernel delivers next is the file from where the job has come to. -/
theorem ReadsOn.delivered (hreads : ReadsOn file pos chunks kind) (hpos : pos < 2 ^ 64)
    (hfile : file.length < 2 ^ 63) {chunk : Chunk} (hasks : kind.Asks chunk.call)
    (hdelivers : chunk.Delivers file) :
    (file.drop pos).take (moved chunks) ++ chunk.transferred.data =
        (file.drop pos).take (moved (chunk :: chunks)) ∧
      ((file.drop pos).take (moved (chunk :: chunks))).length = moved (chunk :: chunks) ∧
      (moved (chunk :: chunks) = 0 ∨ pos + moved (chunk :: chunks) ≤ file.length) := by
  obtain ⟨handle, fd, ownedFd, cap, rfl, -⟩ := hreads.kind
  obtain ⟨hcounted, -, offset, hoffset, hbytes⟩ := hdelivers
  have hcall : chunk.call.offset = some (asOffT (u64Add pos (moved chunks))) := by
    rcases hasks with hcall | hcall
    · rw [hcall]
      rfl
    · rw [hcall]
      rfl
  have hplace : offset = pos + moved chunks := by
    rw [hcall, Option.some.injEq] at hoffset
    have hsmall : u64Add pos (moved chunks) = pos + moved chunks := by
      apply u64Add_eq
      rcases hreads.inFile with hnone | hinside
      · omega
      · omega
    rw [hsmall] at hoffset
    refine (asOffT_eq_natCast ?_ hoffset).2
    rcases hreads.inFile with hnone | hinside
    · omega
    · omega
  have hlength : (file.drop offset).length = file.length - offset := List.length_drop
  have hshort : chunk.transferred.n ≤ file.length - offset := by
    rw [← hlength, ← hcounted, hbytes, List.length_take]
    exact Nat.min_le_right _ _
  have hwhole : (file.drop pos).take (moved chunks) ++ chunk.transferred.data =
      (file.drop pos).take (moved (chunk :: chunks)) := by
    rw [hbytes, hplace, ← List.drop_drop, moved_cons, Nat.add_comm, List.take_add]
  refine ⟨hwhole, ?_, ?_⟩
  · rw [← hwhole, List.length_append, hreads.length, hcounted, moved_cons, Nat.add_comm]
  · rcases Nat.eq_zero_or_pos chunk.transferred.n with hnone | hsome
    · rw [moved_cons, hnone, Nat.zero_add]
      exact hreads.inFile
    · right
      rw [moved_cons]
      omega

/-- The call of a read to the end is for the room that is left. -/
theorem asks_read {read : ReadJob} {cap : ℕ} {mem : List Byte} (hbuf : read.buf = .owned cap mem)
    {call : Syscall} (hasks : (JobKind.read read).Asks call) :
    call.start = read.filled ∧ call.nbytes = cap - read.filled ∧
      call.offset = some (asOffT (u64Add read.pos read.filled)) := by
  rcases hasks with rfl | rfl
  · simp [prepare, hbuf, ReadBuf.chunk, Syscall.start, Syscall.nbytes, Syscall.offset]
  · simp [syncCall, hbuf, ReadBuf.chunk, Syscall.start, Syscall.nbytes, Syscall.offset]

/-- A chunk that does not end the read leaves room for the next. -/
theorem ReadsOn.more (hreads : ReadsOn file pos chunks kind) (hpos : pos < 2 ^ 64)
    (hfile : file.length < 2 ^ 63) {chunk : Chunk} {kind' : JobKind}
    (hasks : kind.Asks chunk.call) (hdelivers : chunk.Delivers file)
    (hflows : ¬chunk.Stalls pos (moved chunks)) (hafter : kind.after chunk = (kind', none)) :
    ReadsOn file pos (chunk :: chunks) kind' := by
  obtain ⟨hwhole, hlength, hinside⟩ := hreads.delivered hpos hfile hasks hdelivers
  refine ⟨?_, hlength, hinside⟩
  obtain ⟨handle, fd, ownedFd, cap, rfl, hroom⟩ := hreads.kind
  obtain ⟨hstart, hnbytes, -⟩ := asks_read rfl hasks
  have hsum : moved (chunk :: chunks) = moved chunks + chunk.transferred.n := by
    rw [moved_cons, Nat.add_comm]
  have hasked := hdelivers.asked
  simp only at hstart hnbytes
  have hfits : pos + (moved chunks + chunk.transferred.n) < 2 ^ 64 := by omega
  have hcases := @after_readToEnd ⟨handle, fd, ownedFd, pos, .toEnd,
    .owned cap ((file.drop pos).take (moved chunks)), moved chunks⟩ cap _ rfl rfl chunk hfits
  rcases hcases with ⟨-, hreply⟩ | ⟨-, hmore, hnext⟩
  · rw [hafter] at hreply
    cases hreply
  · rw [hafter] at hnext
    obtain ⟨rfl, -⟩ := Prod.mk.inj hnext
    simp only [List.take_of_length_le hreads.length.le, hwhole] at hmore ⊢
    rw [← hsum] at hmore ⊢
    refine ⟨handle, fd, ownedFd, _, rfl, ?_⟩
    split
    · next hfull =>
        have hsmall : cap < 65536 := by
          by_contra hlarge
          refine hflows ⟨?_, ?_, ?_⟩
          · omega
          · omega
          · rwa [← hsum]
        rw [hfull]
        exact lt_vecReserve hsmall _
    · next hpart => omega

theorem JobRun.readsOn (hrun : JobRun op chunks kind) (hread : Op.readToEnd? op = some pos)
    (hpos : pos < 2 ^ 64) (hfile : file.length < 2 ^ 63)
    (hdelivers : ∀ chunk ∈ chunks, chunk.Delivers file) (hflows : NeverStalls pos chunks) :
    ReadsOn file pos chunks kind := by
  induction hrun with
  | start hstarts => exact readsOn_start hread hstarts
  | more hrun hasks hafter ih =>
      have hreads := ih (fun chunk hmem => hdelivers chunk (List.mem_cons_of_mem _ hmem)) hflows.2
      exact hreads.more hpos hfile hasks (hdelivers _ List.mem_cons_self) hflows.1 hafter

/-- The reply is the file as far as it was read, and the reading had come to an
end. -/
theorem Replied.readToEnd {data : List Byte} (hreplied : Replied op chunks (.bytes data))
    (hread : Op.readToEnd? op = some pos) (hpos : pos < 2 ^ 64) (hfile : file.length < 2 ^ 63)
    (hdelivers : ∀ chunk ∈ chunks, chunk.Delivers file) (hflows : NeverStalls pos chunks) :
    data = (file.drop pos).take (moved chunks) ∧ data.length = moved chunks ∧
      ∃ chunk earlier, chunks = chunk :: earlier ∧
        (chunk.transferred.n = 0 ∧ 0 < chunk.call.nbytes ∨ chunk.AtEnd pos (moved chunks)) := by
  obtain ⟨chunk, earlier, kind, kind', rfl, hrun, hasks, hafter⟩ := hreplied
  have hreads := hrun.readsOn hread hpos hfile
    (fun chunk hmem => hdelivers chunk (List.mem_cons_of_mem _ hmem)) hflows.2
  obtain ⟨hwhole, hlength, hinside⟩ := hreads.delivered hpos hfile hasks
    (hdelivers _ List.mem_cons_self)
  obtain ⟨handle, fd, ownedFd, cap, rfl, hroom⟩ := hreads.kind
  obtain ⟨-, hnbytes, -⟩ := asks_read rfl hasks
  have hsum : moved (chunk :: earlier) = moved earlier + chunk.transferred.n := by
    rw [moved_cons, Nat.add_comm]
  simp only at hnbytes
  have hfits : pos + (moved earlier + chunk.transferred.n) < 2 ^ 64 := by omega
  have hcases := @after_readToEnd ⟨handle, fd, ownedFd, pos, .toEnd,
    .owned cap ((file.drop pos).take (moved earlier)), moved earlier⟩ cap _ rfl rfl chunk hfits
  rcases hcases with ⟨hlast, hreply⟩ | ⟨-, -, hnext⟩
  · rw [hafter] at hreply
    simp only [List.take_of_length_le hreads.length.le, hwhole, Option.some.injEq,
      Except.ok.injEq, Reply.bytes.injEq] at hreply
    subst hreply
    refine ⟨rfl, hlength, chunk, earlier, rfl, ?_⟩
    rcases hlast with hnone | hend
    · exact Or.inl ⟨hnone, by omega⟩
    · right
      rwa [hsum]
  · rw [hafter] at hnext
    cases hnext

/-- After a stall the next call is for no bytes. -/
theorem asks_nothing_of_stalls {chunk : Chunk} (hrun : JobRun op (chunk :: chunks) kind)
    (hread : Op.readToEnd? op = some pos) (hpos : pos < 2 ^ 64) (hfile : file.length < 2 ^ 63)
    (hdelivers : ∀ other ∈ chunk :: chunks, other.Delivers file) (hflows : NeverStalls pos chunks)
    (hstalls : chunk.Stalls pos (moved chunks)) {call : Syscall} (hasks : kind.Asks call) :
    call.nbytes = 0 := by
  cases hrun with
  | more hearlier hcall hafter =>
      have hreads := hearlier.readsOn hread hpos hfile
        (fun other hmem => hdelivers other (List.mem_cons_of_mem _ hmem)) hflows
      obtain ⟨-, hlength, hinside⟩ := hreads.delivered hpos hfile hcall
        (hdelivers _ List.mem_cons_self)
      obtain ⟨handle, fd, ownedFd, cap, rfl, hroom⟩ := hreads.kind
      obtain ⟨hstart, hnbytes, -⟩ := asks_read rfl hcall
      have hsum : moved (chunk :: chunks) = moved chunks + chunk.transferred.n := by
        rw [moved_cons, Nat.add_comm]
      obtain ⟨hfull, hlarge, -⟩ := hstalls
      simp only at hstart hnbytes
      have hfits : pos + (moved chunks + chunk.transferred.n) < 2 ^ 64 := by omega
      have hcases := @after_readToEnd ⟨handle, fd, ownedFd, pos, .toEnd,
        .owned cap ((file.drop pos).take (moved chunks)), moved chunks⟩ cap _ rfl rfl chunk hfits
      rcases hcases with ⟨-, hreply⟩ | ⟨-, -, hnext⟩
      · rw [hafter] at hreply
        cases hreply
      · rw [hafter] at hnext
        obtain ⟨rfl, -⟩ := Prod.mk.inj hnext
        have hcap : moved chunks + chunk.transferred.n = cap := by omega
        have hgrown : vecReserve cap 0 (max cap 65536) chunk.slack = cap :=
          vecReserve_of_le (by omega) _
        obtain ⟨-, hrest, -⟩ := asks_read rfl hasks
        simp only [hcap, if_true, hgrown, Nat.sub_self] at hrest
        exact hrest

end Job

/-! ## Along a run -/

/-- In every step of every run in which no chunk stalls, a read to the end asks
for at least one byte and replies with the whole rest of the file. -/
theorem reads_whole_file {file : List Byte} {state next : State} {label : Label}
    {record : List (OpId × Chunk)} (hrun : driver.Recorded State.chunk? state record)
    (hstep : Darwin.step state label = some next) {id : OpId} {op : Op} {pos : ℕ}
    (hsent : Sent next.log id op) (hread : Op.readToEnd? op = some pos) (hpos : pos < 2 ^ 64)
    (hfile : file.length < 2 ^ 63)
    (hdelivers : ∀ chunk ∈ chunksThen state label record id, chunk.Delivers file)
    (hflows : NeverStalls pos (chunksThen state label record id)) :
    ReadsFile file id pos (chunksThen state label record id) (newEvents state next) where
  requests fd call hevent htransfers := by
    obtain ⟨kind, hjob, hasks⟩ := request_of_recorded hrun hstep hsent hevent htransfers
    have hearlier : NeverStalls pos (chunksOf record id) := by
      rcases chunksThen_eq_or_cons state label record id with hsame | ⟨chunk, hcons⟩
      · rwa [hsame] at hflows
      · rw [hcons] at hflows
        exact hflows.2
    have hreads := hjob.readsOn hread hpos hfile
      (fun chunk hmem => hdelivers chunk (mem_chunksThen hmem)) hearlier
    obtain ⟨handle, fd, ownedFd, cap, rfl, hroom⟩ := hreads.kind
    obtain ⟨-, hnbytes, -⟩ := asks_read rfl hasks
    rw [hnbytes]
    exact Nat.sub_pos_of_lt hroom
  replies data hevent := by
    rcases reply_of_recorded hrun hstep hsent hevent rfl with ⟨hanswers, -⟩ | hreplied
    · cases op with
      | readAt handle pos' dest => cases hread
      | _ => exact hanswers.elim
    · exact hreplied.readToEnd hread hpos hfile hdelivers hflows

/-- A file of three bytes is read by one request. -/
theorem reads_whole_file_three : ∃ state next record,
    ReadsFile [1, 2, 3] 1 0
      (chunksThen state (.drive { aio := .done ⟨3, [1, 2, 3]⟩, stat := .ok ⟨3, true⟩ }) record 1)
      (newEvents state next) := by
  let op : Op := .readFile [97] 10
  let last : Label := .drive { aio := .done ⟨3, [1, 2, 3]⟩, stat := .ok ⟨3, true⟩ }
  let labels : List Label := [.submit 1 op,
    .drive { openFd := .ok 3, stat := .ok ⟨3, true⟩ }, .drive {}, .drive {}, .drive {}]
  have hinit : driver.Recorded State.chunk? (State.new 2 1) [] :=
    .init ⟨0, 1, Nat.one_pos, rfl⟩
  obtain ⟨state, hexec⟩ : ∃ state, driver.exec (State.new 2 1) labels = some state := ⟨_, rfl⟩
  obtain ⟨next, hstep⟩ : ∃ next, Darwin.step state last = some next := by
    cases hexec
    exact ⟨_, rfl⟩
  have hsent : Sent next.log 1 op := by
    cases hexec
    cases hstep
    exact ⟨1, List.mem_of_getElem? (i := 7) rfl⟩
  have hchunks : chunksThen state last (driver.record State.chunk? (State.new 2 1) [] labels) 1 =
      [⟨.aioRead 0 0 3, ⟨3, [1, 2, 3]⟩, .ok ⟨3, true⟩, 0⟩] := by
    cases hexec
    rfl
  refine ⟨state, next, _, reads_whole_file (hinit.ofExec hexec) hstep hsent rfl (by decide)
    (by decide) ?_ ?_⟩
  · intro chunk hmem
    rw [hchunks, List.mem_singleton] at hmem
    subst hmem
    exact ⟨rfl, by decide, 0, rfl, rfl⟩
  · rw [hchunks]
    exact ⟨fun hstalls => absurd hstalls.2.1 (by decide), trivial⟩

/-- A file of 65536 bytes gets one more while `ReadFile` reads it. -/
def growingRun : List Label :=
  [.submit 1 (.readFile [97] 100000), .drive { openFd := .ok 3, stat := .ok ⟨65536, true⟩ },
    .drive {}, .drive {}, .drive {},
    .drive { aio := .done ⟨65536, List.replicate 65536 0⟩, stat := .ok ⟨65537, true⟩ }]

/-- The buffer is full, and the next request is for no bytes. -/
theorem full_buffer_asks_nothing :
    ¬∀ (file : List Byte) (state next : State) (label : Label) (record : List (OpId × Chunk))
      (id : OpId) (op : Op) (pos : ℕ), driver.Recorded State.chunk? state record →
      Darwin.step state label = some next → Sent next.log id op → Op.readToEnd? op = some pos →
      pos < 2 ^ 64 → file.length < 2 ^ 63 →
      (∀ chunk ∈ chunksThen state label record id, chunk.Delivers file) →
      ReadsFile file id pos (chunksThen state label record id) (newEvents state next) := by
  intro hclaim
  have hinit : driver.Recorded State.chunk? (State.new 2 1) [] :=
    .init ⟨0, 1, Nat.one_pos, rfl⟩
  obtain ⟨state, hexec⟩ : ∃ state, driver.exec (State.new 2 1) growingRun = some state :=
    ⟨_, rfl⟩
  obtain ⟨next, hstep⟩ : ∃ next, Darwin.step state (.drive {}) = some next := by
    cases hexec
    exact ⟨_, rfl⟩
  have hsent : Sent next.log 1 (.readFile [97] 100000) := by
    cases hexec
    cases hstep
    exact ⟨1, List.mem_of_getElem? (i := 6) rfl⟩
  have hchunks : chunksThen state (.drive {})
      (driver.record State.chunk? (State.new 2 1) [] growingRun) 1 =
      [⟨.aioRead 0 0 65536, ⟨65536, List.replicate 65536 0⟩, .ok ⟨65537, true⟩, 0⟩] := by
    cases hexec
    rfl
  have hrequest : Event.syscall 1 3 (.aioRead 65536 65536 0) ∈ newEvents state next := by
    cases hexec
    cases hstep
    exact List.mem_of_getElem? (i := 0) rfl
  have hdelivers : ∀ chunk ∈ chunksThen state (.drive {})
      (driver.record State.chunk? (State.new 2 1) [] growingRun) 1,
        chunk.Delivers (List.replicate 65537 0) := by
    intro chunk hmem
    rw [hchunks, List.mem_singleton] at hmem
    subst hmem
    refine ⟨List.length_replicate, Nat.le_refl _, 0, rfl, ?_⟩
    rw [List.drop_zero, List.take_replicate]
    rfl
  have hlength : (List.replicate 65537 (0 : Byte)).length < 2 ^ 63 := by
    rw [List.length_replicate]
    decide
  have hreads := hclaim _ state next _ _ 1 _ 0 (hinit.ofExec hexec) hstep hsent rfl (by decide)
    hlength hdelivers
  exact absurd (hreads.requests _ _ hrequest rfl) (by decide)

end Turbofile.Darwin
