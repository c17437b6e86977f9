import Turbofile.Darwin.Chunks

/-!
# Writes cover their payload

A write is asked for in chunks, each for all that is left of the payload.  The
driver answers an empty `WriteAt` without a call, because XNU may reject an
empty one, but sends an empty `WriteFile` to the kernel; and it adds to
positions and casts them to `off_t` without looking.  Away from these two a
write covers its payload once, from the first byte to the last.
-/

namespace Turbofile.Darwin

open Turbofile.Core
open State

/-! ## What a write may ask and answer -/

/-- Position, payload and mode of the ops that write. -/
def Op.write? : Op → Option (ℕ × Payload × Bool)
  | .writeAt _ pos data append => some (pos, data, append)
  | .writeFile _ data => some (0, data, false)
  | _ => none

/-- A call for the rest of a payload of `len` bytes, `accepted` of which are
written; one for a positional write is at the position of the first that is not. -/
def Syscall.WritesRest (pos len : ℕ) (append : Bool) (accepted : ℕ) : Syscall → Prop
  | .aioWrite offset start nbytes =>
      start = accepted ∧ 0 < nbytes ∧ start + nbytes = len ∧
        (append = false → offset = pos + accepted)
  | .pwrite offset start nbytes =>
      start = accepted ∧ 0 < nbytes ∧ start + nbytes = len ∧
        append = false ∧ offset = pos + accepted
  | .write start nbytes =>
      start = accepted ∧ 0 < nbytes ∧ start + nbytes = len ∧ append = true
  | _ => False

/-- In a step that logs `events`, a write asks for the rest of its payload and
nothing else, and says that it has written once the kernel has accepted all. -/
structure CoversPayload (id : OpId) (pos len : ℕ) (append : Bool) (earlier chunks : List Chunk)
    (events : List Event) : Prop where
  requests : ∀ fd call, Event.syscall id fd call ∈ events → call.transfers = true →
    call.WritesRest pos len append (moved earlier)
  replies : ∀ n fileEnd, Event.settled id (.ok (.written n fileEnd)) ∈ events →
    moved chunks = len ∧ n = len ∧ (append = false → fileEnd = pos + len)

/-- The writes the driver carries out as it should. -/
def Op.coverable : Op → Prop
  | .writeAt _ pos data append => append = true ∨ data.len = 0 ∨ pos + data.len ≤ 2 ^ 63
  | .writeFile _ data => 0 < data.len ∧ data.len ≤ 2 ^ 63
  | _ => True

/-! ## The job of a write -/

variable {op : Op} {pos : ℕ} {data : Payload} {append : Bool} {chunks : List Chunk}
  {kind : JobKind}

/-- A chunk of a write leaves more to do, or the last byte is written. -/
theorem after_write (write : WriteJob) (chunk : Chunk) :
    (JobKind.write write).after chunk =
      (.write { write with filled := write.filled + chunk.transferred.n },
        if write.filled + chunk.transferred.n < write.data.len then none
        else if write.append then
          some ((osResult chunk.stat).map fun stat => .written write.data.len stat.size)
        else some (.ok (.written write.data.len (u64Add write.pos write.data.len)))) := by
  simp only [JobKind.after, State.stepJob]
  split
  · rfl
  · split
    · rfl
    · rfl

/-- The job of a write has written what its chunks have, and is not done. -/
theorem JobRun.write (hrun : JobRun op chunks kind)
    (hwrite : Op.write? op = some (pos, data, append)) :
    ∃ handle fd ownedFd, kind = .write ⟨handle, fd, ownedFd, pos, append, data, moved chunks⟩ ∧
      (0 < data.len → moved chunks < data.len) := by
  induction hrun with
  | start hstarts =>
      cases op with
      | writeAt handle pos' data' append' =>
          obtain ⟨rfl, rfl, rfl⟩ : pos' = pos ∧ data' = data ∧ append' = append := by
            simpa [Op.write?] using hwrite
          obtain ⟨hsome, fd, rfl⟩ := hstarts
          exact ⟨some handle, fd, false, rfl, fun _ => hsome⟩
      | writeFile path data' =>
          obtain ⟨rfl, rfl, rfl⟩ : 0 = pos ∧ data' = data ∧ false = append := by
            simpa [Op.write?] using hwrite
          obtain ⟨after, hafter, hstarts⟩ := hstarts
          obtain rfl : .writeFile data' = after := by simpa [Op.after] using hafter
          obtain ⟨fd, rfl⟩ := hstarts
          exact ⟨none, fd, true, rfl, fun hsome => hsome⟩
      | _ => cases hwrite
  | @more earlier chunk _ kind' hrun hasks hafter ih =>
      obtain ⟨handle, fd, ownedFd, rfl, -⟩ := ih
      rw [after_write, Prod.mk.injEq] at hafter
      obtain ⟨rfl, hmore⟩ := hafter
      have hleft : moved earlier + chunk.transferred.n < data.len := by
        by_contra hdone
        rw [if_neg hdone] at hmore
        cases append <;> simp at hmore
      rw [moved_cons, Nat.add_comm chunk.transferred.n]
      exact ⟨handle, fd, ownedFd, rfl, fun _ => hleft⟩

/-- The op of a job with a payload to write has one. -/
theorem writable_of_run (hrun : JobRun op chunks kind)
    (hwrite : Op.write? op = some (pos, data, append)) (hcoverable : Op.coverable op) :
    0 < data.len ∧ (append = false → pos + data.len ≤ 2 ^ 63) := by
  induction hrun with
  | start hstarts =>
      cases op with
      | writeAt handle pos' data' append' =>
          obtain ⟨rfl, rfl, rfl⟩ : pos' = pos ∧ data' = data ∧ append' = append := by
            simpa [Op.write?] using hwrite
          refine ⟨hstarts.1, fun hfixed => ?_⟩
          rcases hcoverable with happend | hnone | hfits
          · rw [hfixed] at happend
            cases happend
          · exact absurd hnone (Nat.pos_iff_ne_zero.mp hstarts.1)
          · exact hfits
      | writeFile path data' =>
          obtain ⟨rfl, rfl, rfl⟩ : 0 = pos ∧ data' = data ∧ false = append := by
            simpa [Op.write?] using hwrite
          exact ⟨hcoverable.1, fun _ => by rw [Nat.zero_add]; exact hcoverable.2⟩
      | _ => cases hwrite
  | more _ _ _ ih => exact ih

/-- The next call of a write is for the rest of its payload. -/
theorem JobRun.writesRest (hrun : JobRun op chunks kind)
    (hwrite : Op.write? op = some (pos, data, append)) (hcoverable : Op.coverable op)
    {call : Syscall} (hasks : kind.Asks call) :
    call.WritesRest pos data.len append (moved chunks) := by
  obtain ⟨hsome, hfits⟩ := writable_of_run hrun hwrite hcoverable
  obtain ⟨handle, fd, ownedFd, rfl, hleft⟩ := hrun.write hwrite
  have hmore := hleft hsome
  have hrest : 0 < data.len - moved chunks ∧
      moved chunks + (data.len - moved chunks) = data.len := by omega
  have hoffset : append = false → asOffT (u64Add pos (moved chunks)) = pos + moved chunks := by
    intro hfixed
    have hbound := hfits hfixed
    exact asOffT_u64Add (by omega)
  rcases hasks with rfl | rfl
  · exact ⟨rfl, hrest.1, hrest.2, hoffset⟩
  · cases append with
    | true => exact ⟨rfl, hrest.1, hrest.2, rfl⟩
    | false => exact ⟨rfl, hrest.1, hrest.2, rfl, hoffset rfl⟩

/-- A write replies with its length when all of it is accepted. -/
theorem Replied.written {n fileEnd : ℕ} (hreplied : Replied op chunks (.written n fileEnd))
    (hwrite : Op.write? op = some (pos, data, append)) (hcoverable : Op.coverable op)
    (hcounts : ∀ chunk ∈ chunks, chunk.transferred.n ≤ chunk.call.nbytes) :
    moved chunks = data.len ∧ n = data.len ∧ (append = false → fileEnd = pos + data.len) := by
  obtain ⟨chunk, earlier, kind, kind', rfl, hrun, hasks, hafter⟩ := hreplied
  obtain ⟨hsome, hfits⟩ := writable_of_run hrun hwrite hcoverable
  obtain ⟨handle, fd, ownedFd, rfl, hleft⟩ := hrun.write hwrite
  have hmore := hleft hsome
  have hnbytes : chunk.call.nbytes = data.len - moved earlier := by
    rcases hasks with hcall | hcall
    · rw [hcall]
      rfl
    · rw [hcall]
      cases append <;> rfl
  have hbound := hcounts chunk List.mem_cons_self
  rw [hnbytes] at hbound
  rw [after_write, Prod.mk.injEq] at hafter
  have hdone : ¬moved earlier + chunk.transferred.n < data.len := by
    intro hshort
    rw [if_pos hshort] at hafter
    cases hafter.2
  rw [if_neg hdone] at hafter
  refine ⟨by rw [moved_cons]; omega, ?_⟩
  cases append with
  | true =>
      rw [if_pos rfl, Option.some.injEq] at hafter
      cases hstat : chunk.stat with
      | error errno =>
          rw [hstat] at hafter
          cases hafter.2
      | ok stat =>
          rw [hstat] at hafter
          obtain ⟨rfl, -⟩ := Reply.written.inj (Except.ok.inj hafter.2)
          exact ⟨rfl, fun hfixed => by cases hfixed⟩
  | false =>
      rw [if_neg (by simp), Option.some.injEq] at hafter
      obtain ⟨rfl, rfl⟩ := Reply.written.inj (Except.ok.inj hafter.2)
      have hend := hfits rfl
      exact ⟨rfl, fun _ => u64Add_eq (show pos + data.len < 2 ^ 64 by omega)⟩

/-! ## Along a run -/

/-- In every step of every run a coverable write asks for what is left of its
payload, at its place, and replies once the kernel has accepted all of it. -/
theorem writes_cover_payload {state next : State} {label : Label} {record : List (OpId × Chunk)}
    (hrun : driver.Recorded State.chunk? state record)
    (hstep : Darwin.step state label = some next) {id : OpId} {op : Op} {pos : ℕ}
    {data : Payload} {append : Bool} (hsent : Sent next.log id op)
    (hwrite : Op.write? op = some (pos, data, append)) (hcoverable : Op.coverable op)
    (hcounts : ∀ chunk ∈ chunksThen state label record id,
      chunk.transferred.n ≤ chunk.call.nbytes) :
    CoversPayload id pos data.len append (chunksOf record id) (chunksThen state label record id)
      (newEvents state next) where
  requests fd call hevent htransfers := by
    obtain ⟨kind, hjob, hasks⟩ := request_of_recorded hrun hstep hsent hevent htransfers
    exact hjob.writesRest hwrite hcoverable hasks
  replies n fileEnd hevent := by
    rcases reply_of_recorded hrun hstep hsent hevent rfl with ⟨hanswers, hnone⟩ | hreplied
    · cases op with
      | writeAt handle pos' data' append' =>
          obtain ⟨rfl, rfl, rfl⟩ : pos' = pos ∧ data' = data ∧ append' = append := by
            simpa [Op.write?] using hwrite
          obtain ⟨hempty, rfl, hend⟩ := hanswers
          rw [hnone, hempty]
          exact ⟨rfl, rfl, hend⟩
      | writeFile path data' => exact hanswers.elim
      | _ => cases hwrite
    · exact hreplied.written hwrite hcoverable hcounts

/-- A `WriteFile` of three bytes goes out as one request and replies when the
kernel has taken all three. -/
theorem writes_cover_payload_file : ∃ state next record,
    CoversPayload 1 0 3 false (chunksOf record 1)
      (chunksThen state (.drive { aio := .done ⟨3, []⟩ }) record 1) (newEvents state next) := by
  let op : Op := .writeFile [97] (.owned [1, 2, 3])
  let labels : List Label := [.submit 1 op, .drive { openFd := .ok 3 }, .drive {}, .drive {},
    .drive {}]
  have hinit : driver.Recorded State.chunk? (State.new 2 1) [] :=
    .init ⟨0, 1, Nat.one_pos, rfl⟩
  obtain ⟨state, hexec⟩ : ∃ state, driver.exec (State.new 2 1) labels = some state := ⟨_, rfl⟩
  obtain ⟨next, hstep⟩ : ∃ next,
      Darwin.step state (.drive { aio := .done ⟨3, []⟩ }) = some next := by
    cases hexec
    exact ⟨_, rfl⟩
  have hsent : Sent next.log 1 op := by
    cases hexec
    cases hstep
    exact ⟨1, List.mem_of_getElem? (i := 5) rfl⟩
  have hwhole : ∀ chunk ∈ chunksThen state (.drive { aio := .done ⟨3, []⟩ })
      (driver.record State.chunk? (State.new 2 1) [] labels) 1,
        chunk.transferred.n ≤ chunk.call.nbytes := by
    cases hexec
    decide
  exact ⟨state, next, _, writes_cover_payload (hinit.ofExec hexec) hstep hsent rfl
    ⟨by decide, by decide⟩ hwhole⟩

/-- An empty `WriteFile` is handed to the kernel as a request for nothing. -/
theorem empty_write_is_requested :
    ¬∀ (state next : State) (label : Label) (record : List (OpId × Chunk)) (id : OpId) (op : Op)
      (pos : ℕ) (data : Payload) (append : Bool), driver.Recorded State.chunk? state record →
      Darwin.step state label = some next → Sent next.log id op →
      Op.write? op = some (pos, data, append) →
      (∀ chunk ∈ chunksThen state label record id, chunk.transferred.n ≤ chunk.call.nbytes) →
      CoversPayload id pos data.len append (chunksOf record id)
        (chunksThen state label record id) (newEvents state next) := by
  intro hclaim
  let op : Op := .writeFile [97] (.owned [])
  let labels : List Label := [.submit 1 op, .drive { openFd := .ok 3 }]
  have hinit : driver.Recorded State.chunk? (State.new 2 1) [] :=
    .init ⟨0, 1, Nat.one_pos, rfl⟩
  obtain ⟨state, hexec⟩ : ∃ state, driver.exec (State.new 2 1) labels = some state := ⟨_, rfl⟩
  obtain ⟨next, hstep⟩ : ∃ next, Darwin.step state (.drive {}) = some next := by
    cases hexec
    exact ⟨_, rfl⟩
  have hsent : Sent next.log 1 op := by
    cases hexec
    cases hstep
    exact ⟨1, List.mem_of_getElem? (i := 3) rfl⟩
  have hnone : ∀ chunk ∈ chunksThen state (.drive {})
      (driver.record State.chunk? (State.new 2 1) [] labels) 1,
        chunk.transferred.n ≤ chunk.call.nbytes := by
    cases hexec
    decide
  have hrequest : Event.syscall 1 3 (.aioWrite 0 0 0) ∈ newEvents state next := by
    cases hexec
    cases hstep
    exact List.mem_of_getElem? (i := 0) rfl
  have hcovers := hclaim _ _ _ _ _ _ _ _ _ (hinit.ofExec hexec) hstep hsent rfl hnone
  exact absurd (hcovers.requests _ _ hrequest rfl).2.1 (by decide)

end Turbofile.Darwin
