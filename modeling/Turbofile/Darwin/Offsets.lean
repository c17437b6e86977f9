import Turbofile.Darwin.Chunks
import Turbofile.FastPath.Offsets

/-!
# The offsets of the driver

The driver adds a job's progress to its position as `u64` and casts the sum to
`off_t` without looking.  The kernel moves no data past the largest offset, so
the sum is right at every chunk of an op whose position fits `off_t`, and at no
chunk of one whose position does not.
-/

namespace Turbofile.Darwin

open Turbofile.Core
open Turbofile.Coroutine
open State

/-! ## Positions -/

/-- Where in the file an op starts. -/
def Op.position? : Op → Option ℕ
  | .readAt _ pos _ | .readToEnd _ pos | .writeAt _ pos _ _ => some pos
  | .readFile .. | .writeFile .. => some 0
  | _ => none

/-- An appending write: the kernel writes at the end, whatever offset it gets. -/
def Op.appends : Op → Bool
  | .writeAt _ _ _ append => append
  | _ => false

/-- The bytes an op writes. -/
def Op.payloadLen : Op → ℕ
  | .writeAt _ _ data _ | .writeFile _ data => data.len
  | _ => 0

/-- The ops whose offsets are right. -/
def Op.FitsOffT (op : Op) (pos : ℕ) : Prop :=
  pos < 2 ^ 63 ∧ (Op.appends op = true → pos + Op.payloadLen op ≤ 2 ^ 63)

/-- The kernel moves at most what it is asked for, and nothing past the largest
offset. -/
structure Chunk.Fits (op : Op) (chunk : Chunk) : Prop where
  asked : chunk.transferred.n ≤ chunk.call.nbytes
  inFile : Op.appends op = false → ∀ offset, chunk.call.offset = some offset →
    offset + chunk.transferred.n < 2 ^ 63

/-- A job that goes on at `pos + filled`. -/
def JobKind.At (op : Op) (pos filled : ℕ) : JobKind → Prop
  | .read job => job.pos = pos ∧ job.filled = filled ∧ Op.appends op = false
  | .write job => job.pos = pos ∧ job.filled = filled ∧
      job.append = Op.appends op ∧ job.data.len = Op.payloadLen op
  | .fsync _ => False

variable {op : Op} {pos : ℕ} {chunks : List Chunk} {kind : JobKind}

theorem at_of_starts (hpos : Op.position? op = some pos) (hstarts : Op.starts op kind) :
    kind.At op pos 0 := by
  cases op with
  | readAt handle pos' dest =>
      obtain rfl := Option.some.inj hpos
      cases dest with
      | alloc len =>
          obtain ⟨-, fd, slack, rfl⟩ := hstarts
          exact ⟨rfl, rfl, rfl⟩
      | into ptr len =>
          obtain ⟨-, fd, rfl⟩ := hstarts
          exact ⟨rfl, rfl, rfl⟩
  | readToEnd handle pos' =>
      obtain rfl := Option.some.inj hpos
      obtain ⟨fd, hint, slack, rfl⟩ := hstarts
      exact ⟨rfl, rfl, rfl⟩
  | writeAt handle pos' data append =>
      obtain rfl := Option.some.inj hpos
      obtain ⟨-, fd, rfl⟩ := hstarts
      exact ⟨rfl, rfl, rfl, rfl⟩
  | readFile path inlineMax =>
      obtain rfl := Option.some.inj hpos
      obtain ⟨after, hafter, hstarts⟩ := hstarts
      obtain rfl : .readFile inlineMax = after := by simpa [Op.after] using hafter
      obtain ⟨fd, size, slack, rfl⟩ := hstarts
      exact ⟨rfl, rfl, rfl⟩
  | writeFile path data =>
      obtain rfl := Option.some.inj hpos
      obtain ⟨after, hafter, hstarts⟩ := hstarts
      obtain rfl : .writeFile data = after := by simpa [Op.after] using hafter
      obtain ⟨fd, rfl⟩ := hstarts
      exact ⟨rfl, rfl, rfl, rfl⟩
  | _ => cases hpos

/-- A chunk moves a job on by the bytes it has moved. -/
theorem at_of_after {filled : ℕ} {chunk : Chunk} {kind' : JobKind} {reply : Option Outcome}
    (hat : kind.At op pos filled) (hafter : kind.after chunk = (kind', reply)) :
    kind'.At op pos (filled + chunk.transferred.n) := by
  cases kind with
  | read read =>
      obtain ⟨rfl, rfl, hreads⟩ := hat
      simp only [JobKind.after, State.stepJob] at hafter
      split at hafter
      · obtain ⟨rfl, -⟩ := Prod.mk.inj hafter
        exact ⟨rfl, rfl, hreads⟩
      · split at hafter
        · obtain ⟨rfl, -⟩ := Prod.mk.inj hafter
          exact ⟨rfl, rfl, hreads⟩
        · obtain ⟨rfl, -⟩ := Prod.mk.inj hafter
          exact ⟨rfl, rfl, hreads⟩
  | write write =>
      obtain ⟨rfl, rfl, happend, hlen⟩ := hat
      simp only [JobKind.after, State.stepJob] at hafter
      split at hafter
      · obtain ⟨rfl, -⟩ := Prod.mk.inj hafter
        exact ⟨rfl, rfl, happend, hlen⟩
      · split at hafter
        · obtain ⟨rfl, -⟩ := Prod.mk.inj hafter
          exact ⟨rfl, rfl, happend, hlen⟩
        · obtain ⟨rfl, -⟩ := Prod.mk.inj hafter
          exact ⟨rfl, rfl, happend, hlen⟩
  | fsync fsync => exact hat.elim

theorem JobRun.place (hrun : JobRun op chunks kind) (hpos : Op.position? op = some pos) :
    kind.At op pos (moved chunks) := by
  induction hrun with
  | start hstarts => exact at_of_starts hpos hstarts
  | @more earlier chunk _ _ _ _ hafter ih =>
      rw [moved_cons, Nat.add_comm]
      exact at_of_after ih hafter

/-- The offset a job asks for is its place, cast. -/
theorem JobKind.At.offset {filled : ℕ} (hat : kind.At op pos filled) {call : Syscall}
    (hasks : kind.Asks call) {offset : ℤ} (hoffset : call.offset = some offset) :
    offset = asOffT (u64Add pos filled) := by
  cases kind with
  | read read =>
      obtain ⟨rfl, rfl, -⟩ := hat
      rcases hasks with rfl | rfl
      · exact (Option.some.inj hoffset).symm
      · exact (Option.some.inj hoffset).symm
  | write write =>
      obtain ⟨rfl, rfl, -, -⟩ := hat
      rcases hasks with rfl | rfl
      · exact (Option.some.inj hoffset).symm
      · unfold syncCall at hoffset
        cases hmode : write.append with
        | true =>
            simp only [hmode, if_true] at hoffset
            cases hoffset
        | false =>
            simp only [hmode] at hoffset
            exact (Option.some.inj hoffset).symm
  | fsync fsync => exact hat.elim

/-- Every call of a job but that of an appending write has an offset. -/
theorem JobKind.At.offset_isSome {filled : ℕ} (hat : kind.At op pos filled)
    (hfixed : Op.appends op = false) {call : Syscall} (hasks : kind.Asks call) :
    ∃ offset, call.offset = some offset := by
  cases kind with
  | read read =>
      rcases hasks with rfl | rfl
      · exact ⟨_, rfl⟩
      · exact ⟨_, rfl⟩
  | write write =>
      obtain ⟨-, -, happend, -⟩ := hat
      rcases hasks with rfl | rfl
      · exact ⟨_, rfl⟩
      · unfold syncCall
        simp only [happend.trans hfixed]
        exact ⟨_, rfl⟩
  | fsync fsync => exact hat.elim

/-! ## The sums of a job -/

/-- An appending write that goes on has more to write. -/
theorem JobRun.unfinished (hrun : JobRun op chunks kind) (hpos : Op.position? op = some pos)
    (happends : Op.appends op = true) : moved chunks < Op.payloadLen op := by
  induction hrun with
  | start hstarts =>
      cases op with
      | writeAt handle pos' data append => exact hstarts.1
      | _ => cases happends
  | @more earlier chunk kind kind' hrun hasks hafter _ =>
      have hat := hrun.place hpos
      cases kind with
      | read read =>
          cases hat.2.2.symm.trans happends
      | write write =>
          obtain ⟨-, hfilled, -, hlen⟩ := hat
          simp only [JobKind.after, State.stepJob] at hafter
          split at hafter
          · next hmore =>
              rw [moved_cons, ← hlen, ← hfilled, Nat.add_comm]
              exact hmore
          · split at hafter
            · cases (Prod.mk.inj hafter).2
            · cases (Prod.mk.inj hafter).2
      | fsync fsync => exact hat.elim

/-- A chunk of an op that is in range ends in range. -/
theorem JobKind.At.inFile {filled : ℕ} (hat : kind.At op pos filled)
    (hfixed : Op.appends op = false) (hsum : pos + filled < 2 ^ 63) {chunk : Chunk}
    (hasks : kind.Asks chunk.call) (hchunk : chunk.Fits op) :
    pos + (filled + chunk.transferred.n) < 2 ^ 63 := by
  obtain ⟨offset, hoffset⟩ := hat.offset_isSome hfixed hasks
  have hend := hchunk.inFile hfixed offset hoffset
  rw [hat.offset hasks hoffset, asOffT_u64Add hsum] at hend
  omega

/-- The sum of the position and the bytes moved fits at every chunk. -/
theorem JobRun.fits (hrun : JobRun op chunks kind) (hpos : Op.position? op = some pos)
    (hfits : Op.FitsOffT op pos) (hkernel : ∀ chunk ∈ chunks, chunk.Fits op) :
    pos + moved chunks < 2 ^ 63 := by
  cases happends : Op.appends op with
  | true =>
      have hmore := hrun.unfinished hpos happends
      have hbound := hfits.2 happends
      omega
  | false =>
      induction hrun with
      | start _ => exact hfits.1
      | @more earlier chunk _ _ hrun hasks _ ih =>
          have hsum := ih fun other hmem => hkernel other (List.mem_cons_of_mem _ hmem)
          rw [moved_cons, Nat.add_comm chunk.transferred.n]
          exact (hrun.place hpos).inFile happends hsum hasks (hkernel chunk List.mem_cons_self)

/-- What a job asks for in one call fits its payload. -/
theorem JobKind.At.nbytes {filled : ℕ} (hat : kind.At op pos filled)
    (happends : Op.appends op = true) {call : Syscall} (hasks : kind.Asks call) :
    call.nbytes = Op.payloadLen op - filled := by
  cases kind with
  | read read =>
      cases hat.2.2.symm.trans happends
  | write write =>
      obtain ⟨-, rfl, happend, hlen⟩ := hat
      rw [← hlen]
      rcases hasks with rfl | rfl
      · rfl
      · unfold syncCall
        simp only [happend.trans happends, if_true]
        rfl
  | fsync fsync => exact hat.elim

theorem Replied.fits {reply : Reply} (hreplied : Replied op chunks reply)
    (hpos : Op.position? op = some pos) (hfits : Op.FitsOffT op pos)
    (hkernel : ∀ chunk ∈ chunks, chunk.Fits op) : pos + moved chunks < 2 ^ 64 := by
  obtain ⟨chunk, earlier, kind, kind', rfl, hrun, hasks, -⟩ := hreplied
  have hearlier := hrun.fits hpos hfits fun other hmem =>
    hkernel other (List.mem_cons_of_mem _ hmem)
  have hchunk := hkernel chunk List.mem_cons_self
  have hat := hrun.place hpos
  rw [moved_cons, Nat.add_comm chunk.transferred.n]
  cases happends : Op.appends op with
  | true =>
      have hasked := hchunk.asked
      rw [hat.nbytes happends hasks] at hasked
      have hmore := hrun.unfinished hpos happends
      have hbound := hfits.2 happends
      omega
  | false =>
      have hend := hat.inFile happends hearlier hasks hchunk
      omega

/-! ## Along a run -/

end Turbofile.Darwin
