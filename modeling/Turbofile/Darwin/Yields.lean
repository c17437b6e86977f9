import Turbofile.Darwin.Machine
import Turbofile.Darwin.PositionalReads

/-!
# What a job comes to

On a disk that gives reads and writes in full, a job has one outcome, whether
its chunks go out as requests or as plain calls.
-/

namespace Turbofile.Darwin

open Turbofile.Core
open Turbofile.FileService

/-- A job that is carried on to its end on a disk. -/
inductive Yields (kernel : Kernel) (node : Node) : Disk → JobKind → Outcome → Disk → Prop
  | fails {disk : Disk} {kind : JobKind} {errno : Errno}
      (hcall : ∀ call, kind.Asks call →
        transfer kernel node call kind.payload disk = .error errno) :
      Yields kernel node disk kind (.error (.os errno)) disk
  | ends {disk after : Disk} {kind : JobKind} (transferred : Transferred) {outcome : Outcome}
      (hcall : ∀ call, kind.Asks call →
        transfer kernel node call kind.payload disk = .ok (transferred, after))
      (hafter : ∀ call, (kind.after ⟨call, transferred, .ok (stat node after), 0⟩).2 =
        some outcome) : Yields kernel node disk kind outcome after
  | more {disk mid after : Disk} {kind : JobKind} (kind' : JobKind) (transferred : Transferred)
      {outcome : Outcome}
      (hcall : ∀ call, kind.Asks call →
        transfer kernel node call kind.payload disk = .ok (transferred, mid))
      (hafter : ∀ call, kind.after ⟨call, transferred, .ok (stat node mid), 0⟩ = (kind', none))
      (hrest : Yields kernel node mid kind' outcome after) :
      Yields kernel node disk kind outcome after

variable {kernel : Kernel} {node : Node} {disk after : Disk} {pos : ℕ}

/-! ## Flushes and writes -/

theorem yields_fsync (job : FsyncJob) : Yields kernel node disk (.fsync job) (.ok .unit) disk := by
  refine .ends ⟨0, []⟩ (fun call hasks => ?_) fun call => rfl
  rcases hasks with rfl | rfl <;> rfl

section Writes

variable {handle : Option Handle} {fd : Fd} {ownedFd append : Bool} {data : Payload}

/-- Either call for a whole payload puts it where it belongs. -/
theorem transfer_write (hpos : pos < 2 ^ 64) (happend : append = node.flags.append) {call : Syscall}
    (hasks : (JobKind.write ⟨handle, fd, ownedFd, pos, append, data, 0⟩).Asks call) :
    transfer kernel node call data.asSlice disk =
      (put kernel node (asOffT pos) data.asSlice disk).map (⟨data.len, []⟩, ·) := by
  have hwhole : (data.asSlice.drop 0).take (data.len - 0) = data.asSlice := by
    rw [List.drop_zero, Nat.sub_zero]
    exact List.take_length
  rcases hasks with rfl | rfl
  · simp only [prepare, transfer, hwhole, asOffT_start hpos]
    rfl
  · cases append with
    | true =>
        simp only [syncCall, if_true, transfer, hwhole, put, ← happend]
        rfl
    | false =>
        simp only [syncCall, Bool.false_eq_true, if_false, transfer, hwhole, asOffT_start hpos]
        rfl

theorem yields_write_error (hpos : pos < 2 ^ 64) (happend : append = node.flags.append)
    {errno : Errno} (hput : put kernel node (asOffT pos) data.asSlice disk = .error errno) :
    Yields kernel node disk (.write ⟨handle, fd, ownedFd, pos, append, data, 0⟩)
      (.error (.os errno)) disk := by
  refine .fails fun call hasks => ?_
  rw [JobKind.payload, transfer_write hpos happend hasks, hput]
  rfl

theorem yields_write (hpos : pos < 2 ^ 64) (happend : append = node.flags.append)
    (hput : put kernel node (asOffT pos) data.asSlice disk = .ok after) :
    Yields kernel node disk (.write ⟨handle, fd, ownedFd, pos, append, data, 0⟩)
      (.ok (.written data.len
        (if append then (stat node after).size else u64Add pos data.len))) after := by
  refine .ends ⟨data.len, []⟩ (fun call hasks => ?_) fun call => ?_
  · rw [JobKind.payload, transfer_write hpos happend hasks, hput]
    rfl
  · simp only [JobKind.after, State.stepJob, Nat.zero_add, Nat.lt_irrefl, if_false]
    cases append <;> rfl

/-- A position whose write the kernel takes is far from the end of its range. -/
theorem written_end (hpos : pos < 2 ^ 64) (happend : append = node.flags.append)
    (hput : put kernel node (asOffT pos) data.asSlice disk = .ok after) :
    (if append then (stat node after).size else u64Add pos data.len) =
      if append then (stat node after).size else pos + data.len := by
  cases append with
  | true => rfl
  | false =>
      simp only [put, ← happend, Bool.false_eq_true, if_false] at hput
      exact write_end hpos hput

end Writes

/-! ## Reads -/

/-- Either call for the rest of a read is a read of the file. -/
theorem transfer_read {read' : ReadJob} {call : Syscall} (hasks : (JobKind.read read').Asks call) :
    transfer kernel node call [] disk =
      (read node (asOffT (u64Add read'.pos read'.filled)) (read'.buf.chunk read'.filled).2
        disk).map fun data => (⟨data.length, data⟩, disk) := by
  rcases hasks with rfl | rfl <;> rfl

section Reads

variable {handle : Option Handle} {fd : Fd} {dest : Dest}

/-- The reply of a positional read that has got the data. -/
def Dest.replyWith (data : List Byte) : Dest → Reply
  | .alloc _ => .bytes data
  | .into _ _ => .read data.length

theorem yields_readAt_error (hpos : pos < 2 ^ 64) {errno : Errno}
    (hread : read node (asOffT pos) dest.asked disk = .error errno) :
    Yields kernel node disk
      (.read ⟨handle, fd, false, pos, .exact dest.asked, Dest.buf dest.asked [] dest, 0⟩)
      (.error (.os errno)) disk := by
  refine .fails fun call hasks => ?_
  rw [JobKind.payload, transfer_read hasks, chunk_buf fun _ => rfl]
  simp only [asOffT_start hpos, Nat.sub_zero, hread]
  rfl

/-- A positional read ends with its first chunk, or with an empty second one. -/
theorem yields_readAt (hpos : pos < 2 ^ 64) (hsome : dest.asked ≠ 0)
    (hfile : (content node disk).length < 2 ^ 63) {data : List Byte}
    (hread : read node (asOffT pos) dest.asked disk = .ok data) :
    Yields kernel node disk
      (.read ⟨handle, fd, false, pos, .exact dest.asked, Dest.buf dest.asked [] dest, 0⟩)
      (.ok (Dest.replyWith data dest)) disk := by
  obtain ⟨hflag, hoffset, hdata⟩ := read_ok hread
  obtain ⟨hfits, hplace⟩ := pos_of_nonneg hpos hoffset
  have hlength : data.length = min dest.asked ((content node disk).length - pos) := by
    rw [hdata, hplace, Binary.slice, List.length_take, List.length_drop]
  have hfirst : ∀ call, (JobKind.read ⟨handle, fd, false, pos, .exact dest.asked,
      Dest.buf dest.asked [] dest, 0⟩).Asks call →
      transfer kernel node call [] disk = .ok (⟨data.length, data⟩, disk) := by
    intro call hasks
    rw [transfer_read hasks, chunk_buf fun _ => rfl]
    simp only [asOffT_start hpos, Nat.sub_zero, hread]
    rfl
  have hafter := fun call => @after_readAt pos dest handle fd dest.asked [] (Nat.le_refl _)
    ⟨call, ⟨data.length, data⟩, .ok (stat node disk), 0⟩
  have hreply : ∀ filled, filled = data.length →
      readReply ⟨handle, fd, false, pos, .exact dest.asked, Dest.buf dest.asked data dest,
        filled⟩ = .ok (Dest.replyWith data dest) := by
    rintro filled rfl
    cases dest <;> rfl
  by_cases hlast : data.length = 0 ∨ dest.asked ≤ data.length
  · refine .ends ⟨data.length, data⟩ hfirst fun call => ?_
    refine (congrArg Prod.snd (hafter call)).trans ?_
    simp only [List.length_nil, Nat.zero_add, List.nil_append, if_pos hlast, hreply _ rfl]
  · obtain ⟨hmore, hshort⟩ := not_or.mp hlast
    refine .more (.read ⟨handle, fd, false, pos, .exact dest.asked,
      Dest.buf dest.asked data dest, data.length⟩) ⟨data.length, data⟩ hfirst (fun call => ?_) ?_
    · refine (hafter call).trans (Prod.ext ?_ ?_)
      · simp only [List.length_nil, Nat.zero_add, List.nil_append]
      · simp only [List.length_nil, Nat.zero_add, if_neg hlast]
    · have hcast : asOffT (u64Add pos data.length) = ((pos + data.length : ℕ) : ℤ) :=
        asOffT_u64Add (by omega)
      have hrest := fun call => @after_readAt pos dest handle fd dest.asked data (Nat.le_refl _)
        ⟨call, ⟨0, []⟩, .ok (stat node disk), 0⟩
      refine .ends ⟨0, []⟩ (fun call hasks => ?_) fun call => ?_
      · rw [JobKind.payload, transfer_read hasks]
        simp only [hcast]
        rw [read_end hflag (Int.natCast_nonneg _) (by omega)]
        rfl
      · rw [hrest call]
        simp only [List.append_nil, Nat.add_zero, true_or, if_true, hreply _ rfl]

theorem yields_toEnd_error {ownedFd : Bool} {cap : ℕ} (hpos : pos < 2 ^ 64) {errno : Errno}
    (hread : read node (asOffT pos) cap disk = .error errno) :
    Yields kernel node disk (.read ⟨handle, fd, ownedFd, pos, .toEnd, .owned cap [], 0⟩)
      (.error (.os errno)) disk := by
  refine .fails fun call hasks => ?_
  rw [JobKind.payload, transfer_read hasks]
  simp only [asOffT_start hpos, ReadBuf.chunk, Nat.sub_zero, hread]
  rfl

/-- A read to the end of a file that fits its buffer ends with its first chunk. -/
theorem yields_toEnd {ownedFd : Bool} {cap : ℕ} (hpos : pos < 2 ^ 64)
    (hfile : (content node disk).length < 2 ^ 63) (hcap : (content node disk).length - pos ≤ cap)
    {data : List Byte} (hread : read node (asOffT pos) cap disk = .ok data) :
    Yields kernel node disk (.read ⟨handle, fd, ownedFd, pos, .toEnd, .owned cap [], 0⟩)
      (.ok (.bytes data)) disk := by
  obtain ⟨-, hoffset, hdata⟩ := read_ok hread
  obtain ⟨hfits, hplace⟩ := pos_of_nonneg hpos hoffset
  have hlength : data.length = (content node disk).length - pos := by
    rw [hdata, hplace, Binary.slice, List.length_take, List.length_drop, Nat.min_eq_right hcap]
  refine .ends ⟨data.length, data⟩ (fun call hasks => ?_) fun call => ?_
  · rw [JobKind.payload, transfer_read hasks]
    simp only [asOffT_start hpos, ReadBuf.chunk, Nat.sub_zero, hread]
    rfl
  · rcases @after_readToEnd ⟨handle, fd, ownedFd, pos, .toEnd, .owned cap [], 0⟩ cap [] rfl rfl
      ⟨call, ⟨data.length, data⟩, .ok (stat node disk), 0⟩ (by simp only; omega) with
      ⟨-, hreply⟩ | ⟨hsome, hmore, -⟩
    · exact hreply
    · refine absurd ⟨(content node disk).length, rfl, ?_⟩ hmore
      simp only [Nat.zero_add]
      omega

end Reads

end Turbofile.Darwin
