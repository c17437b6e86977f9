import Turbofile.Binary.Refinement
import Turbofile.Library.Pool

/-!
# Concurrent calls on one binary file

`BinaryFile` has no lock: a call that overlaps another reads the position and
the read-ahead before its await and writes them after it.  Calls that do not
overlap are the calls of a sequential run.
-/

namespace Turbofile.Binary

open Relation
open Turbofile.Core
open Turbofile.Coroutine

/-- Coroutines that make one call each on a shared file. -/
abbrev FilePool := Pool bridge BinaryFile PyError Bytes Value BinOp

abbrev FilePool.Step : FilePool → FilePool → Prop :=
  Pool.Step BinaryFile.perform BridgeCall.awaited fileEnv

abbrev FilePool.SerialStep : FilePool → FilePool → Prop :=
  Pool.SerialStep BinaryFile.perform BridgeCall.awaited fileEnv

/-- The results, the position and the content are those of some order of the
calls. -/
def Serializable (info : ModeInfo) (ops : List BinOp) (before : RefFile) (pool : FilePool) :
    Prop :=
  ∃ calls : List (BinOp × Result), calls.Perm pool.returned ∧
    (calls.map Prod.fst).Perm ops ∧
    RefRun info before calls ⟨pool.world, pool.state.pos⟩

theorem RefRun.concat {info : ModeInfo} {before now after : RefFile}
    {calls : List (BinOp × Result)} {op : BinOp} {result : Result}
    (hrun : RefRun info before calls now) (hstep : RefStep info op now result after) :
    RefRun info before (calls ++ [(op, result)]) after := by
  induction hrun with
  | nil file => exact .cons hstep (.nil after)
  | cons hfirst _ ih => exact .cons hfirst (ih hstep)

/-- The file stands for a reference file. -/
def Represents (info : ModeInfo) (ref : RefFile) (file : BinaryFile) (content : Bytes) : Prop :=
  ref = ⟨content, file.pos⟩ ∧ Aligned info file content

theorem perform_behaves (info : ModeInfo) (op : BinOp) (before : RefFile) (file : BinaryFile)
    (content : Bytes) (hfile : Represents info before file content) :
    Safe fileEnv (Pool.Behaves (Represents info) (RefStep info) op before)
      (BinaryFile.perform op) file content := by
  obtain ⟨rfl, hfile⟩ := hfile
  apply Prog.wp_safe
  apply Prog.wp_mono _ _ (wp_perform hfile op)
  intro result next content' hallowed
  exact ⟨⟨content', next.pos⟩, hallowed.1, rfl, hallowed.2⟩

variable {info : ModeInfo} {file : BinaryFile} {content : Bytes}

/-- Calls of which none starts while another one is under way, whatever order
they come in and whichever of their bridge calls suspend, are a sequential run. -/
theorem serializable_of_serial (hfile : Aligned info file content) {ops : List BinOp}
    {pool : FilePool}
    (hrun : ReflTransGen FilePool.SerialStep (Pool.init ops file content) pool)
    (hdone : pool.Finished) : Serializable info ops ⟨content, file.pos⟩ pool := by
  have hsnoc : ∀ calls before op result after,
      RefRun info ⟨content, file.pos⟩ calls before → RefStep info op before result after →
      RefRun info ⟨content, file.pos⟩ (calls ++ [(op, result)]) after :=
    fun _ _ _ _ _ hbefore hstep => hbefore.concat hstep
  have hstart : Represents info ⟨content, file.pos⟩ file content := ⟨rfl, hfile⟩
  obtain ⟨calls, now, hcalls, hops, hsequence, rfl, -⟩ :=
    Pool.serial_of_run (perform_behaves info) hsnoc (.nil _) hstart hrun hdone
  exact ⟨calls, hcalls, hops, hsequence⟩

theorem free_of_pair {first second : BinOp × Stage bridge BinaryFile PyError Value}
    {file : BinaryFile} {content : Bytes} (hfirst : first.2.isRunning = false)
    (hsecond : second.2.isRunning = false) :
    Pool.Free (⟨[first, second], file, content⟩ : FilePool) :=
  List.forall_mem_cons.mpr ⟨hfirst, List.forall_mem_cons.mpr ⟨hsecond, List.forall_mem_nil _⟩⟩

theorem quiet_of_pair {first second : BinOp × Stage bridge BinaryFile PyError Value}
    {file : BinaryFile} {content : Bytes} (hfirst : first.2.isIdle = true)
    (hsecond : second.2.isIdle = true) :
    Pool.Quiet (⟨[first, second], file, content⟩ : FilePool) :=
  List.forall_mem_cons.mpr ⟨hfirst, List.forall_mem_cons.mpr ⟨hsecond, List.forall_mem_nil _⟩⟩

/-- Two writes in turn, the second one first, each suspended until the kernel has
stored its byte. -/
theorem serializable_of_serial_writes :
    Serializable readWrite [.write [65], .write [66]] ⟨[], 0⟩
      ⟨[(.write [65], .returned (.ok (.int 1))), (.write [66], .returned (.ok (.int 1)))],
        { BinaryFile.new 1 3 0 readWrite with pos := 2, sizeHint := 2 }, [66, 65]⟩ :=
  serializable_of_serial (Aligned.new 1 3 0 readWrite [])
    (.head (.inl ⟨quiet_of_pair rfl rfl, .start 1 (free_of_pair rfl rfl) rfl⟩) <|
    .head (.inr (.silent 1 rfl rfl)) <|
    .head (.inr (.silent 1 rfl rfl)) <|
    .head (.inr (.silent 1 rfl rfl)) <|
    .head (.inr (.silent 1 rfl rfl)) <|
    .head (.inr (.silent 1 rfl rfl)) <|
    .head (.inr (.suspend 1 rfl rfl rfl)) <|
    .head (.inr (.complete 1 rfl ⟨rfl, rfl⟩)) <|
    .head (.inr (.resume 1 (free_of_pair rfl rfl) rfl)) <|
    .head (.inr (.silent 1 rfl rfl)) <|
    .head (.inr (.silent 1 rfl rfl)) <|
    .head (.inr (.finish 1 rfl rfl)) <|
    .head (.inl ⟨quiet_of_pair rfl rfl, .start 0 (free_of_pair rfl rfl) rfl⟩) <|
    .head (.inr (.silent 0 rfl rfl)) <|
    .head (.inr (.silent 0 rfl rfl)) <|
    .head (.inr (.silent 0 rfl rfl)) <|
    .head (.inr (.silent 0 rfl rfl)) <|
    .head (.inr (.silent 0 rfl rfl)) <|
    .head (.inr (.suspend 0 rfl rfl rfl)) <|
    .head (.inr (.complete 0 rfl ⟨rfl, rfl⟩)) <|
    .head (.inr (.resume 0 (free_of_pair rfl rfl) rfl)) <|
    .head (.inr (.silent 0 rfl rfl)) <|
    .head (.inr (.silent 0 rfl rfl)) <|
    .head (.inr (.finish 0 rfl rfl)) .refl)
    (List.forall_mem_cons.mpr ⟨rfl, List.forall_mem_cons.mpr ⟨rfl, List.forall_mem_nil _⟩⟩)

/-- Two writes both start at position 0 of an empty file, are both awaited, and
the one that completes last is all that is left. -/
theorem overlapping_writes :
    ∃ pool : FilePool,
      ReflTransGen FilePool.Step
        (Pool.init [.write [65], .write [66]] (.new 1 3 0 readWrite) []) pool ∧
      pool.Finished ∧ pool.world = [66] ∧ pool.state.pos = 1 :=
  ⟨_,
    .head (.inl (.start 0 (free_of_pair rfl rfl) rfl)) <|
    .head (.inr (.silent 0 rfl rfl)) <|
    .head (.inr (.silent 0 rfl rfl)) <|
    .head (.inr (.silent 0 rfl rfl)) <|
    .head (.inr (.silent 0 rfl rfl)) <|
    .head (.inr (.silent 0 rfl rfl)) <|
    .head (.inr (.suspend 0 rfl rfl rfl)) <|
    .head (.inl (.start 1 (free_of_pair rfl rfl) rfl)) <|
    .head (.inr (.silent 1 rfl rfl)) <|
    .head (.inr (.silent 1 rfl rfl)) <|
    .head (.inr (.silent 1 rfl rfl)) <|
    .head (.inr (.silent 1 rfl rfl)) <|
    .head (.inr (.silent 1 rfl rfl)) <|
    .head (.inr (.suspend 1 rfl rfl rfl)) <|
    .head (.inr (.complete 0 rfl ⟨rfl, rfl⟩)) <|
    .head (.inr (.complete 1 rfl ⟨rfl, rfl⟩)) <|
    .head (.inr (.resume 0 (free_of_pair rfl rfl) rfl)) <|
    .head (.inr (.silent 0 rfl rfl)) <|
    .head (.inr (.silent 0 rfl rfl)) <|
    .head (.inr (.finish 0 rfl rfl)) <|
    .head (.inr (.resume 1 (free_of_pair rfl rfl) rfl)) <|
    .head (.inr (.silent 1 rfl rfl)) <|
    .head (.inr (.silent 1 rfl rfl)) <|
    .head (.inr (.finish 1 rfl rfl)) .refl,
    List.forall_mem_cons.mpr ⟨rfl, List.forall_mem_cons.mpr ⟨rfl, List.forall_mem_nil _⟩⟩,
    rfl, rfl⟩

/-- In every order two writes of one byte move the position by two. -/
theorem cursor_after_writes {before after : RefFile} {calls : List (BinOp × Result)}
    (hwrites : ∀ call ∈ calls, ∃ byte, call.1 = .write [byte])
    (hrun : RefRun readWrite before calls after) :
    after.cursor = before.cursor + calls.length := by
  induction hrun with
  | nil file => rfl
  | cons hstep _ ih =>
      obtain ⟨⟨byte, rfl⟩, hrest⟩ := List.forall_mem_cons.mp hwrites
      obtain ⟨-, rfl⟩ := hstep
      rw [ih hrest, List.length_cons]
      exact (Nat.add_right_comm _ _ _).trans (Nat.add_assoc _ _ _)

theorem overlapping_writes_not_serializable :
    ∃ pool : FilePool,
      ReflTransGen FilePool.Step
        (Pool.init [.write [65], .write [66]] (.new 1 3 0 readWrite) []) pool ∧
      pool.Finished ∧
      ¬Serializable readWrite [.write [65], .write [66]] ⟨[], 0⟩ pool := by
  obtain ⟨pool, hrun, hdone, -, hpos⟩ := overlapping_writes
  refine ⟨pool, hrun, hdone, ?_⟩
  rintro ⟨calls, -, hops, hsequence⟩
  have hlength : calls.length = 2 := by simpa using hops.length_eq
  have hwrites : ∀ call ∈ calls, ∃ byte, call.1 = .write [byte] := by
    intro call hmem
    have hop := hops.mem_iff.mp (List.mem_map_of_mem hmem)
    rcases List.mem_pair.mp hop with hfirst | hsecond
    · exact ⟨65, hfirst⟩
    · exact ⟨66, hsecond⟩
  have hcursor := cursor_after_writes hwrites hsequence
  rw [hlength, hpos] at hcursor
  cases hcursor

end Turbofile.Binary
