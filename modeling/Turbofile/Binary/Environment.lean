import Turbofile.Binary.BinaryFile

/-!
# A file nobody else changes

What the extension module answers on such a file, and the helpers of
`BinaryFile` on it: whether a read is inline or awaited, it answers what the
file holds.
-/

namespace Turbofile.Binary

open Turbofile.Core
open Turbofile.Coroutine

/-- What a probe finds when every page is resident. -/
def Probe.found (content : Bytes) : Probe → Bytes
  | .read pos size | .readinto pos size => slice content pos size
  | .readAll start => content.drop start

/-- The extension module on a file nobody else changes: reads return what is
there, an inline call may also answer `None`, a write stores all its bytes if
there is room for them. -/
def Room.env (room : Room) : Env bridge PyError Bytes
  | .fast _ probe, content, answer, next =>
      next = content ∧ (answer = .ok none ∨ answer = .ok (some (probe.found content)))
  | .fastSize _, content, answer, next =>
      next = content ∧ (answer = .ok none ∨ answer = .ok (some content.length))
  | .fastSupported _, content, answer, next =>
      next = content ∧ ∃ supported, answer = .ok supported
  | .read _ pos size, content, answer, next
  | .readinto _ pos size, content, answer, next
  | .readParallel _ pos size _, content, answer, next =>
      next = content ∧ answer = .ok (slice content pos size)
  | .readToEnd _ pos, content, answer, next =>
      next = content ∧ answer = .ok (content.drop pos)
  | .size _, content, answer, next => next = content ∧ answer = .ok content.length
  | .write _ pos data append, content, answer, next =>
      match room.ofWrite append content pos data with
      | .fits =>
          next = placed append content pos data ∧
            answer = .ok (data.length, placeOf append content pos + data.length)
      | .overflows => next = content ∧ answer = .error .overflowError
      | .refused =>
          (∃ stored, room.stores (placeOf append content pos) stored ∧
            next = placed append content pos (data.take stored)) ∧
            ∃ errno, answer = .error (.osError (.os errno))
      | .astray => True
  | .setLen _ size, content, answer, next =>
      match room.ofSize size with
      | .fits => next = resize content size.toNat ∧ answer = .ok ()
      | .overflows => next = content ∧ answer = .error .overflowError
      | .refused | .astray => next = content ∧ ∃ errno, answer = .error (.osError (.os errno))
  | .close _, content, answer, next => next = content ∧ answer = .ok ()

/-- A file whose positions have no bound. -/
abbrev fileEnv : Env bridge PyError Bytes := Room.endless.env

/-- Every call has an answer, so no run stops at one. -/
theorem Room.env_total (room : Room) (c : BridgeCall) (content : Bytes) :
    ∃ answer next, room.env c content answer next := by
  cases c with
  | fast fd probe => exact ⟨_, _, rfl, .inl rfl⟩
  | fastSize fd => exact ⟨_, _, rfl, .inl rfl⟩
  | fastSupported fd => exact ⟨_, _, rfl, true, rfl⟩
  | write handle pos data append =>
      simp only [Room.env]
      cases hverdict : room.ofWrite append content pos data with
      | fits => exact ⟨_, _, rfl, rfl⟩
      | overflows => exact ⟨_, _, rfl, rfl⟩
      | refused =>
          have hstored : room.stores (placeOf append content pos) 0 := by
            cases room with
            | endless => cases hverdict
            | upTo limit hlimit => exact Nat.zero_le _
          exact ⟨_, _, ⟨0, hstored, rfl⟩, .ecanceled, rfl⟩
      | astray => exact ⟨.error .overflowError, content, trivial⟩
  | setLen handle size =>
      simp only [Room.env]
      cases room.ofSize size with
      | fits => exact ⟨_, _, rfl, rfl⟩
      | overflows => exact ⟨_, _, rfl, rfl⟩
      | refused => exact ⟨_, _, rfl, .ecanceled, rfl⟩
      | astray => exact ⟨_, _, rfl, .ecanceled, rfl⟩
  | _ => exact ⟨_, _, rfl, rfl⟩

/-- The read-ahead is what the file holds at the position. -/
structure Aligned (info : ModeInfo) (file : BinaryFile) (content : Bytes) : Prop where
  isOpen : file.isOpen = true
  info : file.info = info
  pending : file.pending = slice content file.pos file.pending.length

/-! ## Slices -/

theorem slice_add (content : Bytes) (pos m n : ℕ) :
    slice content pos (m + n) = slice content pos m ++ slice content (pos + m) n := by
  rw [slice, slice, slice, List.take_add, List.drop_drop]

theorem slice_ge (content : Bytes) {pos n : ℕ} (hn : content.length - pos ≤ n) :
    slice content pos n = content.drop pos := by
  rw [slice, List.take_of_length_le]
  rwa [List.length_drop]

theorem drop_slice (content : Bytes) (pos m n : ℕ) :
    (slice content pos n).drop m = slice content (pos + m) (n - m) := by
  rw [slice, slice, List.drop_take, List.drop_drop]

theorem take_slice (content : Bytes) (pos : ℕ) {m n : ℕ} (hle : m ≤ n) :
    (slice content pos n).take m = slice content pos m := by
  rw [slice, slice, List.take_take, Nat.min_eq_left hle]

theorem length_slice (content : Bytes) (pos n : ℕ) :
    (slice content pos n).length = min n (content.length - pos) := by
  rw [slice, List.length_take, List.length_drop]

theorem slice_length (content : Bytes) (pos n : ℕ) :
    slice content pos (slice content pos n).length = slice content pos n := by
  conv_rhs => rw [slice, List.take_eq_take_min, List.length_drop, ← length_slice]
  rfl

theorem slice_leading (content : Bytes) (pos n : ℕ) :
    slice content pos n <+: content.drop pos := List.take_prefix _ _

namespace Aligned

variable {info : ModeInfo} {file : BinaryFile} {content : Bytes}

theorem withPending (hfile : Aligned info file content) {next : BinaryFile} {n : ℕ}
    (hpending : next.pending = slice content next.pos n)
    (hopen : next.isOpen = file.isOpen) (hinfo : next.info = file.info) :
    Aligned info next content :=
  ⟨hopen.trans hfile.isOpen, hinfo.trans hfile.info, by rw [hpending, slice_length]⟩

theorem withoutPending (hfile : Aligned info file content) {next : BinaryFile}
    {content' : Bytes} (hpending : next.pending = [])
    (hopen : next.isOpen = file.isOpen) (hinfo : next.info = file.info) :
    Aligned info next content' :=
  ⟨hopen.trans hfile.isOpen, hinfo.trans hfile.info, by rw [hpending]; rfl⟩

theorem take_pending (hfile : Aligned info file content) {n : ℕ}
    (hle : n ≤ file.pending.length) : file.pending.take n = slice content file.pos n := by
  rw [hfile.pending, take_slice content file.pos hle]

theorem drop_pending (hfile : Aligned info file content) (n : ℕ) :
    file.pending.drop n = slice content (file.pos + n) (file.pending.length - n) := by
  conv_lhs => rw [hfile.pending, drop_slice]

theorem append_slice (hfile : Aligned info file content) (n : ℕ) :
    file.pending ++ slice content (file.pos + file.pending.length) n =
      slice content file.pos (file.pending.length + n) := by
  rw [slice_add, ← hfile.pending]

theorem append_rest (hfile : Aligned info file content) :
    file.pending ++ content.drop (file.pos + file.pending.length) =
      content.drop file.pos := by
  have hjoin := hfile.append_slice content.length
  rwa [slice_ge content (by omega), slice_ge content (by omega)] at hjoin

theorem leading_rest (hfile : Aligned info file content) :
    file.pending <+: content.drop file.pos := by
  rw [hfile.pending]
  exact List.take_prefix _ _

end Aligned

/-! ## The helpers -/

section Helpers

variable {room : Room} {file : BinaryFile} {content : Bytes}

theorem wp_ask (c : BridgeCall) {post : Post BinaryFile PyError Bytes c.Answer}
    (hpost : ∀ answer next, room.env c content answer next → post answer file next) :
    (ask c).wp room.env post file content :=
  (@Prog.wp_await bridge BinaryFile PyError Bytes room.env c post file content).mpr hpost

theorem wp_fastDeclined {post : Post BinaryFile PyError Bytes Unit}
    (hpost : ∀ fast, post (.ok ()) { file with fast := fast } content) :
    BinaryFile.fastDeclined.wp room.env post file content := by
  simp only [BinaryFile.fastDeclined, Prog.bind_eq_bind, Prog.wp_bind, Prog.wp_state,
    Prog.after_ok]
  split
  · rw [Prog.wp_bind]
    apply wp_ask
    rintro answer next ⟨rfl, supported, rfl⟩
    cases supported
    · exact hpost false
    · exact hpost file.fast
  · exact hpost file.fast

theorem wp_resident (probe : Probe) {post : Post BinaryFile PyError Bytes (Option Bytes)}
    (hnone : ∀ fast, post (.ok none) { file with fast := fast } content)
    (hsome : post (.ok (some (probe.found content))) file content) :
    (BinaryFile.resident probe).wp room.env post file content := by
  have hdeclined : (BinaryFile.fastDeclined.bind fun _ => .done none).wp room.env post
      file content := by
    rw [Prog.wp_bind]
    exact wp_fastDeclined hnone
  simp only [BinaryFile.resident, Prog.bind_eq_bind, Prog.wp_bind, Prog.wp_state,
    Prog.after_ok]
  split
  · rw [Prog.wp_bind]
    apply wp_ask
    rintro answer next ⟨rfl, rfl | rfl⟩
    · exact hdeclined
    · exact hsome
  · exact hdeclined

/-- However it is served, a read answers what the file holds. -/
theorem wp_fetch (pos size : ℕ) {post : Post BinaryFile PyError Bytes Bytes}
    (hpost : ∀ fast, post (.ok (slice content pos size)) { file with fast := fast } content) :
    (BinaryFile.fetch pos size).wp room.env post file content := by
  simp only [BinaryFile.fetch, Prog.bind_eq_bind, Prog.wp_bind, Prog.wp_state, Prog.after_ok]
  apply wp_resident
  · intro fast
    apply wp_ask
    rintro answer next ⟨rfl, rfl⟩
    exact hpost fast
  · exact hpost file.fast

theorem wp_fetchAll (start : ℕ) {post : Post BinaryFile PyError Bytes Bytes}
    (hpost : ∀ fast, post (.ok (content.drop start)) { file with fast := fast } content) :
    (BinaryFile.fetchAll start).wp room.env post file content := by
  simp only [BinaryFile.fetchAll, Prog.bind_eq_bind, Prog.wp_bind, Prog.wp_state,
    Prog.after_ok]
  apply wp_resident
  · intro fast
    apply wp_ask
    rintro answer next ⟨rfl, rfl⟩
    exact hpost fast
  · exact hpost file.fast

theorem wp_fetchInto (pos size : ℕ) {post : Post BinaryFile PyError Bytes Bytes}
    (hpost : ∀ fast, post (.ok (slice content pos size)) { file with fast := fast } content) :
    (BinaryFile.fetchInto pos size).wp room.env post file content := by
  simp only [BinaryFile.fetchInto, Prog.bind_eq_bind, Prog.wp_bind, Prog.wp_state,
    Prog.after_ok]
  apply wp_resident
  · intro fast
    apply wp_ask
    rintro answer next ⟨rfl, rfl⟩
    exact hpost fast
  · exact hpost file.fast

end Helpers

/-! ## The checks -/

/-- A call that ends with a value and a position, and changes nothing else. -/
def Returned {α : Type} (info : ModeInfo) (content : Bytes) (pos : ℕ) (value : α) :
    Post BinaryFile PyError Bytes α :=
  fun result file next =>
    result = .ok value ∧ next = content ∧ file.pos = pos ∧ Aligned info file content

section Checks

variable {room : Room} {info : ModeInfo} {file : BinaryFile} {content : Bytes}

/-- `check_open` passes on an open file. -/
theorem wp_opened {α : Type} (hfile : Aligned info file content) {f : Unit → BinaryProg α}
    {post : Post BinaryFile PyError Bytes α} (hf : (f ()).wp room.env post file content) :
    (BinaryFile.checkOpen.bind f).wp room.env post file content := by
  simp only [BinaryFile.checkOpen, Prog.bind_eq_bind, Prog.wp_bind, Prog.wp_state,
    Prog.after_ok, hfile.isOpen, if_true]
  exact hf

/-- `check_open` and `check_readable`. -/
theorem wp_readable {α : Type} (hfile : Aligned info file content) {f : Unit → BinaryProg α}
    {post : Post BinaryFile PyError Bytes α}
    (hread : info.read = true → (f ()).wp room.env post file content)
    (hrefused : info.read = false → post (.error notReadable) file content) :
    (BinaryFile.checkOpen.bind fun _ => BinaryFile.checkReadable.bind f).wp room.env post
      file content := by
  apply wp_opened hfile
  simp only [BinaryFile.checkReadable, Prog.bind_eq_bind, Prog.wp_bind, Prog.wp_state,
    Prog.after_ok, hfile.info]
  cases hmode : info.read with
  | true => exact hread hmode
  | false => exact hrefused hmode

/-- `check_open` and `check_writable`. -/
theorem wp_writable {α : Type} (hfile : Aligned info file content) {f : Unit → BinaryProg α}
    {post : Post BinaryFile PyError Bytes α}
    (hwrite : info.writable = true → (f ()).wp room.env post file content)
    (hrefused : info.writable = false → post (.error notWritable) file content) :
    (BinaryFile.checkOpen.bind fun _ => BinaryFile.checkWritable.bind f).wp room.env post
      file content := by
  apply wp_opened hfile
  simp only [BinaryFile.checkWritable, Prog.bind_eq_bind, Prog.wp_bind, Prog.wp_state,
    Prog.after_ok, hfile.info]
  cases hmode : info.writable with
  | true => exact hwrite hmode
  | false => exact hrefused hmode

end Checks

end Turbofile.Binary
