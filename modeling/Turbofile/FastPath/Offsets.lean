import Turbofile.FastPath.Methods
import Turbofile.Library.Demands

/-!
# The offsets of the fast path

Every read of the fast path goes through `kernel_offset`: in every run of a
fill the offset is the position plus what has been read so far, and it fits
`off_t`.  A position that does not fit is declined before any read.
-/

namespace Turbofile.FastPath

open Turbofile.Core
open Turbofile.Coroutine

/-! ## Offsets -/

theorem kernelOffset_eq_some {pos filled : ℕ} {offset : ℤ}
    (hoffset : kernelOffset pos filled = some offset) :
    offset = pos + filled ∧ offset < 2 ^ 63 := by
  obtain ⟨sum, hsum, hfits⟩ := Option.bind_eq_some_iff.mp hoffset
  have heq : pos + filled = sum := by
    rw [checkedAdd, Option.ite_none_right_eq_some, Option.some.injEq] at hsum
    exact hsum.2
  rw [offTryFrom, Option.ite_none_right_eq_some, Option.some.injEq] at hfits
  omega

/-- The bytes a call answers, if it is a read. -/
def SysCall.delivered : (c : SysCall) → Except Raised c.Answer → ℕ
  | .preadv2 .., .ok (.ok data) => data.length
  | .pread .., .ok (.ok data) => data.length
  | _, _ => 0

/-- A kernel that answers anything; the world counts the bytes read. -/
def counting : Env kernel Raised ℕ := fun c filled answer next =>
  next = filled + c.delivered answer

/-- If a call reads, it does so at an offset `off_t` can hold. -/
def InRange (c : SysCall) : Prop := ∀ offset, c.offset = some offset → 0 ≤ offset ∧ offset < 2 ^ 63

/-- What a platform does with a position: each read of a fill is at the position
plus the bytes read so far, as far as that fits `off_t`, and the methods make no
other reads but the probes of the end of the file. -/
structure FitsOffT (platform : Platform) (pos : ℕ) : Prop where
  fills : ∀ len inner c filled offset,
    Reaches counting c filled (platform.fill pos len) inner 0 → c.offset = some offset →
      offset = pos + filled ∧ offset < 2 ^ 63
  declines : 2 ^ 63 ≤ pos → ∀ len inner result last final data, 0 < len →
    Ends counting (platform.fill pos len) inner 0 result last final → result ≠ .ok (some data)
  probes : ∀ size, (platform.atEof size).Only fun c => ∀ offset, SysCall.offset c = some offset →
    offset = size ∧ offset < 2 ^ 63
  read : ∀ len, (read platform pos len).Only InRange
  readinto : ∀ buffer, (readinto platform pos buffer).Only InRange
  readAll : (readAll platform pos).Only InRange
  supported : platform.supported.Only InRange
  readFile : ∀ path, (readFile path).Only InRange

/-! ## The loop of a fill -/

section Fill

variable {σ : Type} {pos len : ℕ}

/-- A read is at the position plus the bytes read so far. -/
def AtOffset (pos : ℕ) (c : SysCall) (filled : ℕ) : Prop :=
  ∀ offset, c.offset = some offset → offset = pos + filled ∧ offset < 2 ^ 63

def gained : Except Errno Bytes → ℕ
  | .ok data => data.length
  | .error _ => 0

/-- What the loop relies on of its read. -/
def ReadsAt (read : ℤ → ℕ → FastProg σ (Except Errno Bytes)) (pos : ℕ) : Prop :=
  ∀ ⦃offset n inner filled⦄ ⦃post : Post σ Raised ℕ (Except Errno Bytes)⦄,
    kernelOffset pos filled = some offset →
    (∀ answer, post (.ok answer) inner (filled + gained answer)) →
    (∀ error, post (.error error) inner filled) →
    (read offset n).meets counting (AtOffset pos) post inner filled

variable {read : ℤ → ℕ → FastProg σ (Except Errno Bytes)}

end Fill

/-! ## The platforms -/

section Platforms

variable {σ : Type} {calls : SysCall → Prop}

theorem only_ask {c : SysCall} (hcall : calls c) : (ask c : FastProg σ c.Answer).Only calls :=
  Prog.only_await hcall

theorem only_fileSize (hstat : ∀ fd, calls (.fstat fd)) (fd : ℤ) :
    (fileSize fd : FastProg σ (Option ℕ)).Only calls := by
  unfold fileSize
  split
  · trivial
  · exact (only_ask (hstat fd)).bind fun _ => trivial

namespace Darwin

variable {page : ℕ}

/-- The calls that find out which pages are resident. -/
def looks : SysCall → Prop
  | .fstat _ | .mmap .. | .munmap .. | .mincore .. => True
  | _ => False

theorem only_replaceView (view : View) : (Inner.replaceView view).Only looks := by
  intro self self'
  cases self.view with
  | none => trivial
  | some old => exact only_ask trivial

theorem only_ensureView (stop : ℕ) : (Inner.ensureView page stop).Only looks := by
  intro self
  change (if self.viewCovers stop then pure true else _ : FastProg Inner Bool).Only looks
  split
  · trivial
  · refine (only_fileSize (fun _ => trivial) self.fd).bind fun size => ?_
    cases size with
    | none => trivial
    | some size =>
        dsimp only
        cases viewLen page size with
        | none => trivial
        | some len =>
            dsimp only
            split
            · trivial
            · refine (only_ask trivial).bind fun answer => ?_
              cases answer with
              | error errno => trivial
              | ok addr => exact (only_replaceView _).bind fun _ _ => trivial

theorem only_residentRound (addr last off : ℕ) :
    (Inner.residentRound page addr last off).Only looks := by
  unfold Inner.residentRound
  split
  · refine (only_ask trivial).bind fun answer => ?_
    cases answer with
    | error errno => trivial
    | ok flags =>
        dsimp only
        split
        · trivial
        · exact fun self => (only_fileSize (fun _ => trivial) self.fd).bind fun _ => trivial
  · trivial

theorem only_resident (pos len : ℕ) : (Inner.resident page pos len).Only looks := by
  unfold Inner.resident
  split
  · trivial
  · refine (only_ensureView _).bind fun covered => ?_
    split
    · intro self
      dsimp only [Prog.bind]
      cases self.view with
      | none => trivial
      | some view => exact ⟨fun off => only_residentRound _ _ off, fun _ => trivial⟩
    · trivial

end Darwin

namespace Linux

end Linux

/-! ## The methods -/

section Methods

variable {platform : Platform}

variable (hfill : ∀ pos len, (platform.fill pos len).Only InRange)
include hfill

end Methods

end Platforms

end Turbofile.FastPath
