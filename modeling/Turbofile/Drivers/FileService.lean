import Turbofile.Binary.Reference

/-!
# The file service

What a driver is for: ops on files, carried out one after the other.  A file is
the bytes under its path, and an open file is a path with the flags it was
opened with; a handle is known here by the number of the op that opened it.
The kernel below refuses opens as it likes and gives reads and writes in full.
-/

namespace Turbofile.FileService

open Turbofile.Core

/-! ## The kernel -/

def enoent : Errno := .other 2

def ebadf : Errno := .other 9

def eexist : Errno := .other 17

def einval : Errno := .other 22

def efbig : Errno := .other 27

/-- Which opens are refused, and how large a file can be. -/
structure Kernel where
  refuses : Path → OpenFlags → Option Errno
  limit : ℕ
  limit_lt : limit < 2 ^ 63

abbrev Disk := Path → Option (List Byte)

structure Node where
  path : Path
  flags : OpenFlags
  deriving DecidableEq

section Calls

variable (kernel : Kernel)

def content (node : Node) (disk : Disk) : List Byte := (disk node.path).getD []

def stat (node : Node) (disk : Disk) : FileStat := ⟨(content node disk).length, true⟩

def store (node : Node) (data : List Byte) (disk : Disk) : Disk :=
  Function.update disk node.path (some data)

def openAt (node : Node) (disk : Disk) : Except Errno Disk :=
  match kernel.refuses node.path node.flags with
  | some errno => .error errno
  | none =>
      match disk node.path with
      | none => if node.flags.create then .ok (store node [] disk) else .error enoent
      | some _ =>
          if node.flags.create && node.flags.exclusive then .error eexist
          else if node.flags.truncate then .ok (store node [] disk)
          else .ok disk

/-- Up to `len` bytes at an offset, short only at the end of the file. -/
def read (node : Node) (offset : ℤ) (len : ℕ) (disk : Disk) : Except Errno (List Byte) :=
  if node.flags.read = false then .error ebadf
  else if offset < 0 then .error einval
  else .ok (Binary.slice (content node disk) offset.toNat len)

def write (node : Node) (offset : ℤ) (data : List Byte) (disk : Disk) : Except Errno Disk :=
  if node.flags.write = false then .error ebadf
  else if offset < 0 then .error einval
  else if kernel.limit < offset.toNat + data.length then .error efbig
  else .ok (store node (Binary.splice (content node disk) offset.toNat data) disk)

def extend (node : Node) (data : List Byte) (disk : Disk) : Except Errno Disk :=
  if node.flags.write = false then .error ebadf
  else if kernel.limit < (content node disk).length + data.length then .error efbig
  else .ok (store node (content node disk ++ data) disk)

def truncate (node : Node) (size : ℤ) (disk : Disk) : Except Errno Disk :=
  if node.flags.write = false then .error einval
  else if size < 0 then .error einval
  else if kernel.limit < size.toNat then .error efbig
  else .ok (store node (Binary.resize (content node disk) size.toNat) disk)

end Calls

/-! ## Ops -/

/-- What is answered; the handle of an open is the number of its op. -/
inductive Answer
  | handle (size : ℕ)
  | bytes (data : List Byte)
  | read (n : ℕ)
  | written (n fileEnd : ℕ)
  | size (size : ℕ)
  | unit
  deriving DecidableEq

inductive Failure
  | os (errno : Errno)
  | badHandle
  | invalidInput
  deriving DecidableEq

abbrev Result := Except Failure Answer

/-- `nodes` are the open files, by the number of the op that opened them. -/
structure Service where
  disk : Disk
  nodes : ℕ → Option Node

/-- The flags an open asks for, if it asks for any access. -/
def wanted (spec : OpenSpec) : Option OpenFlags :=
  if spec.read || spec.write || spec.append then
    some {
      read := spec.read
      write := spec.write || spec.append
      append := spec.append
      truncate := spec.truncate
      create := spec.create || spec.createNew
      exclusive := spec.createNew }
  else none

def delivered (data : List Byte) : Dest → Answer
  | .alloc _ => .bytes data
  | .into _ _ => .read data.length

namespace Service

variable (kernel : Kernel)

/-- The file an op opens for itself or for its caller. -/
def opened (path : Path) (spec : OpenSpec) (disk : Disk) : Except Failure (Node × Disk) :=
  if 0 ∈ path then .error .invalidInput
  else
    match wanted spec with
    | none => .error .invalidInput
    | some flags => ((openAt kernel ⟨path, flags⟩ disk).mapError .os).map (⟨path, flags⟩, ·)

def register (index : ℕ) (node : Node) (disk : Disk) (service : Service) : Result × Service :=
  (.ok (.handle (stat node disk).size),
    { service with
      disk := disk
      nodes := Function.update service.nodes index (some node) })

/-- A call that changes the disk, or fails and does not. -/
def change (called : Except Errno Disk) (answer : Disk → Answer) (service : Service) :
    Result × Service :=
  match called with
  | .error errno => (.error (.os errno), service)
  | .ok disk => (.ok (answer disk), { service with disk := disk })

/-- A call that only looks. -/
def look (called : Except Errno Answer) (service : Service) : Result × Service :=
  (called.mapError .os, service)

def onNode (op : Op) (slot : ℕ) (node : Node) (service : Service) : Result × Service :=
  match op with
  | .readAt _ pos dest =>
      if dest.asked = 0 then service.look (.ok (delivered [] dest))
      else
        service.look ((read node (asOffT pos) dest.asked service.disk).map fun data =>
          delivered data dest)
  | .readToEnd _ pos =>
      service.look ((read node (asOffT pos) (stat node service.disk).size service.disk).map
        .bytes)
  | .writeAt _ pos data append =>
      if data.len = 0 then
        service.look (.ok (.written 0 (if append then (stat node service.disk).size else pos)))
      else if append then
        service.change (extend kernel node data.asSlice service.disk) fun disk =>
          .written data.len (stat node disk).size
      else
        service.change (write kernel node (asOffT pos) data.asSlice service.disk) fun _ =>
          .written data.len (pos + data.len)
  | .close _ => (.ok .unit, { service with nodes := Function.update service.nodes slot none })
  | .setLen _ size =>
      service.change (truncate kernel node (asOffT size) service.disk) fun _ => .unit
  | .size _ => service.look (.ok (.size (stat node service.disk).size))
  | _ => service.look (.ok .unit)

/-- One op, the `index`-th. -/
def perform (index : ℕ) (op : Op) (service : Service) : Result × Service :=
  match op with
  | .nop => (.ok .unit, service)
  | .openFile path spec =>
      match opened kernel path spec service.disk with
      | .error failure => (.error failure, service)
      | .ok (node, disk) => service.register index node disk
  | .readFile path inlineMax =>
      match opened kernel path { read := true } service.disk with
      | .error failure => (.error failure, service)
      | .ok (node, disk) =>
          if inlineMax < (stat node disk).size then service.register index node disk
          else (.ok (.bytes (content node disk)), { service with disk := disk })
  | .writeFile path data =>
      match opened kernel path { write := true, create := true, truncate := true }
        service.disk with
      | .error failure => (.error failure, service)
      | .ok (node, disk) =>
          ({ service with disk := disk }).change (write kernel node 0 data.asSlice disk) fun _ =>
            .written data.len data.len
  | .readAt slot _ _ | .readToEnd slot _ | .writeAt slot _ _ _ | .close slot | .sync slot _
  | .setLen slot _ | .size slot =>
      match service.nodes slot with
      | none => (.error .badHandle, service)
      | some node => service.onNode kernel op slot node

/-- The ops of a script, in order. -/
def serve (disk : Disk) (ops : List Op) : List Result × Service :=
  ops.foldl
    (fun served op =>
      let (result, service) := served.2.perform kernel served.1.length op
      (served.1 ++ [result], service))
    ([], ⟨disk, fun _ => none⟩)

end Service

/-! ## No file outgrows the limit -/

def Fits (kernel : Kernel) (disk : Disk) : Prop :=
  ∀ path data, disk path = some data → data.length ≤ kernel.limit

section Fits

variable {kernel : Kernel} {node : Node} {disk next : Disk}

theorem Fits.content_le (hfits : Fits kernel disk) (node : Node) :
    (content node disk).length ≤ kernel.limit := by
  unfold content
  cases hfile : disk node.path with
  | none => exact Nat.zero_le _
  | some data => exact hfits node.path data hfile

theorem Fits.store (hfits : Fits kernel disk) {data : List Byte}
    (hdata : data.length ≤ kernel.limit) : Fits kernel (store node data disk) := by
  intro path other hother
  by_cases hsame : path = node.path
  · rw [FileService.store, hsame, Function.update_self] at hother
    rwa [← Option.some.inj hother]
  · rw [FileService.store, Function.update_of_ne hsame] at hother
    exact hfits path other hother

theorem Fits.openAt (hfits : Fits kernel disk) (hopen : openAt kernel node disk = .ok next) :
    Fits kernel next := by
  have hempty : Fits kernel (FileService.store node [] disk) := hfits.store (Nat.zero_le _)
  unfold FileService.openAt at hopen
  split at hopen
  · cases hopen
  · split at hopen
    · split at hopen
      · rwa [← Except.ok.inj hopen]
      · cases hopen
    · split at hopen
      · cases hopen
      · split at hopen
        · rwa [← Except.ok.inj hopen]
        · rwa [← Except.ok.inj hopen]

theorem length_splice (content : List Byte) (pos : ℕ) (data : List Byte) :
    (Binary.splice content pos data).length ≤ max content.length (pos + data.length) := by
  unfold Binary.splice
  split
  · exact Nat.le_max_left _ _
  · simp only [List.length_append, List.length_take, List.length_replicate, List.length_drop]
    omega

theorem Fits.write (hfits : Fits kernel disk) {offset : ℤ} {data : List Byte}
    (hwrite : write kernel node offset data disk = .ok next) : Fits kernel next := by
  unfold FileService.write at hwrite
  split at hwrite
  · cases hwrite
  · split at hwrite
    · cases hwrite
    · split at hwrite
      · cases hwrite
      · next hlimit =>
          rw [← Except.ok.inj hwrite]
          exact hfits.store ((length_splice _ _ _).trans
            (max_le (hfits.content_le node) (not_lt.mp hlimit)))

theorem Fits.extend (hfits : Fits kernel disk) {data : List Byte}
    (hextend : extend kernel node data disk = .ok next) : Fits kernel next := by
  unfold FileService.extend at hextend
  split at hextend
  · cases hextend
  · split at hextend
    · cases hextend
    · next hlimit =>
        rw [← Except.ok.inj hextend]
        refine hfits.store ?_
        rw [List.length_append]
        exact not_lt.mp hlimit

theorem Fits.truncate (hfits : Fits kernel disk) {size : ℤ}
    (htruncate : truncate kernel node size disk = .ok next) : Fits kernel next := by
  unfold FileService.truncate at htruncate
  split at htruncate
  · cases htruncate
  · split at htruncate
    · cases htruncate
    · split at htruncate
      · cases htruncate
      · next hlimit =>
          rw [← Except.ok.inj htruncate]
          refine hfits.store ?_
          rw [Binary.resize, List.length_append, List.length_take, List.length_replicate]
          omega

/-- The disk after a call that may have changed it. -/
theorem Service.change_fits {service : Service} (hfits : Fits kernel service.disk)
    {called : Except Errno Disk} (hcalled : ∀ disk, called = .ok disk → Fits kernel disk)
    (answer : Disk → Answer) : Fits kernel (service.change called answer).2.disk := by
  cases called with
  | error errno => exact hfits
  | ok disk => exact hcalled disk rfl

theorem Service.opened_fits {path : Path} {spec : OpenSpec} (hfits : Fits kernel disk)
    (hopened : Service.opened kernel path spec disk = .ok (node, next)) : Fits kernel next := by
  unfold Service.opened at hopened
  split at hopened
  · cases hopened
  · split at hopened
    · cases hopened
    · next flags hflags =>
        cases hopen : FileService.openAt kernel ⟨path, flags⟩ disk with
        | error errno =>
            rw [hopen] at hopened
            cases hopened
        | ok after =>
            rw [hopen] at hopened
            obtain ⟨rfl, rfl⟩ := Prod.mk.inj (Except.ok.inj hopened)
            exact hfits.openAt hopen

theorem Service.onNode_fits {service : Service} (hfits : Fits kernel service.disk) (op : Op)
    (slot : ℕ) (node : Node) : Fits kernel (service.onNode kernel op slot node).2.disk := by
  unfold Service.onNode
  split
  · split <;> exact hfits
  · exact hfits
  · split
    · exact hfits
    · split
      · exact Service.change_fits hfits (fun disk hextend => hfits.extend hextend) _
      · exact Service.change_fits hfits (fun disk hwrite => hfits.write hwrite) _
  · exact hfits
  · exact Service.change_fits hfits (fun disk htruncate => hfits.truncate htruncate) _
  · exact hfits
  · exact hfits

theorem Service.perform_fits {service : Service} (hfits : Fits kernel service.disk) (index : ℕ)
    (op : Op) : Fits kernel (service.perform kernel index op).2.disk := by
  cases op with
  | nop => exact hfits
  | openFile path spec =>
      simp only [Service.perform]
      split
      · exact hfits
      · next hopened => exact Service.opened_fits hfits hopened
  | readFile path inlineMax =>
      simp only [Service.perform]
      split
      · exact hfits
      · next hopened =>
          split <;> exact Service.opened_fits hfits hopened
  | writeFile path data =>
      simp only [Service.perform]
      split
      · exact hfits
      · next hopened =>
          have hafter := Service.opened_fits hfits hopened
          exact Service.change_fits hafter (fun disk hwrite => hafter.write hwrite) _
  | _ =>
      simp only [Service.perform]
      split
      · exact hfits
      · exact Service.onNode_fits hfits _ _ _

end Fits

/-- Any open is granted, and files have up to a kilobyte. -/
def smallKernel : Kernel := ⟨fun _ _ => none, 1024, by decide⟩

theorem fits_none : Fits smallKernel fun _ => none := fun _ _ hfile => by cases hfile

/-! ## Positions and reads -/

section Reads

variable {kernel : Kernel} {node : Node} {disk after : Disk} {pos : ℕ}

theorem asOffT_start (hpos : pos < 2 ^ 64) : asOffT (u64Add pos 0) = asOffT pos := by
  rw [u64Add_eq hpos, Nat.add_zero]

/-- A cast position that is not negative is the position. -/
theorem pos_of_nonneg (hpos : pos < 2 ^ 64) (hoffset : 0 ≤ asOffT pos) :
    pos < 2 ^ 63 ∧ (asOffT pos).toNat = pos := by
  obtain ⟨offset, hsame⟩ := Int.eq_ofNat_of_zero_le hoffset
  obtain ⟨hfits, rfl⟩ := asOffT_eq_natCast hpos hsame
  exact ⟨hfits, by rw [hsame]; rfl⟩

theorem read_ok {offset : ℤ} {len : ℕ} {data : List Byte}
    (hread : read node offset len disk = .ok data) :
    node.flags.read = true ∧ 0 ≤ offset ∧
      data = Binary.slice (content node disk) offset.toNat len := by
  unfold FileService.read at hread
  split at hread
  · cases hread
  · next hflag =>
      split at hread
      · cases hread
      · next hoffset =>
          exact ⟨by simpa using hflag, not_lt.mp hoffset, (Except.ok.inj hread).symm⟩

/-- Behind the end of the file a read finds nothing. -/
theorem read_end {offset : ℤ} (hflag : node.flags.read = true) (hoffset : 0 ≤ offset)
    (hend : ((content node disk).length : ℤ) ≤ offset) (len : ℕ) :
    read node offset len disk = .ok [] := by
  have hnone : (content node disk).drop offset.toNat = [] :=
    List.drop_of_length_le (by omega)
  rw [FileService.read, if_neg (by simp [hflag]), if_neg (not_lt.mpr hoffset), Binary.slice, hnone,
    List.take_nil]

/-- Room for the rest of the file is as good as more. -/
theorem read_whole (hpos : pos < 2 ^ 64) {len other : ℕ}
    (hlen : (content node disk).length - pos ≤ len)
    (hother : (content node disk).length - pos ≤ other) :
    read node (asOffT pos) len disk = read node (asOffT pos) other disk := by
  unfold FileService.read
  split
  · rfl
  · split
    · rfl
    · next hoffset =>
        have hplace := (pos_of_nonneg hpos (not_lt.mp hoffset)).2
        have hrest : ∀ room, (content node disk).length - pos ≤ room →
            Binary.slice (content node disk) pos room = (content node disk).drop pos :=
          fun room hroom => List.take_of_length_le (by rwa [List.length_drop])
        rw [hplace, hrest len hlen, hrest other hother]

/-- A read of a whole file from its start. -/
theorem read_all (hflag : node.flags.read = true) {cap : ℕ}
    (hcap : (content node disk).length ≤ cap) :
    read node (asOffT 0) cap disk = .ok (content node disk) := by
  rw [FileService.read, if_neg (by simp [hflag]), if_neg (by decide)]
  exact congrArg Except.ok (List.take_of_length_le hcap)

/-- A position whose write the kernel takes is far from the end of its range. -/
theorem write_end (hpos : pos < 2 ^ 64) {data : List Byte}
    (hwrite : write kernel node (asOffT pos) data disk = .ok after) :
    u64Add pos data.length = pos + data.length := by
  have hlimit := kernel.limit_lt
  unfold FileService.write at hwrite
  split at hwrite
  · cases hwrite
  · split at hwrite
    · cases hwrite
    · next hoffset =>
        split at hwrite
        · cases hwrite
        · next hroom =>
            have hplace := (pos_of_nonneg hpos (not_lt.mp hoffset)).2
            rw [hplace] at hroom
            exact u64Add_eq (by omega)

end Reads

/-! ## What a driver shows of an answer -/

/-- `io::Error::kind`, as far as `InvalidInput` goes. -/
def isInvalidInput : IoError → Bool
  | .custom kind _ => kind = .invalidInput
  | .os errno => errno = einval

def Failure.Shown (failure : Failure) (error : IoError) : Prop :=
  match failure with
  | .os errno => error = .os errno
  | .badHandle => error = Core.badHandle
  | .invalidInput => isInvalidInput error = true

/-- The reply says what the answer says; handles and descriptors are the
driver's own. -/
def Answer.Shown (answer : Answer) (reply : Reply) : Prop :=
  match reply with
  | .handle _ length _ => answer = .handle length
  | .bytes data => answer = .bytes data
  | .read n => answer = .read n
  | .written n fileEnd => answer = .written n fileEnd
  | .size length => answer = .size length
  | .unit => answer = .unit

def Shows (result : Result) (outcome : Outcome) : Prop :=
  match outcome with
  | .ok reply => ∃ answer, result = .ok answer ∧ answer.Shown reply
  | .error error => ∃ failure, result = .error failure ∧ failure.Shown error

/-! ## Scripts -/

/-- The handle an op names. -/
def named : Op → Option ℕ
  | .readAt handle _ _ | .readToEnd handle _ | .writeAt handle _ _ _ | .close handle
  | .sync handle _ | .setLen handle _ | .size handle => some handle
  | .openFile .. | .readFile .. | .writeFile .. | .nop => none

/-- The op with another handle. -/
def on (handle : Handle) : Op → Op
  | .readAt _ pos dest => .readAt handle pos dest
  | .readToEnd _ pos => .readToEnd handle pos
  | .writeAt _ pos data append => .writeAt handle pos data append
  | .close _ => .close handle
  | .sync _ dataOnly => .sync handle dataOnly
  | .setLen _ size => .setLen handle size
  | .size _ => .size handle
  | op => op

/-- What a driver has answered, op by op. -/
abbrev Calls := List (Op × Outcome)

def returned : Op × Outcome → Option Handle
  | (_, .ok (.handle handle _ _)) => some handle
  | _ => none

/-- The handle an op of the script has returned. -/
def handleOf (calls : Calls) (slot : ℕ) : Option Handle := calls[slot]?.bind returned

/-- The driver's handle for a slot of the script, or, for a slot that holds
none, one it has never returned. -/
def Names (calls : Calls) (slot : ℕ) (handle : Handle) : Prop :=
  handleOf calls slot = some handle ∨
    handleOf calls slot = none ∧ handle ∉ calls.filterMap returned

instance (calls : Calls) (slot : ℕ) (handle : Handle) : Decidable (Names calls slot handle) :=
  inferInstanceAs (Decidable (_ ∨ _ ∧ _))

theorem Service.perform_unknown {kernel : Kernel} {service : Service} {op : Op} {slot : ℕ}
    (hnamed : named op = some slot) (hnone : service.nodes slot = none) (index : ℕ) :
    service.perform kernel index op = (.error .badHandle, service) := by
  cases op with
  | openFile | readFile | writeFile | nop => cases hnamed
  | _ =>
      obtain rfl := Option.some.inj hnamed
      simp only [Service.perform, hnone]

theorem Service.perform_known {kernel : Kernel} {service : Service} {op : Op} {slot : ℕ}
    {node : Node} (hnamed : named op = some slot) (hsome : service.nodes slot = some node)
    (index : ℕ) : service.perform kernel index op = service.onNode kernel op slot node := by
  cases op with
  | openFile | readFile | writeFile | nop => cases hnamed
  | _ =>
      obtain rfl := Option.some.inj hnamed
      simp only [Service.perform, hsome]

section Calls

variable {calls : Calls} {slot : ℕ} {handle : Handle}

theorem handleOf_length (calls : Calls) : handleOf calls calls.length = none := by
  rw [handleOf, List.getElem?_eq_none (Nat.le_refl _)]
  rfl

theorem handleOf_concat (calls : Calls) (call : Op × Outcome) (slot : ℕ) :
    handleOf (calls ++ [call]) slot =
      if slot = calls.length then returned call else handleOf calls slot := by
  unfold handleOf
  split
  · next hlast =>
      rw [hlast, List.getElem?_concat_length]
      rfl
  · next hother =>
      by_cases hlt : slot < calls.length
      · rw [List.getElem?_append_left hlt]
      · rw [List.getElem?_eq_none (by rw [List.length_append, List.length_singleton]; omega),
          List.getElem?_eq_none (by omega)]

theorem mem_returned :
    handle ∈ calls.filterMap returned ↔ ∃ slot, handleOf calls slot = some handle := by
  rw [List.mem_filterMap]
  constructor
  · rintro ⟨call, hmem, hreturned⟩
    obtain ⟨slot, hslot⟩ := List.getElem?_of_mem hmem
    exact ⟨slot, by rw [handleOf, hslot]; exact hreturned⟩
  · rintro ⟨slot, hslot⟩
    obtain ⟨call, hcall, hreturned⟩ := Option.bind_eq_some_iff.mp hslot
    exact ⟨call, List.mem_of_getElem? hcall, hreturned⟩

/-- The service's open files are the driver's, each under the handle its op has
returned. -/
structure Tabled (nodes : ℕ → Option Node) (calls : Calls) (nodeFor : Handle → Option Node)
    (nextId : Handle) : Prop where
  slots : ∀ slot, nodes slot = (handleOf calls slot).bind nodeFor
  known : ∀ handle, (nodeFor handle).isSome = true → ∃ slot, handleOf calls slot = some handle
  numbered : ∀ slot handle, handleOf calls slot = some handle → handle < nextId
  distinct : ∀ slot other handle, handleOf calls slot = some handle →
    handleOf calls other = some handle → slot = other

namespace Tabled

variable {nodes : ℕ → Option Node} {nodeFor : Handle → Option Node} {nextId : Handle}

theorem start (nextId : Handle) : Tabled (fun _ => none) [] (fun _ => none) nextId where
  slots slot := rfl
  known handle hsome := by cases hsome
  numbered slot handle hslot := by cases hslot
  distinct slot other handle hslot := by cases hslot

/-- A slot and the handle that names it stand for the same open file. -/
theorem resolves (htable : Tabled nodes calls nodeFor nextId) (hnames : Names calls slot handle) :
    nodes slot = nodeFor handle := by
  rcases hnames with hslot | ⟨hnone, hunknown⟩
  · rw [htable.slots, hslot]
    rfl
  · rw [htable.slots, hnone]
    by_contra hdiffers
    have hsome : (nodeFor handle).isSome = true := by
      cases hnode : nodeFor handle with
      | none => exact absurd hnode.symm hdiffers
      | some node => rfl
    exact hunknown (mem_returned.mpr (htable.known handle hsome))

/-- The slot of an open file has returned the handle that names it. -/
theorem slot_of_names (htable : Tabled nodes calls nodeFor nextId)
    (hnames : Names calls slot handle) {node : Node} (hslot : nodes slot = some node) :
    handleOf calls slot = some handle := by
  rcases hnames with hsome | ⟨hnone, -⟩
  · exact hsome
  · rw [htable.slots, hnone] at hslot
    cases hslot

/-- Handles may be left out. -/
theorem skip (htable : Tabled nodes calls nodeFor nextId) {next : Handle} (hle : nextId ≤ next) :
    Tabled nodes calls nodeFor next :=
  { htable with
    numbered := fun slot handle hslot => (htable.numbered slot handle hslot).trans_le hle }

/-- An op that opens nothing has been answered. -/
theorem answered (htable : Tabled nodes calls nodeFor nextId) {call : Op × Outcome}
    (hnone : returned call = none) : Tabled nodes (calls ++ [call]) nodeFor nextId := by
  have hsame : ∀ slot, handleOf (calls ++ [call]) slot = handleOf calls slot := by
    intro slot
    rw [handleOf_concat]
    split
    · next hlast => rw [hnone, hlast, handleOf_length]
    · rfl
  constructor
  · intro slot
    rw [hsame]
    exact htable.slots slot
  · intro handle hsome
    simp only [hsame]
    exact htable.known handle hsome
  · intro slot handle
    rw [hsame]
    exact htable.numbered slot handle
  · intro slot other handle
    rw [hsame, hsame]
    exact htable.distinct slot other handle

/-- An op has opened a file, under a new handle. -/
theorem registered (htable : Tabled nodes calls nodeFor nextId) {call : Op × Outcome}
    {next : Handle} {node : Node} (hnew : nextId ≤ handle) (hnext : handle < next)
    (hreturned : returned call = some handle) :
    Tabled (Function.update nodes calls.length (some node)) (calls ++ [call])
      (Function.update nodeFor handle (some node)) next := by
  have hold : ∀ slot, handleOf calls slot ≠ some handle := fun slot hslot =>
    absurd (htable.numbered slot handle hslot) (not_lt.mpr hnew)
  constructor
  · intro slot
    rw [handleOf_concat]
    by_cases hlast : slot = calls.length
    · rw [if_pos hlast, hreturned, hlast, Function.update_self]
      exact (Function.update_self handle (some node) nodeFor).symm
    · rw [if_neg hlast, Function.update_of_ne hlast, htable.slots]
      cases hslot : handleOf calls slot with
      | none => rfl
      | some other =>
          have hne : other ≠ handle := fun hsame => hold slot (hsame ▸ hslot)
          exact (Function.update_of_ne hne _ nodeFor).symm
  · intro other hsome
    by_cases hsame : other = handle
    · exact ⟨calls.length, by rw [handleOf_concat, if_pos rfl, hreturned, hsame]⟩
    · rw [Function.update_of_ne hsame] at hsome
      obtain ⟨slot, hslot⟩ := htable.known other hsome
      refine ⟨slot, ?_⟩
      rw [handleOf_concat, if_neg, hslot]
      rintro rfl
      rw [handleOf_length] at hslot
      cases hslot
  · intro slot other hslot
    rw [handleOf_concat] at hslot
    split at hslot
    · rw [hreturned] at hslot
      rw [← Option.some.inj hslot]
      exact hnext
    · exact ((htable.numbered slot other hslot).trans_le hnew).trans hnext
  · intro slot other handle' hslot hother
    rw [handleOf_concat] at hslot hother
    split at hslot
    · next hlast =>
        split at hother
        · next hlast' => rw [hlast, hlast']
        · rw [← hslot, hreturned] at hother
          exact absurd hother (hold other)
    · split at hother
      · rw [← hother, hreturned] at hslot
        exact absurd hslot (hold slot)
      · exact htable.distinct slot other handle' hslot hother

/-- The file of a handle is closed. -/
theorem closed (htable : Tabled nodes calls nodeFor nextId)
    (hslot : handleOf calls slot = some handle) :
    Tabled (Function.update nodes slot none) calls (Function.update nodeFor handle none)
      nextId where
  slots other := by
    by_cases hsame : other = slot
    · rw [hsame, Function.update_self, hslot]
      exact (Function.update_self handle none nodeFor).symm
    · rw [Function.update_of_ne hsame, htable.slots]
      cases hother : handleOf calls other with
      | none => rfl
      | some other' =>
          have hne : other' ≠ handle := by
            rintro rfl
            exact hsame (htable.distinct other slot other' hother hslot)
          exact (Function.update_of_ne hne _ nodeFor).symm
  known other hsome := by
    by_cases hsame : other = handle
    · rw [hsame, Function.update_self] at hsome
      cases hsome
    · rw [Function.update_of_ne hsame] at hsome
      exact htable.known other hsome
  numbered := htable.numbered
  distinct := htable.distinct

end Tabled

end Calls

/-! ## What an op is due -/

section Due

variable {kernel : Kernel} {service : Service} {calls : Calls} {op : Op} {outcome : Outcome}
  {after : Disk}

/-- The outcome is what the service answers, with this disk afterwards. -/
structure Due (kernel : Kernel) (service : Service) (calls : Calls) (op : Op) (outcome : Outcome)
    (after : Disk) : Prop where
  performs : ∃ result, service.perform kernel calls.length op =
    (result, { service with disk := after }) ∧ Shows result outcome
  returned : returned (op, outcome) = none

theorem Due.fits (hdue : Due kernel service calls op outcome after)
    (hfits : Fits kernel service.disk) : Fits kernel after := by
  obtain ⟨result, hperform, -⟩ := hdue.performs
  have hkept := Service.perform_fits hfits calls.length op
  rwa [hperform] at hkept

theorem due_onNode {slot : ℕ} {node : Node} {result : Result} (hnamed : named op = some slot)
    (hslot : service.nodes slot = some node)
    (hon : service.onNode kernel op slot node = (result, { service with disk := after }))
    (hshows : Shows result outcome) (hreturned : returned (op, outcome) = none) :
    Due kernel service calls op outcome after :=
  ⟨⟨result, (Service.perform_known hnamed hslot _).trans hon, hshows⟩, hreturned⟩

end Due

/-! ## Whole scripts -/

/-- What a driver has answered is what the service answers to the same ops. -/
def Served (kernel : Kernel) (disk : Disk) (calls : Calls) (service : Service) : Prop :=
  ∃ results, Service.serve kernel disk (calls.map Prod.fst) = (results, service) ∧
    List.Forall₂ Shows results (calls.map Prod.snd)

section Served

variable {kernel : Kernel} {disk : Disk} {calls : Calls} {service next : Service}

theorem Served.start (kernel : Kernel) (disk : Disk) :
    Served kernel disk [] ⟨disk, fun _ => none⟩ := ⟨[], rfl, .nil⟩

/-- One more op. -/
theorem Served.concat (hserved : Served kernel disk calls service) {op : Op} {result : Result}
    {outcome : Outcome} (hperform : service.perform kernel calls.length op = (result, next))
    (hshows : Shows result outcome) : Served kernel disk (calls ++ [(op, outcome)]) next := by
  obtain ⟨results, hserve, hall⟩ := hserved
  have hlength : results.length = calls.length := by
    rw [hall.length_eq, List.length_map]
  refine ⟨results ++ [result], ?_, ?_⟩
  · rw [List.map_append, List.map_singleton, Service.serve, List.foldl_append]
    rw [Service.serve] at hserve
    simp only [hserve, List.foldl_cons, List.foldl_nil, hlength, hperform]
  · rw [List.map_append, List.map_singleton]
    exact List.rel_append hall (.cons hshows .nil)

end Served

/-- Replies that agree but for the handles and descriptors in them, or errors of
one kind. -/
def Alike (left right : Outcome) : Prop :=
  match left, right with
  | .ok (.handle _ size _), .ok (.handle _ size' _) => size = size'
  | .ok reply, .ok reply' => reply = reply'
  | .error error, .error error' =>
      error = error' ∨ isInvalidInput error = true ∧ isInvalidInput error' = true
  | _, _ => False

/-- An answer is shown by one reply, up to handles and descriptors. -/
theorem Answer.Shown.alike {answer : Answer} {reply other : Reply} (hreply : answer.Shown reply)
    (hother : answer.Shown other) : Alike (.ok reply) (.ok other) := by
  cases reply with
  | handle id size fd =>
      obtain rfl : answer = .handle size := hreply
      cases other with
      | handle id' size' fd' => exact Answer.handle.inj hother
      | _ => cases hother
  | _ =>
      obtain rfl := hreply
      cases other with
      | handle id size fd => cases hother
      | _ => cases hother <;> exact rfl

theorem Failure.Shown.alike {failure : Failure} {error other : IoError}
    (herror : failure.Shown error) (hother : failure.Shown other) :
    Alike (.error error) (.error other) := by
  cases failure with
  | os errno => exact .inl (herror.trans hother.symm)
  | badHandle => exact .inl (herror.trans hother.symm)
  | invalidInput => exact .inr ⟨herror, hother⟩

theorem Shows.alike {result : Result} {left right : Outcome} (hleft : Shows result left)
    (hright : Shows result right) : Alike left right := by
  cases left with
  | error error =>
      obtain ⟨failure, rfl, herror⟩ := hleft
      cases right with
      | error other =>
          obtain ⟨same, hsame, hother⟩ := hright
          obtain rfl := Except.error.inj hsame
          exact herror.alike hother
      | ok reply =>
          obtain ⟨answer, hok, -⟩ := hright
          cases hok
  | ok reply =>
      obtain ⟨answer, rfl, hreply⟩ := hleft
      cases right with
      | error error =>
          obtain ⟨failure, herror, -⟩ := hright
          cases herror
      | ok other =>
          obtain ⟨same, hsame, hother⟩ := hright
          obtain rfl := Except.ok.inj hsame
          exact hreply.alike hother

theorem alike_of_shows {results : List Result} {left right : List Outcome}
    (hleft : List.Forall₂ Shows results left) (hright : List.Forall₂ Shows results right) :
    List.Forall₂ Alike left right := by
  induction hleft generalizing right with
  | nil =>
      cases hright
      exact .nil
  | cons hshows hrest ih =>
      cases hright with
      | cons hshows' hrest' => exact .cons (hshows.alike hshows') (ih hrest')

/-- The same script is answered alike, and leaves the same service. -/
theorem Served.alike {kernel : Kernel} {disk : Disk} {left right : Calls}
    {service service' : Service} (hleft : Served kernel disk left service)
    (hright : Served kernel disk right service')
    (hscript : left.map Prod.fst = right.map Prod.fst) :
    List.Forall₂ Alike (left.map Prod.snd) (right.map Prod.snd) ∧ service = service' := by
  obtain ⟨results, hserve, hshows⟩ := hleft
  obtain ⟨results', hserve', hshows'⟩ := hright
  rw [hscript, hserve'] at hserve
  obtain ⟨rfl, rfl⟩ := Prod.mk.inj hserve
  exact ⟨alike_of_shows hshows hshows', rfl⟩

/-- Positions are `u64`s, and a write appends when its file was opened so. -/
def suits (node : Option Node) : Op → Bool
  | .writeAt _ pos _ append => pos < 2 ^ 64 && node.all fun open' => append == open'.flags.append
  | .readAt _ pos _ | .readToEnd _ pos => pos < 2 ^ 64
  | _ => true

end Turbofile.FileService
