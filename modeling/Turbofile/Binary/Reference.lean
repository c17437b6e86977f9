import Turbofile.Core.Python

/-!
# The reference file

A binary file as its users think of it: a list of bytes and a cursor.  Each
operation is a relation, since `read1` and `peek` may return less than there is.
-/

namespace Turbofile.Binary

open Turbofile.Core

abbrev Bytes := List Byte

def newline : Byte := 10

/-- `data.find(b"\n")`. -/
def findNewline (data : Bytes) : Option ℕ :=
  data.findIdx? fun byte => byte = newline

/-- `content[pos : pos + len]`. -/
def slice (content : Bytes) (pos len : ℕ) : Bytes := (content.drop pos).take len

/-- A positional write.  A gap behind the end reads as zeros; no bytes written
is no change. -/
def splice (content : Bytes) (pos : ℕ) (data : Bytes) : Bytes :=
  if data = [] then content
  else
    content.take pos ++ List.replicate (pos - content.length) 0 ++ data ++
      content.drop (pos + data.length)

def resize (content : Bytes) (size : ℕ) : Bytes :=
  content.take size ++ List.replicate (size - content.length) 0

theorem splice_end (content data : Bytes) :
    splice content content.length data = content ++ data := by
  unfold splice
  split
  · next hnil => rw [hnil, List.append_nil]
  · simp

/-- Bytes in front of the place of a write stay. -/
theorem splice_behind (front body data : Bytes) (pos : ℕ) :
    splice (front ++ body) (front.length + pos) data = front ++ splice body pos data := by
  have hgap : front.length + pos - (front ++ body).length = pos - body.length := by
    rw [List.length_append]
    omega
  unfold splice
  split
  · rfl
  · rw [List.take_length_add_append, hgap, Nat.add_assoc, List.drop_length_add_append]
    simp only [List.append_assoc]

/-- A write over the start that begins as the content does. -/
theorem splice_start {front : Bytes} (hfront : front ≠ []) (body data : Bytes) :
    splice (front ++ body) 0 (front ++ data) = front ++ splice body 0 data := by
  have hdata : front ++ data ≠ [] := fun hnil => hfront (List.append_eq_nil_iff.mp hnil).1
  have hdrop : (front ++ body).drop (front.length + data.length) = body.drop data.length :=
    List.drop_length_add_append ..
  have hleft : splice (front ++ body) 0 (front ++ data) =
      front ++ (data ++ body.drop data.length) := by
    simp only [splice, if_neg hdata, List.take_zero, Nat.zero_sub, List.replicate_zero,
      Nat.zero_add, List.length_append, hdrop, List.nil_append, List.append_assoc]
  have hright : splice body 0 data = data ++ body.drop data.length := by
    unfold splice
    split
    · next hnil => simp [hnil]
    · simp
  rw [hleft, hright]

theorem length_resize (content : Bytes) (size : ℕ) : (resize content size).length = size := by
  rw [resize, List.length_append, List.length_take, List.length_replicate]
  omega

theorem resize_behind (front body : Bytes) (size : ℕ) :
    resize (front ++ body) (front.length + size) = front ++ resize body size := by
  have hgap : front.length + size - (front ++ body).length = size - body.length := by
    rw [List.length_append]
    omega
  rw [resize, resize, List.take_length_add_append, hgap, List.append_assoc]

/-! ## Room -/

/-- How far a file reaches: without end, or up to what its file system takes,
with positions that cross to the extension module as `u64`s. -/
inductive Room
  | endless
  | upTo (limit : ℕ) (hlimit : limit < 2 ^ 63)

/-- What becomes of a write or a truncation.  At the position -1 of an `off_t`
the kernel may take a write to be for its own position. -/
inductive Verdict
  | fits
  | overflows
  | refused
  | astray
  deriving DecidableEq

namespace Room

/-- A write that appends, or one at `pos`. -/
def ofWrite (room : Room) (append : Bool) (content : Bytes) (pos : ℕ) (data : Bytes) : Verdict :=
  match room with
  | .endless => .fits
  | .upTo limit _ =>
      if 2 ^ 64 ≤ pos then .overflows
      else if data = [] then .fits
      else if append then if limit < content.length + data.length then .refused else .fits
      else if pos = 2 ^ 64 - 1 then .astray
      else if limit < pos + data.length then .refused
      else .fits

def ofSize (room : Room) (size : ℤ) : Verdict :=
  if size < 0 then .overflows
  else
    match room with
    | .endless => .fits
    | .upTo limit _ =>
        if 2 ^ 64 ≤ size then .overflows else if limit < size then .refused else .fits

/-- How much of a refused write goes behind `start` all the same. -/
def stores (room : Room) (start stored : ℕ) : Prop :=
  match room with
  | .endless => False
  | .upTo limit _ => stored ≤ limit - start

end Room

/-- The content after a write. -/
def placed (append : Bool) (content : Bytes) (pos : ℕ) (data : Bytes) : Bytes :=
  if append then content ++ data else splice content pos data

/-- Where a write starts. -/
def placeOf (append : Bool) (content : Bytes) (pos : ℕ) : ℕ :=
  if append then content.length else pos

/-- A size argument: `None` and the negative ones ask for everything. -/
def asked (size : Option ℤ) : Option ℕ :=
  match size with
  | none => none
  | some size => if size < 0 then none else some size.toNat

/-- Where the first line of `data` ends. -/
def lineEnd (data : Bytes) : ℕ :=
  match findNewline data with
  | none => data.length
  | some index => index + 1

/-- The length of the line `readline` returns. -/
def lineLength (limit : Option ℕ) (data : Bytes) : ℕ :=
  match limit with
  | none => lineEnd data
  | some limit => min limit (lineEnd data)

/-- The lines of `data`, each with its newline. -/
def splitLines : Bytes → List Bytes
  | [] => []
  | byte :: data =>
      if byte = newline then [byte] :: splitLines data
      else
        match splitLines data with
        | [] => [[byte]]
        | line :: lines => (byte :: line) :: lines

theorem findNewline_isSome (data : Bytes) :
    (findNewline data).isSome = data.any fun byte => byte = newline := by
  rw [findNewline, List.findIdx?_isSome]

theorem lineEnd_cons (byte : Byte) (data : Bytes) :
    lineEnd (byte :: data) = if byte = newline then 1 else lineEnd data + 1 := by
  by_cases hbyte : byte = newline
  · simp [lineEnd, findNewline, List.findIdx?_cons, hbyte]
  · cases hfind : findNewline data with
    | none =>
        simp only [findNewline] at hfind
        simp [lineEnd, findNewline, List.findIdx?_cons, hbyte, hfind]
    | some index =>
        simp only [findNewline] at hfind
        simp [lineEnd, findNewline, List.findIdx?_cons, hbyte, hfind]

theorem lineEnd_le (data : Bytes) : lineEnd data ≤ data.length := by
  induction data with
  | nil => exact Nat.le_refl _
  | cons byte data ih =>
      rw [lineEnd_cons, List.length_cons]
      split
      · exact Nat.succ_le_succ (Nat.zero_le _)
      · exact Nat.succ_le_succ ih

theorem lineEnd_pos {data : Bytes} (hdata : data ≠ []) : 0 < lineEnd data := by
  cases data with
  | nil => exact absurd rfl hdata
  | cons byte data =>
      rw [lineEnd_cons]
      split
      · exact Nat.one_pos
      · exact Nat.succ_pos _

theorem lineLength_le (limit : Option ℕ) (data : Bytes) :
    lineLength limit data ≤ data.length := by
  cases limit with
  | none => exact lineEnd_le data
  | some limit => exact le_trans (Nat.min_le_right _ _) (lineEnd_le data)

/-- A prefix that holds a newline ends its first line where the whole does. -/
theorem lineEnd_append {front : Bytes} (hfind : (findNewline front).isSome) (back : Bytes) :
    lineEnd (front ++ back) = lineEnd front := by
  induction front with
  | nil => simp [findNewline] at hfind
  | cons byte front ih =>
      rw [List.cons_append, lineEnd_cons, lineEnd_cons]
      by_cases hbyte : byte = newline
      · rw [if_pos hbyte, if_pos hbyte]
      · rw [if_neg hbyte, if_neg hbyte, ih]
        simpa [findNewline, List.findIdx?_cons, hbyte] using hfind

theorem length_le_lineEnd {front : Bytes} (hfind : (findNewline front).isSome = false)
    (back : Bytes) : front.length ≤ lineEnd (front ++ back) := by
  induction front with
  | nil => exact Nat.zero_le _
  | cons byte front ih =>
      rw [List.cons_append, lineEnd_cons]
      by_cases hbyte : byte = newline
      · simp [findNewline, List.findIdx?_cons, hbyte] at hfind
      · rw [if_neg hbyte]
        apply Nat.succ_le_succ
        apply ih
        simpa [findNewline, List.findIdx?_cons, hbyte] using hfind

/-- What is enough of the rest to know the next line. -/
theorem lineLength_leading (limit : Option ℕ) {front data : Bytes} (hleading : front <+: data)
    (henough : (findNewline front).isSome ∨ limit.any (· ≤ front.length) ∨ front = data) :
    lineLength limit front = lineLength limit data := by
  obtain ⟨back, rfl⟩ := hleading
  cases hfind : (findNewline front).isSome with
  | true =>
      have hsame := lineEnd_append hfind back
      cases limit with
      | none => exact hsame.symm
      | some limit => simp only [lineLength, hsame]
  | false =>
      rcases henough with hfalse | hlimit | hsame
      · rw [hfind] at hfalse
        cases hfalse
      · cases limit with
        | none => simp at hlimit
        | some limit =>
            have hle : limit ≤ front.length := by simpa using hlimit
            have hfront := length_le_lineEnd hfind []
            rw [List.append_nil] at hfront
            have hdata := length_le_lineEnd hfind back
            simp only [lineLength]
            omega
      · rw [← hsame]

theorem splitLines_eq {data : Bytes} (hdata : data ≠ []) :
    splitLines data = data.take (lineEnd data) :: splitLines (data.drop (lineEnd data)) := by
  induction data with
  | nil => exact absurd rfl hdata
  | cons byte data ih =>
      rw [lineEnd_cons, splitLines]
      by_cases hbyte : byte = newline
      · rw [if_pos hbyte, if_pos hbyte]
        rfl
      · rw [if_neg hbyte, if_neg hbyte, List.take_succ_cons, List.drop_succ_cons]
        cases data with
        | nil => rfl
        | cons next data => rw [ih (List.cons_ne_nil _ _)]

/-- Whole lines until they hold `hint` bytes; without a positive hint all. -/
def takeLines (hint : Option ℤ) (total : ℕ) : List Bytes → List Bytes
  | [] => []
  | line :: lines =>
      line ::
        match hint with
        | none => takeLines hint (total + line.length) lines
        | some size =>
            if 0 < size ∧ size ≤ total + line.length then []
            else takeLines hint (total + line.length) lines

/-- The first line comes first, and ends the list when it reaches the hint. -/
theorem takeLines_splitLines (hint : Option ℤ) (total : ℕ) {data : Bytes} (hdata : data ≠ []) :
    takeLines hint total (splitLines data) =
      data.take (lineEnd data) ::
        if hint.any fun size => 0 < size ∧ size ≤ ((total + lineEnd data : ℕ) : ℤ) then []
        else takeLines hint (total + lineEnd data) (splitLines (data.drop (lineEnd data))) := by
  have hlength : (data.take (lineEnd data)).length = lineEnd data := by
    rw [List.length_take, Nat.min_eq_left (lineEnd_le data)]
  rw [splitLines_eq hdata]
  cases hint with
  | none => rw [takeLines, hlength, Option.any_none, if_neg Bool.false_ne_true]
  | some size =>
      rw [takeLines, hlength, Option.any_some]
      simp only [Nat.cast_add, decide_eq_true_eq]

inductive BinOp
  | read (size : Option ℤ)
  | read1 (size : ℤ)
  | readall
  | peek (size : ℤ)
  | readline (size : Option ℤ)
  | readlines (hint : Option ℤ)
  | readinto (buffer : Bytes)
  | write (data : Bytes)
  | seek (pos whence : ℤ)
  | tell
  | truncate (size : Option ℤ)
  deriving DecidableEq

inductive Value
  | bytes (data : Bytes)
  | lines (lines : List Bytes)
  | int (n : ℤ)
  | filled (n : ℕ) (buffer : Bytes)
  deriving DecidableEq

abbrev Result := Except PyError Value

structure RefFile where
  content : Bytes
  cursor : ℕ
  deriving DecidableEq

namespace RefFile

def rest (file : RefFile) : Bytes := file.content.drop file.cursor

/-- Return the next `n` bytes and move past them. -/
def take (file : RefFile) (n : ℕ) : Bytes × RefFile :=
  let data := file.rest.take n
  (data, { file with cursor := file.cursor + data.length })

def all (file : RefFile) : Bytes × RefFile := file.take file.rest.length

end RefFile

def CHUNK : ℕ := 65536

def notReadable : PyError := .unsupportedOperation "not readable"

def notWritable : PyError := .unsupportedOperation "not writable"

def badWhence (whence : ℤ) : PyError := .valueError s!"whence value {whence} unsupported"

/-- Where `seek` goes, before the check that it is not negative. -/
def seekTarget (file : RefFile) (pos whence : ℤ) : Except PyError ℤ :=
  if whence = 0 then .ok pos
  else if whence = 1 then .ok (file.cursor + pos)
  else if whence = 2 then .ok (file.content.length + pos)
  else .error (badWhence whence)

/-- The results and next states the reference file allows for a read. -/
def RefRead (op : BinOp) (before : RefFile) (result : Value) (after : RefFile) : Prop :=
  match op with
  | .read size =>
      let (data, next) :=
        match asked size with
        | none => before.all
        | some n => before.take n
      result = .bytes data ∧ after = next
  | .readall => result = .bytes before.all.1 ∧ after = before.all.2
  | .read1 size =>
      let want := if size < 0 then CHUNK else size.toNat
      ∃ data, data <+: before.rest ∧ data.length ≤ want ∧
        (data = [] → before.rest = [] ∨ want = 0) ∧
        result = .bytes data ∧ after = { before with cursor := before.cursor + data.length }
  | .peek _ =>
      ∃ data, data <+: before.rest ∧ (data = [] → before.rest = []) ∧
        result = .bytes data ∧ after = before
  | .readline size =>
      let (line, next) := before.take (lineLength (asked size) before.rest)
      result = .bytes line ∧ after = next
  | .readlines hint =>
      let lines := takeLines hint 0 (splitLines before.rest)
      result = .lines lines ∧
        after = { before with cursor := before.cursor + lines.flatten.length }
  | .readinto buffer =>
      let (data, next) := before.take buffer.length
      result = .filled data.length (data ++ buffer.drop data.length) ∧ after = next
  | .write _ | .seek _ _ | .tell | .truncate _ => False

/-- The results and next states the reference file allows.  A refused write may
store what fits of its data. -/
def Room.RefStep (room : Room) (info : ModeInfo) (op : BinOp) (before : RefFile)
    (result : Result) (after : RefFile) : Prop :=
  match op with
  | .write data =>
      if info.writable then
        match room.ofWrite info.append before.content before.cursor data with
        | .fits =>
            result = .ok (.int data.length) ∧
              after = ⟨placed info.append before.content before.cursor data,
                placeOf info.append before.content before.cursor + data.length⟩
        | .overflows => result = .error .overflowError ∧ after = before
        | .refused =>
            (∃ errno, result = .error (.osError (.os errno))) ∧
              ∃ stored, room.stores (placeOf info.append before.content before.cursor) stored ∧
                after = { before with
                  content := placed info.append before.content before.cursor (data.take stored) }
        | .astray => True
      else result = .error notWritable ∧ after = before
  | .seek pos whence =>
      match seekTarget before pos whence with
      | .error error => result = .error error ∧ after = before
      | .ok target =>
          if target < 0 then result = .error .invalidArgument ∧ after = before
          else result = .ok (.int target) ∧ after = { before with cursor := target.toNat }
  | .tell => result = .ok (.int before.cursor) ∧ after = before
  | .truncate size =>
      if info.writable then
        let target := size.getD before.cursor
        match room.ofSize target with
        | .fits =>
            result = .ok (.int target) ∧
              after = { before with content := resize before.content target.toNat }
        | .overflows => result = .error .overflowError ∧ after = before
        | .refused | .astray =>
            (∃ errno, result = .error (.osError (.os errno))) ∧ after = before
      else result = .error notWritable ∧ after = before
  | .read _ | .readall | .read1 _ | .peek _ | .readline _ | .readlines _ | .readinto _ =>
      if info.read then ∃ value, result = .ok value ∧ RefRead op before value after
      else result = .error notReadable ∧ after = before

/-- A sequence of operations with their results. -/
inductive Room.RefRun (room : Room) (info : ModeInfo) :
    RefFile → List (BinOp × Result) → RefFile → Prop
  | nil (file : RefFile) : RefRun room info file [] file
  | cons {before next after : RefFile} {op : BinOp} {result : Result}
      {rest : List (BinOp × Result)} (hstep : room.RefStep info op before result next)
      (hrest : RefRun room info next rest after) :
      RefRun room info before ((op, result) :: rest) after

/-- The reference file whose positions have no bound. -/
abbrev RefStep := Room.endless.RefStep

abbrev RefRun := Room.endless.RefRun

end Turbofile.Binary
