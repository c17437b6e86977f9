import Turbofile.Core.Python
import Turbofile.Darwin.Step
import Turbofile.Text.TextFile

/-!
# From a mode string to the flags of `open(2)`

`open` checks its mode string and its other arguments, hands six flags to the
extension, and each backend makes its own flags of them.  `Mode` is what a mode
string spells, in any order of its letters; the rest follows from it.
-/

namespace Turbofile.OpenModes

open Turbofile.Core
open Turbofile.Text (Newline)

/-! ## The Python layer -/

inductive Refusal
  | valueError (message : String)
  | notImplementedError (message : String)
  deriving DecidableEq

def modeLetters : List Char := ['r', 'w', 'x', 'a', 'b', '+', 't']

def baseLetters : List Char := ['r', 'w', 'x', 'a']

/-- The fields of `ModeInfo`, by the letters. -/
def infoOf (letters : List Char) : ModeInfo where
  read := 'r' ∈ letters || '+' ∈ letters
  write := 'w' ∈ letters || 'x' ∈ letters || '+' ∈ letters
  append := 'a' ∈ letters
  truncate := 'w' ∈ letters
  create := 'w' ∈ letters || 'a' ∈ letters
  createNew := 'x' ∈ letters
  binary := 'b' ∈ letters

/-- `parse_mode`; `repr` is the builtin, and `dedup` makes the set of letters. -/
def parseMode (repr : String → String) (mode : String) : Except Refusal ModeInfo :=
  let letters := mode.toList.dedup
  if ¬(∀ letter ∈ letters, letter ∈ modeLetters) ∨ mode.toList.length ≠ letters.length then
    .error (.valueError ("invalid mode: " ++ repr mode))
  else if (letters.filter (· ∈ baseLetters)).length ≠ 1 then
    .error (.valueError "must have exactly one of create/read/write/append mode")
  else if 't' ∈ letters ∧ 'b' ∈ letters then
    .error (.valueError "can't have text and binary mode at once")
  else .ok (infoOf letters)

/-- The arguments of `open`; of an opener only whether there is one, and of the
file whether it is a descriptor. -/
structure OpenArgs where
  path : Path
  descriptor : Bool
  mode : String
  buffering : ℤ
  encoding : Option String
  errors : Option String
  newline : Option String
  closefd : Bool
  opener : Bool

/-- The newline arguments `open_file` lets through. -/
def newlineOf : Option String → Option Newline
  | none => some .none
  | some newline =>
      if newline = "" then some .empty
      else if newline = "\n" then some .lf
      else if newline = "\r" then some .cr
      else if newline = "\r\n" then some .crlf
      else none

/-- The checks on what goes with a binary or a text mode. -/
def checkKind (repr : String → String) (info : ModeInfo) (args : OpenArgs) :
    Except Refusal Unit :=
  if info.binary then
    if args.encoding.isSome then
      .error (.valueError "binary mode doesn't take an encoding argument")
    else if args.errors.isSome then
      .error (.valueError "binary mode doesn't take an errors argument")
    else if args.newline.isSome then
      .error (.valueError "binary mode doesn't take a newline argument")
    else .ok ()
  else if args.buffering = 0 then .error (.valueError "can't have unbuffered text I/O")
  else if (newlineOf args.newline).isNone then
    .error (.valueError ("illegal newline value: " ++ repr (args.newline.getD "")))
  else .ok ()

def checkFile (args : OpenArgs) : Except Refusal Unit :=
  if args.opener then
    .error (.notImplementedError "turbofile does not support custom openers")
  else if ¬args.closefd then .error (.valueError "Cannot use closefd=False with file name")
  else if args.descriptor then
    .error (.notImplementedError "turbofile does not open existing descriptors")
  else .ok ()

/-- What the extension's `open` makes of the six flags. -/
def openSpec (info : ModeInfo) : OpenSpec where
  read := info.read
  write := info.write
  append := info.append
  truncate := info.truncate
  create := info.create
  createNew := info.createNew

/-- `open_file` up to the op it submits. -/
def openFile (repr : String → String) (args : OpenArgs) : Except Refusal (ModeInfo × Op) := do
  let info ← parseMode repr args.mode
  checkKind repr info args
  checkFile args
  return (info, .openFile args.path (openSpec info))

/-! ## The compio backend -/

/-- The builder of `OpenOptions`, with `O_APPEND` as the custom flag. -/
structure OpenOptions where
  read : Bool
  write : Bool
  truncate : Bool
  create : Bool
  createNew : Bool
  appendFlag : Bool
  deriving DecidableEq

/-- `open_options` on Unix. -/
def openOptions (spec : OpenSpec) : OpenOptions where
  read := spec.read
  write := spec.write || spec.append
  truncate := spec.truncate
  create := spec.create
  createNew := spec.createNew
  appendFlag := spec.append

/-- What the builder documents: an access is needed, for anything but reading a
write access, and `create_new` overrides `create` and `truncate`. -/
def Documented (flagsOf : OpenOptions → Option OpenFlags) : Prop :=
  ∀ opts : OpenOptions, (opts.read || opts.write) = true →
    ((opts.truncate || opts.create || opts.createNew) = true → opts.write = true) →
    flagsOf opts = some {
      read := opts.read
      write := opts.write
      append := opts.appendFlag
      truncate := opts.truncate && !opts.createNew
      create := opts.create || opts.createNew
      exclusive := opts.createNew }

/-! ## Modes -/

inductive Base
  | read
  | write
  | exclusive
  | append
  deriving DecidableEq

inductive Kind
  | plain
  | text
  | binary
  deriving DecidableEq

structure Mode where
  base : Base
  updating : Bool
  kind : Kind
  deriving DecidableEq

def Base.letter : Base → Char
  | .read => 'r'
  | .write => 'w'
  | .exclusive => 'x'
  | .append => 'a'

def Kind.letters : Kind → List Char
  | .plain => []
  | .text => ['t']
  | .binary => ['b']

namespace Mode

def letters (mode : Mode) : List Char :=
  mode.base.letter :: (if mode.updating then ['+'] else []) ++ mode.kind.letters

/-- What `open` documents for a mode: a file that is read is there, one that is
written is emptied, an exclusive one is new, and one to append to is kept. -/
def flags (mode : Mode) : OpenFlags where
  read := mode.base = .read || mode.updating
  write := mode.base ≠ .read || mode.updating
  append := mode.base = .append
  truncate := mode.base = .write
  create := mode.base ≠ .read
  exclusive := mode.base = .exclusive

end Mode

/-! ## What the parser accepts -/

/-- The checks of `parse_mode` on the letters of a mode string. -/
structure Accepted (letters : List Char) : Prop where
  nodup : letters.Nodup
  known : ∀ letter ∈ letters, letter ∈ modeLetters
  single : (letters.filter (· ∈ baseLetters)).length = 1
  apart : ¬('t' ∈ letters ∧ 'b' ∈ letters)

variable {letters others : List Char} {repr : String → String} {mode : String} {info : ModeInfo}

theorem Accepted.perm (haccepted : Accepted letters) (hperm : letters.Perm others) :
    Accepted others where
  nodup := hperm.nodup_iff.mp haccepted.nodup
  known letter hletter := haccepted.known letter (hperm.mem_iff.mpr hletter)
  single := by rw [← haccepted.single, (hperm.filter _).length_eq]
  apart hboth := haccepted.apart ⟨hperm.mem_iff.mpr hboth.1, hperm.mem_iff.mpr hboth.2⟩

theorem infoOf_perm (hperm : letters.Perm others) : infoOf letters = infoOf others := by
  simp only [infoOf, hperm.mem_iff]

theorem parseMode_ok_iff :
    parseMode repr mode = .ok info ↔ Accepted mode.toList ∧ info = infoOf mode.toList := by
  have hlength : mode.toList.length = mode.toList.dedup.length ↔ mode.toList.Nodup := by
    rw [eq_comm]
    exact ⟨fun hsame => by
      rw [← (List.dedup_sublist _).eq_of_length hsame]
      exact List.nodup_dedup _, fun hnodup => by rw [hnodup.dedup]⟩
  constructor
  · intro hparse
    simp only [parseMode] at hparse
    split at hparse
    · cases hparse
    · next hletters =>
        obtain ⟨hknown, hsame⟩ := not_or.mp hletters
        have hnodup := hlength.mp (not_not.mp hsame)
        rw [hnodup.dedup] at hparse hknown
        split at hparse
        · cases hparse
        · next hsingle =>
            split at hparse
            · cases hparse
            · next hapart =>
                exact ⟨⟨hnodup, not_not.mp hknown, not_not.mp hsingle, hapart⟩,
                  (Except.ok.inj hparse).symm⟩
  · rintro ⟨⟨hnodup, hknown, hsingle, hapart⟩, rfl⟩
    simp only [parseMode, hnodup.dedup]
    rw [if_neg (not_or.mpr ⟨not_not.mpr hknown, not_not.mpr rfl⟩),
      if_neg (not_not.mpr hsingle), if_neg hapart]

theorem Mode.mem_letters (mode : Mode) (letter : Char) : letter ∈ mode.letters ↔
    letter = mode.base.letter ∨ letter = '+' ∧ mode.updating = true ∨
      letter = 't' ∧ mode.kind = .text ∨ letter = 'b' ∧ mode.kind = .binary := by
  obtain ⟨base, updating, kind⟩ := mode
  cases updating <;> cases kind <;> simp [Mode.letters, Kind.letters]

theorem Base.letter_mem (base : Base) : base.letter ∈ baseLetters := by
  cases base <;> decide

theorem notMem_baseLetters {letter : Char} (hletter : letter ∈ ['b', '+', 't']) :
    letter ∉ baseLetters := by
  simp only [List.mem_cons, List.not_mem_nil, or_false] at hletter
  rcases hletter with rfl | rfl | rfl <;> decide

/-- Every mode is accepted. -/
theorem Mode.accepted (mode : Mode) : Accepted mode.letters where
  nodup := by
    obtain ⟨base, updating, kind⟩ := mode
    cases base <;> cases updating <;> cases kind <;> decide
  known letter hletter := by
    rcases (mode.mem_letters letter).mp hletter with rfl | ⟨rfl, -⟩ | ⟨rfl, -⟩ | ⟨rfl, -⟩
    · exact List.mem_append_left ['b', '+', 't'] mode.base.letter_mem
    · decide
    · decide
    · decide
  single := by
    obtain ⟨base, updating, kind⟩ := mode
    cases base <;> cases updating <;> cases kind <;> decide
  apart := by
    obtain ⟨base, updating, kind⟩ := mode
    cases base <;> cases updating <;> cases kind <;> decide

/-- The one base letter. -/
theorem Accepted.base (haccepted : Accepted letters) :
    ∃ base : Base, ∀ letter ∈ baseLetters, letter ∈ letters ↔ letter = base.letter := by
  obtain ⟨only, honly⟩ := List.length_eq_one_iff.mp haccepted.single
  have hmem : ∀ letter ∈ baseLetters, letter ∈ letters ↔ letter = only := by
    intro letter hbase
    rw [← List.mem_singleton, ← honly, List.mem_filter]
    exact (and_iff_left (decide_eq_true hbase)).symm
  have hbase : only ∈ baseLetters := by
    have hfilter : only ∈ letters.filter (· ∈ baseLetters) := by
      rw [honly]
      exact List.mem_singleton_self only
    simpa using (List.mem_filter.mp hfilter).2
  simp only [baseLetters, List.mem_cons, List.not_mem_nil, or_false] at hbase
  rcases hbase with rfl | rfl | rfl | rfl
  · exact ⟨.read, hmem⟩
  · exact ⟨.write, hmem⟩
  · exact ⟨.exclusive, hmem⟩
  · exact ⟨.append, hmem⟩

theorem Accepted.kind (haccepted : Accepted letters) :
    ∃ kind : Kind, ('t' ∈ letters ↔ kind = .text) ∧ ('b' ∈ letters ↔ kind = .binary) := by
  by_cases htext : 't' ∈ letters
  · exact ⟨.text, iff_of_true htext rfl,
      iff_of_false (fun hbinary => haccepted.apart ⟨htext, hbinary⟩) Kind.noConfusion⟩
  · by_cases hbinary : 'b' ∈ letters
    · exact ⟨.binary, iff_of_false htext Kind.noConfusion, iff_of_true hbinary rfl⟩
    · exact ⟨.plain, iff_of_false htext Kind.noConfusion, iff_of_false hbinary Kind.noConfusion⟩

/-- What is accepted spells a mode. -/
theorem Accepted.spells (haccepted : Accepted letters) :
    ∃ mode : Mode, letters.Perm mode.letters := by
  obtain ⟨base, hbase⟩ := haccepted.base
  obtain ⟨kind, htext, hbinary⟩ := haccepted.kind
  refine ⟨⟨base, decide ('+' ∈ letters), kind⟩, ?_⟩
  have hsame : ∀ letter ∈ modeLetters, letter ∈ letters ↔
      letter ∈ (Mode.mk base (decide ('+' ∈ letters)) kind).letters := by
    intro letter hletter
    rw [Mode.mem_letters]
    rcases List.mem_append.mp (show letter ∈ baseLetters ++ ['b', '+', 't'] from hletter) with
      hbaseLetter | hother
    · have hnot : ∀ other ∈ ['b', '+', 't'], letter ≠ other := by
        rintro other hother rfl
        exact notMem_baseLetters hother hbaseLetter
      simp only [hbase letter hbaseLetter, hnot '+' (by decide), hnot 't' (by decide),
        hnot 'b' (by decide), false_and, or_false]
    · have hnot : letter ≠ base.letter := by
        rintro rfl
        exact notMem_baseLetters hother base.letter_mem
      simp only [hnot, false_or]
      simp only [List.mem_cons, List.not_mem_nil, or_false] at hother
      rcases hother with rfl | rfl | rfl
      · simp [hbinary]
      · simp
      · simp [htext]
  rw [List.perm_ext_iff_of_nodup haccepted.nodup (Mode.accepted _).nodup]
  intro letter
  exact ⟨fun hmem => (hsame letter (haccepted.known letter hmem)).mp hmem,
    fun hmem => (hsame letter ((Mode.accepted _).known letter hmem)).mpr hmem⟩

/-- A mode string is accepted when it spells a mode, in any order. -/
theorem parseMode_spells : parseMode repr mode = .ok info ↔
    ∃ spelt : Mode, mode.toList.Perm spelt.letters ∧ info = infoOf spelt.letters := by
  rw [parseMode_ok_iff]
  constructor
  · rintro ⟨haccepted, rfl⟩
    obtain ⟨spelt, hperm⟩ := haccepted.spells
    exact ⟨spelt, hperm, infoOf_perm hperm⟩
  · rintro ⟨spelt, hperm, rfl⟩
    exact ⟨spelt.accepted.perm hperm.symm, (infoOf_perm hperm).symm⟩

/-! ## What is opened -/

/-- The arguments that go with a mode: a named file, and a buffering or a
newline for text only. -/
structure Fits (kind : Kind) (args : OpenArgs) : Prop where
  binary : kind = .binary → args.encoding = none ∧ args.errors = none ∧ args.newline = none
  text : kind ≠ .binary → args.buffering ≠ 0 ∧ newlineOf args.newline ≠ none
  closefd : args.closefd = true
  opener : args.opener = false
  descriptor : args.descriptor = false

theorem infoOf_binary (spelt : Mode) :
    (infoOf spelt.letters).binary = true ↔ spelt.kind = .binary := by
  obtain ⟨base, updating, kind⟩ := spelt
  cases base <;> cases updating <;> cases kind <;> decide

theorem checkKind_ok_iff {args : OpenArgs} : checkKind repr info args = .ok () ↔
    (info.binary = true → args.encoding = none ∧ args.errors = none ∧ args.newline = none) ∧
      (info.binary = false → args.buffering ≠ 0 ∧ newlineOf args.newline ≠ none) := by
  unfold checkKind
  cases info.binary with
  | true =>
      cases args.encoding <;> cases args.errors <;> cases args.newline <;> simp
  | false =>
      cases newlineOf args.newline <;> by_cases hbuffering : args.buffering = 0 <;>
        simp [hbuffering]

theorem checkFile_ok_iff {args : OpenArgs} : checkFile args = .ok () ↔
    args.opener = false ∧ args.closefd = true ∧ args.descriptor = false := by
  unfold checkFile
  cases args.opener <;> cases args.closefd <;> cases args.descriptor <;> simp

theorem openFile_ok_iff {args : OpenArgs} {op : Op} : openFile repr args = .ok (info, op) ↔
    parseMode repr args.mode = .ok info ∧ checkKind repr info args = .ok () ∧
      checkFile args = .ok () ∧ op = .openFile args.path (openSpec info) := by
  unfold openFile
  generalize parseMode repr args.mode = parsed
  generalize checkFile args = checked
  cases parsed with
  | error refusal => simp [bind, Except.bind]
  | ok parsed =>
      simp only [bind, Except.bind]
      generalize hkind : checkKind repr parsed args = fitting
      constructor
      · intro hopen
        cases fitting with
        | error refusal => cases hopen
        | ok _ =>
            cases checked with
            | error refusal => cases hopen
            | ok _ =>
                obtain ⟨rfl, rfl⟩ := Prod.mk.inj (Except.ok.inj hopen)
                exact ⟨rfl, hkind, rfl, rfl⟩
      · rintro ⟨hinfo, hfits, rfl, rfl⟩
        obtain rfl := Except.ok.inj hinfo
        rw [← hkind, hfits]
        rfl

/-- Both backends make of a mode what `open` documents for it. -/
theorem Mode.opens (spelt : Mode) {flagsOf : OpenOptions → Option OpenFlags}
    (hdocumented : Documented flagsOf) :
    Darwin.openFlags (openSpec (infoOf spelt.letters)) = some spelt.flags ∧
      flagsOf (openOptions (openSpec (infoOf spelt.letters))) = some spelt.flags := by
  rw [hdocumented]
  · obtain ⟨base, updating, kind⟩ := spelt
    cases base <;> cases updating <;> cases kind <;> decide
  · obtain ⟨base, updating, kind⟩ := spelt
    cases base <;> cases updating <;> cases kind <;> decide
  · obtain ⟨base, updating, kind⟩ := spelt
    cases base <;> cases updating <;> cases kind <;> decide

/-- The file object lets through the calls its descriptor has the access for. -/
theorem Mode.access (spelt : Mode) : (infoOf spelt.letters).read = spelt.flags.read ∧
    (infoOf spelt.letters).writable = spelt.flags.write := by
  obtain ⟨base, updating, kind⟩ := spelt
  cases base <;> cases updating <;> cases kind <;> decide

/-- An open is submitted exactly for a string that spells a mode, in any order
of its letters, with arguments that fit.  Both backends then open the path with
the flags that `open` documents for the mode, and the file object lets through
what the descriptor has the access for. -/
theorem open_modes {flagsOf : OpenOptions → Option OpenFlags} (hdocumented : Documented flagsOf)
    (repr : String → String) (args : OpenArgs) (info : ModeInfo) (op : Op) :
    openFile repr args = .ok (info, op) ↔ ∃ (spelt : Mode) (spec : OpenSpec),
      args.mode.toList.Perm spelt.letters ∧ Fits spelt.kind args ∧
        info = infoOf spelt.letters ∧ spec = openSpec info ∧ op = .openFile args.path spec ∧
        Darwin.openFlags spec = some spelt.flags ∧ flagsOf (openOptions spec) = some spelt.flags ∧
        info.read = spelt.flags.read ∧ info.writable = spelt.flags.write := by
  have hfits : ∀ spelt : Mode, checkKind repr (infoOf spelt.letters) args = .ok () ∧
      checkFile args = .ok () ↔ Fits spelt.kind args := by
    intro spelt
    rw [checkKind_ok_iff, checkFile_ok_iff, ← Bool.not_eq_true, infoOf_binary]
    exact ⟨fun ⟨⟨hbinary, htext⟩, hopener, hclosefd, hdescriptor⟩ =>
        ⟨hbinary, htext, hclosefd, hopener, hdescriptor⟩,
      fun hfits => ⟨⟨hfits.binary, hfits.text⟩, hfits.opener, hfits.closefd, hfits.descriptor⟩⟩
  rw [openFile_ok_iff]
  constructor
  · rintro ⟨hparse, hkind, hfile, rfl⟩
    obtain ⟨spelt, hperm, rfl⟩ := parseMode_spells.mp hparse
    exact ⟨spelt, _, hperm, (hfits spelt).mp ⟨hkind, hfile⟩, rfl, rfl, rfl,
      (spelt.opens hdocumented).1, (spelt.opens hdocumented).2, spelt.access⟩
  · rintro ⟨spelt, spec, hperm, hargs, rfl, rfl, rfl, -⟩
    obtain ⟨hkind, hfile⟩ := (hfits spelt).mpr hargs
    exact ⟨parseMode_spells.mpr ⟨spelt, hperm, rfl⟩, hkind, hfile, rfl⟩

/-- The flags of the standard library's builder on Unix. -/
def stdFlags (opts : OpenOptions) : Option OpenFlags :=
  if opts.read = false ∧ opts.write = false then none
  else if opts.write = false ∧ (opts.truncate || opts.create || opts.createNew) = true then none
  else
    some {
      read := opts.read
      write := opts.write
      append := opts.appendFlag
      truncate := opts.truncate && !opts.createNew
      create := opts.create || opts.createNew
      exclusive := opts.createNew }

theorem stdFlags_documented : Documented stdFlags := by
  intro opts haccess hwrite
  unfold stdFlags
  rw [if_neg, if_neg]
  · rintro ⟨hnone, hchanges⟩
    rw [hwrite hchanges] at hnone
    cases hnone
  · rintro ⟨hread, hnone⟩
    rw [hread, hnone] at haccess
    cases haccess

/-- `open("a", "b+r")`. -/
theorem open_modes_update : ∃ (info : ModeInfo) (spelt : Mode) (spec : OpenSpec),
    openFile id ⟨[97], false, "b+r", -1, none, none, none, true, false⟩ =
      .ok (info, .openFile [97] spec) ∧
    spelt = ⟨.read, true, .binary⟩ ∧ Darwin.openFlags spec = some spelt.flags ∧
    stdFlags (openOptions spec) = some spelt.flags := by
  let spelt : Mode := ⟨.read, true, .binary⟩
  have hopens := spelt.opens stdFlags_documented
  refine ⟨infoOf spelt.letters, spelt, openSpec (infoOf spelt.letters), ?_, rfl, hopens⟩
  refine (open_modes stdFlags_documented id _ _ _).mpr ⟨spelt, _, ?_, ?_, rfl, rfl, rfl, hopens.1,
    hopens.2, spelt.access⟩
  · decide
  · exact ⟨fun _ => ⟨rfl, rfl, rfl⟩, fun hother => absurd rfl hother, rfl, rfl, rfl⟩

end Turbofile.OpenModes
