import Turbofile.Binary.Concurrency
import Turbofile.Library.Rights

/-!
# Inline calls and the descriptor

`close` drops the `FastPath` before it asks the driver to close the descriptor.
Every method looks whether there is a `FastPath` just before it calls it, except
that a read-all of a large file keeps the one it has found across its awaits.
-/

namespace Turbofile.Binary

open Relation
open Turbofile.Core
open Turbofile.Coroutine

/-- What a coroutine does with the file. -/
inductive FileOp
  | perform (op : BinOp)
  | readAt (pos size : ℕ)
  | readintoAt (pos size : ℕ)
  | close
  deriving DecidableEq

def FileOp.run : FileOp → BinaryProg (Option Value)
  | .perform op => do pure (some (← BinaryFile.perform op))
  | .readAt pos size => do pure (some (.bytes (← BinaryFile.fetch pos size)))
  | .readintoAt pos size => do
      let data ← BinaryFile.fetchInto pos size
      pure (some (.int data.length))
  | .close => do
      BinaryFile.close
      pure none

/-- The extension module as far as the descriptor goes; the world is whether the
driver has closed it.  After that, what is asked of the driver is refused. -/
def closing : Env bridge PyError Bool
  | .close _, _, _, next => next = true
  | c, closed, answer, next => next = closed ∧
      (c.awaited = true → closed = true → ∃ error, answer = .error error)

abbrev SharedFile := Pool bridge BinaryFile PyError Bool (Option Value) FileOp

abbrev SharedFile.Step : SharedFile → SharedFile → Prop :=
  Pool.Step FileOp.run BridgeCall.awaited closing

/-- If the step closes the descriptor, no coroutine is about to make an inline
call that it has not just looked at the file object for (see `calm_iff`). -/
abbrev SharedFile.Calm (pool next : SharedFile) : Prop :=
  Pool.Calm BridgeCall.awaited (· = true) pool next

/-! ## What every method does -/

def HasFast (file : BinaryFile) : Prop := file.fast = true

def BridgeCall.closes : BridgeCall → Bool
  | .close _ => true
  | _ => false

abbrev BridgeCall.Closes (c : BridgeCall) : Prop := c.closes = true

theorem revoking_closing :
    Revoking closing BridgeCall.awaited BridgeCall.Closes (· = true) where
  inline {c closed answer next} hc hanswer hnext := by
    cases c with
    | close handle => cases hc
    | _ => exact hanswer.1 ▸ hnext
  others {c closed answer next} hc hanswer hnext := by
    cases c with
    | close handle => exact absurd rfl hc
    | _ => exact hanswer.1 ▸ hnext
  refuses {c closed answer next} hawaited hc hanswer hclosed := by
    cases c with
    | close handle => exact absurd rfl hc
    | _ => exact hanswer.2 hawaited hclosed

section Methods

variable {α β : Type}

/-- What `readToEofParallel` does once its fill is answered. -/
def afterFill (handle : Handle) (fd : Fd) (fast : Bool) (start sizeNow : ℕ) (first : Bytes) :
    BinaryProg Bytes :=
  if first.length < sizeNow - start then .done first
  else (inlineSize fd fast).bind fun confirmed =>
    if confirmed = some sizeNow then .done first
    else .repeatUntil (readTail handle) ([first], start + first.length)

/-- The one inline call that is made after an await without a look at the file
object: the fill is answered in full, and the `FastPath` found before it is asked
for the size. -/
def sizeCheck : Late bridge BinaryFile PyError where
  Is prog := ∃ handle fd start sizeNow first f, sizeNow - start ≤ first.length ∧
    prog = (afterFill handle fd true start sizeNow first).bind f
  bind f := by
    rintro ⟨handle, fd, start, sizeNow, first, g, hfull, rfl⟩
    exact ⟨handle, fd, start, sizeNow, first, _, hfull, Prog.bind_assoc _ _ _⟩
  calls := by
    rintro α prog ⟨handle, fd, start, sizeNow, first, f, hfull, rfl⟩
    rw [afterFill, if_neg (by omega)]
    exact ⟨.fastSize fd, _, rfl⟩

/-- The program looks at the file object before each inline call but that one. -/
abbrev Looks (prog : BinaryProg α) : Prop :=
  prog.EntitledAlways HasFast BridgeCall.awaited BridgeCall.Closes sizeCheck

abbrev Idle (prog : BinaryProg α) : Prop := ¬Poised BridgeCall.awaited prog

theorem looks_done (value : α) : Looks (.done value) := fun _ => trivial

theorem looks_raise (error : PyError) : Looks (.raise error : BinaryProg α) := fun _ => trivial

/-- What is awaited may close the descriptor if the `FastPath` is gone. -/
theorem entitled_ask {c : BridgeCall} {file : BinaryFile} (hc : c.awaited = true)
    (hcloses : c.Closes → ¬HasFast file) :
    (ask c).Entitled HasFast BridgeCall.awaited BridgeCall.Closes sizeCheck file := by
  rw [ask, Prog.await, Prog.Entitled, if_pos hc]
  refine ⟨fun hcloses' => ⟨hcloses hcloses', ?_⟩, fun error => Poised.not_raise error, ?_, ?_⟩
  · rintro (error | value)
    · exact Poised.not_raise error
    · exact Poised.not_done value
  · rintro (error | value) hpoised
    · exact absurd hpoised (Poised.not_raise error)
    · exact absurd hpoised (Poised.not_done value)
  · rintro (error | value) next
    · trivial
    · trivial

theorem looks_ask {c : BridgeCall} (hc : c.awaited = true) (hcloses : c.closes = false) :
    Looks (ask c) :=
  fun _ => entitled_ask hc fun hcloses' =>
    absurd (hcloses.symm.trans hcloses') Bool.false_ne_true

theorem looks_inline {c : BridgeCall} (hc : c.awaited = false) : Looks (ask c) := by
  intro file
  rw [ask, Prog.await, Prog.Entitled, if_neg (by rw [hc]; exact Bool.false_ne_true)]
  rintro (error | value)
  · exact ⟨fun hpoised => absurd hpoised (Poised.not_raise _), trivial⟩
  · exact ⟨fun hpoised => absurd hpoised (Poised.not_done _), trivial⟩

theorem Looks.bind {prog : BinaryProg α} {f : α → BinaryProg β} (hprog : Looks prog)
    (hf : ∀ value, Looks (f value)) (hidle : ∀ value, Idle (f value)) : Looks (prog.bind f) :=
  fun file => (hprog file).bind hf hidle

theorem looks_state {f : BinaryFile → BinaryProg α} (hf : ∀ file, Looks (f file))
    (hown : ∀ file, Poised BridgeCall.awaited (f file) → HasFast file) :
    Looks (Prog.state.bind f) :=
  fun file => ⟨hown file, hf file file⟩

theorem looks_modify {f : BinaryFile → BinaryFile} (hf : ∀ file, HasFast (f file) → HasFast file) :
    Looks (Prog.modify f) :=
  fun file => ⟨fun hpoised => absurd hpoised (Poised.not_set _ _), hf file,
    fun hpoised => absurd hpoised (Poised.not_done _), trivial⟩

/-- Where what follows a look at the file object is no inline call. -/
theorem looks_state_idle {f : BinaryFile → BinaryProg α} (hf : ∀ file, Looks (f file))
    (hidle : ∀ file, Idle (f file)) : Looks (Prog.state.bind f) :=
  looks_state hf fun file hpoised => absurd hpoised (hidle file)

theorem looks_ite {p : Prop} [Decidable p] {prog prog' : BinaryProg α} (hprog : Looks prog)
    (hprog' : Looks prog') : Looks (if p then prog else prog') := by
  split
  · exact hprog
  · exact hprog'

theorem idle_ite {p : Prop} [Decidable p] {prog prog' : BinaryProg α} (hprog : Idle prog)
    (hprog' : Idle prog') : Idle (if p then prog else prog') := by
  split
  · exact hprog
  · exact hprog'

/-- The last change of a call, and its result. -/
theorem looks_then_done {f : BinaryFile → BinaryFile} {value : α}
    (hf : ∀ file, HasFast (f file) → HasFast file) :
    Looks ((Prog.modify f).bind fun _ => .done value) :=
  (looks_modify hf).bind (fun _ => looks_done value) fun _ => Poised.not_done value

theorem looks_checkOpen : Looks BinaryFile.checkOpen :=
  looks_state_idle (fun _ => looks_ite (looks_done ()) (looks_raise _))
    fun _ => idle_ite (Poised.not_done _) (Poised.not_raise _)

theorem looks_checkReadable : Looks BinaryFile.checkReadable :=
  looks_state_idle (fun _ => looks_ite (looks_done ()) (looks_raise _))
    fun _ => idle_ite (Poised.not_done _) (Poised.not_raise _)

theorem looks_checkWritable : Looks BinaryFile.checkWritable :=
  looks_state_idle (fun _ => looks_ite (looks_done ()) (looks_raise _))
    fun _ => idle_ite (Poised.not_done _) (Poised.not_raise _)

theorem looks_fastDeclined : Looks BinaryFile.fastDeclined := by
  refine looks_state (fun file => looks_ite ?_ (looks_done ())) fun file hpoised => ?_
  · refine (looks_inline rfl).bind (fun _ => looks_ite (looks_done ()) ?_)
      fun _ => idle_ite (Poised.not_done _) (Poised.not_get _)
    exact looks_modify fun _ hfast => by cases hfast
  · split at hpoised
    · next hfast => exact hfast
    · exact absurd hpoised (Poised.not_done _)

theorem looks_resident (probe : Probe) : Looks (BinaryFile.resident probe) := by
  have hdeclined : Looks (BinaryFile.fastDeclined.bind fun _ => .done (none : Option Bytes)) :=
    looks_fastDeclined.bind (fun _ => looks_done none) fun _ => Poised.not_done _
  refine looks_state (fun file => ?_) fun file hpoised => ?_
  · refine looks_ite ((looks_inline rfl).bind (fun data => ?_) fun data => ?_) hdeclined
    · cases data with
      | none => exact hdeclined
      | some data => exact looks_done _
    · cases data with
      | none => exact Poised.not_get _
      | some data => exact Poised.not_done _
  · split at hpoised
    · next hfast => exact hfast
    · exact absurd hpoised (Poised.not_get _)

/-- What a read does after the `FastPath`. -/
theorem looks_served {probe : Probe} (c : BridgeCall) (hc : c.awaited = true)
    (hcloses : c.closes = false) {k : Option Bytes → BinaryProg c.Answer} (hnone : k none = ask c)
    (hsome : ∀ data, ∃ value, k (some data) = .done value) :
    Looks ((BinaryFile.resident probe).bind k) := by
  refine (looks_resident probe).bind (fun data => ?_) fun data => ?_
  · cases data with
    | none =>
        rw [hnone]
        exact looks_ask hc hcloses
    | some data =>
        obtain ⟨value, hvalue⟩ := hsome data
        rw [hvalue]
        exact looks_done value
  · cases data with
    | none =>
        rw [hnone]
        exact fun hpoised => by simp [ask, Prog.await, hc] at hpoised
    | some data =>
        obtain ⟨value, hvalue⟩ := hsome data
        rw [hvalue]
        exact Poised.not_done value

theorem looks_fetch (pos size : ℕ) : Looks (BinaryFile.fetch pos size) :=
  looks_state_idle (fun file => looks_served (.read file.handle pos size) rfl rfl rfl
    fun data => ⟨data, rfl⟩) fun _ => Poised.not_get _

theorem looks_fetchInto (pos size : ℕ) : Looks (BinaryFile.fetchInto pos size) :=
  looks_state_idle (fun file => looks_served (.readinto file.handle pos size) rfl rfl rfl
    fun data => ⟨data, rfl⟩) fun _ => Poised.not_get _

theorem looks_fetchAll (start : ℕ) : Looks (BinaryFile.fetchAll start) :=
  looks_state_idle (fun file => looks_served (.readToEnd file.handle start) rfl rfl rfl
    fun data => ⟨data, rfl⟩) fun _ => Poised.not_get _

/-! ## Large reads -/

theorem looks_inlineSize (fd : Fd) (fast : Bool) : Looks (inlineSize fd fast) :=
  looks_ite (looks_inline rfl) (looks_done none)

theorem idle_ask {c : BridgeCall} (hc : c.awaited = true) : Idle (ask c) := fun hpoised => by
  rw [ask, Prog.await, Poised.call_iff, hc] at hpoised
  cases hpoised

theorem idle_ask_bind {c : BridgeCall} (hc : c.awaited = true) (f : c.Answer → BinaryProg β) :
    Idle ((ask c).bind f) := fun hpoised => by
  rw [ask, Prog.await, Prog.bind, Poised.call_iff, hc] at hpoised
  cases hpoised

theorem looks_sizeSnapshot (handle : Handle) (fd : Fd) (fast : Bool) :
    Looks (sizeSnapshot handle fd fast) := by
  refine (looks_inlineSize fd fast).bind (fun size => ?_) fun size => ?_
  · cases size with
    | none => exact looks_ask rfl rfl
    | some size => exact looks_done size
  · cases size with
    | none => exact idle_ask rfl
    | some size => exact Poised.not_done size

theorem looks_readTail (handle : Handle) (parts : List Bytes × ℕ) :
    Looks (.repeatUntil (readTail handle) parts) := by
  refine fun _ => ⟨fun value => ?_, fun _ => Poised.not_done _, fun value => ?_,
    fun _ _ => trivial⟩
  · exact Poised.not_bind (idle_ask rfl) fun tail =>
      idle_ite (Poised.not_done _) (Poised.not_done _)
  · exact (looks_ask rfl rfl).bind (fun tail => looks_ite (looks_done _) (looks_done _))
      fun tail => idle_ite (Poised.not_done _) (Poised.not_done _)

theorem idle_readTail (handle : Handle) (parts : List Bytes × ℕ) :
    Idle (.repeatUntil (readTail handle) parts) := by
  refine Poised.not_loop (fun value => ?_) (fun _ => Poised.not_done _) parts
  exact Poised.not_bind (idle_ask rfl) fun tail => idle_ite (Poised.not_done _) (Poised.not_done _)

theorem looks_afterFill (handle : Handle) (fd : Fd) (fast : Bool) (start sizeNow : ℕ)
    (first : Bytes) : Looks (afterFill handle fd fast start sizeNow first) := by
  refine looks_ite (looks_done first) ((looks_inlineSize fd fast).bind (fun confirmed => ?_)
    fun confirmed => ?_)
  · exact looks_ite (looks_done first) (looks_readTail handle _)
  · exact idle_ite (Poised.not_done first) (idle_readTail handle _)

/-- If an inline call comes next, there is a `FastPath` and the fill is full. -/
theorem sizeCheck_afterFill {handle : Handle} {fd : Fd} {fast : Bool} {start sizeNow : ℕ}
    {first : Bytes} (hpoised : Poised BridgeCall.awaited
      (afterFill handle fd fast start sizeNow first)) :
    sizeCheck.Is (afterFill handle fd fast start sizeNow first) := by
  by_cases hfull : first.length < sizeNow - start
  · rw [afterFill, if_pos hfull] at hpoised
    exact absurd hpoised (Poised.not_done _)
  · cases fast with
    | true => exact ⟨handle, fd, start, sizeNow, first, .done, by omega, (Prog.bind_done _).symm⟩
    | false =>
        rw [afterFill, if_neg hfull] at hpoised
        exact absurd hpoised (idle_readTail handle _)

/-- An awaited call, whatever is done with its answer; nothing is asked of an
error. -/
theorem looks_ask_bind {c : BridgeCall} (hc : c.awaited = true) (hcloses : c.closes = false)
    {f : c.Answer → BinaryProg β} (hf : ∀ value, Looks (f value))
    (hlate : ∀ value, Poised BridgeCall.awaited (f value) → sizeCheck.Is (f value)) :
    Looks ((ask c).bind f) := by
  intro file
  rw [ask, Prog.await, Prog.bind, Prog.Entitled, if_pos hc]
  refine ⟨fun hcloses' => absurd (hcloses.symm.trans hcloses') Bool.false_ne_true,
    fun _ => Poised.not_raise _, ?_, ?_⟩
  · rintro (error | value) hpoised
    · exact absurd hpoised (Poised.not_raise _)
    · exact hlate value hpoised
  · rintro (error | value) next
    · trivial
    · exact hf value next

theorem looks_ask_idle {c : BridgeCall} (hc : c.awaited = true) (hcloses : c.closes = false)
    {f : c.Answer → BinaryProg β} (hf : ∀ value, Looks (f value))
    (hidle : ∀ value, Idle (f value)) : Looks ((ask c).bind f) :=
  looks_ask_bind hc hcloses hf fun value hpoised => absurd hpoised (hidle value)

theorem looks_readToEofParallel (handle : Handle) (fd : Fd) (fast : Bool) (start : ℕ) :
    Looks (readToEofParallel handle fd fast start) := by
  refine (looks_sizeSnapshot handle fd fast).bind (fun sizeNow => ?_) fun sizeNow => ?_
  · exact looks_ask_bind rfl rfl (looks_afterFill handle fd fast start sizeNow)
      fun first => sizeCheck_afterFill
  · exact idle_ask_bind rfl _

theorem hasFast_of_poised_readToEofParallel {handle : Handle} {fd : Fd} {fast : Bool} {start : ℕ}
    (hpoised : Poised BridgeCall.awaited (readToEofParallel handle fd fast start)) :
    fast = true := by
  cases fast with
  | true => rfl
  | false =>
      exact absurd hpoised (Poised.not_bind (idle_ask rfl) fun sizeNow => idle_ask_bind rfl _)

theorem looks_readAllLarge (start : ℕ) : Looks (BinaryFile.readAllLarge start) := by
  refine looks_state (fun file => ?_) fun file hpoised => ?_
  · refine (looks_readToEofParallel file.handle file.fd file.fast start).bind (fun rest => ?_)
      fun _ => Poised.not_get _
    refine looks_state_idle (fun file => ?_) fun _ => Poised.not_get _
    exact looks_then_done fun _ hfast => hfast
  · rcases hpoised.of_bind with hpoised | ⟨rest, hpoised⟩
    · exact hasFast_of_poised_readToEofParallel hpoised
    · exact absurd hpoised (Poised.not_get _)

/-! ## The methods -/

theorem looks_takePending (n : ℕ) : Looks (BinaryFile.takePending n) :=
  looks_state_idle (fun _ => looks_then_done fun _ hfast => hfast) fun _ => Poised.not_get _

theorem looks_readRest : Looks BinaryFile.readRest := by
  refine looks_state_idle (fun file => looks_ite (looks_readAllLarge _) ?_)
    fun file => idle_ite (Poised.not_get _) (Poised.not_get _)
  refine (looks_fetchAll _).bind (fun rest => ?_) fun _ => Poised.not_get _
  refine looks_state_idle (fun file => ?_) fun _ => Poised.not_get _
  exact looks_then_done fun _ hfast => hfast

/-- A kernel read, the position moved on, and what was read. -/
theorem looks_fetch_done {pos size : ℕ} {f : Bytes → BinaryFile → BinaryFile}
    {value : Bytes → α} (hf : ∀ data file, HasFast (f data file) → HasFast file) :
    Looks ((BinaryFile.fetch pos size).bind fun data =>
      (Prog.modify (f data)).bind fun _ => .done (value data)) :=
  (looks_fetch pos size).bind (fun data => looks_then_done (hf data)) fun _ => Poised.not_get _

theorem looks_fetchInto_done {pos size : ℕ} {f : Bytes → BinaryFile → BinaryFile}
    {value : Bytes → α} (hf : ∀ data file, HasFast (f data file) → HasFast file) :
    Looks ((BinaryFile.fetchInto pos size).bind fun data =>
      (Prog.modify (f data)).bind fun _ => .done (value data)) :=
  (looks_fetchInto pos size).bind (fun data => looks_then_done (hf data)) fun _ => Poised.not_get _

theorem looks_readSized (size : ℕ) : Looks (BinaryFile.readSized size) := by
  refine looks_state_idle (fun file => looks_ite (looks_takePending size) ?_)
    fun file => idle_ite (Poised.not_get _) (Poised.not_get _)
  refine Looks.bind (looks_modify fun _ hfast => hfast) (fun _ => ?_) fun _ => Poised.not_get _
  exact looks_fetch_done fun _ _ hfast => hfast

/-- What a method for reading does after its checks. -/
theorem looks_readable {f : BinaryProg α} (hf : Looks f) (hidle : Idle f) :
    Looks (BinaryFile.checkOpen.bind fun _ => BinaryFile.checkReadable.bind fun _ => f) :=
  looks_checkOpen.bind (fun _ => looks_checkReadable.bind (fun _ => hf) fun _ => hidle)
    fun _ => Poised.not_get _

theorem looks_writable {f : BinaryProg α} (hf : Looks f) (hidle : Idle f) :
    Looks (BinaryFile.checkOpen.bind fun _ => BinaryFile.checkWritable.bind fun _ => f) :=
  looks_checkOpen.bind (fun _ => looks_checkWritable.bind (fun _ => hf) fun _ => hidle)
    fun _ => Poised.not_get _

theorem looks_read (size : Option ℤ) : Looks (BinaryFile.read size) := by
  apply looks_readable
  · cases asked size with
    | none => exact looks_readRest
    | some size => exact looks_readSized size
  · cases asked size with
    | none => exact Poised.not_get _
    | some size => exact Poised.not_get _

theorem looks_read1 (size : ℤ) : Looks (BinaryFile.read1 size) := by
  apply looks_readable
  · refine looks_state_idle (fun file => looks_ite ?_ (looks_takePending _))
      fun file => idle_ite (Poised.not_get _) (Poised.not_get _)
    exact looks_fetch_done fun _ _ hfast => hfast
  · exact Poised.not_get _

theorem looks_peek (size : ℤ) : Looks (BinaryFile.peek size) := by
  apply looks_readable
  · refine looks_state_idle (fun file => looks_ite ?_ (looks_done _))
      fun file => idle_ite (Poised.not_get _) (Poised.not_done _)
    exact looks_fetch_done fun _ _ hfast => hfast
  · exact Poised.not_get _

theorem looks_fetchLine (limit : Option ℕ) (value : List Bytes × ℕ) :
    Looks (BinaryFile.fetchLine limit value) := by
  refine looks_state_idle (fun file => ?_) fun _ => Poised.not_get _
  refine (looks_fetch _ _).bind (fun chunk => ?_) fun chunk => ?_
  · exact looks_ite (looks_done _) (looks_ite (looks_done _)
      (looks_ite (looks_done _) (looks_done _)))
  · exact idle_ite (Poised.not_done _) (idle_ite (Poised.not_done _)
      (idle_ite (Poised.not_done _) (Poised.not_done _)))

/-- A loop whose rounds look at the file object first. -/
theorem looks_repeatUntil {body : α → BinaryProg (α ⊕ β)} (hbody : ∀ value, Looks (body value))
    (hidle : ∀ value, Idle (body value)) (start : α) : Looks (.repeatUntil body start) :=
  fun _ => ⟨hidle, fun _ => Poised.not_done _, hbody, fun _ _ => trivial⟩

theorem idle_repeatUntil {body : α → BinaryProg (α ⊕ β)} (hidle : ∀ value, Idle (body value))
    (start : α) : Idle (.repeatUntil body start) :=
  Poised.not_loop hidle (fun _ => Poised.not_done _) start

theorem looks_fillLine (limit : Option ℕ) : Looks (BinaryFile.fillLine limit) := by
  refine looks_state_idle (fun file => looks_ite ?_ (looks_done _)) fun file => ?_
  · refine (looks_repeatUntil (looks_fetchLine limit) (fun _ => Poised.not_get _) _).bind
      (fun parts => ?_) fun _ => Poised.not_get _
    exact looks_modify fun _ hfast => hfast
  · refine idle_ite ?_ (Poised.not_done _)
    exact Poised.not_bind (idle_repeatUntil (fun _ => Poised.not_get _) _) fun _ => Poised.not_get _

theorem looks_readline (size : Option ℤ) : Looks (BinaryFile.readline size) := by
  apply looks_readable
  · refine (looks_fillLine _).bind (fun _ => ?_) fun _ => Poised.not_get _
    refine looks_state_idle (fun file => ?_) fun _ => Poised.not_get _
    exact looks_then_done fun _ hfast => hfast
  · exact Poised.not_get _

theorem looks_nextLine (hint : Option ℤ) (value : List Bytes × ℕ) :
    Looks (BinaryFile.nextLine hint value) := by
  refine (looks_readline _).bind (fun line => ?_) fun line => ?_
  · exact looks_ite (looks_done _) (looks_ite (looks_done _) (looks_done _))
  · exact idle_ite (Poised.not_done _) (idle_ite (Poised.not_done _) (Poised.not_done _))

theorem looks_readlines (hint : Option ℤ) : Looks (BinaryFile.readlines hint) :=
  looks_repeatUntil (looks_nextLine hint) (fun _ => Poised.not_get _) _

theorem idle_readlines (hint : Option ℤ) : Idle (BinaryFile.readlines hint) :=
  idle_repeatUntil (fun _ => Poised.not_get _) _

theorem looks_readinto (buffer : Bytes) : Looks (BinaryFile.readinto buffer) := by
  apply looks_readable
  · refine looks_state_idle (fun file => looks_ite ?_ ?_)
      fun file => idle_ite (Poised.not_get _) (Poised.not_get _)
    · exact looks_fetchInto_done fun _ _ hfast => hfast
    · refine Looks.bind (looks_modify fun _ hfast => hfast) (fun _ => ?_) fun _ => ?_
      · refine looks_ite (looks_done _) (looks_state_idle (fun file => ?_)
          fun _ => Poised.not_get _)
        exact looks_fetchInto_done fun _ _ hfast => hfast
      · exact idle_ite (Poised.not_done _) (Poised.not_get _)
  · exact Poised.not_get _

theorem looks_write (data : Bytes) : Looks (BinaryFile.write data) := by
  apply looks_writable
  · refine Looks.bind (looks_modify fun _ hfast => hfast) (fun _ => ?_) fun _ => Poised.not_get _
    refine looks_state_idle (fun file => ?_) fun _ => idle_ask_bind rfl _
    refine looks_ask_idle rfl rfl (fun answer => ?_) fun _ => Poised.not_get _
    exact looks_then_done fun _ hfast => hfast
  · exact Poised.not_get _

theorem looks_seekFrom (pos whence : ℤ) : Looks (BinaryFile.seekFrom pos whence) := by
  refine looks_state_idle (fun file => ?_) fun file => ?_
  · refine looks_ite (looks_done _) (looks_ite (looks_done _) (looks_ite ?_ (looks_raise _)))
    exact looks_ask_idle rfl rfl (fun sizeNow => looks_then_done fun _ hfast => hfast)
      fun _ => Poised.not_get _
  · exact idle_ite (Poised.not_done _) (idle_ite (Poised.not_done _)
      (idle_ite (idle_ask_bind rfl _) (Poised.not_raise _)))

theorem looks_seek (pos whence : ℤ) : Looks (BinaryFile.seek pos whence) := by
  refine looks_checkOpen.bind (fun _ => ?_) fun _ => Poised.not_get _
  refine (looks_seekFrom pos whence).bind (fun target => ?_) fun target => ?_
  · exact looks_ite (looks_raise _) (looks_then_done fun _ hfast => hfast)
  · exact idle_ite (Poised.not_raise _) (Poised.not_get _)

theorem looks_tell : Looks BinaryFile.tell := by
  refine looks_checkOpen.bind (fun _ => ?_) fun _ => Poised.not_get _
  exact looks_state_idle (fun _ => looks_done _) fun _ => Poised.not_done _

theorem looks_truncate (size : Option ℤ) : Looks (BinaryFile.truncate size) := by
  apply looks_writable
  · refine looks_state_idle (fun file => ?_) fun _ => Poised.not_get _
    refine Looks.bind (looks_modify fun _ hfast => hfast) (fun _ => ?_) fun _ => idle_ask_bind rfl _
    exact looks_ask_idle rfl rfl (fun _ => looks_then_done fun _ hfast => hfast)
      fun _ => Poised.not_get _
  · exact Poised.not_get _

/-- The `FastPath` is gone before the driver is asked to close. -/
theorem looks_close : Looks BinaryFile.close := by
  refine looks_state_idle (fun file => looks_ite ?_ (looks_done ()))
    fun file => idle_ite (Poised.not_get _) (Poised.not_done _)
  intro file'
  refine ⟨fun hpoised => absurd hpoised (Poised.not_set _ _), fun hfast => (by cases hfast),
    fun hpoised => absurd hpoised (idle_ask rfl), ?_⟩
  exact entitled_ask rfl fun _ hfast => (by cases hfast)

/-- A method and what is made of its result. -/
theorem looks_result {prog : BinaryProg α} {f : α → β} (hprog : Looks prog) :
    Looks (prog.bind fun value => .done (f value)) :=
  hprog.bind (fun _ => looks_done _) fun _ => Poised.not_done _

theorem looks_perform (op : BinOp) : Looks (BinaryFile.perform op) := by
  cases op with
  | read size => exact looks_result (looks_read size)
  | read1 size => exact looks_result (looks_read1 size)
  | readall => exact looks_result (looks_read _)
  | peek size => exact looks_result (looks_peek size)
  | readline size => exact looks_result (looks_readline size)
  | readlines hint => exact looks_result (looks_readlines hint)
  | readinto buffer => exact looks_result (looks_readinto buffer)
  | write data => exact looks_result (looks_write data)
  | seek pos whence => exact looks_result (looks_seek pos whence)
  | tell => exact looks_result looks_tell
  | truncate size => exact looks_result (looks_truncate size)

theorem idle_perform (op : BinOp) : Idle (BinaryFile.perform op) := by
  cases op with
  | readlines hint => exact Poised.not_bind (idle_readlines hint) fun _ => Poised.not_done _
  | _ => exact Poised.not_get _

theorem FileOp.looks_run (op : FileOp) : Looks op.run := by
  cases op with
  | perform op => exact looks_result (looks_perform op)
  | readAt pos size => exact looks_result (looks_fetch pos size)
  | readintoAt pos size => exact looks_result (looks_fetchInto pos size)
  | close => exact looks_result looks_close

theorem FileOp.idle_run (op : FileOp) : Idle op.run := by
  cases op with
  | perform op => exact Poised.not_bind (idle_perform op) fun _ => Poised.not_done _
  | _ => exact Poised.not_get _

end Methods

/-! ## Runs -/

/-- A coroutine that makes an inline call has just looked at the file object, or
it checks the size of a fill and the descriptor is open. -/
theorem rightful_of_run {ops : List FileOp} {file : BinaryFile} {pool : SharedFile}
    (hrun : ReflTransGen (fun pool next => SharedFile.Step pool next ∧ SharedFile.Calm pool next)
      (Pool.init ops file false) pool) :
    pool.Rightful HasFast BridgeCall.awaited BridgeCall.Closes sizeCheck (· = true) := by
  refine Pool.rightful_of_run revoking_closing FileOp.looks_run FileOp.idle_run ?_ hrun
  exact Pool.Rightful.init fun hclosed => by cases hclosed

theorem poised_of_sizeCheck {α : Type} {prog : BinaryProg α} (hcheck : sizeCheck.Is prog) :
    Poised BridgeCall.awaited prog := by
  obtain ⟨handle, fd, start, sizeNow, first, f, hfull, rfl⟩ := hcheck
  rw [afterFill, if_neg (by omega)]
  exact .call rfl

theorem poised_of_goesLate {stage : Stage bridge BinaryFile PyError (Option Value)}
    (hlate : stage.GoesLate sizeCheck) : stage.Poised BridgeCall.awaited := by
  cases stage with
  | running prog => exact poised_of_sizeCheck hlate
  | ready prog => exact poised_of_sizeCheck hlate
  | _ => cases hlate

/-- The driver does not open the descriptor again. -/
theorem closed_of_step {pool next : SharedFile} (hstep : SharedFile.Step pool next)
    (hclosed : pool.world = true) : next.world = true := by
  rcases hstep with ⟨index, hfree, htask⟩ | hadvance
  · exact hclosed
  · cases hadvance with
    | @inline index call prog c k answer world htask hask hc hanswer =>
        cases c with
        | close handle => cases hc
        | _ => exact hanswer.1.trans hclosed
    | @complete index call c k answer world htask hanswer =>
        cases c with
        | close handle => exact hanswer
        | _ => exact hanswer.1.trans hclosed
    | _ => exact hclosed

/-- Every step is calm that leaves the descriptor open. -/
theorem calm_run {ops : List FileOp} {file : BinaryFile} {pool : SharedFile}
    (hrun : ReflTransGen SharedFile.Step (Pool.init ops file false) pool)
    (hopen : ¬pool.world = true) :
    ReflTransGen (fun pool next => SharedFile.Step pool next ∧ SharedFile.Calm pool next)
      (Pool.init ops file false) pool := by
  induction hrun with
  | refl => exact .refl
  | tail _ hstep ih =>
      exact (ih fun hclosed => hopen (closed_of_step hstep hclosed)).tail
        ⟨hstep, fun hclosed => absurd hclosed hopen⟩

/-- A step of a run is calm unless it closes the descriptor while a coroutine has
its fill answered in full and is about to check the size with the `FastPath` it
has found before. -/
theorem calm_iff {ops : List FileOp} {file : BinaryFile} {pool next : SharedFile}
    (hrun : ReflTransGen SharedFile.Step (Pool.init ops file false) pool)
    (hstep : SharedFile.Step pool next) :
    SharedFile.Calm pool next ↔
      (next.world = true → ¬pool.world = true →
        ∀ (index : ℕ) (task : FileOp × Stage bridge BinaryFile PyError (Option Value)),
          pool.tasks[index]? = some task → ¬task.2.GoesLate sizeCheck) := by
  constructor
  · intro hcalm hclosed hopen index task htask hlate
    exact hcalm hclosed hopen index task htask (poised_of_goesLate hlate)
  · intro hnone
    by_contra hloud
    have hcloses : next.world = true ∧ ¬pool.world = true := by
      constructor
      · by_contra hopen
        exact hloud fun hclosed => absurd hclosed hopen
      · exact fun hclosed => hloud fun _ hopen => absurd hclosed hopen
    rcases hstep with ⟨index, hfree, htask⟩ | hadvance
    · exact hcloses.2 hcloses.1
    · obtain ⟨index, task, htask, hlate⟩ :=
        (rightful_of_run (calm_run hrun hcloses.2)).late_of_not_calm revoking_closing hadvance hloud
      exact hnone hcloses.1 hcloses.2 index task htask hlate

section LargeRead

end LargeRead

end Turbofile.Binary
