import Turbofile.Binary.Reads
import Turbofile.Library.CoroutineRuns

/-!
# Reads that fail

A kernel read can raise at its await, with an error or because the task is
cancelled.  What the file object then still knows is compared with what it knew
before, and told apart by the reads that follow.
-/

namespace Turbofile.Binary

open Turbofile.Core
open Turbofile.Coroutine

/-- The reads that take or look at the bytes from the position on. -/
def BinOp.isSingleRead : BinOp → Bool
  | .read _ | .read1 _ | .readall | .peek _ | .readline _ | .readinto _ => true
  | .readlines _ | .write _ | .seek _ _ | .tell | .truncate _ => false

/-! ## What a failed read leaves -/

section Failing

variable {ω : Type} {env : Env bridge PyError ω} {file : BinaryFile} {world : ω}

theorem wlp_ask (c : BridgeCall) {post : Post BinaryFile PyError ω c.Answer}
    (hpost : ∀ answer next, post answer file next) :
    (ask c).wlp env post file world :=
  (@Prog.wlp_await bridge BinaryFile PyError ω env c post file world).mpr
    fun answer next _ => hpost answer next

theorem wlp_fastDeclined {post : Post BinaryFile PyError ω Unit}
    (hpost : ∀ result fast next, post result { file with fast := fast } next) :
    BinaryFile.fastDeclined.wlp env post file world := by
  simp only [BinaryFile.fastDeclined, Prog.bind_eq_bind, Prog.wlp_bind, Prog.wlp_state,
    Prog.afterwards_ok]
  split
  · rw [Prog.wlp_bind]
    apply wlp_ask
    intro answer next
    cases answer with
    | error error => exact hpost _ file.fast next
    | ok supported =>
        cases supported
        · exact hpost _ false next
        · exact hpost _ file.fast next
  · exact hpost _ file.fast world

/-- The helpers change nothing but the `FastPath`. -/
theorem wlp_resident (probe : Probe) {post : Post BinaryFile PyError ω (Option Bytes)}
    (hpost : ∀ result fast next, post result { file with fast := fast } next) :
    (BinaryFile.resident probe).wlp env post file world := by
  have hdeclined : ∀ world, (BinaryFile.fastDeclined.bind fun _ => .done none).wlp env post
      file world := by
    intro world
    rw [Prog.wlp_bind]
    apply wlp_fastDeclined
    intro result fast next
    cases result with
    | error error => exact hpost _ fast next
    | ok value => exact hpost _ fast next
  simp only [BinaryFile.resident, Prog.bind_eq_bind, Prog.wlp_bind, Prog.wlp_state,
    Prog.afterwards_ok]
  split
  · rw [Prog.wlp_bind]
    apply wlp_ask
    intro answer next
    rcases answer with error | _ | data
    · exact hpost _ file.fast next
    · exact hdeclined next
    · exact hpost _ file.fast next
  · exact hdeclined world

/-- An inline answer, or the kernel's. -/
theorem wlp_served {probe : Probe} {kernel : Option Bytes → BinaryProg Bytes}
    {post : Post BinaryFile PyError ω Bytes} (hsome : ∀ data, kernel (some data) = .done data)
    (hnone : ∀ fast next, (kernel none).wlp env post { file with fast := fast } next)
    (hpost : ∀ result fast next, post result { file with fast := fast } next) :
    (BinaryFile.resident probe).wlp env (Prog.afterwards env kernel post) file world := by
  apply wlp_resident
  intro result fast next
  rcases result with error | _ | data
  · exact hpost _ fast next
  · exact hnone fast next
  · rw [Prog.afterwards_ok, hsome]
    exact hpost _ fast next

theorem wlp_fetch (pos size : ℕ) {post : Post BinaryFile PyError ω Bytes}
    (hpost : ∀ result fast next, post result { file with fast := fast } next) :
    (BinaryFile.fetch pos size).wlp env post file world := by
  simp only [BinaryFile.fetch, Prog.bind_eq_bind, Prog.wlp_bind, Prog.wlp_state,
    Prog.afterwards_ok]
  exact wlp_served (fun _ => rfl)
    (fun fast next => wlp_ask _ fun answer last => hpost answer fast last) hpost

theorem wlp_fetchInto (pos size : ℕ) {post : Post BinaryFile PyError ω Bytes}
    (hpost : ∀ result fast next, post result { file with fast := fast } next) :
    (BinaryFile.fetchInto pos size).wlp env post file world := by
  simp only [BinaryFile.fetchInto, Prog.bind_eq_bind, Prog.wlp_bind, Prog.wlp_state,
    Prog.afterwards_ok]
  exact wlp_served (fun _ => rfl)
    (fun fast next => wlp_ask _ fun answer last => hpost answer fast last) hpost

theorem wlp_fetchAll (start : ℕ) {post : Post BinaryFile PyError ω Bytes}
    (hpost : ∀ result fast next, post result { file with fast := fast } next) :
    (BinaryFile.fetchAll start).wlp env post file world := by
  simp only [BinaryFile.fetchAll, Prog.bind_eq_bind, Prog.wlp_bind, Prog.wlp_state,
    Prog.afterwards_ok]
  exact wlp_served (fun _ => rfl)
    (fun fast next => wlp_ask _ fun answer last => hpost answer fast last) hpost

theorem wlp_inlineSize (fd : Fd) (fast : Bool) {post : Post BinaryFile PyError ω (Option ℕ)}
    (hpost : ∀ result next, post result file next) :
    (inlineSize fd fast).wlp env post file world := by
  unfold inlineSize
  split
  · exact wlp_ask _ hpost
  · exact hpost _ world

/-- The parallel read does not touch the file object. -/
theorem wlp_readToEofParallel (handle : Handle) (fd : Fd) (fast : Bool) (start : ℕ)
    {post : Post BinaryFile PyError ω Bytes} (hpost : ∀ result next, post result file next) :
    (readToEofParallel handle fd fast start).wlp env post file world := by
  have htail : ∀ parts world,
      (Prog.repeatUntil (readTail handle) parts).wlp env post file world := by
    intro parts world
    refine Prog.wlp_loop (fun _ state _ => state = file) ?_ rfl
    rintro ⟨parts, offset⟩ state world rfl
    simp only [readTail, Prog.bind_eq_bind, Prog.wlp_bind]
    apply wlp_ask
    intro answer next
    cases answer with
    | error error => exact hpost _ next
    | ok tail =>
        rw [Prog.afterwards_ok]
        split
        · exact hpost _ next
        · rfl
  have hfill : ∀ sizeNow : ℕ, ∀ world, ((ask (.readParallel handle start (sizeNow - start)
      PARALLEL_CHUNK)).bind fun first =>
        if first.length < sizeNow - start then .done first
        else (inlineSize fd fast).bind fun confirmed =>
          if confirmed = some sizeNow then .done first
          else .repeatUntil (readTail handle) ([first], start + first.length)).wlp env post
        file world := by
    intro sizeNow world
    rw [Prog.wlp_bind]
    apply wlp_ask
    intro answer next
    cases answer with
    | error error => exact hpost _ next
    | ok first =>
        rw [Prog.afterwards_ok]
        split
        · exact hpost _ next
        · rw [Prog.wlp_bind]
          apply wlp_inlineSize
          intro result next
          cases result with
          | error error => exact hpost _ next
          | ok confirmed =>
              rw [Prog.afterwards_ok]
              split
              · exact hpost _ next
              · exact htail _ next
  simp only [readToEofParallel, sizeSnapshot, Prog.bind_eq_bind, Prog.wlp_bind]
  apply wlp_inlineSize
  intro result next
  rcases result with error | _ | sizeNow
  · exact hpost _ next
  · apply wlp_ask
    intro answer next
    cases answer with
    | error error => exact hpost _ next
    | ok sizeNow => exact hfill sizeNow next
  · exact hfill sizeNow next

theorem wlp_readable {α : Type} (hopen : file.isOpen = true) (hread : file.info.read = true)
    {f : Unit → BinaryProg α} {post : Post BinaryFile PyError ω α}
    (hf : (f ()).wlp env post file world) :
    (BinaryFile.checkOpen.bind fun _ => BinaryFile.checkReadable.bind f).wlp env post
      file world := by
  simp only [BinaryFile.checkOpen, BinaryFile.checkReadable, Prog.bind_eq_bind, Prog.wlp_bind,
    Prog.wlp_state, Prog.afterwards_ok, hopen, hread, if_true, Prog.pure_eq_done, Prog.wlp_done]
  exact hf

/-- An error leaves this file, but for the `FastPath`. -/
def FailsIn (left : BinaryFile) {α : Type} : Post BinaryFile PyError ω α :=
  fun result next _ => ∀ error, result = .error error → ∃ fast, next = { left with fast := fast }

theorem failsIn_ok {left next : BinaryFile} {α : Type} (value : α) (last : ω) :
    FailsIn left (.ok value) next last := by
  rintro error ⟨⟩

/-- A failure before anything has changed. -/
theorem failsIn_same {left : BinaryFile} {α : Type} (result : Except PyError α) (fast : Bool)
    (last : ω) : FailsIn left result { left with fast := fast } last :=
  fun _ _ => ⟨fast, rfl⟩

theorem failsIn_readRest : BinaryFile.readRest.wlp env (FailsIn file) file world := by
  simp only [BinaryFile.readRest, Prog.bind_eq_bind, Prog.wlp_bind, Prog.wlp_state,
    Prog.afterwards_ok]
  split
  · simp only [BinaryFile.readAllLarge, Prog.bind_eq_bind, Prog.wlp_bind, Prog.wlp_state,
      Prog.afterwards_ok]
    apply wlp_readToEofParallel
    intro result next
    cases result with
    | error error => exact failsIn_same _ file.fast next
    | ok rest => exact failsIn_ok _ next
  · rw [Prog.wlp_bind]
    apply wlp_fetchAll
    intro result fast next
    cases result with
    | error error => exact failsIn_same _ fast next
    | ok rest => exact failsIn_ok _ next

theorem failsIn_readSized (size : ℕ) :
    (BinaryFile.readSized size).wlp env (FailsIn { file with pending := [] }) file world := by
  simp only [BinaryFile.readSized, Prog.bind_eq_bind, Prog.wlp_bind, Prog.wlp_state,
    Prog.afterwards_ok]
  split
  · exact failsIn_ok _ world
  · simp only [Prog.wlp_bind, Prog.wlp_modify, Prog.afterwards_ok]
    apply wlp_fetch
    intro result fast next
    cases result with
    | error error => exact failsIn_same _ fast next
    | ok rest => exact failsIn_ok _ next

theorem failsIn_read (size : Option ℤ) (hopen : file.isOpen = true)
    (hread : file.info.read = true) :
    (BinaryFile.read size).wlp env
      (FailsIn (if asked size = none then file else { file with pending := [] })) file world := by
  simp only [BinaryFile.read, Prog.bind_eq_bind]
  apply wlp_readable hopen hread
  cases asked size with
  | none => exact failsIn_readRest
  | some n => exact failsIn_readSized n

theorem failsIn_read1 (size : ℤ) (hopen : file.isOpen = true) (hread : file.info.read = true) :
    (BinaryFile.read1 size).wlp env (FailsIn file) file world := by
  simp only [BinaryFile.read1, Prog.bind_eq_bind]
  apply wlp_readable hopen hread
  simp only [Prog.wlp_bind, Prog.wlp_state, Prog.afterwards_ok]
  split
  · rw [Prog.wlp_bind]
    apply wlp_fetch
    intro result fast next
    cases result with
    | error error => exact failsIn_same _ fast next
    | ok data => exact failsIn_ok _ next
  · exact failsIn_ok _ world

theorem failsIn_peek (size : ℤ) (hopen : file.isOpen = true) (hread : file.info.read = true) :
    (BinaryFile.peek size).wlp env (FailsIn file) file world := by
  simp only [BinaryFile.peek, Prog.bind_eq_bind]
  apply wlp_readable hopen hread
  simp only [Prog.wlp_bind, Prog.wlp_state, Prog.afterwards_ok]
  split
  · rw [Prog.wlp_bind]
    apply wlp_fetch
    intro result fast next
    cases result with
    | error error => exact failsIn_same _ fast next
    | ok data => exact failsIn_ok _ next
  · exact failsIn_ok _ world

/-- `readline` stores its read-ahead only when it has all of it. -/
theorem failsIn_readline (size : Option ℤ) (hopen : file.isOpen = true)
    (hread : file.info.read = true) :
    (BinaryFile.readline size).wlp env (FailsIn file) file world := by
  simp only [BinaryFile.readline, Prog.bind_eq_bind]
  apply wlp_readable hopen hread
  simp only [BinaryFile.fillLine, Prog.bind_eq_bind, Prog.wlp_bind, Prog.wlp_state,
    Prog.afterwards_ok]
  split
  · rw [Prog.wlp_bind]
    refine Prog.wlp_loop (fun _ state _ => ∃ fast, state = { file with fast := fast }) ?_
      ⟨file.fast, rfl⟩
    rintro ⟨parts, total⟩ state world ⟨fast, rfl⟩
    simp only [BinaryFile.fetchLine, Prog.bind_eq_bind, Prog.wlp_bind, Prog.wlp_state,
      Prog.afterwards_ok]
    apply wlp_fetch
    intro result fast' next
    cases result with
    | error error => exact failsIn_same _ fast' next
    | ok chunk =>
        rw [Prog.afterwards_ok]
        split
        · exact failsIn_ok _ next
        · split
          · exact failsIn_ok _ next
          · split
            · exact failsIn_ok _ next
            · exact ⟨fast', rfl⟩
  · exact failsIn_ok _ world

theorem failsIn_readinto (buffer : Bytes) (hopen : file.isOpen = true)
    (hread : file.info.read = true) :
    (BinaryFile.readinto buffer).wlp env
      (FailsIn { file with
        pending := []
        pos := file.pos + file.pending.length }) file world := by
  simp only [BinaryFile.readinto, Prog.bind_eq_bind]
  apply wlp_readable hopen hread
  simp only [Prog.wlp_bind, Prog.wlp_state, Prog.afterwards_ok]
  split
  · rename_i hempty
    have hnil : file.pending = [] := List.isEmpty_iff.mp hempty
    rw [Prog.wlp_bind]
    apply wlp_fetchInto
    intro result fast next
    cases result with
    | error error =>
        rintro _ -
        exact ⟨fast, by simp [hnil]⟩
    | ok data => exact failsIn_ok _ next
  · simp only [Prog.wlp_bind, Prog.wlp_modify, Prog.afterwards_ok]
    split
    · exact failsIn_ok _ world
    · rename_i hpart
      have hmin : min buffer.length file.pending.length = file.pending.length := by omega
      simp only [Prog.wlp_bind, Prog.wlp_state, Prog.afterwards_ok]
      apply wlp_fetchInto
      intro result fast next
      cases result with
      | error error =>
          rintro _ -
          exact ⟨fast, by simp [hmin]⟩
      | ok data => exact failsIn_ok _ next

/-- What a read that fails leaves. -/
def leftBy (file : BinaryFile) : BinOp → BinaryFile
  | .read size => if asked size = none then file else { file with pending := [] }
  | .readinto _ => { file with pending := [], pos := file.pos + file.pending.length }
  | .read1 _ | .readall | .peek _ | .readline _ | .readlines _ | .write _ | .seek _ _ | .tell
  | .truncate _ => file

theorem failsIn_leftBy {op : BinOp} (hop : op.isSingleRead) (hopen : file.isOpen = true)
    (hread : file.info.read = true) :
    (BinaryFile.perform op).wlp env (FailsIn (leftBy file op)) file world := by
  have hvalue : ∀ {α : Type} (prog : BinaryProg α) (value : α → Value) (left : BinaryFile),
      prog.wlp env (FailsIn left) file world →
      (prog.bind fun result => .done (value result)).wlp env (FailsIn left) file world := by
    intro α prog value left hwlp
    rw [Prog.wlp_bind]
    refine Prog.wlp_mono _ ?_ hwlp
    intro result next last hfails
    cases result with
    | error error => exact fun _ _ => hfails error rfl
    | ok result => exact failsIn_ok _ last
  cases op with
  | read size => exact hvalue _ _ _ (failsIn_read size hopen hread)
  | read1 size => exact hvalue _ _ _ (failsIn_read1 size hopen hread)
  | readall => exact hvalue _ _ _ (failsIn_read (some (-1)) hopen hread)
  | peek size => exact hvalue _ _ _ (failsIn_peek size hopen hread)
  | readline size => exact hvalue _ _ _ (failsIn_readline size hopen hread)
  | readinto buffer => exact hvalue _ _ _ (failsIn_readinto buffer hopen hread)
  | _ => cases hop

end Failing

/-! ## What the reads that follow see

The `FastPath` decides how a read is served, not what it returns. -/

def SameButFast (file other : BinaryFile) : Prop := ∃ fast, other = { file with fast := fast }

/-- What a program does on a file nobody else changes, with or without a
`FastPath`. -/
abbrev Served {α : Type} (prog : BinaryProg α) : Prop := Blind fileEnv SameButFast prog

section Served

variable {α β γ : Type}

/-- One outcome, whether or not there is a `FastPath`. -/
theorem served_of_wp {prog : BinaryProg α} (result : BinaryFile → Bytes → Except PyError α)
    (next : BinaryFile → Bytes → BinaryFile)
    (hwp : ∀ file content fast, prog.wp fileEnv
      (fun result' file' content' => result' = result file content ∧
        SameButFast (next file content) file' ∧ content' = content)
      { file with fast := fast } content) : Served prog := by
  refine blind_of_wp Room.endless.env_total (fun file content => ?_) ?_
  · refine ⟨result file content, next file content, content, fun other hother => ?_⟩
    rcases hother with ⟨fast, rfl⟩ | rfl
    · exact hwp file content fast
    · exact hwp other content other.fast
  · rintro file _ _ ⟨fast, rfl⟩ ⟨fast', rfl⟩
    exact ⟨fast', rfl⟩

theorem served_state {f : BinaryFile → BinaryProg α}
    (hblind : ∀ file fast, f { file with fast := fast } = f file)
    (hf : ∀ file, Served (f file)) : Served (Prog.state.bind f) :=
  blind_state (fun ⟨fast, hother⟩ => hother ▸ hblind _ fast) hf

theorem served_modify {f : BinaryFile → BinaryFile}
    (hf : ∀ file fast, SameButFast (f file) (f { file with fast := fast })) :
    Served (.modify f) :=
  blind_modify fun ⟨fast, hother⟩ => hother ▸ hf _ fast

theorem served_fetch (pos size : ℕ) : Served (BinaryFile.fetch pos size) :=
  served_of_wp (fun _ content => .ok (slice content pos size)) (fun file _ => file)
    fun _ _ _ => wp_fetch pos size fun fast => ⟨rfl, ⟨fast, rfl⟩, rfl⟩

theorem served_fetchInto (pos size : ℕ) : Served (BinaryFile.fetchInto pos size) :=
  served_of_wp (fun _ content => .ok (slice content pos size)) (fun file _ => file)
    fun _ _ _ => wp_fetchInto pos size fun fast => ⟨rfl, ⟨fast, rfl⟩, rfl⟩

theorem served_fetchAll (start : ℕ) : Served (BinaryFile.fetchAll start) :=
  served_of_wp (fun _ content => .ok (content.drop start)) (fun file _ => file)
    fun _ _ _ => wp_fetchAll start fun fast => ⟨rfl, ⟨fast, rfl⟩, rfl⟩

theorem served_readAllLarge (start : ℕ) : Served (BinaryFile.readAllLarge start) := by
  refine served_of_wp (fun file content => .ok (file.pending ++ content.drop start))
    (fun file content => { file with
      pending := []
      pos := start + (content.drop start).length
      sizeHint := max file.sizeHint (start + (content.drop start).length) })
    fun file content fast => ?_
  simp only [BinaryFile.readAllLarge, Prog.bind_eq_bind, Prog.wp_bind, Prog.wp_state,
    Prog.after_ok]
  refine Prog.wp_mono _ ?_ (wp_readToEofParallel _ _ _ _)
  rintro result next world ⟨rfl, rfl, rfl⟩
  simp only [Prog.after_ok, Prog.wp_bind, Prog.wp_state, Prog.wp_modify, Prog.pure_eq_done,
    Prog.wp_done]
  exact ⟨trivial, ⟨fast, rfl⟩, trivial⟩

theorem served_takePending (n : ℕ) : Served (BinaryFile.takePending n) := by
  refine served_state (fun _ _ => rfl) fun file => Blind.bind ?_ fun _ => blind_done _
  exact served_modify fun _ fast => ⟨fast, rfl⟩

theorem served_readRest : Served BinaryFile.readRest := by
  refine served_state (fun _ _ => rfl) fun file => ?_
  dsimp only
  split
  · exact served_readAllLarge _
  · refine (served_fetchAll _).bind fun rest => ?_
    refine served_state (fun _ _ => rfl) fun file => Blind.bind ?_ fun _ => blind_done _
    exact served_modify fun _ fast => ⟨fast, rfl⟩

theorem served_readSized (size : ℕ) : Served (BinaryFile.readSized size) := by
  refine served_state (fun _ _ => rfl) fun file => ?_
  dsimp only
  split
  · exact served_takePending size
  · refine Blind.bind (served_modify fun _ fast => ⟨fast, rfl⟩) fun _ => ?_
    refine (served_fetch _ _).bind fun rest => ?_
    exact Blind.bind (served_modify fun _ fast => ⟨fast, rfl⟩) fun _ => blind_done _

theorem served_check (test : BinaryFile → Bool) (error : PyError)
    (hblind : ∀ file fast, test { file with fast := fast } = test file) :
    Served (Prog.state.bind fun self => if test self then pure () else .raise error) := by
  refine served_state (fun file fast => by rw [hblind]) fun file => ?_
  split
  · exact blind_done ()
  · exact blind_raise error

theorem served_readable {f : Unit → BinaryProg α} (hf : Served (f ())) :
    Served (BinaryFile.checkOpen.bind fun _ => BinaryFile.checkReadable.bind f) := by
  refine Blind.bind (served_check (·.isOpen) _ fun _ _ => rfl) fun _ => ?_
  exact Blind.bind (served_check (·.info.read) _ fun _ _ => rfl) fun _ => hf

theorem served_tell : Served BinaryFile.tell :=
  Blind.bind (served_check (·.isOpen) _ fun _ _ => rfl) fun _ =>
    served_state (fun _ _ => rfl) fun _ => blind_done _

theorem served_read (size : Option ℤ) : Served (BinaryFile.read size) := by
  refine served_readable ?_
  cases asked size with
  | none => exact served_readRest
  | some n => exact served_readSized n

theorem served_read1 (size : ℤ) : Served (BinaryFile.read1 size) := by
  refine served_readable (served_state (fun _ _ => rfl) fun file => ?_)
  split
  · refine (served_fetch _ _).bind fun data => ?_
    exact Blind.bind (served_modify fun _ fast => ⟨fast, rfl⟩) fun _ => blind_done _
  · exact served_takePending _

theorem served_peek (size : ℤ) : Served (BinaryFile.peek size) := by
  refine served_readable (served_state (fun _ _ => rfl) fun file => ?_)
  split
  · refine (served_fetch _ _).bind fun data => ?_
    exact Blind.bind (served_modify fun _ fast => ⟨fast, rfl⟩) fun _ => blind_done _
  · exact blind_done _

theorem served_readinto (buffer : Bytes) : Served (BinaryFile.readinto buffer) := by
  refine served_readable (served_state (fun _ _ => rfl) fun file => ?_)
  split
  · refine (served_fetchInto _ _).bind fun data => ?_
    exact Blind.bind (served_modify fun _ fast => ⟨fast, rfl⟩) fun _ => blind_done _
  · dsimp only
    refine Blind.bind (served_modify fun _ fast => ⟨fast, rfl⟩) fun _ => ?_
    split
    · exact blind_done _
    · refine served_state (fun _ _ => rfl) fun file => (served_fetchInto _ _).bind fun rest => ?_
      exact Blind.bind (served_modify fun _ fast => ⟨fast, rfl⟩) fun _ => blind_done _

/-- One round of `readline`'s loop. -/
theorem served_fetchLine (limit : Option ℕ) (parts : List Bytes × ℕ) :
    Served (BinaryFile.fetchLine limit parts) := by
  refine served_state (fun _ _ => rfl) fun file => (served_fetch _ _).bind fun chunk => ?_
  split
  · exact blind_done _
  · split
    · exact blind_done _
    · split
      · exact blind_done _
      · exact blind_done _

theorem served_fillLine (limit : Option ℕ) : Served (BinaryFile.fillLine limit) := by
  refine served_state (fun _ _ => rfl) fun file => ?_
  split
  · refine Blind.bind (.repeatUntil (served_fetchLine limit) _) fun parts => ?_
    exact served_modify fun _ fast => ⟨fast, rfl⟩
  · exact blind_done _

theorem served_readline (size : Option ℤ) : Served (BinaryFile.readline size) := by
  refine served_readable ((served_fillLine _).bind fun _ => ?_)
  refine served_state (fun _ _ => rfl) fun file => Blind.bind ?_ fun _ => blind_done _
  exact served_modify fun _ fast => ⟨fast, rfl⟩

/-- Reads with a position asked for in between. -/
def BinOp.looks (op : BinOp) : Bool := op.isSingleRead || op = .tell

theorem served_perform {op : BinOp} (hop : op.looks) : Served (BinaryFile.perform op) := by
  have hvalue : ∀ {α : Type} {prog : BinaryProg α} (value : α → Value), Served prog →
      Served (prog.bind fun result => .done (value result)) :=
    fun value hprog => hprog.bind fun _ => blind_done _
  cases op with
  | read size => exact hvalue _ (served_read size)
  | read1 size => exact hvalue _ (served_read1 size)
  | readall => exact hvalue _ (served_read _)
  | peek size => exact hvalue _ (served_peek size)
  | readline size => exact hvalue _ (served_readline size)
  | readinto buffer => exact hvalue _ (served_readinto buffer)
  | tell => exact hvalue _ served_tell
  | _ => cases hop

theorem served_performAll {ops : List BinOp} (hops : ∀ op ∈ ops, op.looks) :
    Served (BinaryFile.performAll ops) := by
  induction ops with
  | nil => exact blind_done _
  | cons op ops ih =>
      refine (served_perform (hops op List.mem_cons_self)).attempt.bind fun result => ?_
      exact (ih fun op hmem => hops op (List.mem_cons_of_mem _ hmem)).bind fun _ => blind_done _

end Served

/-! ## What a failed read loses -/

/-- Reads after the failed call, on a file that holds `content` by then, can
return these results. -/
def Returns (file : BinaryFile) (content : Bytes) (ops : List BinOp)
    (results : List (BinOp × Result)) : Prop :=
  ∃ next content', Ends fileEnv (BinaryFile.performAll ops) file content (.ok results) next
    content'

/-- The position is that before the call, and so is what reads return. -/
def LosesNothing (before after : BinaryFile) : Prop :=
  after.pos = before.pos ∧
    ∀ content ops, (∀ op ∈ ops, op.looks) → ∀ results,
      Returns after content ops results ↔ Returns before content ops results

section Losing

variable {file : BinaryFile} {content : Bytes}

/-- The `FastPath` is no loss. -/
theorem losesNothing_of_fast (fast : Bool) : LosesNothing file { file with fast := fast } := by
  refine ⟨rfl, fun content ops hops results => ?_⟩
  have hserved := served_performAll hops
  constructor
  · rintro ⟨next, content', hends⟩
    obtain ⟨last, -, hends'⟩ := hserved ⟨file.fast, rfl⟩ hends
    exact ⟨last, content', hends'⟩
  · rintro ⟨next, content', hends⟩
    obtain ⟨last, -, hends'⟩ := hserved ⟨fast, rfl⟩ hends
    exact ⟨last, content', hends'⟩

/-- What one sized read returns. -/
theorem returns_sized (hopen : file.isOpen = true) (hread : file.info.read = true)
    (size : ℕ) (results : List (BinOp × Result)) :
    Returns file content [.read (some size)] results ↔
      [(.read (some size), .ok (.bytes
        (if size ≤ file.pending.length then file.pending.take size
          else file.pending ++ slice content (file.pos + file.pending.length)
            (size - file.pending.length))))] = results := by
  have hasked : asked (some (size : ℤ)) = some size := by
    simp [asked]
  have hwp : (BinaryFile.performAll [.read (some size)]).wp fileEnv
      (fun result _ _ => result = .ok [(.read (some size), .ok (.bytes
        (if size ≤ file.pending.length then file.pending.take size
          else file.pending ++ slice content (file.pos + file.pending.length)
            (size - file.pending.length))))]) file content := by
    simp only [BinaryFile.performAll, BinaryFile.perform, BinaryFile.read, BinaryFile.checkOpen,
      BinaryFile.checkReadable, hasked, Prog.bind_eq_bind, Prog.wp_bind, Prog.wp_attempt,
      Prog.wp_state, Prog.after_ok, hopen, hread, if_true, Prog.pure_eq_done, Prog.wp_done,
      BinaryFile.readSized]
    by_cases hle : size ≤ file.pending.length
    · simp only [if_pos hle]
      rfl
    · simp only [if_neg hle, Prog.wp_bind, Prog.wp_modify, Prog.after_ok]
      apply wp_fetch
      intro fast
      rfl
  have hsafe := Prog.wp_safe _ hwp
  constructor
  · rintro ⟨next, content', hends⟩
    exact (Except.ok.inj (hsafe.ends hends)).symm
  · rintro rfl
    obtain ⟨result, next, content', hends⟩ := hsafe.exists_ends Room.endless.env_total
    obtain rfl := hsafe.ends hends
    exact ⟨next, content', hends⟩

/-- Without its read-ahead the file reads what the kernel has now. -/
theorem not_losesNothing_of_pending {after : BinaryFile} (hopen : file.isOpen = true)
    (hread : file.info.read = true) (hpending : file.pending ≠ [])
    (hopen' : after.isOpen = true) (hread' : after.info.read = true) (hlost : after.pending = []) :
    ¬ LosesNothing file after := by
  rintro ⟨-, hreads⟩
  have hpositive := List.length_pos_iff.mpr hpending
  have hlooks : ∀ op ∈ [BinOp.read (some file.pending.length)], op.looks := by
    simp [BinOp.looks, BinOp.isSingleRead]
  have hreturns := hreads [] _ hlooks
    [(.read (some file.pending.length), .ok (.bytes file.pending))]
  rw [returns_sized hopen hread, returns_sized hopen' hread', if_pos le_rfl, hlost,
    List.take_length] at hreturns
  have hsame := hreturns.mpr rfl
  simp only [List.length_nil, slice, List.drop_nil, List.take_nil, List.append_nil] at hsame
  rw [if_neg (by omega)] at hsame
  simp only [List.cons.injEq, Prod.mk.injEq, Except.ok.injEq, Value.bytes.injEq, true_and,
    and_true] at hsame
  exact hpending hsame.symm

/-- The calls that keep the read-ahead until they have what they fetch. -/
def BinOp.keepsPending : BinOp → Bool
  | .read size => asked size = none
  | .readinto _ => false
  | .read1 _ | .readall | .peek _ | .readline _ | .readlines _ | .write _ | .seek _ _ | .tell
  | .truncate _ => true

theorem leftBy_of_keepsPending {op : BinOp} (hkeeps : op.keepsPending) : leftBy file op = file := by
  cases op with
  | read size => exact if_pos (by simpa [BinOp.keepsPending] using hkeeps)
  | readinto buffer => cases hkeeps
  | _ => rfl

theorem leftBy_of_pending {op : BinOp} (hpending : file.pending = []) :
    leftBy file op = file := by
  cases op with
  | read size =>
      simp only [leftBy]
      split
      · rfl
      · rw [← hpending]
  | readinto buffer =>
      rw [leftBy, hpending, List.length_nil, Nat.add_zero, ← hpending]
  | _ => rfl

theorem leftBy_lost {op : BinOp} (hkeeps : op.keepsPending = false) :
    (leftBy file op).pending = [] ∧ (leftBy file op).isOpen = file.isOpen ∧
      (leftBy file op).info = file.info := by
  cases op with
  | read size =>
      have hsized : asked size ≠ none := by simpa [BinOp.keepsPending] using hkeeps
      rw [leftBy, if_neg hsized]
      exact ⟨rfl, rfl, rfl⟩
  | readinto buffer => exact ⟨rfl, rfl, rfl⟩
  | _ => cases hkeeps

end Losing

/-- **Failed reads.**  A read whose kernel call raises loses nothing exactly
when there is no read-ahead, or the call keeps it. -/
theorem failed_read_loses_nothing_iff {ω : Type} {env : Env bridge PyError ω}
    {file after : BinaryFile} {op : BinOp} {world final : ω} {error : PyError}
    (hop : op.isSingleRead) (hopen : file.isOpen = true) (hread : file.info.read = true)
    (hends : Ends env (BinaryFile.perform op) file world (.error error) after final) :
    LosesNothing file after ↔ op.keepsPending ∨ file.pending = [] := by
  obtain ⟨fast, rfl⟩ := Prog.wlp_ends hends (failsIn_leftBy hop hopen hread) error rfl
  constructor
  · intro hloses
    by_contra hlost
    simp only [not_or, Bool.not_eq_true] at hlost
    obtain ⟨hnone, hopen', hinfo⟩ := @leftBy_lost file op hlost.1
    refine not_losesNothing_of_pending hopen hread hlost.2 ?_ ?_ ?_ hloses
    · exact hopen'.trans hopen
    · exact (congrArg ModeInfo.read hinfo).trans hread
    · exact hnone
  · rintro (hkeeps | hpending)
    · rw [leftBy_of_keepsPending hkeeps]
      exact losesNothing_of_fast fast
    · rw [leftBy_of_pending hpending]
      exact losesNothing_of_fast fast

/-- A task that is cancelled at its next await. -/
def cancelledNext : Env bridge PyError Unit := fun _ _ answer _ => answer = .error .cancelledError

/-- A file open for reading, with this read-ahead. -/
def reading (pending : Bytes) : BinaryFile :=
  ⟨1, 3, ⟨true, false, false, false, false, false, true⟩, 10, true, pending, false, 0⟩

theorem cancelled_of_wp {prog : BinaryProg Value} {file : BinaryFile}
    (hwp : prog.wp cancelledNext (fun result _ _ => result = .error .cancelledError) file ()) :
    ∃ after, Ends cancelledNext prog file () (.error .cancelledError) after () := by
  have hsafe := Prog.wp_safe _ hwp
  have htotal : ∀ (c : bridge.Call) (world : Unit),
      ∃ answer next, cancelledNext c world answer next :=
    fun c _ => ⟨.error .cancelledError, (), rfl⟩
  obtain ⟨result, after, final, hends⟩ := hsafe.exists_ends htotal
  obtain rfl := hsafe.ends hends
  exact ⟨after, hends⟩

/-- A read of the rest is cancelled while it awaits what follows the read-ahead. -/
theorem cancelled_read_loses_nothing :
    ∃ after, Ends cancelledNext (BinaryFile.perform (.read none)) (reading [65]) ()
      (.error .cancelledError) after () ∧ LosesNothing (reading [65]) after := by
  have hwp : (BinaryFile.perform (.read none)).wp cancelledNext
      (fun result _ _ => result = .error .cancelledError) (reading [65]) () := by
    rintro answer next rfl
    rfl
  obtain ⟨after, hends⟩ := cancelled_of_wp hwp
  exact ⟨after, hends, (failed_read_loses_nothing_iff rfl rfl rfl hends).mpr (.inl rfl)⟩

/-- `readinto` has taken the read-ahead when its read is cancelled: the byte is
in no result, and the position is past it. -/
theorem cancelled_readinto_loses :
    ∃ after, Ends cancelledNext (BinaryFile.perform (.readinto [0, 0])) (reading [65]) ()
      (.error .cancelledError) after () ∧ ¬ LosesNothing (reading [65]) after := by
  have hwp : (BinaryFile.perform (.readinto [0, 0])).wp cancelledNext
      (fun result after _ => result = .error .cancelledError ∧ after.pos = 11)
      (reading [65]) () := by
    rintro answer next rfl
    exact ⟨rfl, rfl⟩
  obtain ⟨after, hends⟩ := cancelled_of_wp (Prog.wp_mono _ (fun _ _ _ h => h.1) hwp)
  refine ⟨after, hends, fun hloses => ?_⟩
  have hpos := ((Prog.wp_safe _ hwp).ends hends).2
  have hsame : after.pos = 10 := hloses.1
  rw [hpos] at hsame
  cases hsame

end Turbofile.Binary
