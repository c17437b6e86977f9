import Turbofile.FastPath.Offsets
import Turbofile.Library.CoroutineRuns
import Turbofile.Library.Growth

/-!
# Files that grow while they are read

Other writers append to the file between the calls of a read-all.  What it
returns as data is everything up to the end the file had at one moment, the
moment its last look at the file showed it that end.
-/

namespace Turbofile.FastPath

open Turbofile.Core
open Turbofile.Coroutine
open Turbofile.Growth

/-- A regular file's history, and the ends that the last call that looked at the
file has shown it to have. -/
structure Growing where
  history : List Bytes
  shown : ℕ → Prop

def Growing.now (world : Growing) : Bytes := Growth.now world.history

/-- A read answers with the bytes at its offset, with none only at the end. -/
def FoundAt (content : Bytes) (offset : ℤ) (len : ℕ) (data : Bytes) : Prop :=
  data <+: content.drop offset.toNat ∧ data.length ≤ len ∧
    (data = [] → 0 < len → content.length ≤ offset.toNat)

/-- What a call may answer about the content; it may refuse, too. -/
def SysCall.tells (content : Bytes) : (c : SysCall) → Except Raised c.Answer → Prop
  | .fstat _, .ok stat => ∀ size, regularFileSize stat = some size → size = content.length
  | .preadv2 _ offset len, .ok (.ok data) => FoundAt content offset len data
  | .pread _ offset len, .ok (.ok data) => FoundAt content offset len data
  | _, _ => True

/-- The ends an answer shows: a size, or an offset at which nothing was read. -/
def SysCall.shows (before : ℕ → Prop) : (c : SysCall) → Except Raised c.Answer → ℕ → Prop
  | .fstat _, .ok stat, size => regularFileSize stat = some size
  | .preadv2 _ offset len, .ok (.ok data), size => offset = size ∧ 0 < len ∧ data = []
  | .close _, _, size => before size
  | _, _, _ => False

/-- The file grows before each answer by any number of appends. -/
def growing : Env kernel Raised Growing := fun c world answer next =>
  Grows world.history next.history ∧ c.tells next.now answer ∧
    next.shown = c.shows world.shown answer

/-- Data is the file from `start` on at a moment at which the file was shown to
end where it did. -/
def Confirmed (start : ℕ) (data : Bytes) (world : Growing) : Prop :=
  ∃ content ∈ world.history, world.shown content.length ∧ data = content.drop start

/-! ## What a platform does while the file grows -/

/-- The run has come this far; the file has grown. -/
def Grown (world next : Growing) : Prop := Grows world.history next.history

instance : Std.Refl Grown := ⟨fun world => Std.Refl.refl world.history⟩

instance : IsTrans Growing Grown := ⟨fun _ _ _ => Relation.ReflTransGen.trans⟩

/-- What a fill answers is a piece of the file. -/
def Piece (pos : ℕ) (answer : Option Bytes) (next : Growing) : Prop :=
  ∀ data, answer = some data → data <+: next.now.drop pos

/-- What read-alls rely on of a platform. -/
structure Honest (platform : Platform) : Prop where
  size : ∀ inner world, platform.size.wlp growing
    (Leads Grown world fun answer next => ∀ size, answer = some size → size = next.now.length)
    inner world
  fill : ∀ pos len inner world, (platform.fill pos len).wlp growing
    (Leads Grown world (Piece pos)) inner world
  atEof : ∀ size inner world, (platform.atEof size).wlp growing
    (Leads Grown world fun answer next => answer = true →
      next.now.length ≤ size ∧ next.shown size)
    inner world

section Answers

variable {σ α : Type} {world : Growing} {inner : σ}

theorem tells_ask (c : SysCall) :
    (ask c : FastProg σ c.Answer).wlp growing
      (Leads Grown world fun answer next => c.tells next.now (.ok answer) ∧
        next.shown = c.shows world.shown (.ok answer)) inner world := by
  rw [ask, Prog.wlp_await]
  rintro answer next ⟨hgrows, htells, hshown⟩
  refine ⟨hgrows, ?_⟩
  rintro value rfl
  exact ⟨htells, hshown⟩

theorem tells_fileSize (fd : ℤ) :
    (fileSize fd : FastProg σ (Option ℕ)).wlp growing
      (Leads Grown world fun answer next => ∀ size, answer = some size →
        size = next.now.length ∧ next.shown size) inner world := by
  unfold fileSize
  split
  · apply leads_done
    rintro _ ⟨⟩
  · refine Leads.bind (tells_ask (.fstat fd)) fun stat inner' next _ ⟨htells, hshown⟩ => ?_
    apply leads_done
    intro size hsize
    rw [hshown]
    exact ⟨htells size hsize, hsize⟩

/-- What the buffer holds between the rounds is a piece, too. -/
def Buffered (pos : ℕ) : Bytes ⊕ Option Bytes → Growing → Prop
  | .inl filled, next => filled <+: next.now.drop pos
  | .inr answer, next => Piece pos answer next

variable {read : ℤ → ℕ → FastProg σ (Except Errno Bytes)} {pos len : ℕ}

theorem tells_fillRound
    (hread : ∀ offset n inner world, (read offset n).wlp growing
      (Leads Grown world fun answer next => ∀ data, answer = .ok data →
        FoundAt next.now offset n data) inner world)
    {filled : Bytes} (hfilled : filled <+: world.now.drop pos) :
    (fillRound read pos len filled).wlp growing (Leads Grown world (Buffered pos)) inner world := by
  have hpiece : Piece pos (some filled) world := by
    rintro _ ⟨⟩
    exact hfilled
  have hnone (next : Growing) : Piece pos none next := by
    rintro _ ⟨⟩
  unfold fillRound
  split
  · cases hoffset : kernelOffset pos filled.length with
    | none => exact leads_done (hnone world)
    | some offset =>
        refine Leads.bind (hread offset _ inner world) fun answer inner' next hgrown hfound => ?_
        rcases answer with errno | data
        · cases errno with
          | eintr => exact leads_done (hgrown.piece hfilled)
          | _ => exact leads_done (hnone next)
        · have hhead := hgrown.piece hfilled
          obtain ⟨hdata, -, -⟩ := hfound data rfl
          rw [(kernelOffset_eq_some hoffset).1] at hdata
          have hboth : filled ++ data <+: next.now.drop pos := piece_append hhead hdata
          dsimp only
          split
          · refine leads_done ?_
            rintro _ ⟨⟩
            exact hhead
          · exact leads_done hboth
  · exact leads_done hpiece

/-- The buffer holds what was read at `pos` and on. -/
theorem tells_fillLoop
    (hread : ∀ offset n inner world, (read offset n).wlp growing
      (Leads Grown world fun answer next => ∀ data, answer = .ok data →
        FoundAt next.now offset n data) inner world) :
    (fillLoop read pos len).wlp growing (Leads Grown world (Piece pos)) inner world := by
  refine Prog.wlp_repeatUntil
    (fun filled _ next => Grown world next ∧ filled <+: next.now.drop pos) ?_
    ⟨Std.Refl.refl world.history, List.nil_prefix⟩
  rintro filled inner' next ⟨hgrown, hfilled⟩
  refine Prog.wlp_mono _ ?_ (tells_fillRound hread hfilled)
  rintro (error | next | answer) inner'' last ⟨hgrown', hholds⟩
  · refine ⟨hgrown.trans hgrown', ?_⟩
    rintro _ ⟨⟩
  · exact ⟨hgrown.trans hgrown', hholds _ rfl⟩
  · refine ⟨hgrown.trans hgrown', ?_⟩
    rintro _ ⟨⟩
    exact hholds _ rfl

theorem tells_preadv2 (fd offset : ℤ) (n : ℕ) (inner : σ) (world : Growing) :
    (ask (.preadv2 fd offset n) : FastProg σ _).wlp growing
      (Leads Grown world fun answer next => ∀ data, answer = .ok data →
        FoundAt next.now offset n data) inner world := by
  refine Prog.wlp_mono _ ?_ (tells_ask (.preadv2 fd offset n))
  rintro result inner' next ⟨hgrown, hholds⟩
  refine ⟨hgrown, ?_⟩
  rintro _ rfl data rfl
  exact (hholds _ rfl).1

theorem tells_pread (fd offset : ℤ) (n : ℕ) (inner : σ) (world : Growing) :
    (ask (.pread fd offset n) : FastProg σ _).wlp growing
      (Leads Grown world fun answer next => ∀ data, answer = .ok data →
        FoundAt next.now offset n data) inner world := by
  refine Prog.wlp_mono _ ?_ (tells_ask (.pread fd offset n))
  rintro result inner' next ⟨hgrown, hholds⟩
  refine ⟨hgrown, ?_⟩
  rintro _ rfl data rfl
  exact (hholds _ rfl).1

/-- Whatever a program asks, the file grows meanwhile. -/
theorem tells_only {calls : SysCall → Prop} {prog : FastProg σ α} (honly : prog.Only calls) :
    prog.wlp growing (Leads Grown world fun _ _ => True) inner world := by
  have hmeets : prog.meets growing (fun _ _ => True) (fun _ _ next => Grown world next)
      inner world :=
    honly.meets (Grown world) (fun _ _ _ _ => trivial)
      (fun _ _ _ _ _ hgrown hanswer => hgrown.trans hanswer.1) (Std.Refl.refl world.history)
  refine Prog.wlp_mono _ ?_ (Prog.wlp_of_meets _ hmeets)
  exact fun _ _ _ hgrown => ⟨hgrown, fun _ _ => trivial⟩

end Answers

/-! ## The platforms -/

section Platforms

theorem honest_size {σ : Type} (fd : ℤ) (inner : σ) (world : Growing) :
    (fileSize fd : FastProg σ (Option ℕ)).wlp growing
      (Leads Grown world fun answer next => ∀ size, answer = some size → size = next.now.length)
      inner world := by
  refine Prog.wlp_mono _ ?_ (tells_fileSize fd)
  rintro result inner' next ⟨hgrown, hholds⟩
  exact ⟨hgrown, fun answer hanswer size hsize => (hholds answer hanswer size hsize).1⟩

theorem honest_linux : Honest .linux where
  size inner world := honest_size inner.fd inner world
  fill pos len inner world := by
    change (if inner.fd < 0 then pure none else fillLoop _ pos len :
      FastProg Linux.Inner (Option Bytes)).wlp _ _ _ _
    split
    · apply leads_done
      rintro _ ⟨⟩
    · exact tells_fillLoop (tells_preadv2 inner.fd)
  atEof size inner world := by
    change (Linux.Inner.atEof size).wlp _ _ _ _
    unfold Linux.Inner.atEof
    split
    · apply leads_done
      rintro ⟨⟩
    · next offset hoffset =>
        -- Nothing was read past `size`, so the file ends there or before it.
        have hsize : offset = size := by simpa using (kernelOffset_eq_some hoffset).1
        change (Prog.bind (ask (.preadv2 inner.fd offset 1)) _).wlp growing _ inner world
        refine Leads.bind (tells_ask (.preadv2 inner.fd offset 1))
          fun answer inner' next _ ⟨htells, hshown⟩ => ?_
        rcases answer with errno | data
        · apply leads_done
          rintro ⟨⟩
        · apply leads_done
          intro hempty
          have hnil : data = [] := List.isEmpty_iff.mp hempty
          refine ⟨?_, ?_⟩
          · simpa [hsize] using htells.2.2 hnil one_pos
          · rw [hshown]
            exact ⟨hsize, one_pos, hnil⟩

theorem honest_darwin (page : ℕ) : Honest (.darwin page) where
  size inner world := honest_size inner.fd inner world
  fill pos len inner world := by
    refine Leads.bind (tells_only (Darwin.only_resident pos len))
      fun resident inner' next _ _ => ?_
    cases resident with
    | false =>
        apply leads_done
        rintro _ ⟨⟩
    | true => exact tells_fillLoop (tells_pread inner'.fd)
  atEof size inner world := by
    change (Prog.bind (fileSize inner.fd) _).wlp growing _ inner world
    refine Leads.bind (tells_fileSize inner.fd) fun sizeNow inner' next _ hsize => ?_
    apply leads_done
    intro hsame
    obtain ⟨hlength, hshown⟩ := hsize size (of_decide_eq_true hsame)
    exact ⟨hlength.ge, hshown⟩

theorem honest_none : Honest .none where
  size inner world := by
    apply leads_done
    rintro _ ⟨⟩
  fill pos len inner world := by
    apply leads_done
    rintro _ ⟨⟩
  atEof size inner world := by
    apply leads_done
    rintro ⟨⟩

theorem Os.honest (os : Os) : Honest os.platform := by
  cases os with
  | linux => exact honest_linux
  | darwin page => exact honest_darwin _
  | other => exact honest_none

end Platforms

/-! ## Read-all -/

section ReadAll

variable {platform : Platform} {inner : platform.Inner} {world : Growing} {start : ℕ}

/-- The file was shown to end where it does, and data is what it holds up to
there. -/
def Ended (start : ℕ) (answer : Option Bytes) (next : Growing) : Prop :=
  ∀ data, answer = some data → next.shown next.now.length ∧ data = next.now.drop start

theorem ended_none (start : ℕ) (next : Growing) : Ended start none next := by
  rintro _ ⟨⟩

/-- The check of the end comes last: what was read up to `size` is still all
there is. -/
theorem Honest.tells_confirm (hhonest : Honest platform) {size : ℕ} {data : Bytes}
    (hdata : data <+: world.now.drop start) (hsize : size ≤ world.now.length)
    (hlength : data.length = size - start) :
    (confirm platform size data).wlp growing (Leads Grown world (Ended start)) inner world := by
  refine Leads.bind (hhonest.atEof size inner world) fun ended inner' next hgrown hended => ?_
  cases ended with
  | false => exact leads_done (ended_none start next)
  | true =>
      obtain ⟨hle, hshown⟩ := hended rfl
      have hlater : world.now.length ≤ next.now.length := hgrown.length_le
      have heq : size = next.now.length := by omega
      subst heq
      apply leads_done
      rintro _ ⟨⟩
      exact ⟨hshown, eq_drop_of_piece (hgrown.piece hdata) hlength.ge⟩

/-- What a fill has read, if it is all that was asked for, is checked. -/
theorem Honest.tells_whole (hhonest : Honest platform) {size : ℕ} {filled : Option Bytes}
    (hfilled : Piece start filled world) (hsize : size ≤ world.now.length) {data : Bytes}
    (hwhole : whole (size - start) filled = some data) :
    (confirm platform size data).wlp growing (Leads Grown world (Ended start)) inner world := by
  obtain ⟨hsome, hlength⟩ := Option.filter_eq_some_iff.mp hwhole
  exact hhonest.tells_confirm (hfilled data hsome) hsize (of_decide_eq_true hlength)

theorem Honest.tells_readAll (hhonest : Honest platform) :
    (readAll platform start).wlp growing (Leads Grown world (Ended start)) inner world := by
  refine Leads.bind (hhonest.size inner world) fun size inner' next _ hsize => ?_
  cases size with
  | none => exact leads_done (ended_none start next)
  | some size =>
      dsimp only
      cases hlen : usizeTryFrom (size - start) with
      | none => exact leads_done (ended_none start next)
      | some len =>
          rw [usizeTryFrom, Option.ite_none_right_eq_some, Option.some.injEq] at hlen
          obtain ⟨-, rfl⟩ := hlen
          have hsnapshot := hsize size rfl
          refine Leads.bind (tells_ask (.newBytes (size - start))) fun _ inner' later hgrown _ => ?_
          have hle : size ≤ later.now.length := hsnapshot.trans_le hgrown.length_le
          split
          · refine Leads.bind (hhonest.fill start (size - start) inner' later)
              fun filled inner' last hgrown' hfilled => ?_
            cases hwhole : whole (size - start) filled with
            | none => exact leads_done (ended_none start last)
            | some data =>
                exact hhonest.tells_whole hfilled (hle.trans hgrown'.length_le) hwhole
          · change (Prog.bind (Prog.done (some [])) _).wlp growing _ inner' later
            dsimp only [Prog.bind]
            cases hwhole : whole (size - start) (some []) with
            | none => exact leads_done (ended_none start later)
            | some data =>
                refine hhonest.tells_whole ?_ hle hwhole
                rintro _ ⟨⟩
                exact List.nil_prefix

theorem confirmed_of_ended {answer : Option Bytes} {next : Growing} (hne : world.history ≠ [])
    (hgrown : Grown world next) (hended : Ended start answer next) {data : Bytes}
    (hdata : answer = some data) : Confirmed start data next :=
  ⟨next.now, now_mem (hgrown.ne_nil hne), hended data hdata⟩

end ReadAll

section ReadFile

variable {inner : Linux.Inner} {world : Growing}

theorem tells_readOpened :
    readOpened.wlp growing (Leads Grown world (Ended 0)) inner world := by
  refine Leads.bind (honest_linux.size inner world) fun size inner' next _ hsize => ?_
  cases size with
  | none => exact leads_done (ended_none 0 next)
  | some size =>
      dsimp only
      cases hlen : usizeTryFrom size with
      | none => exact leads_done (ended_none 0 next)
      | some len =>
          rw [usizeTryFrom, Option.ite_none_right_eq_some, Option.some.injEq] at hlen
          obtain ⟨-, rfl⟩ := hlen
          have hsnapshot := hsize size rfl
          refine Leads.bind (tells_ask (.newBytes size)) fun _ inner' later hgrown _ => ?_
          have hle : size ≤ later.now.length := hsnapshot.trans_le hgrown.length_le
          refine Leads.bind (honest_linux.fill 0 size inner' later)
            fun filled inner' last hgrown' hfilled => ?_
          cases hwhole : whole size filled with
          | none => exact leads_done (ended_none 0 last)
          | some data => exact honest_linux.tells_whole hfilled (hle.trans hgrown'.length_le) hwhole

/-- The file may grow again before it is closed. -/
theorem confirmed_withOwnedFd (fd : ℤ) (hne : world.history ≠ []) :
    (withOwnedFd fd).wlp growing
      (fun result _ next => ∀ data, result = .ok (some data) → Confirmed 0 data next)
      inner world := by
  change (Prog.bind readOpened.attempt _).wlp growing _ (Linux.Inner.new fd) world
  rw [Prog.wlp_bind, Prog.wlp_attempt]
  refine Prog.wlp_mono _ ?_ tells_readOpened
  rintro result inner' next ⟨hgrown, hended⟩
  rw [Prog.afterwards_ok, Prog.bind_eq_bind, Prog.wlp_bind, ask, Prog.wlp_await]
  rintro (error | _) last ⟨hgrows, -, hshown⟩
  · rintro _ ⟨⟩
  · rw [Prog.afterwards_ok]
    cases result with
    | error error => rintro _ ⟨⟩
    | ok answer =>
        rintro data ⟨⟩
        obtain ⟨content, hmem, hend, hdata⟩ :=
          confirmed_of_ended hne hgrown (hended _ rfl) rfl
        exact ⟨content, hgrows.subset hmem, by rw [hshown]; exact hend, hdata⟩

theorem confirmed_readFile (path : Path) (hne : world.history ≠ []) :
    (readFile path).wlp growing
      (fun result _ next => ∀ data, result = .ok (some data) → Confirmed 0 data next)
      inner world := by
  unfold readFile
  split
  · rintro _ ⟨⟩
  · rw [Prog.bind_eq_bind, Prog.wlp_bind, ask, Prog.wlp_await]
    rintro (error | errno | fd) next ⟨hgrows, -, -⟩
    · rintro _ ⟨⟩
    · rintro _ ⟨⟩
    · exact confirmed_withOwnedFd fd (hgrows.ne_nil hne)

end ReadFile

end Turbofile.FastPath
