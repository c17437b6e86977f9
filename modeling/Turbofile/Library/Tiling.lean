import Mathlib

/-!
# Ranges cut into pieces

A transfer of `total` bytes is cut into pieces that are answered in any order,
each with the length of the part it filled, counted from its start.  The limit
kept while the answers come in is the longest prefix that is filled throughout.
-/

namespace Turbofile.Tiling

structure Piece where
  start : ℕ
  len : ℕ
  deriving DecidableEq

def Piece.Covers (piece : Piece) (offset : ℕ) : Prop :=
  piece.start ≤ offset ∧ offset < piece.start + piece.len

/-- Every offset below `total`, and no other, is in exactly one of the pieces. -/
structure Tiles (total : ℕ) (pieces : List Piece) : Prop where
  nodup : pieces.Nodup
  within : ∀ piece ∈ pieces, piece.start + piece.len ≤ total
  covered : ∀ offset < total, ∃ piece ∈ pieces, piece.Covers offset
  disjoint : ∀ one ∈ pieces, ∀ other ∈ pieces, ∀ offset,
    one.Covers offset → other.Covers offset → one = other

theorem Tiles.perm {total : ℕ} {pieces others : List Piece} (htiles : Tiles total pieces)
    (hperm : others.Perm pieces) : Tiles total others where
  nodup := hperm.nodup_iff.mpr htiles.nodup
  within piece hmem := htiles.within piece (hperm.mem_iff.mp hmem)
  covered offset hoffset := by
    obtain ⟨piece, hmem, hcovers⟩ := htiles.covered offset hoffset
    exact ⟨piece, hperm.mem_iff.mpr hmem, hcovers⟩
  disjoint one hone other hother :=
    htiles.disjoint one (hperm.mem_iff.mp hone) other (hperm.mem_iff.mp hother)

theorem Tiles.pairwise {total : ℕ} {pieces : List Piece} (htiles : Tiles total pieces) :
    pieces.Pairwise fun one other => ∀ offset, one.Covers offset → ¬ other.Covers offset := by
  refine htiles.nodup.imp_of_mem ?_
  intro one other hone hother hne offset hcovers hcovers'
  exact hne (htiles.disjoint one hone other hother offset hcovers hcovers')

/-! ## Pieces of one length -/

/-- The piece at `index` when a range is cut every `chunk`. -/
def pieceAt (total chunk index : ℕ) : Piece :=
  ⟨index * chunk, min chunk (total - index * chunk)⟩

def cut (total chunk : ℕ) : List Piece :=
  (List.range ((total + chunk - 1) / chunk)).map (pieceAt total chunk)

@[simp]
theorem length_cut (total chunk : ℕ) :
    (cut total chunk).length = (total + chunk - 1) / chunk := by
  simp [cut]

section Cut

variable {total chunk : ℕ}

theorem lt_count_iff (hchunk : 0 < chunk) (index : ℕ) :
    index < (total + chunk - 1) / chunk ↔ index * chunk < total := by
  rw [Nat.lt_div_iff_mul_lt hchunk]
  constructor
  · intro hlt
    omega
  · intro hlt
    have : 0 < total := by omega
    omega

theorem mem_cut (hchunk : 0 < chunk) {piece : Piece} :
    piece ∈ cut total chunk ↔
      ∃ index, index * chunk < total ∧ piece = pieceAt total chunk index := by
  simp only [cut, List.mem_map, List.mem_range, lt_count_iff hchunk, eq_comm]

/-- The piece that covers an offset is known from the offset. -/
theorem pieceAt_covers_iff (hchunk : 0 < chunk) {index offset : ℕ} :
    (pieceAt total chunk index).Covers offset ↔ index = offset / chunk ∧ offset < total := by
  have hdiv := Nat.div_add_mod offset chunk
  have hmod := Nat.mod_lt offset hchunk
  simp only [Piece.Covers, pieceAt]
  constructor
  · rintro ⟨hstart, hend⟩
    have hindex : offset / chunk = index :=
      Nat.div_eq_of_lt_le (by linarith) (by rw [Nat.succ_mul]; omega)
    exact ⟨hindex.symm, by omega⟩
  · rintro ⟨rfl, htotal⟩
    have hcomm : offset / chunk * chunk = chunk * (offset / chunk) := Nat.mul_comm _ _
    constructor <;> omega

theorem tiles_cut (hchunk : 0 < chunk) : Tiles total (cut total chunk) where
  nodup := by
    refine List.Nodup.map ?_ List.nodup_range
    intro one other heq
    have hstart : one * chunk = other * chunk := congrArg Piece.start heq
    exact Nat.eq_of_mul_eq_mul_right hchunk hstart
  within piece hmem := by
    obtain ⟨index, hindex, rfl⟩ := (mem_cut hchunk).mp hmem
    change index * chunk + min chunk (total - index * chunk) ≤ total
    omega
  covered offset hoffset := by
    have hcovers : (pieceAt total chunk (offset / chunk)).Covers offset :=
      (pieceAt_covers_iff hchunk).mpr ⟨rfl, hoffset⟩
    have hstart : offset / chunk * chunk ≤ offset := Nat.div_mul_le_self offset chunk
    exact ⟨_, (mem_cut hchunk).mpr ⟨_, by omega, rfl⟩, hcovers⟩
  disjoint one hone other hother offset hcovers hcovers' := by
    obtain ⟨index, -, rfl⟩ := (mem_cut hchunk).mp hone
    obtain ⟨index', -, rfl⟩ := (mem_cut hchunk).mp hother
    rw [((pieceAt_covers_iff hchunk).mp hcovers).1, ((pieceAt_covers_iff hchunk).mp hcovers').1]

end Cut

/-! ## The filled prefix -/

/-- A piece that was answered: its first `filled` bytes are there. -/
structure Part where
  piece : Piece
  filled : ℕ

def Part.Fills (part : Part) (offset : ℕ) : Prop :=
  part.piece.start ≤ offset ∧ offset < part.piece.start + part.filled

/-- What one part leaves of the limit. -/
def Part.clip (limit : ℕ) (part : Part) : ℕ :=
  if part.filled < part.piece.len then min limit (part.piece.start + part.filled) else limit

def limit (total : ℕ) (parts : List Part) : ℕ := parts.foldl Part.clip total

@[simp]
theorem limit_nil (total : ℕ) : limit total [] = total := rfl

@[simp]
theorem limit_append_one (total : ℕ) (parts : List Part) (part : Part) :
    limit total (parts ++ [part]) = part.clip (limit total parts) := by
  simp [limit, List.foldl_append]

theorem limit_le (total : ℕ) (parts : List Part) : limit total parts ≤ total := by
  induction parts using List.reverseRecOn with
  | nil => exact le_rfl
  | append_singleton parts part ih =>
      rw [limit_append_one, Part.clip]
      split <;> omega

/-- Only the short parts bound the limit. -/
theorem lt_limit_iff {total : ℕ} {parts : List Part} {offset : ℕ} :
    offset < limit total parts ↔
      offset < total ∧ ∀ part ∈ parts, part.filled < part.piece.len →
        offset < part.piece.start + part.filled := by
  induction parts using List.reverseRecOn with
  | nil => simp
  | append_singleton parts part ih =>
      rw [limit_append_one, Part.clip]
      simp only [List.mem_append, List.mem_singleton, or_imp, forall_and, forall_eq]
      split <;> rename_i hshort
      · rw [lt_min_iff, ih, and_assoc]
        exact ⟨fun h => ⟨h.1, h.2.1, fun _ => h.2.2⟩, fun h => ⟨h.1, h.2.1, h.2.2 hshort⟩⟩
      · rw [ih]
        exact ⟨fun h => ⟨h.1, h.2, fun hlt => absurd hlt hshort⟩, fun h => ⟨h.1, h.2.1⟩⟩

/-- Whatever order the pieces were answered in, the limit is the longest prefix
filled throughout. -/
theorem isGreatest_limit {total : ℕ} {parts : List Part}
    (htiles : Tiles total (parts.map Part.piece))
    (hfits : ∀ part ∈ parts, part.filled ≤ part.piece.len) :
    IsGreatest {n | n ≤ total ∧ ∀ offset < n, ∃ part ∈ parts, part.Fills offset}
      (limit total parts) := by
  constructor
  · refine ⟨limit_le total parts, fun offset hoffset => ?_⟩
    obtain ⟨htotal, hshort⟩ := lt_limit_iff.mp hoffset
    obtain ⟨piece, hmem, hcovers⟩ := htiles.covered offset htotal
    obtain ⟨part, hpart, rfl⟩ := List.mem_map.mp hmem
    refine ⟨part, hpart, hcovers.1, ?_⟩
    by_cases hfull : part.filled < part.piece.len
    · exact hshort part hpart hfull
    · have := hcovers.2
      omega
  · rintro n ⟨htotal, hfilled⟩
    by_contra hlong
    rw [not_le] at hlong
    -- some short part stops at or before the limit, inside `n`
    have hat : ¬ limit total parts < limit total parts := lt_irrefl _
    rw [lt_limit_iff, not_and] at hat
    have hstops := hat (by omega)
    push Not at hstops
    obtain ⟨part, hpart, hshort, hstop⟩ := hstops
    obtain ⟨other, hother, hfills⟩ := hfilled _ (hstop.trans_lt hlong)
    have hother_le := hfits other hother
    have hsame : part = other := by
      refine List.inj_on_of_nodup_map htiles.nodup hpart hother ?_
      refine htiles.disjoint _ (List.mem_map_of_mem hpart) _ (List.mem_map_of_mem hother)
        (part.piece.start + part.filled) ⟨by omega, by omega⟩ ⟨hfills.1, ?_⟩
      have := hfills.2
      omega
    subst hsame
    have := hfills.2
    omega

end Turbofile.Tiling
