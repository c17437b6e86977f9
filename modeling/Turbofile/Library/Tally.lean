import Mathlib

/-!
# Tallies over lists and finite tables

A tally is a sum of weights, one for each entry.  The ledgers of a stateful
program (which entry owns a token, how many jobs refer to a key) are tallies,
and a move of one entry between two containers is an equation between them.
The table is Mathlib's association list with distinct keys.
-/

namespace Turbofile.Tally

open scoped List

variable {α β : Type*}

/-- The weight of a whole list. -/
def ofList (weight : α → ℕ) (entries : List α) : ℕ :=
  (entries.map weight).sum

@[simp]
theorem ofList_nil (weight : α → ℕ) : ofList weight [] = 0 := rfl

@[simp]
theorem ofList_cons (weight : α → ℕ) (entry : α) (entries : List α) :
    ofList weight (entry :: entries) = weight entry + ofList weight entries := by
  simp [ofList]

@[simp]
theorem ofList_append (weight : α → ℕ) (left right : List α) :
    ofList weight (left ++ right) = ofList weight left + ofList weight right := by
  simp [ofList]

theorem ofList_perm (weight : α → ℕ) {left right : List α}
    (hperm : left.Perm right) : ofList weight left = ofList weight right :=
  (hperm.map weight).sum_eq

theorem ofList_map (weight : β → ℕ) (f : α → β) (entries : List α) :
    ofList weight (entries.map f) = ofList (fun entry => weight (f entry)) entries := by
  simp [ofList, Function.comp_def]

theorem ofList_flatMap (weight : α → ℕ) (part : β → ℕ) {parts : α → List β}
    (hparts : ∀ entry, weight entry = ofList part (parts entry)) (entries : List α) :
    ofList part (entries.flatMap parts) = ofList weight entries := by
  induction entries with
  | nil => rfl
  | cons entry entries ih =>
      rw [List.flatMap_cons, ofList_append, ofList_cons, ih, hparts entry]

theorem ofList_add (left right : α → ℕ) (entries : List α) :
    ofList (fun entry => left entry + right entry) entries =
      ofList left entries + ofList right entries := by
  simp [ofList, List.sum_map_add]

/-- Entries weighed alike one by one weigh the same together. -/
theorem ofList_congr {weight weight' : α → ℕ} {entries : List α}
    (hsame : ∀ entry ∈ entries, weight entry = weight' entry) :
    ofList weight entries = ofList weight' entries := by
  rw [ofList, ofList, List.map_congr_left hsame]

theorem weight_le_ofList (weight : α → ℕ) {entry : α} {entries : List α}
    (hmem : entry ∈ entries) : weight entry ≤ ofList weight entries :=
  List.single_le_sum (by simp) _ (List.mem_map_of_mem hmem)

theorem ofList_eq_zero_iff (weight : α → ℕ) (entries : List α) :
    ofList weight entries = 0 ↔ ∀ entry ∈ entries, weight entry = 0 := by
  simp [ofList, List.sum_eq_zero_iff]

/-- A tally of ones is a count. -/
theorem ofList_indicator (holds : α → Prop) [DecidablePred holds] (entries : List α) :
    ofList (fun entry => if holds entry then 1 else 0) entries =
      entries.countP fun entry => holds entry := by
  induction entries with
  | nil => rfl
  | cons entry entries ih =>
      rw [ofList_cons, ih, List.countP_cons]
      by_cases hentry : holds entry
      · simp [hentry, Nat.add_comm]
      · simp [hentry]

theorem ofList_eq_count [DecidableEq α] (target : α) (entries : List α) :
    ofList (fun entry => if entry = target then 1 else 0) entries =
      entries.count target := by
  rw [ofList_indicator, List.count]
  congr 1

theorem ofList_set (weight : α → ℕ) {entries : List α} {index : ℕ} {old : α}
    (hget : entries[index]? = some old) (new : α) :
    ofList weight (entries.set index new) + weight old =
      ofList weight entries + weight new := by
  induction entries generalizing index with
  | nil => simp at hget
  | cons entry entries ih =>
      cases index with
      | zero =>
          obtain rfl : entry = old := by simpa using hget
          simp only [List.set_cons_zero, ofList_cons]
          omega
      | succ index =>
          have htail : ofList weight (entries.set index new) + weight old =
              ofList weight entries + weight new := ih (by simpa using hget)
          simp only [List.set_cons_succ, ofList_cons]
          omega

/-- Changing entries in a way `f` does not see leaves the image as it is. -/
theorem map_modify_of_eq (f : α → β) (change : α → α)
    (hsame : ∀ entry, f (change entry) = f entry) (entries : List α) (index : ℕ) :
    (entries.modify index change).map f = entries.map f := by
  induction entries generalizing index with
  | nil => simp
  | cons entry entries ih =>
      cases index with
      | zero => simp [hsame]
      | succ index => simp [ih]

theorem mem_modify {change : α → α} {entries : List α} {index : ℕ} {entry : α}
    (hmem : entry ∈ entries.modify index change) :
    entry ∈ entries ∨ ∃ old, entries[index]? = some old ∧ entry = change old := by
  obtain ⟨position, hget⟩ := List.mem_iff_getElem?.mp hmem
  rw [List.getElem?_modify] at hget
  split at hget
  · next hsame =>
      subst hsame
      obtain ⟨old, hold, rfl⟩ := Option.map_eq_some_iff.mp hget
      exact .inr ⟨old, hold, rfl⟩
  · simp only [id_map'] at hget
    exact .inl (List.mem_of_getElem? hget)

/-- The first entry a test finds is the one `eraseP` takes out. -/
theorem perm_eraseP_of_find? {holds : α → Bool} {entries : List α} {found : α}
    (hfind : entries.find? holds = some found) :
    entries.Perm (found :: entries.eraseP holds) := by
  induction entries with
  | nil => simp at hfind
  | cons entry entries ih =>
      cases hentry : holds entry with
      | true =>
          obtain rfl : entry = found := by simpa [hentry] using hfind
          simp [hentry]
      | false =>
          have htail := ih (by simpa [hentry] using hfind)
          rw [List.eraseP_cons, hentry]
          exact (htail.cons entry).trans (List.Perm.swap ..)

/-! ## Removal by swapping with the last entry -/

/-- Remove the entry at `index`; the last entry takes its place. -/
def swapRemove (entries : List α) (index : ℕ) : List α :=
  match entries.getLast? with
  | none => []
  | some last => (entries.set index last).dropLast

theorem swapRemove_concat (front : List α) (last : α) (index : ℕ) :
    swapRemove (front ++ [last]) index =
      if index < front.length then front.set index last else front := by
  by_cases hindex : index < front.length
  · simp [swapRemove, hindex]
  · by_cases hlast : index = front.length
    · subst hlast
      simp [swapRemove]
    · have hlen : (front ++ [last]).length ≤ index := by
        simp only [List.length_append, List.length_singleton]
        omega
      simp [swapRemove, hindex, List.set_eq_of_length_le hlen]

/-- Swap-removal takes out exactly the entry at the index. -/
theorem perm_swapRemove (entries : List α) {index : ℕ}
    (hindex : index < entries.length) :
    entries.Perm (entries[index] :: swapRemove entries index) := by
  obtain ⟨front, last, rfl⟩ : ∃ front last, entries = front ++ [last] :=
    ⟨entries.dropLast, entries.getLast (by rintro rfl; simp at hindex),
      (List.dropLast_append_getLast _).symm⟩
  rw [swapRemove_concat]
  by_cases hfront : index < front.length
  · rw [if_pos hfront, List.getElem_append_left hfront]
    have hset : (front.set index last).Perm (last :: front.eraseIdx index) :=
      List.set_perm_cons_eraseIdx hfront last
    have hget : (front[index] :: front.eraseIdx index).Perm front :=
      List.getElem_cons_eraseIdx_perm hfront
    calc
      front ++ [last] ~ last :: front := List.perm_append_singleton last front
      _ ~ last :: front[index] :: front.eraseIdx index := (hget.symm).cons last
      _ ~ front[index] :: last :: front.eraseIdx index := List.Perm.swap ..
      _ ~ front[index] :: front.set index last := hset.symm.cons _
  · have hlast : index = front.length := by
      simp only [List.length_append, List.length_singleton] at hindex
      omega
    subst hlast
    rw [if_neg hfront]
    simp [List.perm_append_singleton last front]

theorem mem_of_mem_swapRemove {entries : List α} {index : ℕ} {entry found : α}
    (hget : entries[index]? = some found) (hmem : entry ∈ swapRemove entries index) :
    entry ∈ entries := by
  obtain ⟨hbound, -⟩ := List.getElem?_eq_some_iff.mp hget
  exact (perm_swapRemove entries hbound).mem_iff.mpr (List.mem_cons_of_mem _ hmem)

theorem mem_modify_ne {change : α → α} {entries : List α} {index : ℕ} {found entry : α}
    (hget : entries[index]? = some found) (hmem : entry ∈ entries.modify index change) :
    entry = change found ∨ entry ∈ swapRemove entries index := by
  obtain ⟨position, hentry⟩ := List.mem_iff_getElem?.mp hmem
  rw [List.getElem?_modify] at hentry
  split at hentry
  · next hsame =>
      subst hsame
      rw [hget] at hentry
      exact .inl (Option.some.inj hentry).symm
  · next hne =>
      simp only [id_map'] at hentry
      obtain ⟨hbound, hfound⟩ := List.getElem?_eq_some_iff.mp hget
      have herased : entry ∈ entries.eraseIdx index :=
        List.mem_eraseIdx_iff_getElem?.mpr ⟨position, Ne.symm hne, hentry⟩
      have hperm := (perm_swapRemove entries hbound).symm.trans
        (List.getElem_cons_eraseIdx_perm hbound).symm
      exact .inr ((List.perm_cons _).mp hperm |>.mem_iff.mpr herased)

theorem length_swapRemove (entries : List α) {index : ℕ}
    (hindex : index < entries.length) :
    (swapRemove entries index).length + 1 = entries.length := by
  simpa using (perm_swapRemove entries hindex).length_eq.symm

/-! ## Tables -/

variable {Key Entry : Type*} [DecidableEq Key]

abbrev Table (Key Entry : Type*) := AList fun _ : Key => Entry

namespace Table

/-- The weight of a whole table. -/
def tally (weight : Key → Entry → ℕ) (table : Table Key Entry) : ℕ :=
  ofList (fun row => weight row.1 row.2) table.entries

omit [DecidableEq Key] in
@[simp]
theorem tally_empty (weight : Key → Entry → ℕ) :
    tally weight (∅ : Table Key Entry) = 0 := rfl

/-- A present entry is one row; the others are the table without its key. -/
theorem entries_perm_erase {table : Table Key Entry} {key : Key} {entry : Entry}
    (hlookup : table.lookup key = some entry) :
    table.entries.Perm (⟨key, entry⟩ :: (table.erase key).entries) := by
  have hmem : (⟨key, entry⟩ : Sigma fun _ : Key => Entry) ∈ table.entries :=
    AList.mem_lookup_iff.mp hlookup
  obtain ⟨found, front, back, hfront, hentries, herase⟩ :=
    List.exists_of_kerase (List.mem_keys_of_mem hmem)
  have hfound : found = entry := by
    have hfoundMem : (⟨key, found⟩ : Sigma fun _ : Key => Entry) ∈ table.entries := by
      rw [hentries]
      simp
    have hsame := AList.mem_lookup_iff.mpr hfoundMem
    rw [hlookup] at hsame
    simpa using hsame.symm
  subst hfound
  change table.entries.Perm (_ :: List.kerase key table.entries)
  rw [hentries] at herase ⊢
  rw [herase]
  exact List.perm_middle

theorem tally_erase_add (weight : Key → Entry → ℕ) {table : Table Key Entry}
    {key : Key} {entry : Entry} (hlookup : table.lookup key = some entry) :
    tally weight (table.erase key) + weight key entry = tally weight table := by
  rw [tally, tally, ofList_perm _ (entries_perm_erase hlookup), ofList_cons,
    Nat.add_comm]

theorem tally_insert (weight : Key → Entry → ℕ) (table : Table Key Entry)
    (key : Key) (entry : Entry) :
    tally weight (table.insert key entry) =
      weight key entry + tally weight (table.erase key) := by
  simp [tally, AList.entries_insert, AList.erase]

theorem tally_insert_new (weight : Key → Entry → ℕ) {table : Table Key Entry}
    {key : Key} (entry : Entry) (hnew : table.lookup key = none) :
    tally weight (table.insert key entry) = weight key entry + tally weight table := by
  rw [tally_insert, tally, tally, AList.erase]
  simp only [List.kerase_of_notMem_keys
    (fun hmem => AList.lookup_eq_none.mp hnew (AList.mem_keys.mpr hmem))]

/-- Overwriting a present entry trades its old weight for the new one. -/
theorem tally_update (weight : Key → Entry → ℕ) {table : Table Key Entry}
    {key : Key} {old : Entry} (new : Entry) (hlookup : table.lookup key = some old) :
    tally weight (table.insert key new) + weight key old =
      tally weight table + weight key new := by
  have herase := tally_erase_add weight hlookup
  rw [tally_insert]
  omega

theorem weight_le_tally (weight : Key → Entry → ℕ) {table : Table Key Entry}
    {key : Key} {entry : Entry} (hlookup : table.lookup key = some entry) :
    weight key entry ≤ tally weight table := by
  have herase := tally_erase_add weight hlookup
  omega

end Table

end Turbofile.Tally
