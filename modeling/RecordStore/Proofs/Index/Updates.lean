import Mathlib.Data.List.Lex
import RecordStore.Proofs.Index.WellFormed
/-!
# Writes as updates of a sorted list

Seen through its records, an index of nested trees is a list in ascending order of keys. `place`
puts a record into such a list, and a removal filters it: so `Write.update` says what a write does
without a word about trees, and the index does just that (`records_write`).

In a chain the keys are the whole tuple of a record, its key on each property of the chain and its
primary key (`keys_chain`). Records that agree on a part of the tuple are two records, and neither
makes way for the other (`chain_updates`).
-/

namespace RecordStore

/-! ## Sorted lists -/

section

variable {R κ : Type} [LinearOrder κ] {key : R → κ} {record x : R} {records : List R}

/-- A list in ascending order of keys with one more record, put in its place. A record with the same
key makes way for it. -/
def place (key : R → κ) (record : R) : List R → List R
  | [] => [record]
  | x :: rest =>
    if key record < key x then record :: x :: rest
    else if key record = key x then record :: rest
    else x :: place key record rest

theorem mem_place (h : records.Pairwise (key · < key ·)) :
    x ∈ place key record records ↔ x = record ∨ (x ∈ records ∧ key x ≠ key record) := by
  induction records with
  | nil => simp [place]
  | cons y rest ih =>
    obtain ⟨hy, hrest⟩ := List.pairwise_cons.1 h
    rw [place]
    split
    · next hlt =>
      have hne : ∀ z ∈ y :: rest, key z ≠ key record := by
        intro z hz
        rcases List.mem_cons.1 hz with rfl | hz
        · exact hlt.ne'
        · exact (hlt.trans (hy z hz)).ne'
      rw [List.mem_cons, and_iff_left_of_imp (hne x)]
    · split
      · next heq =>
        have hne : ∀ z ∈ rest, key z ≠ key record := fun z hz => heq ▸ (hy z hz).ne'
        rw [List.mem_cons, List.mem_cons]
        grind
      · next hne =>
        rw [List.mem_cons, ih hrest, List.mem_cons]
        grind

theorem pairwise_place (h : records.Pairwise (key · < key ·)) :
    (place key record records).Pairwise (key · < key ·) := by
  induction records with
  | nil => simp [place]
  | cons y rest ih =>
    obtain ⟨hy, hrest⟩ := List.pairwise_cons.1 h
    rw [place]
    split
    · next hlt =>
      refine List.pairwise_cons.2 ⟨fun z hz => ?_, h⟩
      rcases List.mem_cons.1 hz with rfl | hz
      · exact hlt
      · exact hlt.trans (hy z hz)
    · next hge =>
      split
      · next heq => exact List.pairwise_cons.2 ⟨fun z hz => heq ▸ hy z hz, hrest⟩
      · next hne =>
        refine List.pairwise_cons.2 ⟨fun z hz => ?_, ih hrest⟩
        rcases (mem_place hrest).1 hz with rfl | ⟨hz, -⟩
        · exact lt_of_le_of_ne (not_lt.1 hge) (Ne.symm hne)
        · exact hy z hz

end

namespace Index

variable {R : Type} {pk : Property R} {ix : Index R} {s : State R}

/-! ## Writes -/

/-- The record that a write is about. -/
def Write.record : Write R → R
  | .put record => record
  | .remove record => record

/-- What a write does to a list in ascending order of keys. -/
def Write.update (key : R → List Key) (records : List R) : Write R → List R
  | .put record => place key record records
  | .remove record => records.filter (key · ≠ key record)

theorem Write.mem_update_of_ne {key : R → List Key} {records : List R}
    (h : records.Pairwise (key · < key ·)) {x : R} (hx : x ∈ records) {w : Write R}
    (hne : key x ≠ key w.record) : x ∈ w.update key records := by
  cases w with
  | put record => exact (mem_place h).2 (.inr ⟨hx, hne⟩)
  | remove record => exact List.mem_filter.2 ⟨hx, decide_eq_true hne⟩

/-- An index updates its records as a sorted list. -/
theorem records_write (hix : ix.Layered) (hs : ix.Laid s) (w : Write R) :
    (ix.write s w).records = w.update ix.keys s.records := by
  have hsorted := pairwise_keys hix hs
  cases w with
  | put record =>
    obtain ⟨hfits, hmem⟩ := fits_put hix record hs
    refine (eq_records hix (.inr hfits) (pairwise_place hsorted) fun x => ?_).symm
    rw [mem_place hsorted, hmem]
  | remove record =>
    obtain ⟨hlaid, hmem⟩ := laid_remove hix record hs
    refine (eq_records hix hlaid (hsorted.filter _) fun x => ?_).symm
    rw [List.mem_filter, hmem, decide_eq_true_iff]

/-- A record stays through writes that are about records with other keys. -/
theorem mem_foldl_write (hix : ix.Layered) (hs : ix.Laid s) {x : R} (hx : x ∈ s.records)
    {writes : List (Write R)} (hne : ∀ w ∈ writes, ix.keys x ≠ ix.keys w.record) :
    x ∈ (writes.foldl ix.write s).records := by
  induction writes generalizing s with
  | nil => exact hx
  | cons w writes ih =>
    obtain ⟨hw, hrest⟩ := List.forall_mem_cons.1 hne
    refine ih (laid_write hix hs w) ?_ hrest
    rw [records_write hix hs]
    exact Write.mem_update_of_ne (pairwise_keys hix hs) hx hw

/-! ## Chains -/

/-- The tuple by which a chain places a record: the key on each property in turn, and at last the
primary key. -/
def tuple (ps : List (Property R)) (pk : Property R) (record : R) : List Key :=
  ps.map (·.get record) ++ [pk.get record]

theorem keys_chain (ps : List (Property R)) (pk : Property R) :
    (chain ps pk).keys = tuple ps pk := by
  funext record
  induction ps with
  | nil => rfl
  | cons p ps ih => exact congrArg (p.get record :: ·) ih

/-- Putting a record into what a chain holds, or removing one, is the update of a list that ascends
by the whole tuple. The list is that of the records, which are what a forward walk visits, in this
order (`State.walk_eq`). A record stays as long as no write is about its own tuple, whatever part of
it the records of these writes share. -/
theorem chain_updates (ps : List (Property R)) (pk : Property R) (writes : List (Write R)) :
    (∀ record, ((chain ps pk).put record ((chain ps pk).written writes)).records =
        place (tuple ps pk) record ((chain ps pk).written writes).records) ∧
      (∀ record, ((chain ps pk).remove record ((chain ps pk).written writes)).records =
        ((chain ps pk).written writes).records.filter (tuple ps pk · ≠ tuple ps pk record)) ∧
      (∀ record,
        ((chain ps pk).put record ((chain ps pk).written writes)).records.Pairwise
          (tuple ps pk · < tuple ps pk ·) ∧
        ((chain ps pk).remove record ((chain ps pk).written writes)).records.Pairwise
          (tuple ps pk · < tuple ps pk ·)) ∧
      ∀ x ∈ ((chain ps pk).written writes).records, ∀ later : List (Write R),
        (∀ w ∈ later, tuple ps pk x ≠ tuple ps pk w.record) →
          x ∈ ((chain ps pk).written (writes ++ later)).records := by
  have hix : (chain ps pk).Layered := (chained_chain pk ps).layered
  have hlaid : (chain ps pk).Laid ((chain ps pk).written writes) := laid_written hix writes
  rw [← keys_chain]
  refine ⟨fun record => ?_, fun record => ?_, fun record => ⟨?_, ?_⟩, fun x hx later hne => ?_⟩
  · exact records_write hix hlaid (.put record)
  · exact records_write hix hlaid (.remove record)
  · exact pairwise_keys hix (laid_write hix hlaid (.put record))
  · exact pairwise_keys hix (laid_write hix hlaid (.remove record))
  · rw [written, List.foldl_append]
    exact mem_foldl_write hix hlaid hx hne

/-! ### A chain over houses -/

structure House where
  district : Int
  street : Int
  number : Int
  deriving DecidableEq

namespace House

/-- The chain of districts and streets, with the house number as the primary key. -/
def places : List (Property House) :=
  [⟨"district", (.int ·.district)⟩, ⟨"street", (.int ·.street)⟩]

def houseNumber : Property House :=
  ⟨"number", (.int ·.number)⟩

/-- Two houses of one street and one of another. -/
def built : List (Write House) :=
  [.put ⟨1, 2, 30⟩, .put ⟨1, 2, 10⟩, .put ⟨1, 7, 20⟩]

/-- A house goes and another one comes in the same street. -/
def rebuilt : List (Write House) :=
  [.remove ⟨1, 2, 30⟩, .put ⟨1, 2, 20⟩]

theorem chain_updates_houses :
    ⟨1, 2, 10⟩ ∈ ((chain places houseNumber).written built).records ∧
      (∀ w ∈ rebuilt, tuple places houseNumber ⟨1, 2, 10⟩ ≠ tuple places houseNumber w.record) ∧
      ⟨1, 2, 10⟩ ∈ ((chain places houseNumber).written (built ++ rebuilt)).records := by
  have hbuilt : ⟨1, 2, 10⟩ ∈ ((chain places houseNumber).written built).records := by
    decide +kernel
  have hothers : ∀ w ∈ rebuilt,
      tuple places houseNumber ⟨1, 2, 10⟩ ≠ tuple places houseNumber w.record := by
    decide +kernel
  exact ⟨hbuilt, hothers,
    (chain_updates places houseNumber built).2.2.2 _ hbuilt rebuilt hothers⟩

end House

end Index

end RecordStore
