import RecordStore.Index.Lookup
import RecordStore.Proofs.Index.Layout
/-!
# Chains over a primary key

`Index.Chained` picks out the indexes that an engine registers: nested trees that end in the unique
tree of the primary key. The last key by which such an index places a record is its primary key, so
it never takes two records with different primary keys for one (`Chained.primaryKey_eq`).

* The records of a chain come in strictly ascending order of all its keys (`pairwise_keys`).
* A lookup finds the first record with the given primary key, whether it descends by that key or
  searches the tails (`find?_eq`).
-/

namespace RecordStore.Index

variable {R : Type} {pk : Property R}

/-- Nested trees that end in the tree of the primary key. -/
inductive Chained (pk : Property R) : Index R → Prop where
  | unique : Chained pk (unique pk)
  | tree (p : Property R) {tail : Index R} : Chained pk tail → Chained pk (tree p tail false)

theorem chained_chain (pk : Property R) (ps : List (Property R)) : Chained pk (chain ps pk) := by
  induction ps with
  | nil => exact .unique
  | cons p ps ih => exact .tree p ih

theorem chained_secondary (p pk : Property R) : Chained pk (secondary p pk) :=
  .tree p .unique

/-- The indexes over a primary key: its own tree, an index on one property, a chain on several. -/
inductive Registered (pk : Property R) : Index R → Prop where
  | unique : Registered pk (unique pk)
  | secondary (p : Property R) : Registered pk (secondary p pk)
  | chain (ps : List (Property R)) : Registered pk (chain ps pk)

theorem Registered.chained {ix : Index R} (h : Registered pk ix) : Chained pk ix := by
  cases h with
  | unique => exact .unique
  | secondary p => exact chained_secondary p pk
  | chain ps => exact chained_chain pk ps

theorem Chained.layered {ix : Index R} (h : Chained pk ix) : ix.Layered := by
  induction h with
  | unique => exact .tree pk true .value
  | tree p _ ih => exact .tree p false ih

theorem Chained.primaryKey_eq {ix : Index R} (h : Chained pk ix) {a b : R}
    (hab : ix.keys a = ix.keys b) : pk.get a = pk.get b := by
  induction h with
  | unique => exact (List.cons.inj hab).1
  | tree p _ ih => exact ih (List.cons.inj hab).2

theorem Chained.mem_properties {ix : Index R} (h : Chained pk ix) : pk ∈ ix.properties := by
  induction h with
  | unique => exact List.mem_cons_self
  | tree p _ ih => exact List.mem_cons_of_mem _ ih

/-! ## The order of the records -/

theorem pairwise_keys {ix : Index R} (hix : ix.Layered) {s : State R} (hs : ix.Laid s) :
    s.records.Pairwise fun a b => ix.keys a < ix.keys b := by
  induction hix generalizing s with
  | value => rcases hs with rfl | ⟨record, rfl⟩ <;> simp
  | @tree p tail unique _ ih =>
    have hroot := hs.sound_root
    have hunder {a : Key × State R} (ha : a ∈ s.root.toList) : TailFits p tail a.1 a.2 :=
      hroot.of_mem ha
    rw [hs.records_root, State.recordsOfTree_eq, List.pairwise_flatMap]
    constructor
    · intro a ha
      refine List.Pairwise.imp_of_mem (fun {x y} hx hy hxy => ?_) (ih (.inr (hunder ha).1))
      rw [keys, keys, (hunder ha).2 x hx, (hunder ha).2 y hy, List.cons_lt_cons_iff]
      exact .inr ⟨rfl, hxy⟩
    · refine List.Pairwise.imp_of_mem (fun {a b} ha hb hab x hx y hy => ?_) hroot.ordered
      rw [keys, keys, (hunder ha).2 x hx, (hunder hb).2 y hy, List.cons_lt_cons_iff]
      exact .inl hab

theorem nodup_records {ix : Index R} (hix : ix.Layered) {s : State R} (hs : ix.Laid s) :
    s.records.Nodup :=
  (pairwise_keys hix hs).imp fun {a b} hlt e => by
    rw [e] at hlt
    exact List.lt_irrefl _ hlt

/-- A list of the records in that order is the list that a walk makes of them. -/
theorem eq_records {ix : Index R} (hix : ix.Layered) {s : State R} (hs : ix.Laid s) {records : List R}
    (hrecords : records.Pairwise fun a b => ix.keys a < ix.keys b)
    (hmem : ∀ x, x ∈ records ↔ x ∈ s.records) : records = s.records := by
  have hnodup : records.Nodup := hrecords.imp fun {a b} hlt e => by
    rw [e] at hlt
    exact List.lt_irrefl _ hlt
  have hperm := (List.perm_ext_iff_of_nodup hnodup (nodup_records hix hs)).2 hmem
  exact hperm.eq_of_pairwise (fun a b _ _ hab hba => absurd hba (List.lt_asymm hab)) hrecords
    (pairwise_keys hix hs)

/-! ## Lookups -/

theorem find?_flatMap {find : State R → Option R} {q : R → Bool} {as : List (Key × State R)}
    (h : ∀ a ∈ as, find a.2 = a.2.records.find? q) :
    as.findSome? (fun a => find a.2) = (as.flatMap fun a => a.2.records).find? q := by
  rw [List.find?_flatMap]
  induction as with
  | nil => rfl
  | cons a as ih =>
    rw [List.findSome?_cons, List.findSome?_cons, h a List.mem_cons_self,
      ih fun b hb => h b (List.mem_cons_of_mem _ hb)]

theorem find?_unique {s : State R} (hs : (unique pk).Laid s) (key : Key) :
    (unique pk).find? key s = s.records.find? (pk.get · == key) := by
  have hroot := hs.sound_root
  rw [unique, find?, hs.records_root]
  cases hget : s.root.get? key with
  | none =>
    refine (List.find?_eq_none.2 fun x hx hk => ?_).symm
    obtain ⟨under, hunder, -⟩ := (mem_recordsOfTree hroot).1 hx
    rw [beq_iff_eq.1 hk, hget] at hunder
    cases hunder
  | some under =>
    obtain ⟨⟨record, rfl⟩, hkey⟩ := hroot.tails key under hget
    have hrecord : pk.get record = key := hkey record (by simp)
    have hmem : record ∈ State.recordsOfTree s.root :=
      (mem_recordsOfTree hroot).2 ⟨_, hrecord ▸ hget, by simp⟩
    cases hfind : (State.recordsOfTree s.root).find? (pk.get · == key) with
    | none => exact absurd hrecord (by simpa using List.find?_eq_none.1 hfind record hmem)
    | some found =>
      obtain ⟨under, hunder, hfound⟩ := (mem_recordsOfTree hroot).1 (List.mem_of_find?_eq_some hfind)
      have hkfound : pk.get found = key := by simpa using List.find?_some hfind
      rw [hkfound, hget] at hunder
      cases hunder
      rw [State.records_single, List.mem_singleton] at hfound
      rw [hfound]
      rfl

/-- A lookup finds the first record with the given primary key. -/
theorem find?_eq {ix : Index R} (hix : Chained pk ix) {s : State R} (hs : ix.Laid s) (key : Key) :
    ix.find? key s = s.records.find? (pk.get · == key) := by
  induction hix generalizing s with
  | unique => exact find?_unique hs key
  | @tree p tail _ ih =>
    have hroot := hs.sound_root
    rw [find?, hs.records_root, State.recordsOfTree_eq, Tree.findSome?_eq]
    exact find?_flatMap fun a ha => ih (.inr (hroot.of_mem ha).1)

end RecordStore.Index
