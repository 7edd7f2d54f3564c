import Mathlib
import RecordStore.Proofs.Key
import RecordStore.Property
/-!
# Stores

A store is a finite map from primary keys to records: what an engine holds, with no word on how it
is indexed. In a keyed store every record is bound to its own primary key, so `Store.records` lists
each record once (`nodup_records`), and any list that does the same is a permutation of it
(`perm_records`).
-/

namespace RecordStore

/-- A finite map from primary keys to records. -/
abbrev Store (R : Type) := Std.ExtTreeMap Key R compare

namespace Store

variable {R : Type} {pk : Property R} {m : Store R}

/-- The records of a store, in the order of their primary keys. -/
def records (m : Store R) : List R :=
  m.toList.map (·.2)

/-- Whether every record is bound to its own primary key. -/
def Keyed (pk : Property R) (m : Store R) : Prop :=
  ∀ (k : Key) (r : R), m[k]? = some r → pk.get r = k

theorem getElem?_insert (m : Store R) (key k : Key) (record : R) :
    (m.insert key record)[k]? = if k = key then some record else m[k]? := by
  rw [Std.ExtTreeMap.getElem?_insert]
  exact if_congr (Std.LawfulEqOrd.compare_eq_iff_eq.trans eq_comm) rfl rfl

theorem getElem?_erase (m : Store R) (key k : Key) :
    (m.erase key)[k]? = if k = key then none else m[k]? := by
  rw [Std.ExtTreeMap.getElem?_erase]
  exact if_congr (Std.LawfulEqOrd.compare_eq_iff_eq.trans eq_comm) rfl rfl

theorem insert_erase (m : Store R) (key : Key) (record : R) :
    (m.erase key).insert key record = m.insert key record := by
  apply Std.ExtTreeMap.ext_getElem?
  intro k
  rw [getElem?_insert, getElem?_insert, getElem?_erase]
  split <;> rfl

/-- Erasing a key takes one record away, or none if it is not bound. -/
theorem size_erase_add (m : Store R) (key : Key) :
    (m.erase key).size + m[key]?.toList.length = m.size := by
  rw [Std.ExtTreeMap.size_erase]
  by_cases hkey : key ∈ m
  · have hpos : m.size ≠ 0 := fun hzero => by
      rw [Std.ExtTreeMap.eq_empty_iff_size_eq_zero.2 hzero] at hkey
      exact Std.ExtTreeMap.not_mem_empty hkey
    rw [if_pos (Std.ExtTreeMap.mem_iff_contains.1 hkey), Std.ExtTreeMap.getElem?_eq_some_getElem hkey,
      Option.toList_some, List.length_singleton]
    omega
  · rw [if_neg fun h => hkey (Std.ExtTreeMap.mem_iff_contains.2 h), Std.ExtTreeMap.getElem?_eq_none hkey]
    rfl

theorem getElem?_foldl_erase (m : Store R) (keys : List Key) (k : Key) :
    (keys.foldl (fun m key => m.erase key) m)[k]? = if k ∈ keys then none else m[k]? := by
  induction keys generalizing m with
  | nil => simp
  | cons key keys ih =>
    rw [List.foldl_cons, ih, getElem?_erase]
    by_cases hkey : k = key <;> simp [hkey]

theorem keyed_empty : Keyed pk (∅ : Store R) := fun k r h => by simp at h

theorem Keyed.insert (h : m.Keyed pk) (record : R) : Keyed pk (m.insert (pk.get record) record) := by
  intro k r hk
  rw [getElem?_insert] at hk
  split at hk
  · next e =>
    cases hk
    exact e.symm
  · exact h k r hk

theorem Keyed.erase (h : m.Keyed pk) (key : Key) : Keyed pk (m.erase key) := by
  intro k r hk
  rw [getElem?_erase] at hk
  split at hk
  · cases hk
  · exact h k r hk

theorem mem_records (h : m.Keyed pk) {x : R} : x ∈ m.records ↔ m[pk.get x]? = some x := by
  rw [records, List.mem_map]
  constructor
  · rintro ⟨⟨k, _⟩, hmem, rfl⟩
    have hget := Std.ExtTreeMap.mem_toList_iff_getElem?_eq_some.1 hmem
    rwa [h k _ hget]
  · exact fun hget => ⟨_, Std.ExtTreeMap.mem_toList_iff_getElem?_eq_some.2 hget, rfl⟩

theorem getElem?_eq_some_iff (h : m.Keyed pk) {key : Key} {r : R} :
    m[key]? = some r ↔ r ∈ m.records ∧ pk.get r = key := by
  constructor
  · intro hget
    obtain rfl := h key r hget
    exact ⟨(mem_records h).2 hget, rfl⟩
  · rintro ⟨hr, rfl⟩
    exact (mem_records h).1 hr

/-- A keyed store is told by its records. -/
theorem eq_of_perm {m' : Store R} (h : m.Keyed pk) (h' : m'.Keyed pk)
    (hperm : m.records.Perm m'.records) : m = m' := by
  refine Std.ExtTreeMap.ext_getElem? fun key => Option.ext fun r => ?_
  rw [getElem?_eq_some_iff h, getElem?_eq_some_iff h', hperm.mem_iff]

/-- A record is the only one of a keyed store with its primary key. -/
theorem eq_of_mem_records (h : m.Keyed pk) {x y : R} (hx : x ∈ m.records) (hy : y ∈ m.records)
    (hxy : pk.get x = pk.get y) : x = y := by
  rw [mem_records h] at hx hy
  rw [hxy, hy] at hx
  exact (Option.some.inj hx).symm

theorem nodup_records (h : m.Keyed pk) : m.records.Nodup := by
  have hkeys : (m.toList.map (·.1)).Nodup := by
    rw [Std.ExtTreeMap.map_fst_toList_eq_keys]
    exact Std.ExtTreeMap.nodup_keys
  have hsame : m.records.map pk.get = m.toList.map (·.1) := by
    rw [records, List.map_map]
    exact List.map_congr_left fun a ha =>
      h a.1 a.2 (Std.ExtTreeMap.mem_toList_iff_getElem?_eq_some.1 ha)
  exact .of_map pk.get (hsame ▸ hkeys)

@[simp] theorem length_records (m : Store R) : m.records.length = m.size := by
  rw [records, List.length_map, Std.ExtTreeMap.length_toList]

/-- A list of exactly the records of a store, each once, is a permutation of them. -/
theorem perm_records (h : m.Keyed pk) {records : List R} (hnodup : records.Nodup)
    (hmem : ∀ x, x ∈ records ↔ m[pk.get x]? = some x) : records.Perm m.records :=
  (List.perm_ext_iff_of_nodup hnodup (nodup_records h)).2 fun x => by rw [hmem, mem_records h]

/-- A store that has lost some records is the smaller by their number, each taken once. -/
theorem size_add_ncard {m' : Store R} (h : m.Keyed pk) (h' : m'.Keyed pk) {gone : List R}
    (hgone : ∀ r ∈ gone, m[pk.get r]? = some r)
    (hleft : ∀ r, m'[pk.get r]? = some r ↔ m[pk.get r]? = some r ∧ r ∉ gone) :
    m'.size + {r | r ∈ gone}.ncard = m.size := by
  classical
  have hnodup : (m'.records ++ gone.dedup).Nodup :=
    List.nodup_append.2 ⟨nodup_records h', gone.nodup_dedup, fun a ha b hb e => by
      rw [mem_records h', hleft] at ha
      exact ha.2 (e ▸ List.mem_dedup.1 hb)⟩
  have hperm : (m'.records ++ gone.dedup).Perm m.records := by
    refine perm_records h hnodup fun x => ?_
    rw [List.mem_append, List.mem_dedup, mem_records h', hleft]
    by_cases hx : x ∈ gone
    · simp [hx, hgone x hx]
    · simp [hx]
  have hcard : {r | r ∈ gone}.ncard = gone.dedup.length := by
    rw [← List.coe_toFinset, Set.ncard_coe_finset, List.card_toFinset]
  have hlength := hperm.length_eq
  rw [List.length_append, length_records, length_records] at hlength
  omega

theorem isEmpty_iff_getElem? : m.isEmpty = true ↔ ∀ k : Key, m[k]? = none := by
  rw [Std.ExtTreeMap.isEmpty_iff]
  exact ⟨fun h k => by rw [h]; exact Std.ExtTreeMap.getElem?_empty,
    fun h => Std.ExtTreeMap.ext_getElem? fun k => by rw [h k]; exact Std.ExtTreeMap.getElem?_empty.symm⟩

end Store

end RecordStore
