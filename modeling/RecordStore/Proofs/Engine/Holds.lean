import RecordStore.Proofs.Engine.Store
import RecordStore.Proofs.Plan.Choose
/-!
# Alternatives that hold a store

`Index.Holds` says that alternatives and their state hold the records of a store: every complete
alternative holds exactly those. It is all that reading depends on, whichever alternative a lookup
or a plan goes to (`find?_eq`, `lookup_eq`, `size_eq`, `exists_execute_eq`).
-/

namespace RecordStore.Index

variable {R : Type} {pk : Property R} {choices : List (Index R)} {s : State R} {m : Store R}

/-- Whether alternatives hold the records of a store. -/
structure Holds (pk : Property R) (choices : List (Index R)) (s : State R) (m : Store R) :
    Prop where
  chained : ∀ choice ∈ choices, Chained pk choice
  nonempty : choices ≠ []
  fanned : Fanned choices s
  keyed : Store.Keyed pk m
  mem : ∀ i < choices.length, lags s i = false →
    ∀ x, x ∈ (slot s i).records ↔ m[pk.get x]? = some x

namespace Holds

/-- A complete alternative holds the records of the store, each once. -/
theorem perm_records (h : Holds pk choices s m) {i : Nat} (hi : i < choices.length)
    (hlags : lags s i = false) : (slot s i).records.Perm m.records := by
  have hget := List.getElem?_eq_getElem hi
  exact Store.perm_records h.keyed
    (nodup_records (h.chained _ (List.getElem_mem hi)).layered (h.fanned.laid i _ hget))
    (h.mem i hi hlags)

theorem perm_state_records (h : Holds pk choices s m) : s.records.Perm m.records := by
  rw [h.fanned.spread.records_eq]
  exact h.perm_records (List.length_pos_iff.2 h.nonempty) (lags_zero h.fanned.spread)

/-- Two states hold the same exactly if they list the same records. -/
theorem store_eq_iff {choices' : List (Index R)} {t : State R} {m' : Store R}
    (hs : Holds pk choices s m) (ht : Holds pk choices' t m') : m = m' ↔ s.records.Perm t.records := by
  have hleft := hs.perm_state_records
  have hright := ht.perm_state_records
  constructor
  · rintro rfl
    exact hleft.trans hright.symm
  · exact fun hsame => Store.eq_of_perm hs.keyed ht.keyed (hleft.symm.trans (hsame.trans hright))

/-- An index that is complete in two states lists the same records there, in one order. -/
theorem slot_records_eq {choices' : List (Index R)} {t : State R} (hs : Holds pk choices s m)
    (ht : Holds pk choices' t m) {ix : Index R} {i j : Nat} (hi : choices[i]? = some ix)
    (hslags : lags s i = false) (hj : choices'[j]? = some ix) (htlags : lags t j = false) :
    (slot t j).records = (slot s i).records := by
  have hlayered := (hs.chained ix (List.mem_of_getElem? hi)).layered
  refine eq_records hlayered (hs.fanned.laid i ix hi)
    (pairwise_keys hlayered (ht.fanned.laid j ix hj)) fun x => ?_
  rw [hs.mem i (List.getElem?_eq_some_iff.1 hi).1 hslags,
    ht.mem j (List.getElem?_eq_some_iff.1 hj).1 htlags]

theorem find?_records (h : Holds pk choices s m) {i : Nat} (hi : i < choices.length)
    (hlags : lags s i = false) (key : Key) :
    (slot s i).records.find? (pk.get · == key) = m[key]? := by
  have hmem := h.mem i hi hlags
  cases hget : m[key]? with
  | none =>
    rw [List.find?_eq_none]
    intro x hx hkey
    rw [hmem, beq_iff_eq.1 hkey, hget] at hx
    cases hx
  | some r =>
    have hkey : pk.get r = key := h.keyed key r hget
    have hr : r ∈ (slot s i).records := (hmem r).2 (hkey.symm ▸ hget)
    cases hfind : (slot s i).records.find? (pk.get · == key) with
    | none => exact absurd hkey (by simpa using List.find?_eq_none.1 hfind r hr)
    | some x =>
      have hx := (hmem x).1 (List.mem_of_find?_eq_some hfind)
      have hxkey : pk.get x = key := by simpa using List.find?_some hfind
      rw [hxkey, hget] at hx
      exact hx.symm

/-- Searching the alternatives finds what the store binds to a key. -/
theorem find?_eq (h : Holds pk choices s m) (key : Key) :
    (alternatives choices).find? key s = m[key]? := by
  obtain ⟨i, hi, hlags, hfind⟩ := exists_find?_eq h.chained h.nonempty h.fanned key
  rw [hfind, h.find?_records hi hlags]

/-- A lookup finds what the store binds to a key. -/
theorem lookup_eq (h : Holds pk choices s m) (key : Key) :
    ((alternatives choices).lookup s).find? key = m[key]? := by
  obtain ⟨i, hi, hlags, hfind⟩ := exists_find?_lookup_eq h.chained h.nonempty h.fanned key
  rw [hfind, h.find?_records hi hlags]

theorem size_eq (h : Holds pk choices s m) : s.size = m.size := by
  have hpos := List.length_pos_iff.2 h.nonempty
  have hlaid := h.fanned.laid 0 _ (List.getElem?_eq_getElem hpos)
  have hperm := h.perm_records hpos (lags_zero h.fanned.spread)
  rw [h.fanned.spread.size_eq, hlaid.size_eq, hperm.length_eq, Store.length_records]

/-- Each complete alternative has as many records as there are. -/
theorem length_slot (h : Holds pk choices s m) {i : Nat} (hi : i < choices.length)
    (hlags : lags s i = false) : (slot s i).records.length = s.size := by
  rw [h.size_eq, (h.perm_records hi hlags).length_eq, Store.length_records]

/-- The state is the empty one exactly if nothing is stored. -/
theorem eq_empty_iff (h : Holds pk choices s m) : s = .empty ↔ m.isEmpty = true := by
  rw [Std.ExtTreeMap.isEmpty_eq_size_beq_zero, beq_iff_eq, ← h.size_eq]
  cases h.fanned.spread with
  | empty => simp [State.size]
  | slots hfirst _ _ => simpa [State.size] using hfirst

theorem isEmpty_eq (h : Holds pk choices s m) : s.isEmpty = m.isEmpty := by
  rw [State.isEmpty, h.size_eq, Std.ExtTreeMap.isEmpty_eq_size_beq_zero]
  rfl

/-- The plan of a query puts into a sink the slice of its matches in some arrangement. -/
theorem exists_execute_eq (h : Holds pk choices s m) {q : Query R}
    (hpredicate : ∀ choice ∈ choices, ∀ p ∈ choice.properties,
      p.Agrees (q.predicate.elim [] Predicate.properties)) :
    ∃ found : List R, found.Perm (q.matches m.records) ∧
      (Trusted choices q.sortKeys →
        found.Pairwise fun a b => (q.sortKeys.compare a b).isLE = true) ∧
      ∀ {S : Type} (sink : Sink R S) (st : S),
        (Plan.choose choices s q).execute q sink st = (q.slice found).foldl sink.put st :=
  Plan.exists_execute_choose h.chained h.nonempty h.fanned (fun _ => h.perm_records) hpredicate

end Holds

end RecordStore.Index
