import RecordStore.Proofs.Engine.Follows
import RecordStore.Proofs.Engine.Select
import RecordStore.Proofs.Plan.Alike
/-!
# Engines do not show their history

What has come and gone leaves trees of many shapes, but the records of a complete alternative always
come in the order of its keys (`Holds.records_eq`). Engines of one setup that store the same
records, in alternatives of which the same are complete, therefore plan alike (`Holds.alike`).
Nothing that they select, explain or remove tells them apart, whatever was done to them before
(`Run.SameContents.indistinguishable`).
-/

namespace RecordStore

open Log

namespace Index

variable {R : Type} {pk : Property R} {choices : List (Index R)} {s t : State R} {m : Store R}

/-- A complete alternative lists the records of a store in one order. -/
theorem Holds.records_eq (hs : Holds pk choices s m) (ht : Holds pk choices t m) {i : Nat}
    (hi : i < choices.length) (hslags : lags s i = false) (htlags : lags t i = false) :
    (slot t i).records = (slot s i).records :=
  hs.slot_records_eq ht (List.getElem?_eq_getElem hi) hslags (List.getElem?_eq_getElem hi) htlags

/-- States that hold one store in the same complete alternatives are alike. -/
theorem Holds.alike (hs : Holds pk choices s m) (ht : Holds pk choices t m)
    (hlags : ∀ i < choices.length, lags t i = lags s i) : Alike choices s t where
  left := hs.fanned
  right := ht.fanned
  lags := hlags
  records i hi hcomplete := hs.records_eq ht hi hcomplete ((hlags i hi).trans hcomplete)

end Index

namespace Run

variable {R : Type} {a b : Run R}

/-- Whether two runs have come to engines of one setup that store the same records, in alternatives
of which the same can be read. -/
structure SameContents (a b : Run R) : Prop where
  primaryKey : b.primaryKey = a.primaryKey
  alternatives : b.engine.alternatives = a.engine.alternatives
  lags : ∀ i < a.engine.alternatives.length,
    Index.lags b.engine.state i = Index.lags a.engine.state i
  stored : b.ledger.stored = a.ledger.stored

namespace SameContents

theorem engine_primaryKey (h : SameContents a b) : b.engine.primaryKey = a.engine.primaryKey :=
  b.follows.primaryKey.trans (h.primaryKey.trans a.follows.primaryKey.symm)

/-- The plans of a query are alike. -/
theorem choose (h : SameContents a b) (q : Query R) :
    (Plan.choose a.engine.alternatives a.engine.state q).Alike
      (Plan.choose b.engine.alternatives b.engine.state q) := by
  have ha := a.holds
  have hb := b.holds
  rw [h.primaryKey, h.alternatives, h.stored] at hb
  rw [h.alternatives]
  exact (ha.alike hb h.lags).choose (fun choice hc => (ha.chained choice hc).layered) ha.nonempty q

theorem select_eq (h : SameContents a b) (q : Query R) {S : Type} (sink : Sink R S) (st : S)
    (threshold threshold' : Threshold) :
    ((b.engine.select q sink st).value threshold').1 =
      ((a.engine.select q sink st).value threshold).1 := by
  have hexecute := (h.choose (q.normalized a.engine.primaryKey)).execute_eq
    (q.normalized a.engine.primaryKey) sink st
  rw [Engine.value_select, Engine.value_select, Snapshot.value_select, Snapshot.value_select]
  dsimp only [Engine.view]
  rw [h.engine_primaryKey, hexecute]

theorem explain_eq (h : SameContents a b) (q : Query R) : b.engine.explain q = a.engine.explain q := by
  show Explain.ofPlan (Plan.choose b.engine.alternatives b.engine.state
      (q.normalized b.engine.primaryKey)) (q.normalized b.engine.primaryKey) =
    Explain.ofPlan (Plan.choose a.engine.alternatives a.engine.state
      (q.normalized a.engine.primaryKey)) (q.normalized a.engine.primaryKey)
  rw [h.engine_primaryKey]
  exact (h.choose _).ofPlan_eq _

theorem selectedKeys_eq (h : SameContents a b) (q : Query R) :
    b.engine.selectedKeys q = a.engine.selectedKeys q := by
  unfold Engine.selectedKeys
  rw [h.engine_primaryKey]
  exact (h.choose _).execute_eq _ _ _

/-- A removal leaves the same records stored if both engines honour its query, or neither does. -/
theorem stored_removeAll (h : SameContents a b)
    (hhonor : b.config.honorRemoveAllFilters = a.config.honorRemoveAllFilters) (q : Query R) :
    (b.ledger.after b.engine (.removeAll q)).stored =
      (a.ledger.after a.engine (.removeAll q)).stored := by
  have ha : a.engine.config = a.config := a.follows.config
  have hb : b.engine.config = b.config := b.follows.config
  rw [Ledger.stored_removeAll, Ledger.stored_removeAll, ha, hb, hhonor, h.selectedKeys_eq q, h.stored]

theorem count_removeAll_eq (h : SameContents a b)
    (hhonor : b.config.honorRemoveAllFilters = a.config.honorRemoveAllFilters) (q : Query R)
    (threshold threshold' : Threshold) :
    ((b.engine.removeAll q).value threshold').1 = ((a.engine.removeAll q).value threshold).1 := by
  have ha : ((a.engine.removeAll q).value threshold).1 +
      (a.ledger.after a.engine (.removeAll q)).stored.size = a.ledger.stored.size :=
    a.follows.count_removeAll_add q threshold
  have hb : ((b.engine.removeAll q).value threshold').1 +
      (b.ledger.after b.engine (.removeAll q)).stored.size = b.ledger.stored.size :=
    b.follows.count_removeAll_add q threshold'
  rw [h.stored_removeAll hhonor q, h.stored] at hb
  omega

/-- What is left of two engines after a removal lists the same records. -/
theorem records_removeAll_eq (h : SameContents a b)
    (hhonor : b.config.honorRemoveAllFilters = a.config.honorRemoveAllFilters) (q : Query R)
    (threshold threshold' : Threshold) :
    ((b.engine.removeAll q).value threshold').2.state.records =
      ((a.engine.removeAll q).value threshold).2.state.records := by
  have ha := a.follows.holds_removeAll q threshold
  have hb : Index.Holds b.primaryKey b.engine.alternatives
      ((b.engine.removeAll q).value threshold').2.state
      (b.ledger.after b.engine (.removeAll q)).stored := b.follows.holds_removeAll q threshold'
  rw [h.primaryKey, h.alternatives, h.stored_removeAll hhonor q] at hb
  have hrecords := ha.records_eq hb (List.length_pos_iff.2 ha.nonempty) (Index.lags_zero ha.fanned.spread)
    (Index.lags_zero hb.fanned.spread)
  rw [← ha.fanned.spread.records_eq, ← hb.fanned.spread.records_eq] at hrecords
  exact hrecords

theorem find?_removeAll_eq (h : SameContents a b)
    (hhonor : b.config.honorRemoveAllFilters = a.config.honorRemoveAllFilters) (q : Query R)
    (threshold threshold' : Threshold) (key : Key) :
    ((b.engine.removeAll q).value threshold').2.view.find? key =
      ((a.engine.removeAll q).value threshold).2.view.find? key := by
  have ha : ((a.engine.removeAll q).value threshold).2.view.find? key =
      (a.ledger.after a.engine (.removeAll q)).stored[key]? := a.follows.find?_removeAll q threshold key
  have hb : ((b.engine.removeAll q).value threshold').2.view.find? key =
      (b.ledger.after b.engine (.removeAll q)).stored[key]? := b.follows.find?_removeAll q threshold' key
  rw [ha, hb, h.stored_removeAll hhonor q]

end SameContents

/-- The history of an engine does not show in what it selects, explains or removes. -/
theorem SameContents.indistinguishable (h : SameContents a b) (q : Query R) :
    (∀ {S : Type} (sink : Sink R S) (st : S) (threshold threshold' : Threshold),
        ((b.engine.select q sink st).value threshold').1 =
          ((a.engine.select q sink st).value threshold).1) ∧
      b.engine.explain q = a.engine.explain q ∧
      (b.config.honorRemoveAllFilters = a.config.honorRemoveAllFilters →
        ∀ threshold threshold' : Threshold,
          ((b.engine.removeAll q).value threshold').1 = ((a.engine.removeAll q).value threshold).1 ∧
          ((b.engine.removeAll q).value threshold').2.state.records =
            ((a.engine.removeAll q).value threshold).2.state.records ∧
          ∀ key, ((b.engine.removeAll q).value threshold').2.view.find? key =
            ((a.engine.removeAll q).value threshold).2.view.find? key) :=
  ⟨h.select_eq q, h.explain_eq q, fun hhonor threshold threshold' =>
    ⟨h.count_removeAll_eq hhonor q threshold threshold',
      h.records_removeAll_eq hhonor q threshold threshold',
      h.find?_removeAll_eq hhonor q threshold threshold'⟩⟩

/-- Three records that come in turn. -/
def ascending : Run (Int × Int) where
  primaryKey := identifier
  config := { honorRemoveAllFilters := true }
  threshold := none
  operations := [.addIndex amount, .put (1, 30), .put (2, 20), .put (3, 10)]

/-- The same records by another way: they come in reverse, one replaces another, and a fourth one
goes. -/
def roundabout : Run (Int × Int) where
  primaryKey := identifier
  config := { honorRemoveAllFilters := true }
  threshold := none
  operations := [.addIndex amount, .put (4, 5), .put (3, 10), .put (2, 50), .put (1, 30),
    .put (2, 20), .remove (4, 0)]

theorem sameContents_roundabout : ascending.SameContents roundabout where
  primaryKey := rfl
  alternatives := by
    rw [alternatives_eq, alternatives_eq]
    rfl
  lags := by
    rw [alternatives_eq]
    decide +kernel
  stored := Std.ExtTreeMap.toList_inj.1 (by decide +kernel)

/-- Both ways lead to the same largest amount, the same plan for it and the same rest without it. -/
theorem indistinguishable_roundabout :
    ascending.SameContents roundabout ∧
      ((roundabout.engine.select largest .collect {}).value none).1 =
        ((ascending.engine.select largest .collect {}).value none).1 ∧
      roundabout.engine.explain largest = ascending.engine.explain largest ∧
      roundabout.config.honorRemoveAllFilters = ascending.config.honorRemoveAllFilters ∧
      ((roundabout.engine.removeAll largest).value none).1 =
        ((ascending.engine.removeAll largest).value none).1 ∧
      ((roundabout.engine.removeAll largest).value none).2.state.records =
        ((ascending.engine.removeAll largest).value none).2.state.records ∧
      ∀ key, ((roundabout.engine.removeAll largest).value none).2.view.find? key =
        ((ascending.engine.removeAll largest).value none).2.view.find? key := by
  obtain ⟨hselect, hexplain, hremove⟩ :=
    SameContents.indistinguishable sameContents_roundabout largest
  exact ⟨sameContents_roundabout, hselect .collect {} none none, hexplain, rfl, hremove rfl none none⟩

end Run

end RecordStore
