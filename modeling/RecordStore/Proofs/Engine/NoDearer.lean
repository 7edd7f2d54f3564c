import RecordStore.Proofs.Engine.Account
import RecordStore.Proofs.Engine.Readable
import RecordStore.Proofs.Plan.Alike
import RecordStore.Proofs.Plan.Cheapest
/-!
# More indexes have cheaper plans

An engine plans each query as the first of the cheapest indexes that it can read does
(`Index.exists_preferred_plan`). Whoever can read more indexes over the same records therefore never
pays more (`Index.Holds.noDearer`): not for a query as a whole and not for a branch of a union, as
`Explain.NoDearer` says of the reports. `Snapshot.onPrimary` reduces a snapshot to the tree of the
primary key, which can always be read.
-/

namespace RecordStore

open Log Index

variable {R : Type}

/-! ## Explanations -/

/-- Whether a report asks no more than another one does, as a whole and branch by branch. -/
structure Explain.NoDearer (e f : Explain) : Prop where
  cost : e.cost ≤ f.cost
  branches : List.Forall₂ (fun a b => a.predicate = b.predicate ∧ a.cost ≤ b.cost) e.branches f.branches

namespace Explain

@[simp] theorem cost_ofPlan (plan : Plan R) (q : Query R) : (ofPlan plan q).cost = plan.cost := by
  cases plan <;> rfl

@[simp] theorem predicate_ofPlan (plan : Plan R) (q : Query R) :
    (ofPlan plan q).predicate = q.predicate.map Predicate.display := by
  cases plan <;> rfl

theorem branches_ofPlan {plan : Plan R} (h : plan.isUnion = false) (q : Query R) :
    (ofPlan plan q).branches = [] := by
  cases plan with
  | union branches => cases h
  | _ => rfl

@[simp] theorem ofBranches_eq (branches : List (Predicate R × Plan R)) :
    ofBranches branches = branches.map fun branch => ofPlan branch.2 { predicate := some branch.1 } := by
  induction branches with
  | nil => rfl
  | cons branch rest ih => rw [ofBranches, List.map_cons, ih]

end Explain

/-- What an engine reports for a query. -/
theorem Engine.explain_eq (e : Engine R) (q : Query R) :
    e.explain q = .ofPlan (Plan.choose e.alternatives e.state (q.normalized e.primaryKey))
      (q.normalized e.primaryKey) := rfl

theorem Plan.costOfAll_le {terms : List (Predicate R)} {plan plan' : Predicate R → Plan R}
    (h : ∀ term ∈ terms, (plan term).cost ≤ (plan' term).cost) :
    costOfAll (terms.map fun term => (term, plan term)) ≤
      costOfAll (terms.map fun term => (term, plan' term)) := by
  induction terms with
  | nil => exact Nat.le_refl _
  | cons term rest ih =>
    have hfirst := h term List.mem_cons_self
    have hrest := ih fun other hother => h other (List.mem_cons_of_mem _ hother)
    rw [List.map_cons, List.map_cons, costOfAll, costOfAll]
    unfold addCost
    omega

/-! ## Plans -/

namespace Index

variable {pk : Property R} {choices choices' : List (Index R)} {s t : State R} {m : Store R}

/-- Alternatives whose plans never cost more have no dearer reports. -/
theorem noDearer_choose (hempty : t.isEmpty = s.isEmpty)
    (hplan : ∀ predicate order, ((alternatives choices').plan predicate t order).cost ≤
      ((alternatives choices).plan predicate s order).cost) (q : Query R) :
    (Explain.ofPlan (Plan.choose choices' t q) q).NoDearer
      (Explain.ofPlan (Plan.choose choices s q) q) := by
  by_cases hany : ∃ terms, q.predicate = some (.any terms)
  · obtain ⟨terms, hterms⟩ := hany
    unfold Plan.choose
    rw [hterms, hempty]
    dsimp only
    split
    · exact ⟨Nat.le_refl 0, .nil⟩
    · constructor
      · rw [Explain.cost_ofPlan, Explain.cost_ofPlan, Plan.cost, Plan.cost]
        exact Plan.costOfAll_le fun term _ => hplan (some term) []
      · rw [Explain.ofPlan, Explain.ofPlan]
        dsimp only
        rw [Explain.ofBranches_eq, Explain.ofBranches_eq, List.map_map, List.map_map,
          List.forall₂_map_left_iff, List.forall₂_map_right_iff, List.forall₂_same]
        intro term _
        simp only [Function.comp_apply, Explain.predicate_ofPlan, Explain.cost_ofPlan, true_and]
        exact hplan (some term) []
  · have hnone := not_exists.1 hany
    rw [Plan.choose_of_not_any hnone, Plan.choose_of_not_any hnone]
    constructor
    · rw [Explain.cost_ofPlan, Explain.cost_ofPlan]
      exact hplan q.predicate q.sortKeys
    · rw [Explain.branches_ofPlan (isUnion_plan _ _ _ _), Explain.branches_ofPlan (isUnion_plan _ _ _ _)]
      exact .nil

namespace Holds

/-- Where more indexes are readable no plan costs more. -/
theorem plan_cost_le (hs : Holds pk choices s m) (ht : Holds pk choices' t m)
    (hreadable : ∀ ix, Readable choices s ix → Readable choices' t ix) (predicate : Option (Predicate R))
    (order : Order R) :
    ((alternatives choices').plan predicate t order).cost ≤
      ((alternatives choices).plan predicate s order).cost := by
  obtain ⟨i, ix, hi, hplan⟩ := exists_preferred_plan hs.nonempty hs.fanned.spread predicate order
  obtain ⟨j, hj, hjlags⟩ := hreadable ix ⟨i, hi.get, hi.complete⟩
  have hlayered := (hs.chained ix (List.mem_of_getElem? hi.get)).layered
  have halike : (ix.plan predicate (slot s i) order).Alike (ix.plan predicate (slot t j) order) :=
    alike_plan hlayered (hs.fanned.laid i ix hi.get) (ht.fanned.laid j ix hj)
      (hs.slot_records_eq ht hi.get hi.complete hj hjlags)
  rw [hplan, ← halike.cost_eq]
  exact Index.plan_cost_le ht.nonempty ht.fanned.spread hj hjlags predicate order

theorem noDearer (hs : Holds pk choices s m) (ht : Holds pk choices' t m)
    (hreadable : ∀ ix, Readable choices s ix → Readable choices' t ix) (q : Query R) :
    (Explain.ofPlan (Plan.choose choices' t q) q).NoDearer
      (Explain.ofPlan (Plan.choose choices s q) q) :=
  noDearer_choose (ht.isEmpty_eq.trans hs.isEmpty_eq.symm) (hs.plan_cost_le ht hreadable) q

end Holds

end Index

/-! ## The tree of the primary key alone -/

/-- A state reduced to its first slot. -/
def State.firstSlot : State R → State R
  | .slots all late => .slots (all.take 1) (late.take 1)
  | s => s

/-- A snapshot of the tree of the primary key alone. -/
def Snapshot.onPrimary (v : Snapshot R) : Snapshot R :=
  { v with alternatives := v.alternatives.take 1, state := v.state.firstSlot }

namespace Index

variable {pk : Property R} {choices : List (Index R)} {s : State R} {m : Store R}

theorem slot_firstSlot (s : State R) : slot s.firstSlot 0 = slot s 0 := by
  cases s with
  | slots slots late => cases slots <;> rfl
  | _ => rfl

theorem lags_firstSlot (s : State R) : lags s.firstSlot 0 = lags s 0 := by
  cases s with
  | slots slots late => cases late <;> rfl
  | _ => rfl

theorem Spread.firstSlot {count : Nat} (h : Spread count s) : Spread 1 s.firstSlot := by
  cases h with
  | empty => exact .empty
  | slots hfirst _ _ => exact .slots hfirst rfl Nat.zero_lt_one

/-- The first alternative holds by itself what all of them hold. -/
theorem Holds.firstSlot (h : Holds pk choices s m) : Holds pk (choices.take 1) s.firstSlot m := by
  have hpos := List.length_pos_iff.2 h.nonempty
  have hlen : (choices.take 1).length = 1 := by rw [List.length_take]; omega
  have honly {i : Nat} (hi : i < (choices.take 1).length) : i = 0 := by omega
  refine ⟨fun choice hc => h.chained choice (List.mem_of_mem_take hc), ?_, ⟨?_, fun i choice hi => ?_⟩,
    h.keyed, fun i hi hlags => ?_⟩
  · rw [Ne, ← List.length_eq_zero_iff, hlen]
    exact Nat.one_ne_zero
  · rw [hlen]
    exact h.fanned.spread.firstSlot
  · have hzero := honly (List.getElem?_eq_some_iff.1 hi).1
    subst hzero
    rw [List.getElem?_take_of_lt Nat.zero_lt_one] at hi
    rw [slot_firstSlot]
    exact h.fanned.laid 0 choice hi
  · have hzero := honly hi
    subst hzero
    rw [lags_firstSlot] at hlags
    rw [slot_firstSlot]
    exact h.mem 0 hpos hlags

theorem Readable.of_firstSlot {ix : Index R} (h : Readable (choices.take 1) s.firstSlot ix) :
    Readable choices s ix := by
  obtain ⟨i, hi, hlags⟩ := h
  have hzero : i = 0 := by
    have hlt := (List.getElem?_eq_some_iff.1 hi).1
    rw [List.length_take] at hlt
    omega
  subst hzero
  rw [List.getElem?_take_of_lt Nat.zero_lt_one] at hi
  exact ⟨0, hi, (lags_firstSlot s).symm.trans hlags⟩

end Index

end RecordStore
