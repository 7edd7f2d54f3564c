import Mathlib
import RecordStore.Proofs.Plan.Contents
import RecordStore.Proofs.Plan.Sorted
/-!
# The work of a plan

`Plan.visits` is the number of records that the walks of a plan come to if nothing ends them early,
and `Plan.work` what it takes to carry the plan out: one step for each record visited, and where the
records have to be sorted as many more as they have binary digits. It is defined by the walks
themselves; no cached figure and no count of a range has a part in it.

A plan costs what it takes (`priced_choose`). Ranges are counted along two paths of a tree, and yet
the count is that of the records walked (`countRange_eq_walked`); what an index plans comes to some
record or is no scan at all (`measured_plan`), and the costs of a union add up to its cost until
they come to the largest one (`costOfAll_eq`). With fewer than `2 ^ 58` records no product and no
sum on the way is cut off (`sorting_lt`).
-/

namespace RecordStore

variable {R : Type}

namespace Scan

/-- The number of records that the walk of a scan comes to. A scan that sorts walks in index order. -/
def visits (scan : Scan R) : Nat :=
  (scan.state.walked (scan.direction.getD .asc) scan.range).length

/-- The steps that a scan takes. -/
def work (scan : Scan R) : Nat :=
  match scan.direction with
  | some _ => scan.visits
  | none => scan.visits + scan.visits * Nat.size scan.visits

/-- Whether the cost of a scan for an order is measured on its walk, which comes to some records and
to at most `bound` of them. -/
structure Measured (bound : Nat) (order : Order R) (scan : Scan R) : Prop where
  ordered : scan.state.root.Ordered
  occupied : scan.visited ≠ []
  bounded : scan.visited.length ≤ bound
  sorts : scan.direction = none → order ≠ []
  cost : scan.cost = if scan.direction.isSome then scan.visited.length
    else scan.visited.length + Index.sortPenalty scan.visited.length

end Scan

namespace Plan

mutual

/-- The number of records that the walks of a plan come to. -/
def visits : Plan R → Nat
  | nothing => 0
  | scan walk => walk.visits
  | union branches => visitsOfAll branches

def visitsOfAll : List (Predicate R × Plan R) → Nat
  | [] => 0
  | (_, plan) :: rest => visits plan + visitsOfAll rest

end

/-- The steps that a plan takes. The branches of a union come without an order. -/
def work : Plan R → Nat
  | nothing => 0
  | scan walk => walk.work
  | union branches => min (branches.map fun branch => branch.2.visits).sum (2 ^ 64 - 1)

/-- Whether a plan costs what it takes: nothing exactly if it visits nothing, and never so much that
a machine word would not hold it. -/
structure Priced (plan : Plan R) : Prop where
  cost_eq_work : plan.cost = plan.work
  cost_eq_zero_iff : plan.cost = 0 ↔ plan.visits = 0
  work_lt : plan.work < 2 ^ 64

/-- Whether a plan finds nothing or is a scan whose cost is measured on its walk. -/
def Measured (bound : Nat) (order : Order R) : Plan R → Prop
  | nothing => True
  | scan walk => walk.Measured bound order
  | union _ => False

@[simp] theorem visitsOfAll_eq (branches : List (Predicate R × Plan R)) :
    visitsOfAll branches = (branches.map fun branch => branch.2.visits).sum := by
  induction branches with
  | nil => rfl
  | cons branch rest ih => rw [visitsOfAll, List.map_cons, List.sum_cons, ih]

/-- The cost of a union is the sum of its branches' costs, up to the largest cost. -/
theorem costOfAll_eq (branches : List (Predicate R × Plan R)) :
    costOfAll branches = min (branches.map fun branch => branch.2.cost).sum maxCost := by
  induction branches with
  | nil => rfl
  | cons branch rest ih =>
    rw [costOfAll, List.map_cons, List.sum_cons, ih]
    unfold addCost
    omega

end Plan

/-! ## Counting digits -/

namespace Index

theorem bitLength_eq_size (n : Nat) : bitLength n = Nat.size n := by
  unfold bitLength
  split
  · next hzero => rw [hzero, Nat.size_zero]
  · next hne =>
    have hupper : Nat.size n ≤ n.log2 + 1 := Nat.size_le.2 Nat.lt_log2_self
    have hlower : n.log2 < Nat.size n := Nat.lt_size.2 (Nat.log2_self_le hne)
    omega

/-- Reading and sorting fewer than `2 ^ 58` records is counted below `2 ^ 64`. -/
theorem sorting_lt {count : Nat} (h : count < 2 ^ 58) : count + count * Nat.size count < 2 ^ 64 := by
  have hdigits : Nat.size count ≤ 58 := Nat.size_le.2 h
  have hproduct : count * Nat.size count ≤ count * 58 := Nat.mul_le_mul_left count hdigits
  omega

theorem sortPenalty_eq {count : Nat} (h : count < 2 ^ 58) :
    sortPenalty count = count * Nat.size count := by
  have hlt := sorting_lt h
  rw [sortPenalty, bitLength_eq_size]
  refine Nat.min_eq_left ?_
  show count * Nat.size count ≤ 2 ^ 64 - 1
  omega

end Index

/-! ## Walks that are measured -/

namespace Scan

variable {scan : Scan R} {bound bound' : Nat} {order order' : Order R}

theorem visits_eq (ho : scan.state.root.Ordered) : scan.visits = scan.visited.length := by
  rw [visits, State.walked_eq _ _ ho]
  exact (Direction.arrange_perm _ _).length_eq

theorem visits_le_work (scan : Scan R) : scan.visits ≤ scan.work := by
  unfold work
  split
  · exact Nat.le_refl _
  · exact Nat.le_add_right _ _

namespace Measured

theorem mono (h : scan.Measured bound order) (hbound : bound ≤ bound')
    (horder : order' = [] → order = []) : scan.Measured bound' order' :=
  { h with
    bounded := Nat.le_trans h.bounded hbound
    sorts := fun hnone hnil => h.sorts hnone (horder hnil) }

/-- A scan costs what it takes. -/
theorem priced (h : scan.Measured bound order) (hbound : bound < 2 ^ 58) :
    (Plan.scan scan).Priced := by
  have heq := visits_eq h.ordered
  have hpos : 0 < scan.visits := heq ▸ List.length_pos_iff.2 h.occupied
  have hlt : scan.visits < 2 ^ 58 := Nat.lt_of_le_of_lt (heq ▸ h.bounded) hbound
  have hcost : scan.cost = scan.work := by
    rw [h.cost, ← heq, Index.sortPenalty_eq hlt, work]
    cases scan.direction <;> rfl
  refine ⟨hcost, ?_, ?_⟩
  · show scan.cost = 0 ↔ scan.visits = 0
    have hle := scan.visits_le_work
    omega
  · show scan.work < 2 ^ 64
    have hsorting := Index.sorting_lt hlt
    unfold work
    split
    · omega
    · exact hsorting

/-- Without an order nothing is sorted, so the cost is the number of records visited. -/
theorem cost_of_unordered (h : scan.Measured bound []) : scan.cost = scan.visits := by
  have hdirection : scan.direction.isSome = true := by
    cases hd : scan.direction with
    | some d => rfl
    | none => exact absurd rfl (h.sorts hd)
  rw [h.cost, if_pos hdirection, visits_eq h.ordered]

end Measured

end Scan

namespace Plan

variable {plan : Plan R} {bound bound' : Nat} {order order' : Order R}

namespace Measured

theorem mono (h : plan.Measured bound order) (hbound : bound ≤ bound')
    (horder : order' = [] → order = []) : plan.Measured bound' order' := by
  cases plan with
  | nothing => trivial
  | scan walk => exact Scan.Measured.mono h hbound horder
  | union branches => exact h.elim

theorem priced (h : plan.Measured bound order) (hbound : bound < 2 ^ 58) : plan.Priced := by
  cases plan with
  | nothing => exact ⟨rfl, Iff.rfl, Nat.two_pow_pos 64⟩
  | scan walk => exact Scan.Measured.priced h hbound
  | union branches => exact h.elim

theorem cost_of_unordered (h : plan.Measured bound []) : plan.cost = plan.visits := by
  cases plan with
  | nothing => rfl
  | scan walk => exact Scan.Measured.cost_of_unordered h
  | union branches => exact h.elim

end Measured

/-- A union costs what its branches visit, up to the largest cost. -/
theorem priced_union {branches : List (Predicate R × Plan R)}
    (h : ∀ branch ∈ branches, branch.2.cost = branch.2.visits) : (Plan.union branches).Priced := by
  have hsum : (branches.map fun branch => branch.2.cost) =
      branches.map fun branch => branch.2.visits := List.map_congr_left h
  have hcost : (Plan.union branches).cost =
      min (branches.map fun branch => branch.2.visits).sum (2 ^ 64 - 1) := by
    rw [cost, costOfAll_eq, hsum]
    rfl
  refine ⟨hcost, ?_, ?_⟩
  · rw [hcost, visits, visitsOfAll_eq]
    omega
  · rw [work]
    omega

end Plan

/-! ## What indexes plan is measured -/

namespace Index

variable {p : Property R} {ix tail : Index R} {unique : Bool} {order : Order R}
  {predicate : Option (Predicate R)} {choices : List (Index R)} {s : State R} {bound : Nat}

/-- The count of a range is the number of records that a walk over the range comes to. -/
theorem countRange_eq_walked (hs : (tree p tail unique).Laid s) (range : KeyRange)
    (direction : Direction) : s.root.countRange range = (s.walked direction range).length := by
  rw [State.walked_eq direction range hs.ordered_root, (Direction.arrange_perm _ _).length_eq]
  have hs' := hs
  rcases hs with rfl | ⟨root, rfl, -, -⟩
  · rcases range with ⟨lower, upper⟩
    cases lower <;> cases upper <;> rfl
  · exact countRange_eq_length hs' range

theorem measured_scanOf (hs : (tree p tail unique).Laid s) {range : KeyRange}
    (hsome : (s.within range).length ≠ 0) :
    (scanOf (tree p tail unique) s range order).Measured s.records.length order where
  ordered := hs.ordered_root
  occupied := fun hnil => hsome (List.length_eq_zero_iff.2 hnil)
  bounded := (State.within_sublist range s).length_le
  sorts := by
    rintro hnone rfl
    cases hnone
  cost := rfl

/-- The plan of an index is measured on the records of the state that the index has laid out. -/
theorem measured_plan (hix : ix.Layered) (hs : ix.Laid s) :
    (ix.plan predicate s order).Measured s.records.length order := by
  induction hix generalizing s order with
  | value =>
    rw [plan]
    split
    · trivial
    · next hguard =>
      rcases hs with rfl | ⟨record, rfl⟩
      · simp [State.isEmpty, State.size] at hguard
      · refine ⟨Tree.ordered_leaf, List.cons_ne_nil record [], Nat.le_refl 1, fun hnone => ?_, rfl⟩
        cases hnone
  | @tree p tail unique _ ih =>
    cases hexact : (KeyConstraint.ofPredicate predicate p).exact with
    | some key =>
      rw [plan_under hs hexact]
      refine (ih (laid_getD hs.sound_root key)).mono ?_ ?_
      · rw [records_under hs]
        exact List.length_filter_le _ _
      · rintro rfl
        rfl
    | none =>
      rw [plan_within hs hexact]
      split
      · trivial
      · next hguard => exact measured_scanOf hs (not_or.1 hguard).1

/-- So is the plan of alternatives, each of which has at most so many records if it is complete. -/
theorem measured_alternatives (hlayered : ∀ choice ∈ choices, choice.Layered) (hne : choices ≠ [])
    (h : Fanned choices s)
    (hbound : ∀ i < choices.length, lags s i = false → (slot s i).records.length ≤ bound)
    (predicate : Option (Predicate R)) (order : Order R) :
    ((alternatives choices).plan predicate s order).Measured bound order := by
  obtain ⟨i, choice, hi, hlags, hplan⟩ := exists_plan hne h.spread predicate order
  rw [hplan]
  exact (measured_plan (hlayered choice (List.mem_of_getElem? hi)) (h.laid i choice hi)).mono
    (hbound i (List.getElem?_eq_some_iff.1 hi).1 hlags) id

/-- The plan that is chosen for a query costs what it takes. -/
theorem priced_choose (hlayered : ∀ choice ∈ choices, choice.Layered) (hne : choices ≠ [])
    (h : Fanned choices s)
    (hbound : ∀ i < choices.length, lags s i = false → (slot s i).records.length ≤ bound)
    (hlt : bound < 2 ^ 58) (q : Query R) : (Plan.choose choices s q).Priced := by
  have hmeasured := measured_alternatives hlayered hne h hbound
  unfold Plan.choose
  dsimp only
  split
  · next terms _ =>
    split
    · exact (show Plan.nothing.Measured bound q.sortKeys from trivial).priced hlt
    · refine Plan.priced_union fun branch hbranch => ?_
      obtain ⟨term, -, rfl⟩ := List.mem_map.1 hbranch
      exact (hmeasured (some term) []).cost_of_unordered
  · exact (hmeasured q.predicate q.sortKeys).priced hlt

end Index

end RecordStore
