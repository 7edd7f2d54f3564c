import RecordStore.Proofs.Engine.Follows
import RecordStore.Proofs.Engine.Select
import RecordStore.Proofs.Plan.Work
/-!
# The cost of a plan is its work

The cost by which an engine compares plans, and which it reports, is what the chosen plan takes: the
records that it visits, and the sorting where they do not come in the order asked for
(`cost_is_work`). It rests on counts of ranges that are those of the walks, in every tree that puts
and removals make.
-/

namespace RecordStore

open Index

variable {R : Type} {pk : Property R} {choices : List (Index R)} {s : State R} {m : Store R}

/-- Alternatives that hold a store of fewer than `2 ^ 58` records choose plans that cost what they
take. -/
theorem Index.Holds.priced (h : Holds pk choices s m) (hsize : s.size < 2 ^ 58) (q : Query R) :
    (Plan.choose choices s q).Priced := by
  refine priced_choose (fun choice hc => (h.chained choice hc).layered) h.nonempty h.fanned
    (fun i hi hlags => ?_) hsize q
  exact Nat.le_of_eq (h.length_slot hi hlags)

/-- In every tree that puts and removals make, the count of a range is the number of records that a
walk over it comes to, in both directions; and every engine with fewer than `2 ^ 58` records plans
each query at the cost of its work. -/
theorem cost_is_work {R : Type} :
    (∀ (p : Property R) (tail : Index R) (unique : Bool), tail.Layered →
      ∀ (writes : List (Write R)) (range : KeyRange) (direction : Direction),
        ((tree p tail unique).written writes).root.countRange range =
          (((tree p tail unique).written writes).walked direction range).length) ∧
      ∀ run : Run R, run.engine.size < 2 ^ 58 →
        ∀ q : Query R, (run.engine.view.plan (q.normalized run.primaryKey)).Priced := by
  constructor
  · intro p tail unique htail writes range direction
    exact countRange_eq_walked (laid_written (.tree p unique htail) writes) range direction
  · intro run hsize q
    exact run.holds.priced hsize (q.normalized run.primaryKey)

namespace Run

/-- Three amounts without an index on them. -/
def unindexed : Run (Int × Int) where
  primaryKey := identifier
  config := {}
  threshold := none
  operations := [.put (1, 30), .put (2, 20), .put (3, 10)]

/-- The largest of three amounts takes three steps to read and six to sort; between two weights that
are crossed there is nothing to read. -/
theorem cost_is_work_unindexed :
    ((unique number).Layered ∧
      ((tree Index.weight (unique number) false).written weighings).root.countRange
          ⟨.excluded (.int 20), .included (.int 10)⟩ = 0 ∧
      ((tree Index.weight (unique number) false).written weighings).walked .desc
          ⟨.excluded (.int 20), .included (.int 10)⟩ = []) ∧
      unindexed.engine.size < 2 ^ 58 ∧
      (unindexed.engine.view.plan (largest.normalized identifier)).cost = 9 ∧
      (unindexed.engine.view.plan (largest.normalized identifier)).visits = 3 ∧
      (unindexed.engine.view.plan (largest.normalized identifier)).Priced := by
  have htail : (unique number).Layered := .tree number true .value
  have hcount := cost_is_work.1 Index.weight (unique number) false htail weighings
    ⟨.excluded (.int 20), .included (.int 10)⟩ .desc
  have hnone : ((tree Index.weight (unique number) false).written weighings).root.countRange
      ⟨.excluded (.int 20), .included (.int 10)⟩ = 0 := by decide +kernel
  have hsize : unindexed.engine.size < 2 ^ 58 := by decide +kernel
  refine ⟨⟨htail, hnone, List.length_eq_zero_iff.1 (hcount.symm.trans hnone)⟩, hsize, by decide +kernel,
    by decide +kernel, cost_is_work.2 unindexed hsize largest⟩

end Run

end RecordStore
