import RecordStore.Plan.Choose
/-!
# Explaining a plan

`Explain` says what a plan does and what for: the strategy, the index and range of a scan, the
predicate and order of the query, the cost. `Explain.render` is the report, one line for each
item that there is.
-/

namespace RecordStore

inductive Strategy where
  | notFound
  | indexScan
  | orUnion
  deriving DecidableEq

def Strategy.name : Strategy → String
  | .notFound => "NOT_FOUND"
  | .indexScan => "INDEX_SCAN"
  | .orUnion => "OR_UNION"

/-- The scan of a plan as it is reported. -/
structure ScanReport where
  index : String
  range : String
  direction : Option Direction
  deriving DecidableEq

structure Explain where
  strategy : Strategy
  scan : Option ScanReport := none
  predicate : Option String
  order : Option String
  skip : Nat
  limit : Option Nat
  cost : Nat
  branches : List Explain := []

namespace Explain

variable {R : Type}

/-- Whether the walk itself yields the order. -/
def orderedByIndex (e : Explain) : Bool :=
  e.scan.any (·.direction.isSome)

/-- Whether the walk goes against the order of the keys. -/
def reverse (e : Explain) : Bool :=
  e.scan.any (·.direction == some .desc)

mutual

/-- What a plan does for a query. A branch of a union is explained as the query of its predicate
alone. -/
def ofPlan (plan : Plan R) (q : Query R) : Explain :=
  let base : Explain :=
    { strategy := .notFound
      predicate := q.predicate.map Predicate.display
      order := q.order.map Order.display
      skip := q.skip
      limit := q.limit
      cost := plan.cost }
  match plan with
  | .nothing => base
  | .scan walk =>
    let report :=
      { index := walk.index.describe, range := walk.range.display, direction := walk.direction }
    { base with strategy := .indexScan, scan := some report }
  | .union branches => { base with strategy := .orUnion, branches := ofBranches branches }

def ofBranches : List (Predicate R × Plan R) → List Explain
  | [] => []
  | (p, plan) :: rest => ofPlan plan { predicate := some p } :: ofBranches rest

end

/-- The lines about a plan itself, without its branches. -/
def ownLines (e : Explain) : List String :=
  ["Strategy: " ++ e.strategy.name] ++
    (e.scan.map ("Index: " ++ ·.index)).toList ++
    (e.scan.map ("Range: " ++ ·.range)).toList ++
    (e.predicate.map ("Predicate: " ++ ·)).toList ++
    (e.order.map fun order =>
      "Order: " ++ order ++ (if e.orderedByIndex then " (by index)" else " (by sort)")).toList ++
    (if e.reverse then ["Direction: reverse"] else []) ++
    (if 0 < e.skip then ["Skip: " ++ toString e.skip] else []) ++
    (e.limit.map ("Limit: " ++ toString ·)).toList ++
    ["Cost: " ++ toString e.cost] ++
    (if e.branches.isEmpty then [] else ["Branches:"])

mutual

/-- The lines of a report; those of a branch are indented below its number. -/
def lines : Explain → List String
  | e@{ branches, .. } => ownLines e ++ linesOfBranches 1 branches

def linesOfBranches (number : Nat) : List Explain → List String
  | [] => []
  | branch :: rest =>
    ("  - #" ++ toString number) :: (lines branch).map ("    " ++ ·) ++
      linesOfBranches (number + 1) rest

end

/-- The whole report; every line of it is ended. -/
def render (e : Explain) : String :=
  String.join (("=== EXPLAIN PLAN ===" :: e.lines).map (· ++ "\n"))

end Explain

end RecordStore
