import RecordStore.Plan.Scan
/-!
# Plans

How a query is run against one state: not at all, by one scan, or as the union of a plan for each
term of a disjunction. A record that satisfies several terms comes once for each of them.
-/

namespace RecordStore

inductive Plan (R : Type) where
  | nothing
  | scan (walk : Scan R)
  | union (branches : List (Predicate R × Plan R))

namespace Plan

variable {R S : Type}

/-- The largest cost; sums stop there. -/
def maxCost : Nat :=
  Nat.pow 2 64 - 1

/-- The sum of two costs. -/
def addCost (a b : Nat) : Nat :=
  min (a + b) maxCost

mutual

/-- The number of records a plan reads, and what sorting them adds. -/
def cost : Plan R → Nat
  | nothing => 0
  | scan walk => walk.cost
  | union branches => costOfAll branches

def costOfAll : List (Predicate R × Plan R) → Nat
  | [] => 0
  | (_, plan) :: rest => addCost (cost plan) (costOfAll rest)

end

mutual

/-- The records a plan finds, before they are sorted and windowed. A union goes by the predicates of
its branches. -/
def matching (predicate : Option (Predicate R)) : Plan R → List R
  | nothing => []
  | scan walk => walk.matching predicate
  | union branches => matchingAll branches

def matchingAll : List (Predicate R × Plan R) → List R
  | [] => []
  | (p, plan) :: rest => matching (some p) plan ++ matchingAll rest

end

@[simp] theorem matchingAll_eq (branches : List (Predicate R × Plan R)) :
    matchingAll branches = branches.flatMap fun (p, plan) => plan.matching (some p) := by
  induction branches with
  | nil => rfl
  | cons branch rest ih => rw [matchingAll, List.flatMap_cons, ih]

/-- Sends the records a query selects to a sink, without the signal that ends them. -/
def execute (q : Query R) (sink : Sink R S) (plan : Plan R) (s : S) : S :=
  match plan with
  | nothing => s
  | scan walk => walk.execute q sink s
  | union branches =>
    let window : Window := { skip := q.skip, limit := q.limit }
    (window.drain sink (q.sortKeys.sort (matchingAll branches)) s).2

def isUnion : Plan R → Bool
  | union _ => true
  | _ => false

end Plan

end RecordStore
