import RecordStore.Index.Lookup
import RecordStore.Plan.Basic
/-!
# Choosing a plan

`Index.plan` is the plan of one index for a predicate and an order: it descends to the tail under a
key that the predicate names, and otherwise scans the range that the predicate leaves to its keys.
Alternatives take the cheapest plan of the complete ones, the earliest of several. `Plan.choose`
puts disjunctions on top of that, one plan for each term.
-/

namespace RecordStore

namespace Index

variable {R : Type}

/-- Whether a walk in a direction yields records sorted by an order all of whose keys have that
direction. Under a unique key there is one record, so what follows it in the order does not
matter. -/
def satisfies (direction : Direction) : Index R → Order R → Bool
  | value, _ => true
  | tree _ _ _, [] => true
  | tree p tail unique, s :: rest =>
    s.property.same p && s.direction == direction && (unique || satisfies direction tail rest)
  | alternatives [], _ => false
  | alternatives (primary :: _), order => satisfies direction primary order

/-- The direction in which a walk over the whole index yields an order, if there is one. -/
def direction? (ix : Index R) (order : Order R) : Option Direction :=
  match order with
  | [] => some .asc
  | s :: _ => if ix.satisfies s.direction order then some s.direction else none

/-- The number of binary digits of a number. -/
def bitLength (n : Nat) : Nat :=
  if n = 0 then 0 else n.log2 + 1

/-- What sorting `count` records adds to the cost of reading them. -/
def sortPenalty (count : Nat) : Nat :=
  min (count * bitLength count) Plan.maxCost

/-- The plan of a tree that finds `count` records in a range of its keys. -/
def scanTree (ix : Index R) (root : Tree (State R)) (range : KeyRange) (order : Order R) : Plan R :=
  let count := root.countRange range
  if count = 0 then .nothing
  else
    let direction := ix.direction? order
    let cost := if direction.isSome then count else count + sortPenalty count
    .scan { index := ix, state := .tree root, range, direction, cost }

mutual

/-- The plan of an index for a predicate and an order. All records under one key are equal in the
order's leading keys on the same property, so the tail is not asked for those. -/
def plan (predicate : Option (Predicate R)) (ix : Index R) (s : State R) (order : Order R) :
    Plan R :=
  if s.isEmpty || predicate.any Predicate.isNever then .nothing
  else
    match ix, s with
    | value, s => .scan { index := value, state := s, range := .all, direction := some .asc, cost := 1 }
    | tree p tail unique, .tree root =>
      let constraint := KeyConstraint.ofPredicate predicate p
      match constraint.exact with
      | some key =>
        match root.get? key with
        | some under => plan predicate tail under (order.dropWhile (·.property.same p))
        | none => .nothing
      | none => scanTree (tree p tail unique) root constraint.range order
    | tree _ _ _, _ => .nothing
    | alternatives choices, .slots slots late =>
      ((usable (plans predicate choices order) slots late).minOn? Plan.cost).getD .nothing
    | alternatives _, _ => .nothing

def plans (predicate : Option (Predicate R)) (choices : List (Index R)) (order : Order R) :
    List (State R → Plan R) :=
  match choices with
  | [] => []
  | choice :: rest => (fun slot => plan predicate choice slot order) :: plans predicate rest order

end

@[simp] theorem plans_eq (predicate : Option (Predicate R)) (choices : List (Index R))
    (order : Order R) :
    plans predicate choices order =
      choices.map fun choice slot => choice.plan predicate slot order := by
  induction choices with
  | nil => rfl
  | cons choice rest ih => rw [plans, List.map_cons, ih]

end Index

/-- The plan of a set of alternatives for a query that is normalized: a disjunction is the union of
a plan for each of its terms, without an order. -/
def Plan.choose {R : Type} (choices : List (Index R)) (s : State R) (q : Query R) : Plan R :=
  let plan := fun predicate order => (Index.alternatives choices).plan predicate s order
  match q.predicate with
  | some (.any terms) =>
    if s.isEmpty then .nothing else .union (terms.map fun term => (term, plan (some term) []))
  | predicate => plan predicate q.sortKeys

end RecordStore
