import RecordStore.Predicate.Basic
/-!
# Key ranges

The keys between two bounds, and the range that a predicate leaves to the keys of one property.
Every record that satisfies the predicate has its key in that range, but a key in it does not make a
record satisfy the predicate.
-/

namespace RecordStore

/-- One end of a range. -/
inductive Bound where
  | unbounded
  | included (key : Key)
  | excluded (key : Key)
  deriving DecidableEq

structure KeyRange where
  lower : Bound := .unbounded
  upper : Bound := .unbounded
  deriving DecidableEq

namespace KeyRange

/-- All keys. -/
def all : KeyRange := {}

/-- Whether a key is not below the range. -/
def aboveLower (r : KeyRange) (k : Key) : Bool :=
  match r.lower with
  | .unbounded => true
  | .included low => low ≤ k
  | .excluded low => low < k

/-- Whether a key is not above the range. -/
def belowUpper (r : KeyRange) (k : Key) : Bool :=
  match r.upper with
  | .unbounded => true
  | .included high => k ≤ high
  | .excluded high => k < high

def contains (r : KeyRange) (k : Key) : Bool :=
  r.aboveLower k && r.belowUpper k

/-- The stricter of two lower bounds. -/
def tighterLower (current candidate : Bound) : Bound :=
  match current, candidate with
  | _, .unbounded => current
  | .unbounded, _ => candidate
  | .included a, .included b => if a < b then candidate else current
  | .included a, .excluded b => if a ≤ b then candidate else current
  | .excluded a, .included b => if a < b then candidate else current
  | .excluded a, .excluded b => if a < b then candidate else current

/-- The stricter of two upper bounds. -/
def tighterUpper (current candidate : Bound) : Bound :=
  match current, candidate with
  | _, .unbounded => current
  | .unbounded, _ => candidate
  | .included a, .included b => if b < a then candidate else current
  | .included a, .excluded b => if b ≤ a then candidate else current
  | .excluded a, .included b => if b < a then candidate else current
  | .excluded a, .excluded b => if b < a then candidate else current

/-- The keys in both ranges. -/
def intersect (r s : KeyRange) : KeyRange :=
  { lower := tighterLower r.lower s.lower, upper := tighterUpper r.upper s.upper }

/-- The smallest and the largest of some keys. -/
def extremes? : List Key → Option (Key × Key)
  | [] => none
  | k :: rest =>
    match extremes? rest with
    | none => some (k, k)
    | some (low, high) => some (if k ≤ low then k else low, if high ≤ k then k else high)

/-- The smallest range that has every key passing a comparison. Inequality leaves out no range, and
equality is met by a lookup and not by a range. -/
def ofComparison : Comparison → KeyRange
  | .gt k => { lower := .excluded k }
  | .ge k => { lower := .included k }
  | .lt k => { upper := .excluded k }
  | .le k => { upper := .included k }
  | .oneOf ks =>
    match extremes? ks with
    | none => all
    | some (low, high) => { lower := .included low, upper := .included high }
  | .eq _ => all
  | .ne _ => all

def display (r : KeyRange) : String :=
  let low :=
    match r.lower with
    | .unbounded => "(-inf"
    | .included k => "[" ++ k.display
    | .excluded k => "(" ++ k.display
  let high :=
    match r.upper with
    | .unbounded => "+inf)"
    | .included k => k.display ++ "]"
    | .excluded k => k.display ++ ")"
  low ++ ", " ++ high

end KeyRange

/-- What a predicate demands of the keys of one property: a key that they equal, if it names one,
and a range. -/
structure KeyConstraint where
  exact : Option Key := none
  range : KeyRange := {}
  deriving DecidableEq

namespace KeyConstraint

variable {R : Type}

/-- Adds the demand of one comparison. The first equality is the one that counts; a second one is
left to the predicate itself. -/
def restrict (c : KeyConstraint) : Comparison → KeyConstraint
  | .eq k => { c with exact := c.exact <|> some k }
  | comparison => { c with range := c.range.intersect (.ofComparison comparison) }

/-- The comparison that a term makes of a property, if it is one. -/
def comparisonOn? (p : Property R) : Predicate R → Option Comparison
  | .compare q c => if q.same p then some c else none
  | _ => none

/-- What a predicate demands of the keys of a property. Only comparisons that must hold of every
record count, those among the conjuncts. -/
def ofPredicate (predicate : Option (Predicate R)) (p : Property R) : KeyConstraint :=
  let conjuncts := predicate.elim [] Predicate.conjuncts
  (conjuncts.filterMap (comparisonOn? p)).foldl restrict {}

end KeyConstraint

end RecordStore
