import RecordStore.Predicate.Basic
/-!
# Simplifying predicates

`Predicate.simplify` brings a predicate into a normal form that holds of the same records: constants
are folded away, nested conjunctions and disjunctions are opened, a group of one term is that term,
a double negation goes, and a list of alternatives has at least two.
-/

namespace RecordStore.Predicate

variable {R : Type}

/-- The negation of a simplified predicate. -/
def negate : Predicate R → Predicate R
  | .always => .never
  | .never => .always
  | .not term => term
  | term => .not term

def isAlways : Predicate R → Bool
  | .always => true
  | _ => false

def isNever : Predicate R → Bool
  | .never => true
  | _ => false

/-- What a simplified term adds to a conjunction that does not fail. -/
def termsOfAll : Predicate R → List (Predicate R)
  | .always => []
  | .all terms => terms
  | term => [term]

/-- What a simplified term adds to a disjunction that is not settled. -/
def termsOfAny : Predicate R → List (Predicate R)
  | .never => []
  | .any terms => terms
  | term => [term]

/-- The conjunction of simplified terms. -/
def conjoin (terms : List (Predicate R)) : Predicate R :=
  if terms.any isNever then .never
  else
    match terms.flatMap termsOfAll with
    | [] => .always
    | [term] => term
    | terms => .all terms

/-- The disjunction of simplified terms. -/
def disjoin (terms : List (Predicate R)) : Predicate R :=
  if terms.any isAlways then .always
  else
    match terms.flatMap termsOfAny with
    | [] => .never
    | [term] => term
    | terms => .any terms

/-- A simplified comparison: a choice among no keys never holds, and one among a single key is an
equality. -/
def simplifyComparison (p : Property R) : Comparison → Predicate R
  | .oneOf [] => .never
  | .oneOf [k] => .compare p (.eq k)
  | c => .compare p c

mutual

/-- The normal form of a predicate. -/
def simplify : Predicate R → Predicate R
  | .always => .always
  | .never => .never
  | .compare p c => simplifyComparison p c
  | .not term => negate (simplify term)
  | .all terms => conjoin (simplifyList terms)
  | .any terms => disjoin (simplifyList terms)

def simplifyList : List (Predicate R) → List (Predicate R)
  | [] => []
  | term :: rest => simplify term :: simplifyList rest

end

@[simp] theorem simplifyList_eq (terms : List (Predicate R)) :
    simplifyList terms = terms.map simplify := by
  induction terms with
  | nil => rfl
  | cons term rest ih => rw [simplifyList, List.map_cons, ih]

end RecordStore.Predicate
