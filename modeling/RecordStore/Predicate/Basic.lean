import RecordStore.Property
/-!
# Predicates

A predicate is a boolean tree of comparisons, each of one property with fixed keys. `Predicate.eval`
says which records it holds of. Null takes part in no comparison, neither as a value nor as an
operand, and equality and order hold only between keys of one kind.
-/

namespace RecordStore

/-- A comparison of a property value with operands. -/
inductive Comparison where
  | eq (operand : Key)
  | ne (operand : Key)
  | gt (operand : Key)
  | ge (operand : Key)
  | lt (operand : Key)
  | le (operand : Key)
  | oneOf (operands : List Key)
  deriving DecidableEq

namespace Comparison

/-- Whether a value can be ordered against an operand. -/
def comparable (value operand : Key) : Bool :=
  !operand.isNull && value.sameKind operand

/-- Whether a value passes the comparison. Inequality asks for no common kind: a text differs from
every number. -/
def holds (value : Key) (c : Comparison) : Bool :=
  !value.isNull &&
    match c with
    | .eq k => comparable value k && value == k
    | .ne k => !k.isNull && value != k
    | .gt k => comparable value k && k < value
    | .ge k => comparable value k && k ≤ value
    | .lt k => comparable value k && value < k
    | .le k => comparable value k && value ≤ k
    | .oneOf ks => ks.any fun k => comparable value k && value == k

def display : Comparison → String
  | .eq k => "= " ++ k.display
  | .ne k => "!= " ++ k.display
  | .gt k => "> " ++ k.display
  | .ge k => ">= " ++ k.display
  | .lt k => "< " ++ k.display
  | .le k => "<= " ++ k.display
  | .oneOf ks => "in (" ++ ", ".intercalate (ks.map Key.display) ++ ")"

end Comparison

inductive Predicate (R : Type) where
  | always
  | never
  | compare (property : Property R) (comparison : Comparison)
  | all (terms : List (Predicate R))
  | any (terms : List (Predicate R))
  | not (term : Predicate R)

namespace Predicate

variable {R : Type}

mutual

/-- Whether a predicate holds of a record. -/
def eval (record : R) : Predicate R → Bool
  | .always => true
  | .never => false
  | .compare p c => c.holds (p.get record)
  | .all terms => evalAll record terms
  | .any terms => evalAny record terms
  | .not term => !eval record term

def evalAll (record : R) : List (Predicate R) → Bool
  | [] => true
  | term :: rest => eval record term && evalAll record rest

def evalAny (record : R) : List (Predicate R) → Bool
  | [] => false
  | term :: rest => eval record term || evalAny record rest

end

@[simp] theorem evalAll_eq (record : R) (terms : List (Predicate R)) :
    evalAll record terms = terms.all (eval record) := by
  induction terms with
  | nil => rfl
  | cons term rest ih => rw [evalAll, List.all_cons, ih]

@[simp] theorem evalAny_eq (record : R) (terms : List (Predicate R)) :
    evalAny record terms = terms.any (eval record) := by
  induction terms with
  | nil => rfl
  | cons term rest ih => rw [evalAny, List.any_cons, ih]

/-- Whether a record passes an optional predicate. -/
def admits (predicate : Option (Predicate R)) (record : R) : Bool :=
  match predicate with
  | none => true
  | some p => p.eval record

mutual

/-- The terms that must all hold, nested conjunctions opened; `always` adds none. -/
def conjuncts : Predicate R → List (Predicate R)
  | .always => []
  | .all terms => conjunctsOfAll terms
  | .never => [.never]
  | .compare p c => [.compare p c]
  | .any terms => [.any terms]
  | .not term => [.not term]

def conjunctsOfAll : List (Predicate R) → List (Predicate R)
  | [] => []
  | term :: rest => conjuncts term ++ conjunctsOfAll rest

end

@[simp] theorem conjunctsOfAll_eq (terms : List (Predicate R)) :
    conjunctsOfAll terms = terms.flatMap conjuncts := by
  induction terms with
  | nil => rfl
  | cons term rest ih => rw [conjunctsOfAll, List.flatMap_cons, ih]

mutual

/-- Whether two predicates are the same tree. -/
def beq : Predicate R → Predicate R → Bool
  | .always, .always => true
  | .never, .never => true
  | .compare p c, .compare q d => p.same q && c == d
  | .all ss, .all ts => beqList ss ts
  | .any ss, .any ts => beqList ss ts
  | .not s, .not t => beq s t
  | _, _ => false

def beqList : List (Predicate R) → List (Predicate R) → Bool
  | [], [] => true
  | s :: ss, t :: ts => beq s t && beqList ss ts
  | _, _ => false

end

instance : BEq (Predicate R) := ⟨beq⟩

mutual

def display : Predicate R → String
  | .always => "TRUE"
  | .never => "FALSE"
  | .compare p c => p.name ++ " " ++ c.display
  | .all terms => "(" ++ " AND ".intercalate (displayList terms) ++ ")"
  | .any terms => "(" ++ " OR ".intercalate (displayList terms) ++ ")"
  | .not term => "NOT " ++ display term

def displayList : List (Predicate R) → List String
  | [] => []
  | term :: rest => display term :: displayList rest

end

@[simp] theorem displayList_eq (terms : List (Predicate R)) :
    displayList terms = terms.map display := by
  induction terms with
  | nil => rfl
  | cons term rest ih => rw [displayList, List.map_cons, ih]

/-- The text that shows a predicate in diagnostics. -/
def inspect (p : Predicate R) : String :=
  "Predicate(" ++ p.display ++ ")"

end Predicate

end RecordStore
