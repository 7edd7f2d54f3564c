import RecordStore.Index.State
/-!
# Indexes

An index is structure without data: it says how a state is laid out, and every write takes a state
to its successor. A tree orders the records by one property and passes those that share a key on to
its tail, so a chain of trees orders by several properties in turn; it ends in a unique tree, that
of the primary key, whose tails are single records. Alternatives are several indexes over the same
records, the first of them the primary one.
-/

namespace RecordStore

inductive Index (R : Type) where
  | value
  | tree (property : Property R) (tail : Index R) (unique : Bool)
  | alternatives (choices : List (Index R))

namespace Index

variable {R : Type}

/-- The tree of the primary key, with one record under each key. -/
def unique (p : Property R) : Index R :=
  tree p value true

/-- A tree whose records with one key are told apart by the primary key. -/
def secondary (p primaryKey : Property R) : Index R :=
  tree p (unique primaryKey) false

/-- Trees on each property in turn, the last one above the tree of the primary key. -/
def chain (properties : List (Property R)) (primaryKey : Property R) : Index R :=
  properties.foldr (fun p tail => tree p tail false) (unique primaryKey)

/-! ## Writing -/

/-- Which slots lack records after a write to `count` alternatives. A slot that is made by this
write lacks the records that were there before. -/
def lateAfterPut (count : Nat) (s : State R) : List Bool :=
  match s with
  | .slots slots late =>
    (List.range count).map fun i => if i < slots.length then late.getD i false else 0 < s.size
  | _ => List.replicate count false

/-- The slots of a state, none if it has no alternatives. -/
def slotsOf : State R → List (State R)
  | .slots slots _ => slots
  | _ => []

mutual

/-- The state with a record put into it. What a leaf holds is replaced. -/
def put (record : R) : Index R → State R → State R
  | value, _ => .single record
  | tree p tail _, s =>
    .tree (s.root.upsert (p.get record) fun under => put record tail (under.getD .empty))
  | alternatives choices, s =>
    .slots (putAll record choices (slotsOf s)) (lateAfterPut choices.length s)

/-- Puts a record into the slot of each alternative; a missing slot starts empty. -/
def putAll (record : R) : List (Index R) → List (State R) → List (State R)
  | [], _ => []
  | choice :: rest, slots =>
    put record choice (slots.headD .empty) :: putAll record rest slots.tail

end

mutual

/-- The state without the record that has the given one's keys. A state without such a record stays
as it is; a tree without nodes is the empty state, and so are alternatives whose first slot has
become empty. -/
def remove (record : R) : Index R → State R → State R
  | value, _ => .empty
  | tree p tail _, s =>
    match s.root.get? (p.get record) with
    | none => s
    | some _ =>
      match s.root.erase (p.get record) (remove record tail) with
      | .leaf => .empty
      | root => .tree root
  | alternatives choices, .slots slots late =>
    match removeAll record choices slots with
    | [] => .empty
    | first :: rest => if first.isEmpty then .empty else .slots (first :: rest) late
  | alternatives _, s => s

/-- Removes a record from the slot of each alternative that has one. -/
def removeAll (record : R) : List (Index R) → List (State R) → List (State R)
  | choice :: rest, slot :: slots => remove record choice slot :: removeAll record rest slots
  | _, _ => []

end

@[simp] theorem length_putAll (record : R) (choices : List (Index R)) (slots : List (State R)) :
    (putAll record choices slots).length = choices.length := by
  induction choices generalizing slots with
  | nil => rfl
  | cons choice rest ih => rw [putAll, List.length_cons, List.length_cons, ih]

@[simp] theorem removeAll_eq (record : R) (choices : List (Index R)) (slots : List (State R)) :
    removeAll record choices slots = List.zipWith (remove record) choices slots := by
  induction choices generalizing slots with
  | nil => rfl
  | cons choice rest ih => cases slots <;> simp [removeAll, ih]

/-! ## Text -/

mutual

/-- The chain of properties, outermost first. -/
def describe : Index R → String
  | value => "value"
  | tree p tail _ => "tree(" ++ p.name ++ ") > " ++ describe tail
  | alternatives choices => "alt[" ++ " | ".intercalate (describeAll choices) ++ "]"

def describeAll : List (Index R) → List String
  | [] => []
  | choice :: rest => describe choice :: describeAll rest

end

/-- The text that shows an index in diagnostics. -/
def inspect : Index R → String
  | value => "Index::Value"
  | tree p _ _ => "Index::Tree(" ++ p.name ++ ")"
  | alternatives choices => "Index::Alt(" ++ toString choices.length ++ " alternatives)"

end Index

end RecordStore
