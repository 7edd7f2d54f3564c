import RecordStore.Index.Tree
import RecordStore.Order
import RecordStore.Visit
/-!
# Index states

The whole indexed dataset at one moment, an immutable value that every write replaces. Which index
made a state is not written in it: an index treats a state of another shape as if it were empty.

A state is walked record by record, in the order of its keys or against it. `State.records` is the
list of what a walk visits (`walk_eq`).
-/

namespace RecordStore

/-- What an index holds. `slots` belongs to a set of alternatives, one slot each; an alternative is
`late` if it was added when there were records already, so that its slot lacks some. -/
inductive State (R : Type) where
  | empty
  | single (record : R)
  | tree (root : Tree (State R))
  | slots (slots : List (State R)) (late : List Bool)

namespace State

variable {R σ : Type}

/-- The number of records. Alternatives hold as many as the first of them. -/
def size : State R → Nat
  | empty => 0
  | single _ => 1
  | tree root => root.size
  | slots [] _ => 0
  | slots (first :: _) _ => first.size

instance : Weighted (State R) := ⟨size⟩

def isEmpty (s : State R) : Bool :=
  s.size = 0

/-- The tree of a state, a leaf if it is no tree. -/
def root : State R → Tree (State R)
  | tree root => root
  | _ => .leaf

/-! ## Walking -/

mutual

/-- Visits every record. -/
def walk (direction : Direction) (visit : σ → R → Visit σ) : State R → σ → Visit σ
  | empty, s => .more s
  | single record, s => visit s record
  | tree root, s => walkTree direction .all visit root s
  | slots [] _, s => .more s
  | slots (first :: _) _, s => walk direction visit first s

/-- Visits the records whose key at the top of the tree lies in a range. A subtree is entered only
if its side of the node can reach into the range. -/
def walkTree (direction : Direction) (range : KeyRange) (visit : σ → R → Visit σ) :
    Tree (State R) → σ → Visit σ
  | .leaf, s => .more s
  | .node k tail l r _ _, s =>
    let onLeft := fun s => if range.aboveLower k then walkTree direction range visit l s else .more s
    let onRight := fun s => if range.belowUpper k then walkTree direction range visit r s else .more s
    let here := fun s => if range.contains k then walk direction visit tail s else .more s
    match direction with
    | .asc => ((onLeft s).andThen here).andThen onRight
    | .desc => ((onRight s).andThen here).andThen onLeft

end

/-- Visits the records whose top-level key lies in a range. The range restricts a tree and nothing
else. -/
def walkRange (direction : Direction) (range : KeyRange) (visit : σ → R → Visit σ) (s : State R) :
    σ → Visit σ :=
  match s with
  | tree root => walkTree direction range visit root
  | s => walk direction visit s

mutual

/-- The records in the order of a walk. -/
def records : State R → List R
  | empty => []
  | single record => [record]
  | tree root => recordsOfTree root
  | slots [] _ => []
  | slots (first :: _) _ => records first

def recordsOfTree : Tree (State R) → List R
  | .leaf => []
  | .node _ tail l r _ _ => recordsOfTree l ++ records tail ++ recordsOfTree r

end

/-! ## A walk visits the records -/

mutual

/-- A walk is the walk over the list of the records, reversed for the descending direction. -/
theorem walk_eq (direction : Direction) (visit : σ → R → Visit σ) : ∀ (st : State R) (s : σ),
    walk direction visit st s = Visit.list visit (direction.arrange st.records) s
  | empty, _ => by cases direction <;> rfl
  | single _, _ => by cases direction <;> simp [walk, records, Direction.arrange, Visit.list]
  | tree root, s => by rw [walk, records, walkTree_all direction visit root s]
  | slots [] _, _ => by cases direction <;> rfl
  | slots (first :: _) _, s => by rw [walk, records, walk_eq direction visit first s]

theorem walkTree_all (direction : Direction) (visit : σ → R → Visit σ) :
    ∀ (t : Tree (State R)) (s : σ), walkTree direction .all visit t s =
      Visit.list visit (direction.arrange (recordsOfTree t)) s
  | .leaf, _ => by cases direction <;> rfl
  | .node k tail l r _ _, s => by
    have left := funext (walkTree_all direction visit l)
    have under := funext (walk_eq direction visit tail)
    have right := funext (walkTree_all direction visit r)
    have above : KeyRange.all.aboveLower k = true := rfl
    have below : KeyRange.all.belowUpper k = true := rfl
    have inside : KeyRange.all.contains k = true := rfl
    cases direction <;>
      simp_all [walkTree, recordsOfTree, Direction.arrange, Visit.list_append, Visit.andThen_assoc]

end

/-! ## Text -/

/-- The text that shows a state in diagnostics. -/
def inspect : State R → String
  | empty => "IndexState::Empty"
  | single _ => "IndexState::Value"
  | tree root => "IndexState::Tree(size=" ++ toString root.size ++ ")"
  | s@(slots _ _) => "IndexState::Alt(size=" ++ toString s.size ++ ")"

/-- The text that shows the slots of alternatives in diagnostics. -/
def inspectSlots (slots : List (State R)) (late : List Bool) : String :=
  "AltState \x7b slots: " ++ Text.bracketed (slots.map inspect) ++
    ", partial: " ++ Text.bracketed (late.map toString) ++ " \x7d"

end State

end RecordStore
