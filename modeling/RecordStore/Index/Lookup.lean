import RecordStore.Index.Basic
/-!
# Lookups

Finding a record by its primary key. A `Lookup` is the choice of a place to look, with the number of
steps it takes at most; among alternatives the cheapest complete one is chosen, the earliest of
several. Every index finds the same record, a unique tree by one descent and any other tree by
asking its tails.
-/

namespace RecordStore

/-- Where to look for a primary key. -/
inductive Lookup (R : Type) where
  | absent
  | through (index : Index R) (state : State R) (cost : Nat)

namespace Lookup

variable {R : Type}

def cost : Lookup R → Nat
  | absent => 0
  | through _ _ cost => cost

def index? : Lookup R → Option (Index R)
  | absent => none
  | through index _ _ => some index

end Lookup

namespace Index

variable {R α : Type}

/-- The alternatives that can be read, each given as what `read` makes of it and its slot: those
that have a slot which is not late. -/
def usable (read : List (State R → α)) (slots : List (State R)) (late : List Bool) :
    List α :=
  match read, slots with
  | r :: read, slot :: slots =>
    if late.headD false then usable read slots late.tail
    else r slot :: usable read slots late.tail
  | _, _ => []

mutual

/-- Chooses a place to look for a primary key. -/
def lookup : Index R → State R → Lookup R
  | value, .single record => .through value (.single record) 1
  | value, _ => .absent
  | tree p tail unique, .tree root =>
    .through (tree p tail unique) (.tree root) (if unique then root.height else root.size)
  | tree _ _ _, _ => .absent
  | alternatives choices, .slots slots late =>
    ((usable (lookups choices) slots late).minOn? Lookup.cost).getD .absent
  | alternatives _, _ => .absent

def lookups : List (Index R) → List (State R → Lookup R)
  | [] => []
  | choice :: rest => lookup choice :: lookups rest

end

@[simp] theorem lookups_eq (choices : List (Index R)) : lookups choices = choices.map lookup := by
  induction choices with
  | nil => rfl
  | cons choice rest ih => rw [lookups, List.map_cons, ih]

mutual

/-- Finds the record with a primary key. -/
def find? (key : Key) : Index R → State R → Option R
  | value, .single record => some record
  | value, _ => none
  | tree _ tail true, s => (s.root.get? key).bind (find? key tail)
  | tree _ tail false, s => s.root.findSome? (find? key tail)
  | alternatives choices, .slots slots late =>
    ((usable (offers key choices) slots late).minOn? (·.1)).bind (·.2 ())
  | alternatives _, _ => none

/-- What each alternative's lookup costs and, on demand, what it finds. -/
def offers (key : Key) : List (Index R) → List (State R → Nat × (Unit → Option R))
  | [] => []
  | choice :: rest =>
    (fun slot => ((lookup choice slot).cost, fun _ => find? key choice slot)) :: offers key rest

end

@[simp] theorem offers_eq (key : Key) (choices : List (Index R)) :
    offers key choices =
      choices.map fun choice slot => ((choice.lookup slot).cost, fun _ => choice.find? key slot) := by
  induction choices with
  | nil => rfl
  | cons choice rest ih => rw [offers, List.map_cons, ih]

end Index

/-- Looks a primary key up in the chosen place. -/
def Lookup.find? {R : Type} (key : Key) : Lookup R → Option R
  | absent => none
  | through index state _ => index.find? key state

end RecordStore
