import RecordStore.Property
/-!
# Orders

An order is a list of sort keys, the earlier ones first. `Order.compare` compares two records by
it, and `Order.sort` sorts a list so that records which tie on every key keep their places.
-/

namespace RecordStore

inductive Direction where
  | asc
  | desc
  deriving DecidableEq

namespace Direction

def display : Direction → String
  | .asc => "asc"
  | .desc => "desc"

/-- A list given in ascending order, in this direction. -/
def arrange {α : Type} : Direction → List α → List α
  | .asc, as => as
  | .desc, as => as.reverse

/-- An ascending comparison seen in this direction. -/
def orient : Direction → Ordering → Ordering
  | .asc, o => o
  | .desc, o => o.swap

end Direction

/-- A property to sort by, and the direction. -/
structure SortKey (R : Type) where
  property : Property R
  direction : Direction

namespace SortKey

variable {R : Type}

def compare (s : SortKey R) (a b : R) : Ordering :=
  s.direction.orient (Ord.compare (s.property.get a) (s.property.get b))

def display (s : SortKey R) : String :=
  s.property.name ++ " " ++ s.direction.display

/-- The text that shows a sort key in diagnostics. -/
def inspect (s : SortKey R) : String :=
  "SortSpec(" ++ s.display ++ ")"

end SortKey

/-- Sort keys, the first one deciding before the others. -/
abbrev Order (R : Type) := List (SortKey R)

namespace Order

variable {R : Type}

/-- Compares two records key by key; the first key on which they differ decides. -/
def compare (order : Order R) (a b : R) : Ordering :=
  match order with
  | [] => .eq
  | s :: rest => (s.compare a b).then (compare rest a b)

/-- Sorts stably. -/
def sort (order : Order R) (records : List R) : List R :=
  records.mergeSort fun a b => (order.compare a b).isLE

/-- The order by one property, ascending. -/
def ascending (p : Property R) : Order R :=
  [⟨p, .asc⟩]

/-- Whether the order mentions a property. -/
def mentions (order : Order R) (p : Property R) : Bool :=
  order.any (·.property.same p)

def display (order : Order R) : String :=
  ", ".intercalate (order.map SortKey.display)

end Order

end RecordStore
