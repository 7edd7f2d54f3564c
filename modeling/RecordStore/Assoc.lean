/-!
# Ordered association lists

A finite map as the list of its bindings in ascending key order. Writing a binding keeps the order
and never makes a second binding of a key.
-/

namespace RecordStore.Assoc

variable {κ β : Type} [Ord κ]

/-- The value bound to a key. -/
def get? (key : κ) : List (κ × β) → Option β
  | [] => none
  | (k, v) :: rest =>
    match compare key k with
    | .lt => none
    | .eq => some v
    | .gt => get? key rest

/-- Binds a key to `write` of what it is bound to. -/
def upsert (key : κ) (write : Option β → β) : List (κ × β) → List (κ × β)
  | [] => [(key, write none)]
  | (k, v) :: rest =>
    match compare key k with
    | .lt => (key, write none) :: (k, v) :: rest
    | .eq => (k, write (some v)) :: rest
    | .gt => (k, v) :: upsert key write rest

/-- Binds a key, replacing an earlier binding. -/
def insert (key : κ) (value : β) (bindings : List (κ × β)) : List (κ × β) :=
  upsert key (fun _ => value) bindings

/-- The bindings of a list, the last one of each key. -/
def ofList (bindings : List (κ × β)) : List (κ × β) :=
  bindings.foldl (fun map (k, v) => insert k v map) []

end RecordStore.Assoc
