import RecordStore.Order
import RecordStore.Predicate.Simplify
/-!
# Queries

A query selects the records of a predicate, in an order, less the first `skip` of them and at most
`limit`. Before it is planned its predicate is simplified and its order is ended by the primary
key, so that the answer does not depend on which index serves it.
-/

namespace RecordStore

structure Query (R : Type) where
  predicate : Option (Predicate R) := none
  order : Option (Order R) := none
  skip : Nat := 0
  limit : Option Nat := none

namespace Query

variable {R : Type}

/-- Adds a predicate, in conjunction with one that is already there. -/
def restrict (q : Query R) (p : Predicate R) : Query R :=
  { q with
    predicate :=
      match q.predicate with
      | none => some p
      | some present => some (.all [present, p]) }

/-- The sort keys, none for a query without an order. -/
def sortKeys (q : Query R) : Order R :=
  q.order.getD []

/-- The query with its predicate simplified, and dropped if it always holds. -/
def simplified (q : Query R) : Query R :=
  { q with
    predicate :=
      match q.predicate.map Predicate.simplify with
      | some .always => none
      | simplified => simplified }

/-- Whether a query takes only part of its matches. -/
def isWindowed (q : Query R) : Bool :=
  0 < q.skip || q.limit.isSome

/-- Ends the order with the primary key, ascending, unless the order mentions it. A windowed query
without an order gets the order of the primary key. -/
def withTieBreak (q : Query R) (primaryKey : Property R) : Query R :=
  match q.order with
  | some order =>
    if order.mentions primaryKey then q
    else { q with order := some (order ++ Order.ascending primaryKey) }
  | none => if q.isWindowed then { q with order := some (Order.ascending primaryKey) } else q

/-- What a query is planned as. -/
def normalized (q : Query R) (primaryKey : Property R) : Query R :=
  q.simplified.withTieBreak primaryKey

end Query

/-- The text that shows a query in diagnostics. -/
def Query.inspect {R : Type} (q : Query R) : String :=
  "Query \x7b predicate: " ++ Text.optional (q.predicate.map Predicate.inspect) ++
    ", order: " ++ Text.optional (q.order.map (Text.quoted ∘ Order.display)) ++
    ", skip: " ++ toString q.skip ++
    ", limit: " ++ Text.optional (q.limit.map toString) ++ " \x7d"

end RecordStore
