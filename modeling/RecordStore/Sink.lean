import RecordStore.Assoc
import RecordStore.Property
/-!
# Sinks

A sink consumes the records a query selects, one by one, and is told once when there are no more.
`S` is what a sink has gathered so far.
-/

namespace RecordStore

structure Sink (R S : Type) where
  put : S → R → S
  close : S → S := id

/-- The records gathered by `Sink.collect`, and whether the end has been signalled. -/
structure Collected (R : Type) where
  records : Array R := #[]
  closed : Bool := false

namespace Sink

variable {R S : Type}

/-- Keeps every record in the order it comes. -/
def collect : Sink R (Collected R) where
  put s record := { s with records := s.records.push record }
  close s := { s with closed := true }

/-- Counts the records. -/
def count : Sink R Nat where
  put n _ := n + 1

/-- Passes every record on to a sink of its own for each value of a property, one that starts from
`empty`. The groups are in key order. -/
def groupBy (p : Property R) (inner : Sink R S) (empty : S) : Sink R (List (Key × S)) where
  put groups record :=
    Assoc.upsert (p.get record) (fun group? => inner.put (group?.getD empty) record) groups
  close groups := groups.map fun (key, group) => (key, inner.close group)

end Sink

end RecordStore
