import RecordStore.Index.Basic
import RecordStore.Query
import RecordStore.Window
/-!
# Scans

A scan walks the records of one state whose top-level keys lie in a range. If the walk in some
direction yields the order asked for, matches go straight to the sink and the walk stops when the
window is full; otherwise they are gathered, sorted and then let through the window. The predicate
is applied to every record visited, so the range decides only how much is read.
-/

namespace RecordStore

/-- A walk over (part of) a state. `direction` is that in which it yields the order asked for. -/
structure Scan (R : Type) where
  index : Index R
  state : State R
  range : KeyRange
  direction : Option Direction
  cost : Nat

namespace Scan

variable {R S : Type}

/-- The records that the walk visits and the predicate admits, in index order. -/
def matching (scan : Scan R) (predicate : Option (Predicate R)) : List R :=
  let keep := fun (kept : Array R) record =>
    .more (if Predicate.admits predicate record then kept.push record else kept)
  (scan.state.walkRange .asc scan.range keep #[]).state.toList

/-- Lets the matches of a query through its window as the walk comes to them. -/
def stream (scan : Scan R) (direction : Direction) (q : Query R) (sink : Sink R S)
    (window : Window) (s : S) : Window × S :=
  let offer := fun s record =>
    if Predicate.admits q.predicate record then Window.offer sink s record else .more s
  (scan.state.walkRange direction scan.range offer (window, s)).state

/-- Sends the records a query selects to a sink. -/
def execute (scan : Scan R) (q : Query R) (sink : Sink R S) (s : S) : S :=
  let window : Window := { skip := q.skip, limit := q.limit }
  if window.isFull then s
  else
    match scan.direction with
    | some direction => (scan.stream direction q sink window s).2
    | none => (window.drain sink (q.sortKeys.sort (scan.matching q.predicate)) s).2

end Scan

end RecordStore
