import RecordStore.Sink
import RecordStore.Text.Quoted
import RecordStore.Visit
/-!
# Windows

A window stands between a stream of matches and a sink. It drops the first `skip` records, lets at
most `limit` pass, and ends the walk with the record that fills it.
-/

namespace RecordStore

structure Window where
  skip : Nat
  limit : Option Nat
  skipped : Nat := 0
  emitted : Nat := 0
  deriving DecidableEq

namespace Window

variable {R S : Type}

/-- Whether the limit has been reached. -/
def isFull (w : Window) : Bool :=
  match w.limit with
  | none => false
  | some limit => limit ≤ w.emitted

/-- The window after a record has been offered to it. -/
def advance (w : Window) : Window :=
  if w.isFull then w
  else if w.skipped < w.skip then { w with skipped := w.skipped + 1 }
  else { w with emitted := w.emitted + 1 }

/-- Whether the next record offered would pass. -/
def passes (w : Window) : Bool :=
  !w.isFull && w.skip ≤ w.skipped

/-- Offers a record; the walk is done when the window is full after it. -/
def offer (sink : Sink R S) (s : Window × S) (record : R) : Visit (Window × S) :=
  let next := (s.1.advance, if s.1.passes then sink.put s.2 record else s.2)
  if next.1.isFull then .done next else .more next

/-- Offers the records of a list until the window is full. -/
def drain (w : Window) (sink : Sink R S) (records : List R) (s : S) : Window × S :=
  (Visit.list (offer sink) records (w, s)).state

/-- The text that shows a window in diagnostics. -/
def inspect (w : Window) : String :=
  "Window \x7b skip: " ++ toString w.skip ++
    ", limit: " ++ Text.optional (w.limit.map toString) ++
    ", skipped: " ++ toString w.skipped ++
    ", emitted: " ++ toString w.emitted ++ " \x7d"

end Window

end RecordStore
