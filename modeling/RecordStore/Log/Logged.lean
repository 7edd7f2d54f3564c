import RecordStore.Log.Entry
/-!
# Logged computations

`Logged α` is a computation that may report events while it makes an `α`. What is recorded depends
on the threshold it runs under: an event is rendered only if its severity reaches the threshold.
-/

namespace RecordStore.Log

/-- The least severity that is recorded; `none` records nothing. -/
abbrev Threshold := Option Severity

def Threshold.admits (threshold : Threshold) (severity : Severity) : Bool :=
  match threshold with
  | none => false
  | some least => least.rank ≤ severity.rank

/-- A value, and the entries recorded on the way to it. -/
def Logged (α : Type) := Threshold → α × List Entry

namespace Logged

variable {α β : Type}

/-- Runs a computation under a threshold. -/
def run (x : Logged α) (threshold : Threshold) : α × List Entry :=
  x threshold

protected def pure (a : α) : Logged α :=
  fun _ => (a, [])

protected def bind (x : Logged α) (f : α → Logged β) : Logged β :=
  fun threshold =>
    let (a, first) := x threshold
    let (b, second) := f a threshold
    (b, first ++ second)

instance : Monad Logged where
  pure := Logged.pure
  bind := Logged.bind

end Logged

/-- Records an event of any name at a severity. -/
def record (severity : Severity) (event : String) (fields : Fields) : Logged Unit :=
  fun threshold =>
    ((), if threshold.admits severity then [Entry.of severity event fields] else [])

/-- Reports an event at its own severity. -/
def report (event : Event) (fields : Fields) : Logged Unit :=
  record event.severity event.name fields

end RecordStore.Log
