/-!
# Log events

The events an engine reports, each under a fixed name and at a fixed severity.
-/

namespace RecordStore.Log

inductive Severity where
  | trace
  | info
  | warn
  deriving DecidableEq

namespace Severity

def rank : Severity → Nat
  | .trace => 0
  | .info => 1
  | .warn => 2

def name : Severity → String
  | .trace => "TRACE"
  | .info => "INFO"
  | .warn => "WARN"

end Severity

inductive Event where
  | engineCreated
  | indexAdded
  | snapshotTaken
  | configLoaded
  | configRejected
  | recordPut
  | recordRemoved
  | removeAll
  | recordFound
  | queryPlanned
  | queryExecuted
  deriving DecidableEq

namespace Event

def name : Event → String
  | .engineCreated => "ENGINE_CREATED"
  | .indexAdded => "INDEX_ADDED"
  | .snapshotTaken => "SNAPSHOT_TAKEN"
  | .configLoaded => "CONFIG_LOADED"
  | .configRejected => "CONFIG_REJECTED"
  | .recordPut => "RECORD_PUT"
  | .recordRemoved => "RECORD_REMOVED"
  | .removeAll => "REMOVE_ALL"
  | .recordFound => "RECORD_FOUND"
  | .queryPlanned => "QUERY_PLANNED"
  | .queryExecuted => "QUERY_COMPLETE"

/-- What changes the engine as a whole is information, what it refuses is a warning, and each
single operation is a trace. -/
def severity : Event → Severity
  | .engineCreated | .indexAdded | .configLoaded | .removeAll | .queryPlanned => .info
  | .configRejected => .warn
  | .snapshotTaken | .recordPut | .recordRemoved | .recordFound | .queryExecuted => .trace

end Event

end RecordStore.Log
