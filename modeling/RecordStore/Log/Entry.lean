import RecordStore.Assoc
import RecordStore.Json.Writer
import RecordStore.Log.Event
/-!
# Log entries

One event as it is recorded. Its fields are one JSON object with the names in order, the last value
of each; the message is that object with the event and the severity set in it.
-/

namespace RecordStore.Log

/-- Named values, in the order they are given. -/
abbrev Fields := List (String × String)

/-- The text of a JSON object of texts. -/
def renderFields (fields : Fields) : String :=
  (Json.Value.ofMembers (fields.map fun (name, value) => (name, .ofString value))).render

structure Entry where
  severity : Severity
  event : String
  fields : String
  message : String
  deriving DecidableEq

/-- Records an event: the fields by name, and again with `event` and `severity` among them, which no
field can displace. -/
def Entry.of (severity : Severity) (event : String) (fields : Fields) : Entry :=
  let named := Assoc.ofList fields
  { severity
    event
    fields := renderFields named
    message :=
      renderFields (Assoc.insert "severity" severity.name (Assoc.insert "event" event named)) }

end RecordStore.Log
