import RecordStore.Json.Writer
/-!
# Metrics

What an engine has done, as counters of 64 bits that wrap around, and the number of records it
holds, which is set and not counted.
-/

namespace RecordStore

/-- The counters, by what they count. -/
inductive Counter where
  | puts
  | removes
  | finds
  | selects
  | orPlans
  | removeAlls
  | indexesAdded
  deriving DecidableEq

structure Metrics where
  puts : UInt64 := 0
  removes : UInt64 := 0
  finds : UInt64 := 0
  selects : UInt64 := 0
  orPlans : UInt64 := 0
  removeAlls : UInt64 := 0
  indexesAdded : UInt64 := 0
  records : UInt64 := 0
  deriving DecidableEq

namespace Metrics

/-- Adds one to a counter. -/
def increment (m : Metrics) : Counter → Metrics
  | .puts => { m with puts := m.puts + 1 }
  | .removes => { m with removes := m.removes + 1 }
  | .finds => { m with finds := m.finds + 1 }
  | .selects => { m with selects := m.selects + 1 }
  | .orPlans => { m with orPlans := m.orPlans + 1 }
  | .removeAlls => { m with removeAlls := m.removeAlls + 1 }
  | .indexesAdded => { m with indexesAdded := m.indexesAdded + 1 }

def setRecords (m : Metrics) (count : Nat) : Metrics :=
  { m with records := .ofNat count }

/-- Every figure under the name it is reported by. -/
def figures (m : Metrics) : List (String × UInt64) :=
  [("puts", m.puts), ("removes", m.removes), ("finds", m.finds), ("selects", m.selects),
    ("or_plans", m.orPlans), ("remove_alls", m.removeAlls), ("indexes_added", m.indexesAdded),
    ("records", m.records)]

/-- The figures as one JSON object. -/
def toJson (m : Metrics) : String :=
  (Json.Value.ofMembers (m.figures.map fun (name, n) => (name, .ofNat n.toNat))).render

/-- The text that shows the figures in diagnostics. -/
def inspect (m : Metrics) : String :=
  let shown := m.figures.map fun (name, n) => name ++ ": " ++ toString n.toNat
  "MetricsSnapshot \x7b " ++ ", ".intercalate shown ++ " \x7d"

end Metrics

end RecordStore
