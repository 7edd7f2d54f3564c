import RecordStore.Log.Logged
import RecordStore.Plan.Explain
/-!
# Snapshots

A read-only view of an engine at one moment: the alternatives there were and the state there was.
Nothing written later changes what it answers.
-/

namespace RecordStore

open Log

structure Snapshot (R : Type) where
  primaryKey : Property R
  alternatives : List (Index R)
  state : State R
  logPlans : Bool

namespace Snapshot

variable {R S : Type}

/-- The number of records in view. -/
def size (v : Snapshot R) : Nat :=
  v.state.size

/-- Where a primary key is looked up. -/
def lookup (v : Snapshot R) : Lookup R :=
  (Index.alternatives v.alternatives).lookup v.state

def find? (v : Snapshot R) (key : Key) : Option R :=
  v.lookup.find? key

/-- Finds the stored record that has the primary key of the given one. -/
def findRecord? (v : Snapshot R) (record : R) : Option R :=
  v.find? (v.primaryKey.get record)

/-- The plan of a query that is normalized. -/
def plan (v : Snapshot R) (q : Query R) : Plan R :=
  Plan.choose v.alternatives v.state q

/-- What would be done for a query. -/
def explain (v : Snapshot R) (q : Query R) : Explain :=
  let q := q.normalized v.primaryKey
  .ofPlan (v.plan q) q

/-- The report of a plan: its cost, the index it scans, and what it is for. -/
def planFields (e : Explain) : Fields :=
  [("cost", toString e.cost), ("index", (e.scan.map (·.index)).getD "-"),
    ("predicate", e.predicate.getD "TRUE"), ("strategy", e.strategy.name)]

/-- Sends the records a query selects to a sink, then signals their end. Also tells whether that was
a union. -/
def execute (v : Snapshot R) (q : Query R) (sink : Sink R S) (s : S) : Logged (S × Bool) := do
  let q := q.normalized v.primaryKey
  let plan := v.plan q
  if v.logPlans then report .queryPlanned (planFields (.ofPlan plan q))
  let gathered := sink.close (plan.execute q sink s)
  report .queryExecuted [("cost", toString plan.cost)]
  return (gathered, plan.isUnion)

/-- Sends the records a query selects to a sink, then signals their end. -/
def select (v : Snapshot R) (q : Query R) (sink : Sink R S) (s : S) : Logged S :=
  (·.1) <$> v.execute q sink s

end Snapshot

end RecordStore
