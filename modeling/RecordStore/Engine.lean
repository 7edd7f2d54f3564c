import RecordStore.Config.Reader
import RecordStore.Metrics
import RecordStore.Snapshot
/-!
# Engines

An engine keeps records under their primary keys, in the tree of that key and in every index that
has been added to it. An index added while there are records holds only what is put afterwards, and
is read from again once the engine has been empty. Every operation takes an engine to its successor,
counts what it does and reports it.
-/

namespace RecordStore

open Log

structure Engine (R : Type) where
  primaryKey : Property R
  config : Config
  alternatives : List (Index R)
  state : State R := .empty
  metrics : Metrics := {}

namespace Engine

variable {R S : Type}

/-! ## Making an engine -/

/-- An empty engine under a configuration, without the indexes that it names. -/
def create (primaryKey : Property R) (config : Config) : Logged (Engine R) := do
  report .engineCreated [("primary_key", primaryKey.name)]
  return { primaryKey, config, alternatives := [.unique primaryKey] }

/-- An empty engine without further indexes. -/
def new (primaryKey : Property R) : Logged (Engine R) :=
  create primaryKey { primaryKey := primaryKey.name }

/-- All alternatives as one index. -/
def index (e : Engine R) : Index R :=
  .alternatives e.alternatives

/-- The number of records. -/
def size (e : Engine R) : Nat :=
  e.state.size

def flag (b : Bool) : String :=
  if b then "true" else "false"

/-- Adds an alternative. -/
def register (e : Engine R) (ix : Index R) : Logged (Engine R) := do
  report .indexAdded [("index", ix.describe), ("partial", flag (!e.state.isEmpty))]
  return { e with
           alternatives := e.alternatives ++ [ix]
           metrics := e.metrics.increment .indexesAdded }

/-- Adds an index on one property. -/
def addIndex (e : Engine R) (p : Property R) : Logged (Engine R) :=
  e.register (.secondary p e.primaryKey)

/-- Adds an index on several properties in turn. -/
def addCompositeIndex (e : Engine R) (properties : List (Property R)) : Logged (Engine R) :=
  e.register (.chain properties e.primaryKey)

/-- The properties with the given names, or the first name without one. -/
def resolveAll (resolve : String → Option (Property R)) (names : List String) :
    Except Config.Violation (List (Property R)) :=
  names.mapM fun name => (resolve name).elim (.error (.unknownProperty name)) .ok

/-- The primary key and the properties of each index that a configuration asks for. -/
def resolveConfig (resolve : String → Option (Property R)) (config : Config) :
    Except Config.Violation (Property R × List (List (Property R))) := do
  if let some v := config.violation? then throw v
  let primaryKey ← (resolve config.primaryKey).elim (.error (.unknownProperty config.primaryKey)) .ok
  let indexes ← config.indexes.mapM fun definition => resolveAll resolve definition.names
  return (primaryKey, indexes)

/-- Makes the engine that a configuration asks for, with the properties that `resolve` knows. -/
def ofConfig (resolve : String → Option (Property R)) (config : Config) :
    Logged (Except Config.Error (Engine R)) :=
  match resolveConfig resolve config with
  | .error v => return .error (.invalid v)
  | .ok (primaryKey, indexes) => do
    let e ← create primaryKey config
    let e ← indexes.foldlM addCompositeIndex e
    return .ok e

/-- Makes an engine over documents, whose properties are their members. -/
def ofConfigOverDocuments (config : Config) :
    Logged (Except Config.Error (Engine Json.Document)) :=
  ofConfig (some ∘ Property.field) config

/-! ## Reading -/

/-- The present moment, without a report. -/
def view (e : Engine R) : Snapshot R :=
  { primaryKey := e.primaryKey
    alternatives := e.alternatives
    state := e.state
    logPlans := e.config.logPlans }

/-- A lasting view of the present moment. -/
def snapshot (e : Engine R) : Logged (Snapshot R) := do
  report .snapshotTaken [("records", toString e.size)]
  return e.view

/-- The indexes, in the order they were added. -/
def describe (e : Engine R) : String :=
  " | ".intercalate (e.alternatives.map Index.describe)

/-- What would be done for a query. -/
def explain (e : Engine R) (q : Query R) : Explain :=
  e.view.explain q

/-- Finds the record with a primary key. -/
def find (e : Engine R) (key : Key) : Logged (Option R × Engine R) := do
  let found := e.view.find? key
  report .recordFound [("found", flag found.isSome), ("key", key.display)]
  return (found, { e with metrics := e.metrics.increment .finds })

/-- Finds the stored record that has the primary key of the given one. -/
def findRecord (e : Engine R) (record : R) : Logged (Option R × Engine R) :=
  e.find (e.primaryKey.get record)

/-- Sends the records a query selects to a sink, then signals their end. -/
def select (e : Engine R) (q : Query R) (sink : Sink R S) (s : S) : Logged (S × Engine R) := do
  let (gathered, isUnion) ← e.view.execute q sink s
  let metrics := e.metrics.increment .selects
  return (gathered, { e with metrics := if isUnion then metrics.increment .orPlans else metrics })

/-! ## Writing -/

/-- The engine with another state, and the number of records in it. -/
def withState (e : Engine R) (s : State R) : Engine R :=
  { e with state := s, metrics := e.metrics.setRecords s.size }

/-- Puts a record in, in place of the one that had its primary key. That one is removed first, so
that nothing of it stays behind under its other keys. -/
def put (e : Engine R) (record : R) : Logged (R × Engine R) := do
  let key := e.primaryKey.get record
  let previous := e.index.find? key e.state
  let without := previous.elim e.state (e.index.remove · e.state)
  let e := e.withState (e.index.put record without)
  report .recordPut [("key", key.display), ("replaced", flag previous.isSome)]
  return (record, { e with metrics := e.metrics.increment .puts })

/-- Removes the record that has the primary key of the given one. -/
def remove (e : Engine R) (record : R) : Logged (Option R × Engine R) := do
  let key := e.primaryKey.get record
  match e.index.find? key e.state with
  | none => return (none, e)
  | some stored =>
    let e := e.withState (e.index.remove stored e.state)
    report .recordRemoved [("key", key.display), ("replaced", flag false)]
    return (some stored, { e with metrics := e.metrics.increment .removes })

/-- The primary keys of the records a query selects, one for each time it does. -/
def selectedKeys (e : Engine R) (q : Query R) : Array Key :=
  let q := q.normalized e.primaryKey
  let keys : Sink R (Array Key) := { put := fun keys record => keys.push (e.primaryKey.get record) }
  (Plan.choose e.alternatives e.state q).execute q keys #[]

/-- Removes the records with the given primary keys from a state, and counts those there were. A key
may come twice. -/
def removeKeys (ix : Index R) (keys : List Key) (s : State R) : State R × Nat :=
  keys.foldl (fun (s, removed) key =>
    match ix.find? key s with
    | none => (s, removed)
    | some stored => (ix.remove stored s, removed + 1)) (s, 0)

/-- Removes the records a query selects, or all records unless the configuration honours the query,
and counts them. -/
def removeAll (e : Engine R) (q : Query R) : Logged (Nat × Engine R) := do
  let filtered := e.config.honorRemoveAllFilters
  let (state, removed) :=
    if filtered then removeKeys e.index (e.selectedKeys q).toList e.state else (.empty, e.size)
  report .removeAll [("filtered", flag filtered), ("removed", toString removed)]
  let e := e.withState state
  return (removed, { e with metrics := e.metrics.increment .removeAlls })

end Engine

end RecordStore
