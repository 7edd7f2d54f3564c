import RecordStore.Engine
/-!
# Sessions

A session is an engine together with the snapshots that have been taken of it. `Session.run` carries
out a list of operations and collects their answers. Only the values matter here and not what is
reported on the way: `Logged.value` is the value of a computation under a threshold.
-/

namespace RecordStore

open Log

namespace Log.Logged

variable {α : Type}

/-- The value of a computation that is run under a threshold. -/
def value (x : Logged α) (threshold : Threshold) : α :=
  (x.run threshold).1

end Log.Logged

/-- What may be asked about the records there are at some moment. -/
inductive Question (R : Type) where
  | find (key : Key)
  | findRecord (record : R)
  | size
  | select (q : Query R)
  | explain (q : Query R)

/-- What an engine may be asked to do. `askView` asks a snapshot, given by its number. -/
inductive Operation (R : Type) where
  | put (record : R)
  | remove (record : R)
  | removeAll (q : Query R)
  | addIndex (p : Property R)
  | addCompositeIndex (properties : List (Property R))
  | snapshot
  | ask (question : Question R)
  | askView (view : Nat) (question : Question R)

inductive Answer (R : Type) where
  | record (found : Option R)
  | count (n : Nat)
  | selected (collected : Collected R)
  | explained (e : Explain)
  | done
  | noView

variable {R : Type}

/-- The answer of a snapshot. -/
def Snapshot.answer (v : Snapshot R) : Question R → Logged (Answer R)
  | .find key => return .record (v.find? key)
  | .findRecord record => return .record (v.findRecord? record)
  | .size => return .count v.size
  | .select q => do
    let collected ← v.select q .collect {}
    return .selected collected
  | .explain q => return .explained (v.explain q)

/-- The answer of an engine. -/
def Engine.answer (e : Engine R) : Question R → Logged (Answer R × Engine R)
  | .find key => do
    let (found, e) ← e.find key
    return (.record found, e)
  | .findRecord record => do
    let (found, e) ← e.findRecord record
    return (.record found, e)
  | .size => return (.count e.size, e)
  | .select q => do
    let (collected, e) ← e.select q .collect {}
    return (.selected collected, e)
  | .explain q => return (.explained (e.explain q), e)

/-- An engine and the snapshots taken of it, the earliest first. -/
structure Session (R : Type) where
  engine : Engine R
  views : List (Snapshot R) := []

namespace Session

/-- Carries out an operation. -/
def perform (s : Session R) : Operation R → Logged (Answer R × Session R)
  | .put record => do
    let (put, e) ← s.engine.put record
    return (.record (some put), { s with engine := e })
  | .remove record => do
    let (removed, e) ← s.engine.remove record
    return (.record removed, { s with engine := e })
  | .removeAll q => do
    let (removed, e) ← s.engine.removeAll q
    return (.count removed, { s with engine := e })
  | .addIndex p => do
    let e ← s.engine.addIndex p
    return (.done, { s with engine := e })
  | .addCompositeIndex properties => do
    let e ← s.engine.addCompositeIndex properties
    return (.done, { s with engine := e })
  | .snapshot => do
    let v ← s.engine.snapshot
    return (.done, { s with views := s.views ++ [v] })
  | .ask question => do
    let (answer, e) ← s.engine.answer question
    return (answer, { s with engine := e })
  | .askView view question =>
    match s.views[view]? with
    | none => return (.noView, s)
    | some v => do
      let answer ← v.answer question
      return (answer, s)

/-- Carries out operations one after the other. -/
def run (s : Session R) : List (Operation R) → Logged (List (Answer R) × Session R)
  | [] => return ([], s)
  | op :: rest => do
    let (answer, s) ← s.perform op
    let (answers, s) ← s.run rest
    return (answer :: answers, s)

end Session

end RecordStore
