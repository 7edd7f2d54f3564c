import RecordStore.Proofs.Engine.Session
import RecordStore.Proofs.Engine.Store
/-!
# The ledger of a run

A `Ledger` records what has happened in a run without looking at any index: which records are stored
and when each was put, when each index was registered and whether there were records then, and when
the store was last empty. An operation happens at the time that the clock shows, and then the clock
moves on. The one thing a ledger is told by the engine is which keys a filtered removal selects.

`Run` is a run of a new engine, with its answers, its final session and its ledger.
-/

namespace RecordStore

open Log

/-- When an index was registered, and whether there were records then. -/
structure Registration where
  time : Nat
  amidRecords : Bool

structure Ledger (R : Type) where
  clock : Nat := 1
  stored : Store R := ∅
  /-- When the current record of a key was put. -/
  putAt : Key → Nat := fun _ => 0
  /-- When the store was last empty. -/
  emptied : Nat := 0
  /-- One entry for each index, that of the primary key first. -/
  registrations : List Registration := [⟨0, false⟩]
  /-- What was stored when each snapshot was taken. -/
  views : List (Store R) := []

namespace Ledger

variable {R : Type}

/-- Whether an index was registered amid records, some of which may still be there. -/
def lags (l : Ledger R) (g : Registration) : Bool :=
  g.amidRecords && l.emptied ≤ g.time

/-! ## What happens at one time -/

/-- The record of a key goes, if there is one. -/
def forget (l : Ledger R) (key : Key) : Ledger R :=
  { l with
    stored := l.stored.erase key
    emptied := if (l.stored.erase key).isEmpty then l.clock else l.emptied }

theorem stored_foldl_forget (keys : List Key) (l : Ledger R) :
    (keys.foldl forget l).stored = keys.foldl (fun m key => m.erase key) l.stored := by
  induction keys generalizing l with
  | nil => rfl
  | cons key keys ih => exact ih (l.forget key)

theorem views_foldl_forget (keys : List Key) (l : Ledger R) :
    (keys.foldl forget l).views = l.views := by
  induction keys generalizing l with
  | nil => rfl
  | cons key keys ih => exact ih (l.forget key)

/-- A record comes under a key. -/
def bind (l : Ledger R) (key : Key) (record : R) : Ledger R :=
  { l with
    stored := l.stored.insert key record
    putAt := fun k => if k = key then l.clock else l.putAt k }

/-- All records go. -/
def clear (l : Ledger R) : Ledger R :=
  { l with stored := ∅, emptied := l.clock }

def register (l : Ledger R) : Ledger R :=
  { l with registrations := l.registrations ++ [⟨l.clock, !l.stored.isEmpty⟩] }

def takeView (l : Ledger R) : Ledger R :=
  { l with views := l.views ++ [l.stored] }

def tick (l : Ledger R) : Ledger R :=
  { l with clock := l.clock + 1 }

/-- What an operation does, less the passing of time. -/
def note (l : Ledger R) (e : Engine R) : Operation R → Ledger R
  | .put record => (l.forget (e.primaryKey.get record)).bind (e.primaryKey.get record) record
  | .remove record => l.forget (e.primaryKey.get record)
  | .removeAll q =>
    if e.config.honorRemoveAllFilters then (e.selectedKeys q).toList.foldl forget l else l.clear
  | .addIndex _ => l.register
  | .addCompositeIndex _ => l.register
  | .snapshot => l.takeView
  | .ask _ => l
  | .askView _ _ => l

/-- The ledger after an operation on an engine. -/
def after (l : Ledger R) (e : Engine R) (op : Operation R) : Ledger R :=
  (l.note e op).tick

theorem stored_removeAll (l : Ledger R) (e : Engine R) (q : Query R) :
    (l.after e (.removeAll q)).stored =
      if e.config.honorRemoveAllFilters then
        (e.selectedKeys q).toList.foldl (fun m key => m.erase key) l.stored
      else ∅ := by
  unfold after note
  dsimp only [tick]
  split
  · exact stored_foldl_forget _ l
  · rfl

/-- The ledger after a list of operations on a session. -/
def afterAll (threshold : Threshold) (s : Session R) (l : Ledger R) :
    List (Operation R) → Ledger R
  | [] => l
  | op :: rest =>
    afterAll threshold ((s.perform op).value threshold).2 (l.after s.engine op) rest

end Ledger

/-- Operations on a new engine. -/
structure Run (R : Type) where
  primaryKey : Property R
  config : Config
  threshold : Threshold
  operations : List (Operation R)

namespace Run

variable {R : Type}

/-- The session of a new engine. -/
def start (run : Run R) : Session R :=
  { engine := (Engine.create run.primaryKey run.config).value run.threshold }

/-- The answers to the operations, in turn. -/
def answers (run : Run R) : List (Answer R) :=
  ((run.start.run run.operations).value run.threshold).1

/-- The session that the operations lead to. -/
def session (run : Run R) : Session R :=
  ((run.start.run run.operations).value run.threshold).2

/-- The engine that the operations lead to. -/
def engine (run : Run R) : Engine R :=
  run.session.engine

/-- The ledger of the operations. -/
def ledger (run : Run R) : Ledger R :=
  Ledger.afterAll run.threshold run.start {} run.operations

end Run

/-- The first of a pair, taken for an identifier. -/
def Run.identifier : Property (Int × Int) :=
  ⟨"id", fun pair => .int pair.1⟩

/-- The second of a pair, taken for an amount. -/
def Run.amount : Property (Int × Int) :=
  ⟨"amount", fun pair => .int pair.2⟩

/-- The properties of a pair, by name. -/
def Run.named (name : String) : Option (Property (Int × Int)) :=
  [identifier, amount].find? (·.name == name)

/-- A run over amounts. An index on them is added when there are records already, a record is
replaced and another one removed, and at last the engine is emptied and filled again. -/
def Run.amounts : Run (Int × Int) where
  primaryKey := identifier
  config := {}
  threshold := none
  operations := [.put (1, 30), .put (2, 20), .addIndex amount, .put (1, 10), .snapshot,
    .remove (2, 0), .ask (.find (.int 1)), .askView 0 .size, .removeAll {}, .put (3, 10)]

/-- What holds at the start of a run and is kept by every operation holds at its end. -/
theorem Run.invariant {R : Type} (run : Run R) {holds : Session R → Ledger R → Prop}
    (hstart : holds run.start {})
    (hstep : ∀ s l op, holds s l →
      holds ((s.perform op).value run.threshold).2 (l.after s.engine op)) :
    holds run.session run.ledger := by
  unfold Run.session Run.ledger
  generalize run.start = s at hstart
  generalize ({} : Ledger R) = l at hstart
  induction run.operations generalizing s l with
  | nil => exact hstart
  | cons op rest ih => exact ih _ _ (hstep s l op hstart)

end RecordStore
