import RecordStore.Proofs.Engine.Session
/-!
# Where engines come from

An `Origin` is a way to come by an engine: it is made with a primary key and a configuration, which
is then only kept, or it is made as a configuration asks for, and that configuration may be read
from a file first. `Origin.run` is the life of an engine from there on, its making included. An
engine that cannot be made has none: what is wrong is all that comes of it.

A configuration that can be resolved gives one index for each that it names
(`length_of_resolveConfig`).
-/

namespace RecordStore

open Log

inductive Origin (R : Type) where
  | created (primaryKey : Property R) (config : Config)
  | configured (resolve : String → Option (Property R)) (config : Config)
  | loaded (resolve : String → Option (Property R)) (path : String) (file : Config.FileContent)

namespace Origin

variable {R : Type}

/-- Makes the engine. -/
def make : Origin R → Logged (Except Config.Error (Engine R))
  | created primaryKey config => do
    let e ← Engine.create primaryKey config
    return .ok e
  | configured resolve config => Engine.ofConfig resolve config
  | loaded resolve path file => do
    match ← Config.load path file with
    | .ok config => Engine.ofConfig resolve config
    | .error error => return .error error

/-- Makes the engine and carries out operations on it. -/
def run (o : Origin R) (ops : List (Operation R)) :
    Logged (Except Config.Error (List (Answer R) × Session R)) := do
  match ← o.make with
  | .ok e =>
    let life ← ({ engine := e } : Session R).run ops
    return .ok life
  | .error error => return .error error

/-- The number of indexes that an engine of this origin has from the beginning, besides that of the
primary key. -/
def indexCount (e : Engine R) : Origin R → Nat
  | created _ _ => 0
  | configured _ _ => e.config.indexes.length
  | loaded _ _ _ => e.config.indexes.length

end Origin

/-! ## Resolved configurations -/

namespace Engine

theorem exists_of_bind_eq_ok {ε α β : Type} {x : Except ε α} {f : α → Except ε β} {b : β}
    (h : x >>= f = .ok b) : ∃ a, x = .ok a ∧ f a = .ok b := by
  cases x with
  | error e => cases h
  | ok a => exact ⟨a, rfl, h⟩

theorem length_of_mapM_eq_ok {ε α β : Type} {f : α → Except ε β} {as : List α} {bs : List β}
    (h : as.mapM f = .ok bs) : bs.length = as.length := by
  induction as generalizing bs with
  | nil =>
    cases h
    rfl
  | cons a as ih =>
    rw [List.mapM_cons] at h
    obtain ⟨b, -, h⟩ := exists_of_bind_eq_ok h
    obtain ⟨rest, hrest, h⟩ := exists_of_bind_eq_ok h
    cases h
    exact congrArg (· + 1) (ih hrest)

/-- Every index that a configuration names is made. -/
theorem length_of_resolveConfig {R : Type} {resolve : String → Option (Property R)} {config : Config}
    {pk : Property R} {indexes : List (List (Property R))}
    (h : resolveConfig resolve config = .ok (pk, indexes)) :
    indexes.length = config.indexes.length := by
  unfold resolveConfig at h
  cases hviolation : config.violation? with
  | some v =>
    rw [hviolation] at h
    cases h
  | none =>
    rw [hviolation] at h
    obtain ⟨_, -, h⟩ := exists_of_bind_eq_ok h
    obtain ⟨_, hindexes, h⟩ := exists_of_bind_eq_ok h
    cases h
    exact length_of_mapM_eq_ok hindexes

end Engine

end RecordStore
