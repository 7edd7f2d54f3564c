import RecordStore.Proofs.Config.Checks
import RecordStore.Proofs.Engine.Account
import RecordStore.Proofs.Log.Dimming
/-!
# Engines made as configurations ask

An engine is made from a configuration exactly if no check of it is broken; otherwise what is wrong
is what the first broken check says, and nothing has been reported. `Engine.Built` says what an
engine is like that has been made: it is empty, and it has the indexes that were asked for
(`Engine.ofConfig_outcome`).

Each name is resolved in turn until one has no property. `Config.failure?` tells how such a
computation fails, and it goes through `mapM` as the search for a broken check goes through a list.
-/

namespace RecordStore

open Log

variable {R : Type}

namespace Config

variable {α β : Type}

/-- What goes wrong in a computation, if it fails. -/
def failure? : Except Violation α → Option Violation
  | .error v => some v
  | .ok _ => none

/-- A list is mapped up to the first item that fails. -/
theorem failure?_mapM (f : α → Except Violation β) (as : List α) :
    failure? (as.mapM f) = as.findSome? fun a => failure? (f a) := by
  induction as with
  | nil => rfl
  | cons a as ih =>
    rw [List.mapM_cons, List.findSome?_cons, ← ih]
    cases f a with
    | error v => rfl
    | ok b => cases as.mapM f <;> rfl

theorem mapM_eq_ok {f : α → Except Violation β} {as : List α} {bs : List β}
    (h : as.mapM f = .ok bs) : List.Forall₂ (fun a b => f a = .ok b) as bs := by
  induction as generalizing bs with
  | nil =>
    cases h
    exact .nil
  | cons a as ih =>
    rw [List.mapM_cons] at h
    obtain ⟨b, hb, h⟩ := Engine.exists_of_bind_eq_ok h
    obtain ⟨rest, hrest, h⟩ := Engine.exists_of_bind_eq_ok h
    cases h
    exact .cons hb (ih hrest)

end Config

namespace Engine

open Config

/-- Whether an index is the one that a definition asks for. -/
def Defines (resolve : String → Option (Property R)) (pk : Property R) (d : IndexDefinition)
    (ix : Index R) : Prop :=
  ∃ properties, List.Forall₂ (fun name p => resolve name = some p) d.names properties ∧
    ix = .chain properties pk

/-- What an engine is like that has just been made as a configuration asks. -/
structure Built (resolve : String → Option (Property R)) (c : Config) (e : Engine R) : Prop where
  primaryKey : resolve c.primaryKey = some e.primaryKey
  config : e.config = c
  state : e.state = .empty
  alternatives : ∃ chains, e.alternatives = .unique e.primaryKey :: chains ∧
    List.Forall₂ (Defines resolve e.primaryKey) c.indexes chains
  metrics : e.metrics = { indexesAdded := .ofNat c.indexes.length }

variable (resolve : String → Option (Property R))

/-! ## Resolving names -/

theorem failure?_resolveAll (names : List String) :
    failure? (resolveAll resolve names) =
      firstBroken? (nameChecks (fun name => (resolve name).isSome) names) := by
  rw [resolveAll, failure?_mapM]
  induction names with
  | nil => rfl
  | cons name names ih =>
    rw [List.findSome?_cons, nameChecks, List.map_cons, firstBroken?_cons, ih]
    cases resolve name <;> rfl

theorem resolveAll_eq_ok {names : List String} {properties : List (Property R)}
    (h : resolveAll resolve names = .ok properties) :
    List.Forall₂ (fun name p => resolve name = some p) names properties := by
  refine (mapM_eq_ok h).imp fun name p hp => ?_
  cases hname : resolve name with
  | none => simp [hname] at hp
  | some q =>
    rw [hname] at hp
    cases hp
    rfl

/-- Either a check is broken, and resolving fails for the reason that the first one of them gives,
or none is, and all properties are found. -/
theorem resolveConfig_cases (c : Config) :
    (∃ v, resolveConfig resolve c = .error v ∧
        firstBroken? (c.checks fun name => (resolve name).isSome) = some v) ∨
      ∃ pk lists, resolveConfig resolve c = .ok (pk, lists) ∧
        firstBroken? (c.checks fun name => (resolve name).isSome) = none ∧
        resolve c.primaryKey = some pk ∧
        List.Forall₂ (fun (d : IndexDefinition) properties =>
          List.Forall₂ (fun name p => resolve name = some p) d.names properties) c.indexes lists := by
  have hnames : firstBroken? (nameChecks (fun name => (resolve name).isSome) c.usedNames) =
      if (resolve c.primaryKey).isSome then
        failure? (c.indexes.mapM fun d => resolveAll resolve d.names)
      else some (.unknownProperty c.primaryKey) := by
    simp only [failure?_mapM, failure?_resolveAll, ← firstBroken?_nameChecks_flatMap]
    rw [usedNames, nameChecks, List.map_cons, firstBroken?_cons]
    cases resolve c.primaryKey <;> rfl
  rw [firstBroken?_checks, hnames]
  unfold resolveConfig
  cases c.violation? with
  | some v => exact .inl ⟨v, rfl, rfl⟩
  | none =>
    cases resolve c.primaryKey with
    | none => exact .inl ⟨_, rfl, rfl⟩
    | some pk =>
      cases hlists : c.indexes.mapM fun d => resolveAll resolve d.names with
      | error v => exact .inl ⟨v, rfl, rfl⟩
      | ok lists =>
        exact .inr ⟨pk, lists, rfl, rfl, rfl,
          (mapM_eq_ok hlists).imp fun d properties => resolveAll_eq_ok resolve⟩

/-! ## Adding the indexes -/

theorem value_addCompositeIndexes (e : Engine R) (lists : List (List (Property R)))
    (threshold : Threshold) :
    (lists.foldlM addCompositeIndex e).value threshold =
      { e with
        alternatives := e.alternatives ++ lists.map fun properties => .chain properties e.primaryKey
        metrics := { e.metrics with indexesAdded := e.metrics.indexesAdded + .ofNat lists.length } } := by
  induction lists generalizing e with
  | nil =>
    show e = _
    simp
  | cons properties lists ih =>
    have hcount : e.metrics.indexesAdded + 1 + .ofNat lists.length =
        e.metrics.indexesAdded + .ofNat (lists.length + 1) := by
      rw [UInt64.add_assoc, Nat.add_comm, UInt64.ofNat_add]
      rfl
    rw [List.foldlM_cons]
    refine (ih ((e.addCompositeIndex properties).value threshold)).trans ?_
    rw [List.map_cons, List.length_cons, ← hcount, List.append_cons]
    rfl

theorem events_addCompositeIndexes (e : Engine R) (lists : List (List (Property R))) :
    ((lists.foldlM addCompositeIndex e).run (some .trace)).2.map (·.event) =
      List.replicate lists.length Event.indexAdded.name := by
  induction lists generalizing e with
  | nil => rfl
  | cons properties lists ih =>
    rw [List.foldlM_cons, Logged.run_bind, List.map_append, ih]
    rfl

/-! ## Making an engine -/

variable {resolve} {c : Config}

theorem run_ofConfig_of_error {v : Violation} (h : resolveConfig resolve c = .error v)
    (threshold : Threshold) :
    (ofConfig resolve c).run threshold = (.error (.invalid v), []) := by
  rw [ofConfig, h]
  rfl

theorem value_ofConfig_of_ok {pk : Property R} {lists : List (List (Property R))}
    (h : resolveConfig resolve c = .ok (pk, lists)) (threshold : Threshold) :
    (ofConfig resolve c).value threshold =
      .ok ((lists.foldlM addCompositeIndex ((create pk c).value threshold)).value threshold) := by
  rw [ofConfig, h]
  rfl

theorem events_ofConfig_of_ok {pk : Property R} {lists : List (List (Property R))}
    (h : resolveConfig resolve c = .ok (pk, lists)) :
    ((ofConfig resolve c).run (some .trace)).2.map (·.event) =
      Event.engineCreated.name :: List.replicate lists.length Event.indexAdded.name := by
  have hlog : ((ofConfig resolve c).run (some .trace)).2 = ((create pk c).run (some .trace)).2 ++
      ((lists.foldlM addCompositeIndex ((create pk c).value (some .trace))).run (some .trace)).2 := by
    rw [ofConfig, h]
    exact congrArg (_ ++ ·) (List.append_nil _)
  rw [hlog, List.map_append, events_addCompositeIndexes]
  rfl

theorem built_addCompositeIndexes {pk : Property R} {lists : List (List (Property R))}
    (hpk : resolve c.primaryKey = some pk)
    (hlists : List.Forall₂ (fun (d : IndexDefinition) properties =>
      List.Forall₂ (fun name p => resolve name = some p) d.names properties) c.indexes lists)
    (threshold : Threshold) :
    ((lists.foldlM addCompositeIndex ((create pk c).value threshold)).value threshold).Built
      resolve c := by
  rw [value_addCompositeIndexes, ← hlists.length_eq]
  refine ⟨hpk, rfl, rfl, ⟨lists.map fun properties => .chain properties pk, rfl, ?_⟩, ?_⟩
  · rw [List.forall₂_map_right_iff]
    exact hlists.imp fun d properties hproperties => ⟨properties, hproperties, rfl⟩
  · show ({ indexesAdded := 0 + .ofNat c.indexes.length } : Metrics) = _
    rw [UInt64.zero_add]

/-- An engine is made exactly from a well-formed configuration whose names all have a property, and
it is made as the configuration asks. Otherwise the error is what the first broken check says, and
nothing is reported. -/
theorem ofConfig_outcome (resolve : String → Option (Property R)) (c : Config) (threshold : Threshold) :
    let known name := (resolve name).isSome
    let made := (ofConfig resolve c).run threshold
    ((∃ e, made.1 = .ok e) ↔ c.WellFormed ∧ ∀ name ∈ c.usedNames, known name = true) ∧
      (∀ error, made.1 = .error error ↔ ∃ v, error = .invalid v ∧ FirstBroken (c.checks known) v) ∧
      (∀ error, made.1 = .error error → made.2 = []) ∧
      ∀ e, made.1 = .ok e → e.Built resolve c ∧
        ((ofConfig resolve c).run (some .trace)).2.map (·.event) =
          Event.engineCreated.name :: List.replicate c.indexes.length Event.indexAdded.name := by
  intro known made
  simp only [← firstBroken?_eq_some_iff, ← firstBroken?_checks_eq_none_iff]
  obtain ⟨v, hresolved, hbroken⟩ | ⟨pk, lists, hresolved, hsound, hpk, hlists⟩ :=
    resolveConfig_cases resolve c
  · have hmade : made = (.error (.invalid v), []) := run_ofConfig_of_error hresolved threshold
    rw [hmade, hbroken]
    refine ⟨by simp, fun error => ⟨?_, ?_⟩, fun _ _ => rfl, by simp⟩
    · rintro ⟨⟩
      exact ⟨v, rfl, rfl⟩
    · rintro ⟨_, rfl, ⟨⟩⟩
      rfl
  · have hmade : made.1 = .ok _ := value_ofConfig_of_ok hresolved threshold
    rw [hmade, hsound]
    refine ⟨by simp, by simp, by simp, ?_⟩
    rintro _ ⟨⟩
    rw [hlists.length_eq]
    exact ⟨built_addCompositeIndexes hpk hlists threshold, events_ofConfig_of_ok hresolved⟩

/-- Two definitions of one index are found before a name without a property, and before a later
empty one. -/
example (threshold : Threshold) :
    (ofConfig Run.named
        { indexes := [.single "price", .composite ["price"], .composite ["amount", ""]] }).run threshold =
      (.error (.invalid (.duplicateIndex ["price"])), []) := by
  rfl

end Engine

end RecordStore
