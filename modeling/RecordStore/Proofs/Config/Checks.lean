import Mathlib.Data.List.Infix
import RecordStore.Config.Basic
/-!
# What is asked of a configuration

`Config.WellFormed` says which configurations have nothing wrong with them, and `Config.checks`
lists all that is checked, names without a property included, in the order that decides what is
reported. Both are told without the search for a violation, which stops at the first one and keeps
track of the indexes it has passed. The search finds nothing exactly in a well-formed configuration
(`violation?_eq_none_iff`), and what it finds is what the first broken check says
(`firstBroken?_checks`).
-/

namespace RecordStore.Config

/-- Whether nothing is wrong with a configuration in itself, whatever properties there are. -/
structure WellFormed (c : Config) : Prop where
  primaryKey : c.primaryKey ≠ ""
  nonempty : ∀ d ∈ c.indexes, d.names ≠ []
  named : ∀ d ∈ c.indexes, "" ∉ d.names
  secondary : ∀ d ∈ c.indexes, d.names ≠ [c.primaryKey]
  distinct : (c.indexes.map IndexDefinition.names).Nodup

/-- A check, whether it is broken, and what is wrong then. -/
structure Check where
  broken : Bool
  violation : Violation

/-- What an index is checked for, after some earlier ones. -/
def indexChecks (primaryKey : String) (earlier : List (List String)) (names : List String) : List Check :=
  [⟨names = [], .noProperty⟩, ⟨"" ∈ names, .emptyName⟩,
    ⟨names = [primaryKey], .primaryKeyIndex primaryKey⟩, ⟨names ∈ earlier, .duplicateIndex names⟩]

/-- Names are checked for a property. -/
def nameChecks (known : String → Bool) (names : List String) : List Check :=
  names.map fun name => ⟨!known name, .unknownProperty name⟩

/-- The names in a configuration, that of the primary key first. -/
def usedNames (c : Config) : List String :=
  c.primaryKey :: c.indexes.flatMap IndexDefinition.names

/-- All checks of a configuration: of the primary key, then of each index, and then of all names. -/
def checks (c : Config) (known : String → Bool) : List Check :=
  let indexes := c.indexes.map IndexDefinition.names
  ⟨c.primaryKey = "", .emptyPrimaryKey⟩ ::
    (indexes.inits.zip indexes).flatMap (fun (earlier, names) =>
      indexChecks c.primaryKey earlier names) ++
    nameChecks known c.usedNames

/-- Whether a check is broken and none before it is. -/
def FirstBroken (checks : List Check) (v : Violation) : Prop :=
  ∃ before after, checks = before ++ ⟨true, v⟩ :: after ∧ ∀ check ∈ before, check.broken = false

/-- What the first broken check says. -/
def firstBroken? (checks : List Check) : Option Violation :=
  (checks.find? (·.broken)).map (·.violation)

variable {checks checks' : List Check} {v : Violation}

theorem firstBroken?_eq_some_iff : firstBroken? checks = some v ↔ FirstBroken checks v := by
  unfold firstBroken? FirstBroken
  rw [Option.map_eq_some_iff]
  constructor
  · rintro ⟨⟨broken, v⟩, hfind, rfl⟩
    obtain ⟨hbroken, before, after, hsplit, hbefore⟩ := List.find?_eq_some_iff_append.1 hfind
    obtain rfl : broken = true := hbroken
    exact ⟨before, after, hsplit, fun check hcheck => by simpa using hbefore check hcheck⟩
  · rintro ⟨before, after, hsplit, hbefore⟩
    refine ⟨⟨true, v⟩, List.find?_eq_some_iff_append.2 ⟨rfl, before, after, hsplit, ?_⟩, rfl⟩
    exact fun check hcheck => by simp [hbefore check hcheck]

theorem firstBroken?_append (checks checks' : List Check) :
    firstBroken? (checks ++ checks') = (firstBroken? checks).or (firstBroken? checks') := by
  rw [firstBroken?, List.find?_append, Option.map_or]
  rfl

theorem firstBroken?_cons (check : Check) (checks : List Check) :
    firstBroken? (check :: checks) =
      if check.broken then some check.violation else firstBroken? checks := by
  rw [firstBroken?, List.find?_cons]
  cases check.broken <;> rfl

/-- The first of many names without a property is the first one where they stand, list after list. -/
theorem firstBroken?_nameChecks_flatMap {α : Type} (known : String → Bool) (names : α → List String)
    (as : List α) : firstBroken? (nameChecks known (as.flatMap names)) =
      as.findSome? fun a => firstBroken? (nameChecks known (names a)) := by
  have happend (names names' : List String) :
      nameChecks known (names ++ names') = nameChecks known names ++ nameChecks known names' :=
    List.map_append
  induction as with
  | nil => rfl
  | cons a as ih =>
    rw [List.flatMap_cons, happend, firstBroken?_append, List.findSome?_cons, ih]
    cases firstBroken? (nameChecks known (names a)) <;> rfl

/-! ## Indexes -/

theorem firstBroken?_indexChecks (primaryKey : String) {earlier seen : List (List String)}
    (hseen : ∀ names, names ∈ earlier ↔ names ∈ seen) (names : List String) :
    firstBroken? (indexChecks primaryKey earlier names) = indexViolation? primaryKey seen names := by
  have hempty : decide (names = []) = names.isEmpty := by cases names <;> rfl
  have hnamed : decide ("" ∈ names) = names.any (· == "") := by
    rw [Bool.eq_iff_iff]
    simp
  have hrepeated : decide (names ∈ earlier) = seen.contains names := by simp [hseen]
  simp only [indexChecks, firstBroken?_cons, hempty, hnamed, hrepeated, decide_eq_true_eq]
  rfl

theorem indexViolation?_eq_none_iff {primaryKey : String} {seen : List (List String)}
    {names : List String} : indexViolation? primaryKey seen names = none ↔
      names ≠ [] ∧ "" ∉ names ∧ names ≠ [primaryKey] ∧ names ∉ seen := by
  simp only [indexViolation?, List.isEmpty_iff, List.any_beq', List.contains_iff_mem]
  split_ifs <;> simp_all

/-- The search passes over the indexes as the checks list them, each with those before it. -/
theorem firstBroken?_indexesChecks (primaryKey : String) (indexes : List (List String))
    {before seen : List (List String)} (hseen : ∀ names, names ∈ before ↔ names ∈ seen) :
    firstBroken? (((indexes.inits.map (before ++ ·)).zip indexes).flatMap fun (earlier, names) =>
      indexChecks primaryKey earlier names) = indexesViolation? primaryKey seen indexes := by
  induction indexes generalizing before seen with
  | nil => rfl
  | cons names rest ih =>
    have hpassed (other) : other ∈ before ++ [names] ↔ other ∈ names :: seen := by
      simp [hseen, or_comm]
    have hrest := ih hpassed
    rw [List.inits_cons, List.map_cons, List.zip_cons_cons, List.flatMap_cons, firstBroken?_append,
      List.append_nil, firstBroken?_indexChecks primaryKey hseen, indexesViolation?, ← hrest,
      List.map_map]
    simp only [Function.comp_def, List.append_assoc, List.singleton_append]

theorem indexesViolation?_eq_none_iff (primaryKey : String) (indexes seen : List (List String)) :
    indexesViolation? primaryKey seen indexes = none ↔
      (∀ names ∈ indexes, names ≠ [] ∧ "" ∉ names ∧ names ≠ [primaryKey] ∧ names ∉ seen) ∧
        indexes.Nodup := by
  induction indexes generalizing seen with
  | nil => simp [indexesViolation?]
  | cons names rest ih =>
    rw [indexesViolation?, Option.or_eq_none_iff, indexViolation?_eq_none_iff, ih, List.nodup_cons,
      List.forall_mem_cons]
    grind

/-! ## Configurations -/

theorem violation?_eq_none_iff {c : Config} : c.violation? = none ↔ c.WellFormed := by
  have hindexes :=
    indexesViolation?_eq_none_iff c.primaryKey (c.indexes.map IndexDefinition.names) []
  rw [List.forall_mem_map] at hindexes
  rw [violation?]
  constructor
  · intro h
    split at h
    · cases h
    · next hpk =>
      obtain ⟨heach, hdistinct⟩ := hindexes.1 h
      exact ⟨hpk, fun d hd => (heach d hd).1, fun d hd => (heach d hd).2.1,
        fun d hd => (heach d hd).2.2.1, hdistinct⟩
  · intro h
    rw [if_neg h.primaryKey, hindexes]
    exact ⟨fun d hd => ⟨h.nonempty d hd, h.named d hd, h.secondary d hd, List.not_mem_nil⟩, h.distinct⟩

/-- What the checks find first is a violation of the configuration itself, and only then a name
without a property. -/
theorem firstBroken?_checks (c : Config) (known : String → Bool) :
    firstBroken? (c.checks known) = c.violation?.or (firstBroken? (nameChecks known c.usedNames)) := by
  have hnone (names : List String) : names ∈ [] ↔ names ∈ [] := Iff.rfl
  have hindexes := firstBroken?_indexesChecks c.primaryKey (c.indexes.map IndexDefinition.names) hnone
  simp only [List.nil_append, List.map_id'] at hindexes
  rw [checks, List.cons_append, firstBroken?_cons, firstBroken?_append, hindexes, violation?]
  by_cases hpk : c.primaryKey = "" <;> simp [hpk]

theorem firstBroken?_nameChecks_eq_none_iff {known : String → Bool} {names : List String} :
    firstBroken? (nameChecks known names) = none ↔ ∀ name ∈ names, known name = true := by
  simp [firstBroken?, nameChecks]

/-- No check is broken exactly if the configuration is well-formed and every name has a property. -/
theorem firstBroken?_checks_eq_none_iff {c : Config} {known : String → Bool} :
    firstBroken? (c.checks known) = none ↔
      c.WellFormed ∧ ∀ name ∈ c.usedNames, known name = true := by
  rw [firstBroken?_checks, Option.or_eq_none_iff, violation?_eq_none_iff,
    firstBroken?_nameChecks_eq_none_iff]

end RecordStore.Config
