import RecordStore.Json.Writer
import RecordStore.Text.Quoted
/-!
# Configurations

The primary key of an engine, the indexes it starts with and two switches. `Config.violation?` is
the first reason, if any, for which no engine can be made from a configuration.
-/

namespace RecordStore

/-- An index by the names of its properties: one property, or several that order it in turn. -/
inductive IndexDefinition where
  | single (name : String)
  | composite (names : List String)
  deriving DecidableEq

namespace IndexDefinition

/-- The properties, outermost first. -/
def names : IndexDefinition → List String
  | single name => [name]
  | composite names => names

def toValue : IndexDefinition → Json.Value
  | single name => .ofString name
  | composite names => .array (names.map .ofString)

/-- The text that shows a definition in diagnostics. -/
def inspect : IndexDefinition → String
  | single name => "Single(" ++ Text.quoted name ++ ")"
  | composite names => "Composite(" ++ Text.bracketed (names.map Text.quoted) ++ ")"

end IndexDefinition

structure Config where
  primaryKey : String := "id"
  indexes : List IndexDefinition := []
  /-- Whether a bulk removal goes by its query and does not simply remove everything. -/
  honorRemoveAllFilters : Bool := false
  /-- Whether the plan of every select is reported. -/
  logPlans : Bool := false
  deriving DecidableEq

namespace Config

/-- Why no engine can be made from a configuration. -/
inductive Violation where
  | emptyPrimaryKey
  | noProperty
  | emptyName
  | primaryKeyIndex (name : String)
  | duplicateIndex (names : List String)
  | unknownProperty (name : String)
  deriving DecidableEq

def Violation.message : Violation → String
  | emptyPrimaryKey => "primary_key must not be empty"
  | noProperty => "index definition must name at least one property"
  | emptyName => "index property names must not be empty"
  | primaryKeyIndex name => "index on primary key '" ++ name ++ "' is implicit"
  | duplicateIndex names => "duplicate index [" ++ ", ".intercalate names ++ "]"
  | unknownProperty name => "unknown property '" ++ name ++ "'"

/-- What is wrong with an index on the given properties, after indexes on those of `seen`. -/
def indexViolation? (primaryKey : String) (seen : List (List String)) (names : List String) :
    Option Violation :=
  if names.isEmpty then some .noProperty
  else if names.any (· == "") then some .emptyName
  else if names = [primaryKey] then some (.primaryKeyIndex primaryKey)
  else if seen.contains names then some (.duplicateIndex names)
  else none

/-- The first thing wrong with some indexes, in their order. -/
def indexesViolation? (primaryKey : String) (seen : List (List String)) :
    List (List String) → Option Violation
  | [] => none
  | names :: rest =>
    (indexViolation? primaryKey seen names).or
      (indexesViolation? primaryKey (names :: seen) rest)

/-- The first thing wrong with a configuration in itself, whatever properties there are. -/
def violation? (c : Config) : Option Violation :=
  if c.primaryKey = "" then some .emptyPrimaryKey
  else indexesViolation? c.primaryKey [] (c.indexes.map IndexDefinition.names)

/-- The configuration as a JSON value, every field of it. -/
def toValue (c : Config) : Json.Value :=
  .ofMembers
    [("primary_key", .ofString c.primaryKey),
      ("indexes", .array (c.indexes.map IndexDefinition.toValue)),
      ("honor_remove_all_filters", .bool c.honorRemoveAllFilters),
      ("log_plans", .bool c.logPlans)]

/-- The configuration as JSON text. -/
def toJson (c : Config) : String :=
  c.toValue.render

/-- The text that shows a configuration in diagnostics. -/
def inspect (c : Config) : String :=
  "MdaoConfig \x7b primary_key: " ++ Text.quoted c.primaryKey ++
    ", indexes: " ++ Text.bracketed (c.indexes.map IndexDefinition.inspect) ++
    ", honor_remove_all_filters: " ++ toString c.honorRemoveAllFilters ++
    ", log_plans: " ++ toString c.logPlans ++ " \x7d"

end Config

end RecordStore
