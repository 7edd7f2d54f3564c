import RecordStore.Config.Basic
import RecordStore.Json.Reader
import RecordStore.Log.Logged
/-!
# Reading configurations

A configuration is written as a JSON object of its fields, or as an array of them in their order.
Fields may be left out. A field that is not known is passed over, but a known one may come only
once and must have its type. What is read this far is checked before it is accepted.
-/

namespace RecordStore.Config

/-- The fields, in the order of the array form. -/
inductive Field where
  | primaryKey
  | indexes
  | honorRemoveAllFilters
  | logPlans
  deriving DecidableEq

def Field.all : List Field :=
  [primaryKey, indexes, honorRemoveAllFilters, logPlans]

def Field.name : Field → String
  | primaryKey => "primary_key"
  | indexes => "indexes"
  | honorRemoveAllFilters => "honor_remove_all_filters"
  | logPlans => "log_plans"

/-- The text of a string value. -/
def readText? : Json.Value → Option String
  | .string pieces => Json.text? pieces
  | _ => none

def readBool? : Json.Value → Option Bool
  | .bool b => some b
  | _ => none

/-- A definition is a name or an array of names. -/
def readDefinition? : Json.Value → Option IndexDefinition
  | .string pieces => (Json.text? pieces).map .single
  | .array items => (items.mapM readText?).map .composite
  | _ => none

def readDefinitions? : Json.Value → Option (List IndexDefinition)
  | .array items => items.mapM readDefinition?
  | _ => none

/-- Sets a field to what a value says. -/
def read? (c : Config) (v : Json.Value) : Field → Option Config
  | .primaryKey => (readText? v).map fun name => { c with primaryKey := name }
  | .indexes => (readDefinitions? v).map fun definitions => { c with indexes := definitions }
  | .honorRemoveAllFilters => (readBool? v).map fun b => { c with honorRemoveAllFilters := b }
  | .logPlans => (readBool? v).map fun b => { c with logPlans := b }

/-- Reads the members of an object; `seen` are the fields that have been set. Every name has to be a
text, whether it is known or not. -/
def readMembers? (c : Config) (seen : List Field) :
    List (List Json.Piece × Json.Value) → Option Config
  | [] => some c
  | (pieces, v) :: rest => do
    let name ← Json.text? pieces
    match Field.all.find? (·.name == name) with
    | none => readMembers? c seen rest
    | some field =>
      if seen.contains field then none
      else readMembers? (← c.read? v field) (field :: seen) rest

/-- Reads an array of fields, which may stop early but not go on for too long. -/
def readItems? (c : Config) : List Field → List Json.Value → Option Config
  | _, [] => some c
  | [], _ :: _ => none
  | field :: fields, v :: rest => do readItems? (← c.read? v field) fields rest

/-- The configuration that a JSON value stands for, not checked. -/
def ofValue? : Json.Value → Option Config
  | .object members => readMembers? {} [] members
  | .array items => readItems? {} Field.all items
  | _ => none

/-! ## Errors -/

/-- Why there is no configuration, or no engine made from it. -/
inductive Error where
  | unreadable (path reason : String)
  | malformed
  | invalid (violation : Violation)
  deriving DecidableEq

namespace Error

def code : Error → String
  | unreadable _ _ => "MDAO_CONFIG_IO"
  | malformed => "MDAO_CONFIG_PARSE"
  | invalid _ => "MDAO_CONFIG_INVALID"

/-- The text of an error. Where a malformed text goes wrong is not part of it; a placeholder stands
for that. -/
def message : Error → String
  | unreadable path reason => "Failed to read config " ++ path ++ ": " ++ reason
  | malformed => "Invalid config JSON: <DETAIL>"
  | invalid violation => "Invalid config: " ++ violation.message

end Error

/-- Accepts a configuration without violations. -/
def validate (c : Config) : Except Error Config :=
  match c.violation? with
  | none => .ok c
  | some v => .error (.invalid v)

/-- Reads and checks a configuration. -/
def ofJson (text : String) : Except Error Config :=
  match (Json.Value.parse? text).bind ofValue? with
  | none => .error .malformed
  | some c => c.validate

/-! ## Files -/

/-- What comes of opening and reading a file: its bytes, or the reason for which the operating
system refuses, in its words. -/
inductive FileContent where
  | refused (reason : String)
  | bytes (content : ByteArray)

namespace FileContent

def missing : FileContent :=
  .refused "No such file or directory (os error 2)"

def directory : FileContent :=
  .refused "Is a directory (os error 21)"

/-- The text of a file, which has to be UTF-8, or why there is none. -/
def text : FileContent → Except String String
  | refused reason => .error reason
  | bytes content =>
    match String.fromUTF8? content with
    | none => .error "stream did not contain valid UTF-8"
    | some text => .ok text

end FileContent

/-- Reads and checks a configuration file. -/
def ofFile (path : String) (file : FileContent) : Except Error Config :=
  match file.text with
  | .error reason => .error (.unreadable path reason)
  | .ok text => ofJson text

/-- Reads a configuration file and reports how that went. -/
def load (path : String) (file : FileContent) : Log.Logged (Except Error Config) := do
  match ofFile path file with
  | .ok c =>
    Log.report .configLoaded [("indexes", toString c.indexes.length), ("path", path)]
    return .ok c
  | .error e =>
    Log.report .configRejected [("code", e.code), ("error", e.message), ("path", path)]
    return .error e

end RecordStore.Config
