import RecordStore.Key
/-!
# Properties

A property is a named reader of keys. Two properties are the same when their names are equal,
whatever they read; an index serves a comparison exactly when it is on the same property.
-/

namespace RecordStore

structure Property (R : Type) where
  name : String
  get : R → Key

namespace Property

variable {R : Type}

/-- Whether two properties have one name. -/
def same (p q : Property R) : Bool :=
  p.name == q.name

/-- The property that reads a member of a document. What is missing or no scalar reads as null. -/
def field (name : String) : Property Json.Document where
  name
  get document := ((document.member? name).bind Key.ofDocument?).getD .null

/-- The text that identifies a property in diagnostics. -/
def inspect (p : Property R) : String :=
  "PropertyDescriptor(" ++ Text.quoted p.name ++ ")"

end Property

end RecordStore
