import RecordStore.Assoc
import RecordStore.Binary64
import RecordStore.Json.Reader
/-!
# Documents

A JSON value with its meaning: strings are decoded, a repeated name keeps its last value, and a
number is an integer if it is written as one and fits 64 bits, signed or unsigned, and otherwise
the nearest double.
-/

namespace RecordStore.Json

inductive Document where
  | null
  | bool (b : Bool)
  | int (i : Int)
  | float (bits : UInt64)
  | string (s : String)
  | array (items : List Document)
  | object (members : List (String × Document))

namespace Document

/-- The integers that a document holds as integers. -/
def isInteger (i : Int) : Bool :=
  -Int.pow 2 63 ≤ i && i < Int.pow 2 64

/-- The meaning of a number. There is no integer `-0`; a number beyond the largest double has no
meaning. -/
def ofNumber? (n : Number) : Option Document :=
  let signed : Int := if n.negative then -n.coefficient else n.coefficient
  if n.whole && isInteger signed && !(n.negative && n.coefficient = 0) then some (.int signed)
  else (Binary64.ofScientific n.coefficient n.power).map (.float <| Binary64.pattern n.negative ·)

mutual

/-- The document that a value stands for. -/
def ofValue? : Value → Option Document
  | .null => some .null
  | .bool b => some (.bool b)
  | .number n => ofNumber? n
  | .string units => (text? units).map .string
  | .array items => (ofItems? items).map .array
  | .object members => (ofMembers? members).map (.object ∘ Assoc.ofList)

def ofItems? : List Value → Option (List Document)
  | [] => some []
  | item :: rest => do return (← ofValue? item) :: (← ofItems? rest)

def ofMembers? : List (List Piece × Value) → Option (List (String × Document))
  | [] => some []
  | (name, value) :: rest => do return (← text? name, ← ofValue? value) :: (← ofMembers? rest)

end

def parse? (text : String) : Option Document :=
  (Value.parse? text).bind ofValue?

/-- The member of an object with the given name. -/
def member? (name : String) : Document → Option Document
  | .object members => Assoc.get? name members
  | _ => none

end Document

end RecordStore.Json
