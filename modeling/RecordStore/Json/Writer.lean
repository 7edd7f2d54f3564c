import RecordStore.Json.Value
/-!
# Writing JSON

The compact form of a value: no blanks, members in their order, and in strings only what has to be
escaped, by the short escape where there is one.
-/

namespace RecordStore.Json

/-- A numbered escape with four lower-case digits. -/
def writeCode (unit : Nat) : List Char :=
  let digits := Nat.toDigits 16 unit
  ['\\', 'u'] ++ List.replicate (4 - digits.length) '0' ++ digits

/-- One character inside a string. -/
def writeChar (c : Char) : List Char :=
  match c with
  | '"' => ['\\', '"']
  | '\\' => ['\\', '\\']
  | '\x08' => ['\\', 'b']
  | '\x0c' => ['\\', 'f']
  | '\n' => ['\\', 'n']
  | '\r' => ['\\', 'r']
  | '\t' => ['\\', 't']
  | _ => if c.toNat < 0x20 then writeCode c.toNat else [c]

def Piece.write : Piece → List Char
  | .char c => writeChar c
  | .code unit => writeCode unit

/-- A string with its quotes. -/
def writeString (units : List Piece) : List Char :=
  '"' :: units.flatMap Piece.write ++ ['"']

/-- A number; one that was written with a point comes back with an exponent in its place. -/
def Number.write (n : Number) : List Char :=
  (if n.negative then ['-'] else []) ++ Nat.toDigits 10 n.coefficient ++
    (if n.whole then [] else 'e' :: (toString n.power).toList)

namespace Value

mutual

/-- The characters of the compact form. -/
def write : Value → List Char
  | .null => ['n', 'u', 'l', 'l']
  | .bool true => ['t', 'r', 'u', 'e']
  | .bool false => ['f', 'a', 'l', 's', 'e']
  | .number n => n.write
  | .string units => writeString units
  | .array items => '[' :: writeItems items ++ [']']
  | .object members => '\x7b' :: writeMembers members ++ ['\x7d']

def writeItems : List Value → List Char
  | [] => []
  | [item] => write item
  | item :: next :: rest => write item ++ ',' :: writeItems (next :: rest)

def writeMembers : List (List Piece × Value) → List Char
  | [] => []
  | [(name, value)] => writeString name ++ ':' :: write value
  | (name, value) :: next :: rest =>
    writeString name ++ ':' :: write value ++ ',' :: writeMembers (next :: rest)

end

/-- The compact form. -/
def render (v : Value) : String :=
  String.ofList v.write

end Value

end RecordStore.Json
