/-!
# JSON values

A JSON text as a tree, before any of it is given a meaning: an object keeps its members in order,
repeated names included, a number keeps the form it was written in, and a string keeps its
numbered escapes, because a string that nobody reads may hold half of a surrogate pair.
-/

namespace RecordStore.Json

/-- One position of a string: a character, written as itself or by a short escape, or a code unit
written as a numbered escape. -/
inductive Piece where
  | char (c : Char)
  | code (unit : Nat)
  deriving DecidableEq

/-- The number `± coefficient * 10 ^ power`; a `whole` one was written with neither point nor
exponent. -/
structure Number where
  negative : Bool
  coefficient : Nat
  power : Int
  whole : Bool
  deriving DecidableEq

inductive Value where
  | null
  | bool (b : Bool)
  | number (n : Number)
  | string (units : List Piece)
  | array (items : List Value)
  | object (members : List (List Piece × Value))

namespace Value

/-- The string value of a text. -/
def ofString (s : String) : Value :=
  .string (s.toList.map .char)

def ofInt (i : Int) : Value :=
  .number { negative := i < 0, coefficient := i.natAbs, power := 0, whole := true }

def ofNat (n : Nat) : Value :=
  ofInt n

/-- An object with the given members. -/
def ofMembers (members : List (String × Value)) : Value :=
  .object (members.map fun (name, value) => (name.toList.map .char, value))

end Value

/-- Whether a code unit is the first half of a surrogate pair. -/
def isLeadingHalf (unit : Nat) : Bool :=
  0xd800 ≤ unit && unit < 0xdc00

/-- Whether a code unit is the second half of a surrogate pair. -/
def isTrailingHalf (unit : Nat) : Bool :=
  0xdc00 ≤ unit && unit < 0xe000

/-- The characters of a string, or `none` if it holds half of a surrogate pair without the other
half next to it. -/
def decode? : List Piece → Option (List Char)
  | [] => some []
  | .char c :: rest => (decode? rest).map (c :: ·)
  | .code unit :: rest =>
    if isTrailingHalf unit then none
    else if isLeadingHalf unit then
      match rest with
      | .code low :: rest =>
        if isTrailingHalf low then
          let point := 0x10000 + (unit - 0xd800) * 0x400 + (low - 0xdc00)
          (decode? rest).map (Char.ofNat point :: ·)
        else none
      | _ => none
    else (decode? rest).map (Char.ofNat unit :: ·)

/-- The text of a string, if it is one. -/
def text? (units : List Piece) : Option String :=
  (decode? units).map String.ofList

end RecordStore.Json
