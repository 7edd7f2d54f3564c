import RecordStore.Json.Token
/-!
# Reading JSON

`Value.ofChars?` reads a text by the JSON grammar and by nothing more lenient. It goes through the
tokens once and keeps the containers that are still open on a stack, so nesting has no limit.
-/

namespace RecordStore.Json

/-- A container that is still open, its contents in reverse. A `member` has a name whose value is
not complete yet. -/
inductive Frame where
  | array (items : List Value)
  | object (members : List (List Piece × Value))
  | member (members : List (List Piece × Value)) (name : List Piece)

/-- What the grammar allows next. -/
inductive Expected where
  | value
  | itemOrClose
  | nameOrClose
  | name
  | colon (name : List Piece)
  | commaOrClose
  | nothing (value : Value)

structure Builder where
  expected : Expected := .value
  stack : List Frame := []

namespace Builder

/-- Puts a complete value where it belongs: into the innermost open container, or at the end. -/
def complete (v : Value) : List Frame → Option Builder
  | [] => some ⟨.nothing v, []⟩
  | .array items :: stack => some ⟨.commaOrClose, .array (v :: items) :: stack⟩
  | .member members name :: stack => some ⟨.commaOrClose, .object ((name, v) :: members) :: stack⟩
  | .object _ :: _ => none

/-- Begins a value. -/
def begin (t : Token) (stack : List Frame) : Option Builder :=
  match t with
  | .scalar v => complete v stack
  | .openArray => some ⟨.itemOrClose, .array [] :: stack⟩
  | .openObject => some ⟨.nameOrClose, .object [] :: stack⟩
  | _ => none

/-- Closes the innermost container. -/
def close (t : Token) (stack : List Frame) : Option Builder :=
  match t, stack with
  | .closeArray, .array items :: stack => complete (.array items.reverse) stack
  | .closeObject, .object members :: stack => complete (.object members.reverse) stack
  | _, _ => none

/-- Reads one token. -/
def step (b : Builder) (t : Token) : Option Builder :=
  match b.expected, t with
  | .value, t => begin t b.stack
  | .itemOrClose, .closeArray => close .closeArray b.stack
  | .itemOrClose, t => begin t b.stack
  | .nameOrClose, .closeObject => close .closeObject b.stack
  | .nameOrClose, .scalar (.string name) => some { b with expected := .colon name }
  | .name, .scalar (.string name) => some { b with expected := .colon name }
  | .colon name, .colon =>
    match b.stack with
    | .object members :: stack => some ⟨.value, .member members name :: stack⟩
    | _ => none
  | .commaOrClose, .comma =>
    match b.stack with
    | .array _ :: _ => some { b with expected := .value }
    | .object _ :: _ => some { b with expected := .name }
    | _ => none
  | .commaOrClose, t => close t b.stack
  | _, _ => none

end Builder

namespace Value

/-- The value that a sequence of tokens writes. -/
def ofTokens? (tokens : List Token) : Option Value := do
  let builder ← tokens.foldlM Builder.step {}
  match builder.expected with
  | .nothing v => some v
  | _ => none

/-- The value that a text writes, or `none` if the text is not JSON. -/
def ofChars? (chars : List Char) : Option Value :=
  (tokens? chars).bind ofTokens?

def parse? (text : String) : Option Value :=
  ofChars? text.toList

end Value

end RecordStore.Json
