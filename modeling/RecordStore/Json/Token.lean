import RecordStore.Json.Value
/-!
# JSON tokens

`tokens?` cuts a JSON text into its tokens, one character at a time. What the scanner has read of
an unfinished token is its `Mode`. The characters of a number and those of a literal name are read
by the same rule, as a word, and told apart when the word ends.
-/

namespace RecordStore.Json

inductive Token where
  | openArray
  | closeArray
  | openObject
  | closeObject
  | comma
  | colon
  | scalar (value : Value)

/-- The natural number written by decimal digits. -/
def ofDigits (digits : List Char) : Nat :=
  digits.foldl (fun n c => 10 * n + (c.toNat - '0'.toNat)) 0

/-- An exponent after its letter: an optional sign and at least one digit. -/
def exponent? (chars : List Char) : Option Int :=
  let (negative, digits) :=
    match chars with
    | '-' :: rest => (true, rest)
    | '+' :: rest => (false, rest)
    | _ => (false, chars)
  if digits.isEmpty || !digits.all Char.isDigit then none
  else some (if negative then -(ofDigits digits : Int) else ofDigits digits)

/-- A number: a sign, digits without a leading zero, and optionally a point with digits and an
exponent. -/
def Number.ofChars? (chars : List Char) : Option Number := do
  let (negative, unsigned) :=
    match chars with
    | '-' :: rest => (true, rest)
    | _ => (false, chars)
  let (digits, rest) := unsigned.span Char.isDigit
  guard (!digits.isEmpty && (digits.length = 1 || digits.head? != some '0'))
  let (fraction, rest) ←
    match rest with
    | '.' :: rest =>
      let (fraction, rest) := rest.span Char.isDigit
      if fraction.isEmpty then none else some (some fraction, rest)
    | _ => some (none, rest)
  let exponent ←
    match rest with
    | [] => some none
    | e :: rest => if e = 'e' || e = 'E' then (exponent? rest).map some else none
  let places := fraction.getD []
  return { negative
           coefficient := ofDigits (digits ++ places)
           power := exponent.getD 0 - places.length
           whole := fraction.isNone && exponent.isNone }

/-- The scalar that a word stands for. -/
def Token.ofWord? (word : List Char) : Option Token :=
  match word with
  | ['n', 'u', 'l', 'l'] => some (.scalar .null)
  | ['t', 'r', 'u', 'e'] => some (.scalar (.bool true))
  | ['f', 'a', 'l', 's', 'e'] => some (.scalar (.bool false))
  | _ => (Number.ofChars? word).map (.scalar ∘ .number)

/-- What has been read of the token at hand, in reverse. -/
inductive Mode where
  | between
  | word (read : List Char)
  | string (read : List Piece)
  | escape (read : List Piece)
  | hex (read : List Piece) (digits : Nat) (code : Nat)

/-- The tokens read so far, in reverse, and the state of the next one. -/
structure Scanner where
  mode : Mode := .between
  tokens : List Token := []

def isBlank (c : Char) : Bool :=
  c = ' ' || c = '\t' || c = '\n' || c = '\r'

/-- The characters of numbers and of literal names. -/
def isWordChar (c : Char) : Bool :=
  c.isAlphanum || c = '-' || c = '+' || c = '.'

/-- The character that a short escape stands for. -/
def shortEscape? : Char → Option Char
  | '"' => some '"'
  | '\\' => some '\\'
  | '/' => some '/'
  | 'b' => some '\x08'
  | 'f' => some '\x0c'
  | 'n' => some '\n'
  | 'r' => some '\r'
  | 't' => some '\t'
  | _ => none

def hexDigit? (c : Char) : Option Nat :=
  if c.isDigit then some (c.toNat - '0'.toNat)
  else if 'a' ≤ c && c ≤ 'f' then some (10 + c.toNat - 'a'.toNat)
  else if 'A' ≤ c && c ≤ 'F' then some (10 + c.toNat - 'A'.toNat)
  else none

namespace Scanner

def emit (s : Scanner) (t : Token) : Scanner :=
  { mode := .between, tokens := t :: s.tokens }

/-- Reads a character between two tokens. -/
def start (s : Scanner) (c : Char) : Option Scanner :=
  match c with
  | '[' => some (s.emit .openArray)
  | ']' => some (s.emit .closeArray)
  | '\x7b' => some (s.emit .openObject)
  | '\x7d' => some (s.emit .closeObject)
  | ',' => some (s.emit .comma)
  | ':' => some (s.emit .colon)
  | '"' => some { s with mode := .string [] }
  | _ =>
    if isBlank c then some { s with mode := .between }
    else if isWordChar c then some { s with mode := .word [c] }
    else none

/-- Ends the word being read, if there is one. -/
def endWord (s : Scanner) : Option Scanner :=
  match s.mode with
  | .between => some s
  | .word read => (Token.ofWord? read.reverse).map s.emit
  | _ => none

/-- Reads one character. Control characters may not stand in a string. -/
def step (s : Scanner) (c : Char) : Option Scanner :=
  match s.mode with
  | .between => s.start c
  | .word read =>
    if isWordChar c then some { s with mode := .word (c :: read) }
    else s.endWord.bind (·.start c)
  | .string read =>
    if c = '"' then some (s.emit (.scalar (.string read.reverse)))
    else if c = '\\' then some { s with mode := .escape read }
    else if c.toNat < 0x20 then none
    else some { s with mode := .string (.char c :: read) }
  | .escape read =>
    if c = 'u' then some { s with mode := .hex read 0 0 }
    else (shortEscape? c).map fun e => { s with mode := .string (.char e :: read) }
  | .hex read digits code =>
    (hexDigit? c).map fun digit =>
      let code := 16 * code + digit
      { s with
        mode := if digits = 3 then .string (.code code :: read) else .hex read (digits + 1) code }

end Scanner

/-- The tokens of a text, or `none` if some character of it belongs to no token. -/
def tokens? (chars : List Char) : Option (List Token) := do
  let scanner ← chars.foldlM Scanner.step {}
  let scanner ← scanner.endWord
  return scanner.tokens.reverse

end RecordStore.Json
