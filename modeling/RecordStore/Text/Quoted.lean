import RecordStore.Text.Unprintable
/-!
# Quoted texts

A text between double quotes on one line, with nothing in it that a terminal would not show: the
quote, the backslash and the common controls by their short escapes, every other unprintable
character by its number. Beside it stand the two other forms of diagnostic texts, lists and optional
values.
-/

namespace RecordStore.Text

/-- One character inside double quotes. -/
def quoteChar (c : Char) : List Char :=
  match c with
  | '\x00' => ['\\', '0']
  | '\t' => ['\\', 't']
  | '\r' => ['\\', 'r']
  | '\n' => ['\\', 'n']
  | '"' => ['\\', '"']
  | '\\' => ['\\', '\\']
  | _ =>
    if isUnprintable c then
      ['\\', 'u', '\x7b'] ++ Nat.toDigits 16 c.toNat ++ ['\x7d']
    else [c]

/-- A text in double quotes. -/
def quoted (s : String) : String :=
  String.ofList ('"' :: s.toList.flatMap quoteChar ++ ['"'])

/-- The items between brackets, separated by commas. -/
def bracketed (items : List String) : String :=
  "[" ++ ", ".intercalate items ++ "]"

/-- An optional value, by its text if there is one. -/
def optional (item? : Option String) : String :=
  match item? with
  | none => "None"
  | some s => "Some(" ++ s ++ ")"

end RecordStore.Text
