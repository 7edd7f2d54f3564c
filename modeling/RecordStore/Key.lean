import RecordStore.Decimal.Shortest
import RecordStore.Json.Document
import RecordStore.Text.Quoted
/-!
# Keys

What a property of a record is read into, and what indexes, comparisons and sorting go by. One
order covers all kinds of key: null, booleans, integers, floats, texts. Keys of two kinds are never
equal, so the integer `5` and the float `5.0` are two keys.
-/

namespace RecordStore

/-- A property value. A float is held by its rank in the order of doubles, see `Key.ofBits`. -/
inductive Key where
  | null
  | bool (b : Bool)
  | int (i : Int)
  | float (rank : UInt64)
  | text (s : String)
  deriving DecidableEq

namespace Key

inductive Kind where
  | null
  | bool
  | int
  | float
  | text
  deriving DecidableEq

/-- The place of a kind in the order. -/
def Kind.rank : Kind → Nat
  | .null => 0
  | .bool => 1
  | .int => 2
  | .float => 3
  | .text => 4

def kind : Key → Kind
  | .null => .null
  | .bool _ => .bool
  | .int _ => .int
  | .float _ => .float
  | .text _ => .text

def isNull (k : Key) : Bool :=
  k == .null

def sameKind (a b : Key) : Bool :=
  a.kind == b.kind

/-! ## Floats -/

def signBit : UInt64 := 0x8000000000000000

/-- The key of a double given by its bits. The rank orders doubles by sign and magnitude: a
negative pattern is complemented, which reverses the magnitudes, and any other pattern gets the top
bit, which puts it above all of those. -/
def ofBits (bits : UInt64) : Key :=
  .float (if bits &&& signBit ≠ 0 then ~~~bits else bits ^^^ signBit)

/-- The bits of the double that a float key stands for. -/
def bits? : Key → Option UInt64
  | .float rank => some (if rank &&& signBit ≠ 0 then rank ^^^ signBit else ~~~rank)
  | _ => none

/-! ## Reading -/

/-- The integers that are integer keys: those of 64 bits with a sign. -/
def isIndexable (i : Int) : Bool :=
  -Int.pow 2 63 ≤ i && i < Int.pow 2 63

/-- The key of an integer, which is a float key beyond 63 bits. -/
def ofInt (i : Int) : Key :=
  if isIndexable i then .int i
  else ofBits (Binary64.pattern (i < 0) ((Binary64.ofQuotient i.natAbs 1).getD Binary64.infinity))

/-- The key of a document. Arrays and objects have none. -/
def ofDocument? : Json.Document → Option Key
  | .null => some .null
  | .bool b => some (.bool b)
  | .int i => some (ofInt i)
  | .float bits => some (ofBits bits)
  | .string s => some (.text s)
  | .array _ => none
  | .object _ => none

/-! ## Order -/

protected def compare : Key → Key → Ordering
  | .bool a, .bool b => compare a b
  | .int a, .int b => compare a b
  | .float a, .float b => compare a b
  | .text a, .text b => compare a b
  | a, b => compare a.kind.rank b.kind.rank

instance : Ord Key := ⟨Key.compare⟩
instance : LT Key := ltOfOrd
instance : LE Key := leOfOrd
instance (a b : Key) : Decidable (a < b) := inferInstanceAs (Decidable (compare a b = .lt))
instance (a b : Key) : Decidable (a ≤ b) := inferInstanceAs (Decidable ((compare a b).isLE = true))

/-! ## Text -/

/-- The text of a key as reports and log lines show it. -/
def display : Key → String
  | .null => "null"
  | .bool b => if b then "true" else "false"
  | .int i => toString i
  | k@(.float _) => (k.bits?.map Binary64.text).getD "NaN"
  | .text s => Text.quoted s

end Key

end RecordStore
