import IndexNotation.Number.Binary

/-!
# Element types

The types that the cells of an array can have, and the least type that holds two of them.
-/

namespace IndexNotation

inductive IntType where
  | int8 | int16 | int32 | int64 | uint8 | uint16 | uint32 | uint64
deriving Repr, DecidableEq

namespace IntType

def bits : IntType → Nat
  | int8 | uint8 => 8
  | int16 | uint16 => 16
  | int32 | uint32 => 32
  | int64 | uint64 => 64

def signed : IntType → Bool
  | int8 | int16 | int32 | int64 => true
  | uint8 | uint16 | uint32 | uint64 => false

def least (t : IntType) : Int :=
  if t.signed then -(Number.twoTo (t.bits - 1) : Int) else 0

def greatest (t : IntType) : Int :=
  if t.signed then (Number.twoTo (t.bits - 1) : Int) - 1 else (Number.twoTo t.bits : Int) - 1

def fits (t : IntType) (n : Int) : Bool :=
  t.least ≤ n && n ≤ t.greatest

/-- The integer of the type that equals `n` modulo `2 ^ bits`. -/
def wrap (t : IntType) (n : Int) : Int :=
  (n - t.least) % Number.twoTo t.bits + t.least

/-- The signed type of a width; 64 bits if there is none. -/
def signedOf : Nat → IntType
  | 8 => int8
  | 16 => int16
  | 32 => int32
  | _ => int64

def name : IntType → String
  | int8 => "int8"
  | int16 => "int16"
  | int32 => "int32"
  | int64 => "int64"
  | uint8 => "uint8"
  | uint16 => "uint16"
  | uint32 => "uint32"
  | uint64 => "uint64"

end IntType

inductive FloatType where
  | half | single | double
deriving Repr, DecidableEq

namespace FloatType

def format : FloatType → Number.Format
  | half => .half
  | single => .single
  | double => .double

/-- Rounds a double to the type. -/
def round (t : FloatType) (x : Float) : Float :=
  match t with
  | double => x
  | t => t.format.round x

def rank : FloatType → Nat
  | half => 0
  | single => 1
  | double => 2

def max (s t : FloatType) : FloatType :=
  if s.rank < t.rank then t else s

/-- The least type that holds all integers of a type, as far as one does. -/
def holding (t : IntType) : FloatType :=
  if t.bits == 8 then half else if t.bits == 16 then single else double

def name : FloatType → String
  | half => "float16"
  | single => "float32"
  | double => "float64"

/-- The name of the complex type with parts of this type. -/
def complexName : FloatType → String
  | half | single => "complex64"
  | double => "complex128"

end FloatType

inductive ElemType where
  | bool
  | int (t : IntType)
  | float (t : FloatType)
  /-- Complex numbers with parts of the given type, which is not `half`. -/
  | complex (t : FloatType)
  /-- Texts of at most `width` characters. -/
  | text (width : Nat)
  | object
deriving Repr, DecidableEq

namespace ElemType

def name : ElemType → String
  | bool => "bool"
  | int t => t.name
  | float t => t.name
  | complex t => t.complexName
  | text _ => "str"
  | object => "object"

/-- The name in messages, which has the width of texts. -/
def label : ElemType → String
  | text width => "<U" ++ toString width
  | t => t.name

def all : List ElemType :=
  [bool, int .int8, int .int16, int .int32, int .int64, int .uint8, int .uint16, int .uint32,
    int .uint64, float .half, float .single, float .double, complex .single, complex .double,
    object]

/-- The type of a name. Texts have no width of their own. -/
def ofName? (s : String) : Option ElemType :=
  if s == "str" then some (text 1) else all.find? (·.name == s)

/-- How many characters a number of the type can take as a text. -/
def textWidth : ElemType → Nat
  | bool => 5
  | int .int8 => 4
  | int .int16 => 6
  | int .int32 => 11
  | int .int64 => 21
  | int .uint8 => 3
  | int .uint16 => 5
  | int .uint32 => 10
  | int .uint64 => 20
  | float _ => 32
  | complex _ => 64
  | text width => width
  | object => 0

/-- The least integer type that holds two integer types, if there is one. -/
def promoteInts (s t : IntType) : ElemType :=
  if s.signed == t.signed then int (if s.bits < t.bits then t else s)
  else
    let (signed, unsigned) := if s.signed then (s, t) else (t, s)
    if unsigned.bits < signed.bits then int signed
    else if unsigned.bits < 64 then int (.signedOf (2 * unsigned.bits))
    else float .double

/-- The least type that holds two types. -/
def promote : ElemType → ElemType → ElemType
  | object, _ | _, object => object
  | text v, t => text (Nat.max v t.textWidth)
  | s, text w => text (Nat.max s.textWidth w)
  | bool, t => t
  | s, bool => s
  | int s, int t => promoteInts s t
  | int s, float t => float (t.max (.holding s))
  | float s, int t => float (s.max (.holding t))
  | float s, float t => float (s.max t)
  | int s, complex t => complex (t.max (.holding s))
  | complex s, int t => complex (s.max (.holding t))
  | float s, complex t => complex (s.max t)
  | complex s, float t => complex (s.max t)
  | complex s, complex t => complex (s.max t)

end ElemType
end IndexNotation
