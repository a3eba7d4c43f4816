import IndexNotation.Value.ElemType
import IndexNotation.Value.Plain

/-!
# Scalars

Numbers of an element type, as the cells of an array hold them. Integers wrap around, division by
zero gives infinity, NaN or zero, and every result of floating point is rounded to its type.
-/

namespace IndexNotation

open Number (ComplexFloat)

/-- A value of an element type other than `object`. -/
inductive Scalar where
  | bool (b : Bool)
  | int (t : IntType) (n : Int)
  | float (t : FloatType) (x : Float)
  | complex (t : FloatType) (z : ComplexFloat)
  | text (s : String)

namespace Scalar

def type : Scalar → ElemType
  | bool _ => .bool
  | int t _ => .int t
  | float t _ => .float t
  | complex t _ => .complex t
  | text s => .text (max 1 s.length)

/-- An integer of a type, wrapped. -/
def ofInt (t : IntType) (n : Int) : Scalar := int t (t.wrap n)

/-- A double rounded to a type. -/
def ofFloat (t : FloatType) (x : Float) : Scalar := float t (t.round x)

def ofComplex (t : FloatType) (z : ComplexFloat) : Scalar := complex t ⟨t.round z.re, t.round z.im⟩

/-- The number as one without a width; a text has none. -/
def plain? : Scalar → Option Plain
  | bool b => some (.int (if b then 1 else 0))
  | int _ n => some (.int n)
  | float _ x => some (.float x)
  | complex _ z => some (.complex z)
  | text _ => none

/-! ## Conversion -/

/-- An integer as a double, infinite if it is beyond all finite ones. -/
def intToFloat (n : Int) : Float :=
  (Number.ofInt? n).getD (Number.withSign (n < 0) Number.infinity)

def realPart : Scalar → Float
  | bool b => if b then 1.0 else 0.0
  | int _ n => intToFloat n
  | float _ x => x
  | complex _ z => z.re
  | text _ => Number.notANumber

def complexPart : Scalar → ComplexFloat
  | complex _ z => z
  | s => .ofReal s.realPart

def truth : Scalar → Bool
  | text s => !s.isEmpty
  | s => (s.plain?.map Plain.truth).getD false

/-- A double cut toward zero and wrapped; what is no integer gives the least one. -/
def floatToInt (t : IntType) (x : Float) : Int :=
  match Number.truncate x with
  | .integer n => if IntType.fits .int64 n || (!t.signed && IntType.fits .uint64 n) then t.wrap n
      else t.wrap (IntType.least .int64)
  | _ => t.wrap (IntType.least .int64)

def integerPart (t : IntType) : Scalar → Int
  | bool b => if b then 1 else 0
  | int _ n => t.wrap n
  | float _ x => floatToInt t x
  | complex _ z => floatToInt t z.re
  | text _ => 0

/-- The text of a scalar. -/
def toText : Scalar → String
  | bool b => if b then "True" else "False"
  | int _ n => toString n
  | float t x => floatText t x
  | complex t z =>
    if z.re == 0.0 && !isNegative z.re then partText t z.im ++ "j"
    else "(" ++ partText t z.re ++ (if isNegative z.im then "" else "+") ++ partText t z.im ++ "j)"
  | text s => s
where
  /-- Whether a sign is written in front of a number. -/
  isNegative (x : Float) : Bool := !x.isNaN && x.toBits.toNat / Number.twoTo 63 == 1
  /-- The shortest decimal that reads back to a number of the type. -/
  floatText (t : FloatType) (x : Float) : String :=
    match Number.exact x with
    | .finite negative m e =>
      if m == 0 then (if negative then "-0.0" else "0.0")
      else (if negative then "-" else "") ++ Number.Style.plain.decimal (t.format.shortest m e)
    | _ => Number.floatText x
  partText (t : FloatType) (x : Float) : String :=
    let s := floatText t x
    if s.endsWith ".0" then String.ofList (s.toList.take (s.length - 2)) else s

/-- A scalar converted to a type, without any check. Objects are none. -/
def cast (t : ElemType) (s : Scalar) : Scalar :=
  match t with
  | .bool => bool s.truth
  | .int t => int t (s.integerPart t)
  | .float t => ofFloat t s.realPart
  | .complex t => ofComplex t s.complexPart
  | .text width => text (String.ofList (s.toText.toList.take width))
  | .object => s

/-! ## Arithmetic on one type -/

/-- `acc * b ^ n` wrapped at every step, `fuel` bits at most. -/
def powerFrom (t : IntType) : (fuel : Nat) → (acc b : Int) → (n : Nat) → Int
  | 0, acc, _, _ => acc
  | fuel + 1, acc, b, n =>
    if n == 0 then acc
    else powerFrom t fuel (if n % 2 == 1 then t.wrap (acc * b) else acc) (t.wrap (b * b)) (n / 2)

/-- Integers of one type. -/
def ints (op : BinaryOp) (t : IntType) (m n : Int) : Except Fault Scalar :=
  match op with
  | .add => .ok (ofInt t (m + n))
  | .sub => .ok (ofInt t (m - n))
  | .mul => .ok (ofInt t (m * n))
  | .div => .ok (float .double (intToFloat m / intToFloat n))
  | .floorDiv => .ok (if n == 0 then int t 0 else ofInt t (m.fdiv n))
  | .mod => .ok (if n == 0 then int t 0 else ofInt t (m.fmod n))
  | .pow | .caret =>
    if n < 0 then .error .badValue else .ok (int t (powerFrom t 64 (t.wrap 1) m n.toNat))
  | .other _ => .error .missingKey

/-- The type in which the steps of a longer computation are rounded. -/
def stepType : FloatType → FloatType
  | .half => .single
  | t => t

/-- Doubles of one type. -/
def floats (op : BinaryOp) (t : FloatType) (x y : Float) : Except Fault Scalar :=
  match op with
  | .add => .ok (ofFloat t (x + y))
  | .sub => .ok (ofFloat t (x - y))
  | .mul => .ok (ofFloat t (x * y))
  | .div => .ok (ofFloat t (x / y))
  | .floorDiv =>
    .ok (ofFloat t (if y == 0.0 then x / y else (Number.floorDivide (stepType t).round x y).1))
  | .mod =>
    .ok (ofFloat t (if y == 0.0 then Number.notANumber
      else (Number.floorDivide (stepType t).round x y).2))
  | .pow | .caret => .ok (ofFloat t (x.pow y))
  | .other _ => .error .missingKey

/-- A power of complex numbers of one type. -/
def powComplexes (t : FloatType) (z w : ComplexFloat) : ComplexFloat :=
  if w.isZero then .one
  else if z.isZero then
    if 0.0 < w.re && w.im == 0.0 then ⟨0.0, 0.0⟩ else ⟨Number.notANumber, Number.notANumber⟩
  else
    match w.smallExponent? 100 with
    | some 1 => z
    | some 2 => z.mul t.round z
    | some 3 => z.mul t.round (z.mul t.round z)
    | some n =>
      let p := z.natPower t.round n.natAbs
      if n < 0 then ComplexFloat.one.divScaled t.round p else p
    | none => z.power w

/-- Complex numbers of one type. -/
def complexes (op : BinaryOp) (t : FloatType) (z w : ComplexFloat) : Except Fault Scalar :=
  match op with
  | .add => .ok (complex t (z.add t.round w))
  | .sub => .ok (complex t (z.sub t.round w))
  | .mul => .ok (complex t (z.mul t.round w))
  | .div => .ok (complex t (z.divScaled t.round w))
  | .floorDiv | .mod => .error .wrongKind
  | .pow | .caret => .ok (ofComplex t (powComplexes t z w))
  | .other _ => .error .missingKey

/-- Truth values: a sum is "or", a product is "and"; there is no difference. -/
def bools (op : BinaryOp) (a b : Bool) : Except Fault Scalar :=
  let toInt (c : Bool) : Int := if c then 1 else 0
  match op with
  | .add => .ok (bool (a || b))
  | .mul => .ok (bool (a && b))
  | .sub => .error .wrongKind
  | .div => .ok (float .double (intToFloat (toInt a) / intToFloat (toInt b)))
  | op => ints op .int8 (toInt a) (toInt b)

/-- Arithmetic in type `t`, to which both operands are converted. -/
def arith (op : BinaryOp) (t : ElemType) (a b : Scalar) : Except Fault Scalar :=
  match t with
  | .bool => bools op a.truth b.truth
  | .int t => ints op t (a.integerPart t) (b.integerPart t)
  | .float t => floats op t (t.round a.realPart) (t.round b.realPart)
  | .complex t =>
    let z := a.complexPart
    let w := b.complexPart
    complexes op t ⟨t.round z.re, t.round z.im⟩ ⟨t.round w.re, t.round w.im⟩
  | .text _ =>
    match op, a, b with
    | .add, text s, text u => .ok (text (s ++ u))
    | _, _, _ => .error .wrongKind
  | .object => .error .wrongKind

def neg : Scalar → Except Fault Scalar
  | bool _ => .error .wrongKind
  | text _ => .error .noRule
  | int t n => .ok (ofInt t (-n))
  | float t x => .ok (float t (-x))
  | complex t z => .ok (complex t z.neg)

def pos : Scalar → Except Fault Scalar
  | bool _ | text _ => .error .noRule
  | s => .ok s

/-! ## Order -/

/-- Whether `a < b` in type `t`, to which both operands are converted. Complex numbers are ordered
by their real parts, then by their imaginary parts. -/
def lessIn (t : ElemType) (a b : Scalar) : Bool :=
  match t with
  | .bool => !a.truth && b.truth
  | .int t => a.integerPart t < b.integerPart t
  | .float t => t.round a.realPart < t.round b.realPart
  | .complex _ =>
    let z := a.complexPart
    let w := b.complexPart
    z.re < w.re || (z.re == w.re && z.im < w.im)
  | .text _ => a.toText < b.toText
  | .object => false

/-- Whether two scalars are equal in type `t`. -/
def equalIn (t : ElemType) (a b : Scalar) : Bool :=
  match t with
  | .bool => a.truth == b.truth
  | .int t => a.integerPart t == b.integerPart t
  | .float t => t.round a.realPart == t.round b.realPart
  | .complex _ =>
    let z := a.complexPart
    let w := b.complexPart
    z.re == w.re && z.im == w.im
  | .text _ => a.toText == b.toText
  | .object => false

end Scalar
end IndexNotation
