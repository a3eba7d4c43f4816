import IndexNotation.Error
import IndexNotation.Number.Complex

/-!
# Plain numbers

Numbers without a width: integers of any size, doubles and complex numbers. Operations on mixed
operands are done in the wider kind. Division by zero is a failure, and so is a result beyond all
doubles of an operation on finite ones, where it is a quotient of integers or a power.
-/

namespace IndexNotation

open Number (ComplexFloat)

inductive Plain where
  | int (n : Int)
  | float (x : Float)
  | complex (z : ComplexFloat)

namespace Plain

/-- An integer as a double. -/
def floatOfInt (n : Int) : Except Fault Float :=
  match Number.ofInt? n with
  | some x => .ok x
  | none => .error .overflow

/-- Two numbers brought to one kind. -/
inductive Pair where
  | ints (m n : Int)
  | floats (x y : Float)
  | complexes (z w : ComplexFloat)

def toFloat : Plain → Except Fault Float
  | int n => floatOfInt n
  | float x => .ok x
  | complex z => .ok z.re

def toComplex : Plain → Except Fault ComplexFloat
  | int n => do return .ofReal (← floatOfInt n)
  | float x => .ok (.ofReal x)
  | complex z => .ok z

def pair : Plain → Plain → Except Fault Pair
  | int m, int n => .ok (.ints m n)
  | complex z, b => do return .complexes z (← b.toComplex)
  | a, complex w => do return .complexes (← a.toComplex) w
  | a, b => do return .floats (← a.toFloat) (← b.toFloat)

/-- Whether a double is an odd integer. -/
def isOdd (x : Float) : Bool :=
  Number.remainder x.abs 2.0 == 1.0

/-- A power of complex numbers; zero has no negative or complex powers, and no number has powers of
an unlimited angle. -/
def powComplexes (z w : ComplexFloat) : Except Fault ComplexFloat :=
  let checked (r : ComplexFloat) : Except Fault ComplexFloat :=
    if r.re.isInf || r.im.isInf then .error .overflow else .ok r
  match w.smallExponent? 101 with
  | some n =>
    let p := z.natPower id n.natAbs
    if 0 < n then checked p
    else
      match ComplexFloat.one.div? p with
      | some q => checked q
      | none => .error .divisionByZero
  | none =>
    if z.isZero then
      if w.im != 0.0 || w.re < 0.0 then .error .divisionByZero else .ok ⟨0.0, 0.0⟩
    else
      let p := z.polarPower w
      if p.2.isInf then .error .divisionByZero else checked (.ofPolar p)

/-- A power of doubles. A negative number has complex powers where the exponent is no integer. -/
def powFloats (x y : Float) : Except Fault Plain :=
  if y == 0.0 then .ok (float 1.0)
  else if x.isNaN then .ok (float x)
  else if y.isNaN then .ok (float (if x == 1.0 then 1.0 else y))
  else if y.isInf then
    let size := x.abs
    if size == 1.0 then .ok (float 1.0)
    else if decide (0.0 < y) == decide (1.0 < size) then .ok (float y.abs)
    else .ok (float 0.0)
  else if x.isInf then
    if 0.0 < y then .ok (float (if isOdd y then x else x.abs))
    else .ok (float (if isOdd y then Number.copySign 0.0 x else 0.0))
  else if x == 0.0 then
    if y < 0.0 then .error .divisionByZero
    else .ok (float (if isOdd y then x else 0.0))
  else if x < 0.0 && y != y.floor then do
    return complex (← powComplexes (.ofReal x) (.ofReal y))
  else
    let r := x.abs.pow y
    if r.isInf then .error .overflow
    else .ok (float (if x < 0.0 && isOdd y then -r else r))

/-- A power of an integer. For the integers that no exponent makes grow the parity is enough. -/
def intPower (m : Int) (n : Nat) : Int :=
  if m.natAbs ≤ 1 && n != 0 then (if n % 2 == 0 then m * m else m) else Int.pow m n

/-- A power of integers; negative exponents give doubles. -/
def powInts (m n : Int) : Except Fault Plain :=
  if 0 ≤ n then .ok (int (intPower m n.toNat))
  else do powFloats (← floatOfInt m) (← floatOfInt n)

def divInts (m n : Int) : Except Fault Plain :=
  if n == 0 then .error .divisionByZero
  else
    match Number.ofQuotient? m n with
    | some x => .ok (float x)
    | none => .error .overflow

def ints (op : BinaryOp) (m n : Int) : Except Fault Plain :=
  match op with
  | .add => .ok (int (m + n))
  | .sub => .ok (int (m - n))
  | .mul => .ok (int (m * n))
  | .div => divInts m n
  | .floorDiv => if n == 0 then .error .divisionByZero else .ok (int (m.fdiv n))
  | .mod => if n == 0 then .error .divisionByZero else .ok (int (m.fmod n))
  | .pow | .caret => powInts m n
  | .other _ => .error .missingKey

def floats (op : BinaryOp) (x y : Float) : Except Fault Plain :=
  match op with
  | .add => .ok (float (x + y))
  | .sub => .ok (float (x - y))
  | .mul => .ok (float (x * y))
  | .div => if y == 0.0 then .error .divisionByZero else .ok (float (x / y))
  | .floorDiv =>
    if y == 0.0 then .error .divisionByZero else .ok (float (Number.floorDivide id x y).1)
  | .mod => if y == 0.0 then .error .divisionByZero else .ok (float (Number.floorDivide id x y).2)
  | .pow | .caret => powFloats x y
  | .other _ => .error .missingKey

def complexes (op : BinaryOp) (z w : ComplexFloat) : Except Fault Plain :=
  match op with
  | .add => .ok (complex (z.add id w))
  | .sub => .ok (complex (z.sub id w))
  | .mul => .ok (complex (z.mul id w))
  | .div =>
    match z.div? w with
    | some q => .ok (complex q)
    | none => .error .divisionByZero
  | .floorDiv | .mod => .error .wrongKind
  | .pow | .caret => do return complex (← powComplexes z w)
  | .other _ => .error .missingKey

def isComplex : Plain → Bool
  | complex _ => true
  | _ => false

/-- Complex numbers have neither whole quotients nor remainders. -/
def binary (op : BinaryOp) (a b : Plain) : Except Fault Plain :=
  if (op == .floorDiv || op == .mod) && (a.isComplex || b.isComplex) then .error .wrongKind
  else do
    match ← pair a b with
    | .ints m n => ints op m n
    | .floats x y => floats op x y
    | .complexes z w => complexes op z w

def neg : Plain → Plain
  | int n => int (-n)
  | float x => float (-x)
  | complex z => complex z.neg

def abs : Plain → Except Fault Plain
  | int n => .ok (int n.natAbs)
  | float x => .ok (float x.abs)
  | complex z =>
    let r := z.abs
    if r.isInf && !z.re.isInf && !z.im.isInf then .error .overflow else .ok (float r)

/-- Whether `a < b`. Integers and doubles are compared exactly; complex numbers have no order. -/
def less : Plain → Plain → Except Fault Bool
  | int m, int n => .ok (m < n)
  | int m, float y => .ok (Number.compareInt m y == some .lt)
  | float x, int n => .ok (Number.compareInt n x == some .gt)
  | float x, float y => .ok (x < y)
  | _, _ => .error .wrongKind

/-- Whether two numbers are equal; integers and doubles are compared exactly. -/
def equal : Plain → Plain → Bool
  | int m, int n => m == n
  | int m, float y => Number.compareInt m y == some .eq
  | float x, int n => Number.compareInt n x == some .eq
  | float x, float y => x == y
  | complex z, complex w => z.re == w.re && z.im == w.im
  | complex z, b => z.im == 0.0 && equalReal z.re b
  | a, complex w => w.im == 0.0 && equalReal w.re a
where
  equalReal (x : Float) : Plain → Bool
    | int n => Number.compareInt n x == some .eq
    | float y => x == y
    | complex _ => false

/-- Whether a number counts as true. -/
def truth : Plain → Bool
  | int n => n != 0
  | float x => !(x == 0.0)
  | complex z => !z.isZero

/-- A number cut to an integer. -/
def toInt : Plain → Except Fault Int
  | int n => .ok n
  | float x =>
    match Number.truncate x with
    | .integer n => .ok n
    | .nan => .error .badValue
    | .infinite => .error .overflow
  | complex _ => .error .wrongKind

end Plain
end IndexNotation
