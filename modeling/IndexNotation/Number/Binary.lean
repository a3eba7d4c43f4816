/-!
# Binary floating point, exactly

A double is an integer times a power of two. This module takes doubles apart, rounds exact
quotients back to one of the binary formats (nearest, ties to even), and derives from the two the
operations that hardware doubles do not offer: exact conversion from and to integers, exact
comparison with integers, and the remainder.
-/

namespace IndexNotation.Number

/-- Powers of two and of ten. -/
def twoTo (n : Nat) : Nat := Nat.pow 2 n
def tenTo (n : Nat) : Nat := Nat.pow 10 n

/-- What a double stands for. -/
inductive Exact where
  | nan
  | infinite (negative : Bool)
  /-- The number `mantissa * 2 ^ exponent`, with a sign of its own so that zero has two. -/
  | finite (negative : Bool) (mantissa : Nat) (exponent : Int)
deriving Repr, DecidableEq

/-- Takes a double apart. A normal double has a mantissa of 53 bits. -/
def exact (x : Float) : Exact :=
  let bits := x.toBits.toNat
  let negative := bits / twoTo 63 == 1
  let field : Nat := bits / twoTo 52 % twoTo 11
  let fraction : Nat := bits % twoTo 52
  if field == 2047 then (if fraction == 0 then .infinite negative else .nan)
  else if field == 0 then .finite negative fraction (-1074)
  else .finite negative (twoTo 52 + fraction) ((field : Int) - 1075)

/-- A binary format: how many bits a mantissa has, the exponent of the least positive number, and
the exponent of the leading bit of the greatest finite one. -/
structure Format where
  precision : Nat
  least : Int
  greatest : Int
deriving Repr, DecidableEq

def Format.half : Format := ⟨11, -24, 15⟩
def Format.single : Format := ⟨24, -149, 127⟩
def Format.double : Format := ⟨53, -1074, 1023⟩

/-- `num / den` to the nearest integer, a tie going to the even one. -/
def roundQuotient (num den : Nat) : Nat :=
  let q := num / den
  let r := num % den
  if 2 * r < den then q
  else if den < 2 * r then q + 1
  else if q % 2 == 0 then q else q + 1

/-- `n * 2 ^ e` as a quotient of natural numbers. -/
def scaled (n : Nat) (e : Int) : Nat × Nat :=
  if 0 ≤ e then (n * twoTo e.toNat, 1) else (n, twoTo (-e).toNat)

/-- Sets the sign of a double that is not a NaN. -/
def withSign (negative : Bool) (x : Float) : Float :=
  if negative then -x else x

/-- The double `mantissa * 2 ^ exponent`, for a mantissa of at most `2 ^ 53` and an exponent of at
least -1074 that together stay in range. -/
def assemble (mantissa : Nat) (exponent : Int) : Float :=
  if mantissa == 0 then 0.0
  else
    let top := exponent + mantissa.log2
    if top < -1022 then
      Float.ofBits (mantissa * twoTo (exponent + 1074).toNat).toUInt64
    else
      let fraction := 2 * mantissa * twoTo (53 - mantissa.log2) / 4 - twoTo 52
      Float.ofBits (((top + 1023).toNat * twoTo 52) + fraction).toUInt64

def infinity : Float := Float.ofBits 0x7ff0000000000000
def notANumber : Float := Float.ofBits 0x7ff8000000000000

/-- The number of format `f` nearest to `num / den`, a tie going to the even mantissa; infinity
if that is out of range. -/
def Format.nearest (f : Format) (negative : Bool) (num den : Nat) : Float :=
  if num == 0 then withSign negative 0.0
  else
    let guess : Int := (num.log2 : Int) - den.log2 - f.precision
    -- The leading bit of the quotient is at `guess + precision` or one below it.
    let low := scaled num (-(guess + 1))
    let fits := low.1 < twoTo f.precision * (den * low.2) &&
      twoTo (f.precision - 1) * (den * low.2) ≤ low.1
    let exponent := max f.least (if fits then guess + 1 else guess)
    let q := scaled num (-exponent)
    let mantissa := roundQuotient q.1 (den * q.2)
    if f.greatest < exponent + mantissa.log2 then withSign negative infinity
    else withSign negative (assemble mantissa exponent)

/-- Rounds a double to format `f`. -/
def Format.round (f : Format) (x : Float) : Float :=
  match exact x with
  | .nan => x
  | .infinite _ => x
  | .finite negative m e =>
    let q := scaled m e
    f.nearest negative q.1 q.2

/-- The double nearest to an integer, or `none` if it is beyond all finite ones. -/
def ofInt? (n : Int) : Option Float :=
  let x := Format.double.nearest (n < 0) n.natAbs 1
  if x.isInf then none else some x

/-- The double nearest to a quotient of integers with `den ≠ 0`, or `none` if it is beyond all
finite ones. -/
def ofQuotient? (num den : Int) : Option Float :=
  let x := Format.double.nearest (decide (num < 0) != decide (den < 0)) num.natAbs den.natAbs
  if x.isInf then none else some x

/-- A double cut toward zero to an integer. -/
inductive Truncated where
  | nan
  | infinite
  | integer (n : Int)
deriving Repr, DecidableEq

def truncate (x : Float) : Truncated :=
  match exact x with
  | .nan => .nan
  | .infinite _ => .infinite
  | .finite negative m e =>
    let q := scaled m e
    let n : Int := (q.1 / q.2 : Nat)
    .integer (if negative then -n else n)

/-- Compares an integer with a double exactly; `none` for a NaN. -/
def compareInt (n : Int) (x : Float) : Option Ordering :=
  match exact x with
  | .nan => none
  | .infinite negative => some (if negative then .gt else .lt)
  | .finite negative m e =>
    let q := scaled m e
    let signed : Int := if negative then -(q.1 : Int) else q.1
    some (compare (n * q.2) signed)

/-- The remainder of truncating division, with the sign of `x`; exact. -/
def remainder (x y : Float) : Float :=
  match exact x, exact y with
  | .finite negative m e, .finite _ m' e' =>
    if m' == 0 then notANumber
    else
      let low := min e e'
      let r := (m * twoTo (e - low).toNat) % (m' * twoTo (e' - low).toNat)
      let q := scaled r low
      Format.double.nearest negative q.1 q.2
  | .finite .., .infinite _ => x
  | _, _ => notANumber

/-- `x` with the sign of `y`. -/
def copySign (x y : Float) : Float :=
  let negative := y.toBits.toNat / twoTo 63 == 1
  withSign negative x.abs

/-- The quotient rounded down and the remainder that goes with it, of the sign of `y`; `step`
rounds the result of every operation, so that narrower formats are served too. The divisor is not
zero. -/
def floorDivide (step : Float → Float) (x y : Float) : Float × Float :=
  let r := remainder x y
  let quotient := step (step (x - r) / y)
  let (r, quotient) :=
    if r == 0.0 then (copySign 0.0 y, quotient)
    else if decide (y < 0.0) != decide (r < 0.0) then (step (r + y), step (quotient - 1.0))
    else (r, quotient)
  if quotient == 0.0 then (copySign 0.0 (step (x / y)), r)
  else
    let down := quotient.floor
    (if quotient - down > 0.5 then step (down + 1.0) else down, r)

/-- Rounds to an integer, a tie going to the even one. -/
def roundEven (x : Float) : Float :=
  match exact x with
  | .finite negative m e =>
    let q := scaled m e
    Format.double.nearest negative (roundQuotient q.1 q.2) 1
  | _ => x

end IndexNotation.Number
