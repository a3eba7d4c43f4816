import IndexNotation.Number.Root

/-!
# Complex arithmetic

Pairs of doubles. `step` rounds the result of every operation, so that narrower formats are served
too.
-/

namespace IndexNotation.Number

structure ComplexFloat where
  re : Float
  im : Float

namespace ComplexFloat

def ofReal (x : Float) : ComplexFloat := ⟨x, 0.0⟩

def one : ComplexFloat := ⟨1.0, 0.0⟩

def add (step : Float → Float) (a b : ComplexFloat) : ComplexFloat :=
  ⟨step (a.re + b.re), step (a.im + b.im)⟩

def sub (step : Float → Float) (a b : ComplexFloat) : ComplexFloat :=
  ⟨step (a.re - b.re), step (a.im - b.im)⟩

def neg (a : ComplexFloat) : ComplexFloat := ⟨-a.re, -a.im⟩

def mul (step : Float → Float) (a b : ComplexFloat) : ComplexFloat :=
  ⟨step (step (a.re * b.re) - step (a.im * b.im)), step (step (a.re * b.im) + step (a.im * b.re))⟩

def isZero (a : ComplexFloat) : Bool :=
  a.re == 0.0 && a.im == 0.0

/-- The quotient, by the larger part of the divisor; `none` if the divisor is zero. -/
def div? (a b : ComplexFloat) : Option ComplexFloat :=
  if b.im.abs ≤ b.re.abs then
    if b.re == 0.0 then none
    else
      let ratio := b.im / b.re
      let denom := b.re + b.im * ratio
      some ⟨(a.re + a.im * ratio) / denom, (a.im - a.re * ratio) / denom⟩
  else if b.re.abs ≤ b.im.abs then
    let ratio := b.re / b.im
    let denom := b.re * ratio + b.im
    some ⟨(a.re * ratio + a.im) / denom, (a.im * ratio - a.re) / denom⟩
  else some ⟨notANumber, notANumber⟩

/-- The quotient by a reciprocal; a divisor of zero gives infinities or NaNs. -/
def divScaled (step : Float → Float) (a b : ComplexFloat) : ComplexFloat :=
  if b.im.abs ≤ b.re.abs then
    if b.re == 0.0 && b.im == 0.0 then ⟨a.re / b.re.abs, a.im / b.re.abs⟩
    else
      let ratio := step (b.im / b.re)
      let scale := step (1.0 / step (b.re + step (b.im * ratio)))
      ⟨step (step (a.re + step (a.im * ratio)) * scale),
        step (step (a.im - step (a.re * ratio)) * scale)⟩
  else
    let ratio := step (b.re / b.im)
    let scale := step (1.0 / step (b.im + step (b.re * ratio)))
    ⟨step (step (step (a.re * ratio) + a.im) * scale),
      step (step (step (a.im * ratio) - a.re) * scale)⟩

/-- `acc * a ^ n` by repeated squaring, `fuel` bits at most. -/
def powerFrom (step : Float → Float) : (fuel : Nat) → (acc a : ComplexFloat) → (n : Nat) → ComplexFloat
  | 0, acc, _, _ => acc
  | fuel + 1, acc, a, n =>
    if n == 0 then acc
    else
      let acc := if n % 2 == 1 then mul step acc a else acc
      powerFrom step fuel acc (mul step a a) (n / 2)

/-- A natural power. -/
def natPower (step : Float → Float) (a : ComplexFloat) (n : Nat) : ComplexFloat :=
  powerFrom step 64 one a n

def abs (a : ComplexFloat) : Float :=
  hypot a.re a.im

/-- The length and the angle of a power, for a base that is not zero. -/
def polarPower (a b : ComplexFloat) : Float × Float :=
  let size := a.abs
  let angle := Float.atan2 a.im a.re
  let length := size.pow b.re
  let phase := angle * b.re
  if b.im == 0.0 then (length, phase)
  else (length / (angle * b.im).exp, phase + b.im * size.log)

/-- The number of a length and an angle. -/
def ofPolar (p : Float × Float) : ComplexFloat :=
  ⟨p.1 * p.2.cos, p.1 * p.2.sin⟩

/-- A power by logarithms, for a base that is not zero. -/
def power (a b : ComplexFloat) : ComplexFloat :=
  ofPolar (polarPower a b)

/-- The exponent as an integer, if it is one and less than `bound` in size. -/
def smallExponent? (bound : Int) (b : ComplexFloat) : Option Int :=
  if b.im == 0.0 then
    match exact b.re, truncate b.re with
    | .finite .., .integer n =>
      if compareInt n b.re == some .eq && -bound < n && n < bound then some n else none
    | _, _ => none
  else none

end ComplexFloat
end IndexNotation.Number
