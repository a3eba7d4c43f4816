import IndexNotation.Number.Binary

/-!
# Square roots of integers, and lengths

The integer square root by Newton's method, and the length of a vector of two doubles, rounded
once.
-/

namespace IndexNotation.Number

/-- Newton steps down from `x`, `fuel` at most. -/
def sqrtFrom (n : Nat) : (fuel : Nat) → Nat → Nat
  | 0, x => x
  | fuel + 1, x =>
    let y := (x + n / x) / 2
    if y < x then sqrtFrom n fuel y else x

/-- The greatest integer whose square is at most `n`. -/
def natSqrt (n : Nat) : Nat :=
  if n == 0 then 0 else sqrtFrom n (n.log2 + 8) (twoTo (n.log2 / 2 + 1))

/-- The square root of `num / den`, rounded to nearest: `digits` is scaled so that the integer part
has enough bits, and a remainder is kept as a last bit. -/
def sqrtQuotient (num den : Nat) : Float :=
  if num == 0 then 0.0
  else
    -- Scale by a power of four so that the root has at least 64 bits.
    let shift := 64 + den.log2
    let scaledUp := num * twoTo (2 * shift) / den
    let root := natSqrt scaledUp
    let sticky := if root * root * den == num * twoTo (2 * shift) then 0 else 1
    Format.double.nearest false (2 * root + sticky) (2 * twoTo shift)

/-- The length of a vector. -/
def hypot (x y : Float) : Float :=
  match exact x, exact y with
  | .infinite _, _ | _, .infinite _ => infinity
  | .nan, _ | _, .nan => notANumber
  | .finite _ m e, .finite _ m' e' =>
    let low := min e e'
    let a := m * twoTo (e - low).toNat
    let b := m' * twoTo (e' - low).toNat
    let q := scaled (a * a + b * b) (2 * low)
    sqrtQuotient q.1 q.2

end IndexNotation.Number
