import IndexNotation.Number.Binary

/-!
# Shortest decimals

A finite number of a binary format is written with the fewest digits that read back to it: of the
decimals of that length that lie nearer to it than to its neighbours, the nearest one. `shortest`
finds the digits in exact integer arithmetic; `Style` says how they are laid out.
-/

namespace IndexNotation.Number

/-- The decimal `digits * 10 ^ exponent`, with no zero at the end of `digits`. -/
structure Decimal where
  digits : Nat
  exponent : Int
deriving Repr, DecidableEq

/-- The number of decimal digits of `n`; zero has one. -/
def digitCount (n : Nat) : Nat :=
  (Nat.toDigits 10 n).length

/-- `n * 10 ^ e` as a quotient of natural numbers. -/
def scaledTen (n : Nat) (e : Int) : Nat × Nat :=
  if 0 ≤ e then (n * tenTo e.toNat, 1) else (n, tenTo (-e).toNat)

/-- Drops the zeros at the end of a decimal's digits, `fuel` of them at most. -/
def Decimal.strip : (fuel : Nat) → Decimal → Decimal
  | 0, d => d
  | fuel + 1, d =>
    if d.digits != 0 && d.digits % 10 == 0 then Decimal.strip fuel ⟨d.digits / 10, d.exponent + 1⟩
    else d

/-- The place of the leading digit of `num / den`: the greatest `k` with `10 ^ k ≤ num / den`. -/
def leadingPlace (num den : Nat) : Int :=
  let guess : Int := (digitCount num : Int) - digitCount den
  let p := scaledTen 1 guess
  if p.1 * den ≤ num * p.2 then guess else guess - 1

/-- The reals that round to `mantissa * 2 ^ exponent`, as bounds in quarters of `2 ^ exponent`.
The bounds themselves belong to it if the mantissa is even. `narrow` says that the gap to the next
number below is half the gap to the next one above. -/
structure Interval where
  low : Nat
  high : Nat
  closed : Bool
deriving Repr

def Interval.around (mantissa : Nat) (narrow : Bool) : Interval :=
  ⟨4 * mantissa - (if narrow then 1 else 2), 4 * mantissa + 2, mantissa % 2 == 0⟩

/-- Whether `d` lies in the interval in units of `2 ^ exponent / 4`. -/
def Interval.holds (i : Interval) (exponent : Int) (d : Decimal) : Bool :=
  let x := scaledTen d.digits d.exponent
  let unit := scaled 1 (exponent - 2)
  let value := x.1 * unit.2
  let low := i.low * unit.1 * x.2
  let high := i.high * unit.1 * x.2
  if i.closed then low ≤ value && value ≤ high else low < value && value < high

/-- The decimal of `places` digits for `mantissa * 2 ^ exponent`, if one lies in the interval: the
nearer of the two neighbours on that grid, a tie going to the even one. -/
def candidate (mantissa : Nat) (exponent : Int) (i : Interval) (top : Int) (places : Nat) :
    Option Decimal :=
  let grid : Int := top + 1 - places
  let v := scaled mantissa exponent
  let g := scaledTen 1 grid
  let num := v.1 * g.2
  let den := v.2 * g.1
  let below : Decimal := ⟨num / den, grid⟩
  let above : Decimal := ⟨num / den + 1, grid⟩
  let nearest : Decimal := ⟨roundQuotient num den, grid⟩
  if i.holds exponent nearest then some nearest
  else if i.holds exponent below then some below
  else if i.holds exponent above then some above
  else none

/-- Tries one digit more at a time, `fuel` times. -/
def search (mantissa : Nat) (exponent : Int) (i : Interval) (top : Int) :
    (fuel places : Nat) → Decimal
  | 0, places => (candidate mantissa exponent i top places).getD ⟨mantissa, 0⟩
  | fuel + 1, places =>
    match candidate mantissa exponent i top places with
    | some d => d
    | none => search mantissa exponent i top fuel (places + 1)

/-- The shortest decimal that reads back to the positive number `mantissa * 2 ^ exponent` of format
`f`. -/
def Format.shortest (f : Format) (mantissa : Nat) (exponent : Int) : Decimal :=
  -- The mantissa of the format, which may be shorter than a double's.
  let shift : Int := max (f.least - exponent) ((mantissa.log2 : Int) + 1 - f.precision)
  let m := if 0 ≤ shift then mantissa / twoTo shift.toNat else mantissa * twoTo (-shift).toNat
  let e := exponent + shift
  let narrow := m == twoTo (f.precision - 1) && f.least < e
  let v := scaled m e
  let d := search m e (.around m narrow) (leadingPlace v.1 v.2) 16 1
  d.strip 20

/-- How decimals are laid out: the places of the leading digit that are written positionally lie
in `lowest ≤ place < highest`; otherwise the exponent is written, with at least `exponentWidth`
digits and always a sign. -/
structure Style where
  lowest : Int
  highest : Int
  exponentWidth : Nat
deriving Repr

/-- The layout of numbers in messages and answers: positional from `0.0001` up to below `1e16`. -/
def Style.plain : Style := ⟨-4, 16, 2⟩

/-- Digits with a point before place `-1`, and a zero on both sides of the point if need be. -/
def positional (d : Decimal) : String :=
  let digits := Nat.toDigits 10 d.digits
  if 0 ≤ d.exponent then
    String.ofList (digits ++ List.replicate d.exponent.toNat '0') ++ ".0"
  else
    let places := (-d.exponent).toNat
    let padded := List.replicate (places + 1 - digits.length) '0' ++ digits
    String.ofList (padded.take (padded.length - places)) ++ "." ++
      String.ofList (padded.drop (padded.length - places))

/-- Digits with a point after the first one and an exponent. -/
def Style.scientific (st : Style) (d : Decimal) : String :=
  let digits := Nat.toDigits 10 d.digits
  let place : Int := d.exponent + (digits.length - 1 : Nat)
  let exponent := Nat.toDigits 10 place.natAbs
  let fraction := digits.drop 1
  String.ofList (digits.take 1) ++
    (if fraction.isEmpty then "" else "." ++ String.ofList fraction) ++
    (if place < 0 then "e-" else "e+") ++
    String.ofList (List.replicate (st.exponentWidth - exponent.length) '0' ++ exponent)

def Style.decimal (st : Style) (d : Decimal) : String :=
  let place : Int := d.exponent + (digitCount d.digits - 1 : Nat)
  if st.lowest ≤ place && place < st.highest then positional d else st.scientific d

/-- The text of a double: the shortest decimal that reads back to it. -/
def floatText (x : Float) : String :=
  match exact x with
  | .nan => "nan"
  | .infinite negative => if negative then "-inf" else "inf"
  | .finite negative m e =>
    let text := if m == 0 then "0.0" else Style.plain.decimal (Format.double.shortest m e)
    if negative then "-" ++ text else text

end IndexNotation.Number
