import IndexNotation.Number.Shortest
import IndexNotation.Value.ElemType

/-!
# Columns of numbers

Numbers that are listed together are written alike: with their points below each other, and all of
them with an exponent if one of them is large. A number has the fewest digits that read back to
it, but no more than eight after the point.
-/

namespace IndexNotation

open Number (Decimal)

/-- The most digits after the point. -/
def maxPlaces : Nat := 8

namespace FloatType

/-- From this number on numbers are written with an exponent. -/
def exponentFrom : FloatType → Float
  | half => 1e3
  | single => 1e6
  | double => 1e8

end FloatType

/-- Text moved to the right to fill a width. -/
def padLeft (width : Nat) (s : String) : String :=
  String.ofList (List.replicate (width - s.length) ' ') ++ s

/-- Text filled up with blanks. -/
def padRight (width : Nat) (s : String) : String :=
  s ++ String.ofList (List.replicate (width - s.length) ' ')

/-- A number that is taken apart to be written. -/
inductive Numeral.Parts where
  | nan
  | infinite (negative : Bool)
  /-- A finite number with its exact value and the shortest decimal that reads back to it. -/
  | finite (negative : Bool) (mantissa : Nat) (exponent : Int) (shortest : Decimal)

namespace Numeral.Parts

def ofFloat (t : FloatType) (x : Float) : Parts :=
  match Number.exact x with
  | .nan => nan
  | .infinite negative => infinite negative
  | .finite negative m e =>
    finite negative m e (if m == 0 then ⟨0, 0⟩ else t.format.shortest m e)

def isFinite : Parts → Bool
  | finite .. => true
  | _ => false

/-- The exact value rounded to a multiple of `10 ^ place`, as that multiple. -/
def roundedTo (mantissa : Nat) (exponent place : Int) : Nat :=
  let v := Number.scaled mantissa exponent
  let g := Number.scaledTen 1 place
  Number.roundQuotient (v.1 * g.2) (v.2 * g.1)

/-- The decimal with no more than `maxPlaces` digits after the point. -/
def fixed (m : Nat) (e : Int) (shortest : Decimal) : Decimal :=
  if -(maxPlaces : Int) ≤ shortest.exponent then shortest
  else Decimal.strip maxPlaces ⟨roundedTo m e (-maxPlaces), -maxPlaces⟩

/-- Digits in front of the point and after it. -/
def split (d : Decimal) : String × String :=
  let digits := Nat.toDigits 10 d.digits
  if d.digits == 0 then ("0", "")
  else if 0 ≤ d.exponent then (String.ofList (digits ++ List.replicate d.exponent.toNat '0'), "")
  else
    let places := (-d.exponent).toNat
    let padded := List.replicate (places + 1 - digits.length) '0' ++ digits
    (String.ofList (padded.take (padded.length - places)),
      String.ofList (padded.drop (padded.length - places)))

/-- The first `count` digits, of which the last one is rounded, and the place of the first. -/
def leading (m : Nat) (e : Int) (count : Nat) : List Char × Int :=
  if m == 0 then (List.replicate count '0', 0)
  else
    let v := Number.scaled m e
    let place := Number.leadingPlace v.1 v.2
    let digits := Nat.toDigits 10 (roundedTo m e (place + 1 - count))
    if digits.length ≤ count then (digits, place) else (digits.take count, place + 1)

/-- How many digits after the first are needed with an exponent, and at most `maxPlaces`. -/
def neededPlaces (m : Nat) (e : Int) (shortest : Decimal) : Nat :=
  let count := Number.digitCount shortest.digits
  if count ≤ maxPlaces + 1 then count - 1
  else
    let digits := (leading m e (maxPlaces + 1)).1
    (digits.reverse.dropWhile (· == '0')).length - 1

/-- The place of the first digit if it is written with an exponent. -/
def exponentOf (m : Nat) (e : Int) (shortest : Decimal) : Int :=
  (leading m e (min (maxPlaces + 1) (Number.digitCount shortest.digits))).2

end Numeral.Parts

/-- How the numbers of a column are written. -/
structure Column where
  scientific : Bool
  /-- Whether numbers that are not negative have a sign, too. -/
  signed : Bool
  /-- The width in front of the point, with the sign. -/
  left : Nat
  /-- The width after the point. -/
  right : Nat
  /-- The number of digits after the point if there is an exponent. -/
  places : Nat
  /-- The number of digits of an exponent. -/
  exponentWidth : Nat

namespace Column

open Numeral (Parts)
open Numeral.Parts

def sign (signed negative : Bool) : String :=
  if negative then "-" else if signed then "+" else ""

/-- The digits of an exponent, at least `width` of them. -/
def exponentText (width : Nat) (e : Int) : String :=
  let digits := Nat.toDigits 10 e.natAbs
  (if e < 0 then "-" else "+") ++
    String.ofList (List.replicate (width - digits.length) '0' ++ digits)

def maxOf (ns : List Nat) : Nat := ns.foldl max 0

/-- The column for finite numbers only. -/
def ofFinite (scientific signed : Bool) (parts : List Parts) : Column :=
  if scientific then
    let places := maxOf (parts.map fun p =>
      match p with
      | .finite _ m e d => neededPlaces m e d
      | _ => 0)
    let width := maxOf (parts.map fun p =>
      match p with
      | .finite _ m e d => (exponentText 2 (exponentOf m e d)).length - 1
      | _ => 0)
    let left := maxOf (parts.map fun p =>
      match p with
      | .finite negative .. => (sign signed negative).length + 1
      | _ => 0)
    ⟨true, signed, left, width + 2 + places, places, width⟩
  else
    let texts := parts.filterMap fun p =>
      match p with
      | .finite negative m e d =>
        let (whole, fraction) := split (fixed m e d)
        some (sign signed negative ++ whole, fraction)
      | _ => none
    ⟨false, signed, maxOf (texts.map (·.1.length)), maxOf (texts.map (·.2.length)), 0, 0⟩

/-- The column for numbers of a type. -/
def ofFloats (t : FloatType) (signed : Bool) (xs : List Float) : Column :=
  let parts := xs.map (ofFloat t)
  let scientific := xs.any fun x => x.isFinite && t.exponentFrom ≤ x.abs
  let c := ofFinite scientific signed parts
  if parts.all isFinite then c
  else
    let negative := signed || parts.any fun p => match p with | .infinite n => n | _ => false
    let infinite := 3 + (if negative then 1 else 0)
    { c with left := max c.left (max (3 - (c.right + 1)) (infinite - (c.right + 1))) }

/-- A number of the column. -/
def text (c : Column) (t : FloatType) (x : Float) : String :=
  match ofFloat t x with
  | .nan => padLeft (c.left + c.right + 1) (sign c.signed false ++ "nan")
  | .infinite negative => padLeft (c.left + c.right + 1) (sign c.signed negative ++ "inf")
  | .finite negative m e d =>
    if c.scientific then
      let (digits, place) := leading m e (c.places + 1)
      padLeft c.left (sign c.signed negative ++ String.ofList (digits.take 1)) ++ "." ++
        String.ofList (digits.drop 1) ++ "e" ++ exponentText c.exponentWidth place
    else
      let (whole, fraction) := split (fixed m e d)
      padLeft c.left (sign c.signed negative ++ whole) ++ "." ++ padRight c.right fraction

end Column
end IndexNotation
