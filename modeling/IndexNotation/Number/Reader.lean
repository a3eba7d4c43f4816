import IndexNotation.Number.Shortest
import IndexNotation.Text.Blank
import IndexNotation.Text.Digit

/-!
# Reading numbers

Texts of integers and of decimals. Blanks around the number are skipped, digits may be those of
any script, and a single underscore may stand between two digits.
-/

namespace IndexNotation.Number

open Text

/-- The double nearest to `digits * 10 ^ exponent`; infinity if that is out of range. -/
def ofDecimal (negative : Bool) (digits : Nat) (exponent : Int) : Float :=
  let place : Int := exponent + digitCount digits
  if digits == 0 || place < -330 then withSign negative 0.0
  else if 320 < place then withSign negative infinity
  else
    let q := scaledTen digits exponent
    Format.double.nearest negative q.1 q.2

/-- Takes a sign off the front. -/
def takeSign : List Char → Bool × List Char
  | '-' :: cs => (true, cs)
  | '+' :: cs => (false, cs)
  | cs => (false, cs)

/-- Digits with the underscores between them taken out; `none` if an underscore does not stand
between two digits. `after` tells whether a digit was read last. -/
def joinDigits (after : Bool) : List Char → Option (List Char)
  | [] => some []
  | '_' :: c :: cs => if after && isDigit c then (joinDigits true cs).map (c :: ·) else none
  | c :: cs => if isDigit c then (joinDigits true cs).map (c :: ·) else none

/-- A run of digits and underscores, as a number together with its length in digits; `none` if it
is empty or malformed. -/
def readDigits? (cs : List Char) : Option (Nat × Nat) :=
  match joinDigits false cs with
  | some (d :: ds) => some (digitsToNat (d :: ds), ds.length + 1)
  | _ => none

/-- The integer that a text spells. -/
def readInt? (s : String) : Option Int :=
  let (negative, cs) := takeSign (trimChars s.toList)
  (readDigits? cs).map fun d => if negative then -(d.1 : Int) else d.1

/-- The exponent after a mantissa: nothing, or `e` with an integer. -/
def readExponent? : List Char → Option Int
  | [] => some 0
  | c :: cs =>
    if c == 'e' || c == 'E' then
      let (negative, ds) := takeSign cs
      (readDigits? ds).map fun d => if negative then -(d.1 : Int) else d.1
    else none

/-- A run of digits that may be empty. -/
def readFraction? (cs : List Char) : Option (Nat × Nat) :=
  if cs.isEmpty then some (0, 0) else readDigits? cs

/-- An unsigned decimal with an optional point and exponent. -/
def readUnsigned? (negative : Bool) (cs : List Char) : Option Float :=
  let isPart (c : Char) : Bool := isDigit c || c == '_'
  let whole := cs.takeWhile isPart
  let rest := cs.dropWhile isPart
  match rest with
  | '.' :: rest =>
    let fraction := rest.takeWhile isPart
    if whole.isEmpty && fraction.isEmpty then none
    else do
      let w ← readFraction? whole
      let f ← readFraction? fraction
      let e ← readExponent? (rest.dropWhile isPart)
      return ofDecimal negative (w.1 * tenTo f.2 + f.1) (e - f.2)
  | rest => do
    let w ← readDigits? whole
    let e ← readExponent? rest
    return ofDecimal negative w.1 e

/-- The double that a text spells: a decimal, or a name of infinity or of NaN in any case. -/
def readFloat? (s : String) : Option Float :=
  let (negative, cs) := takeSign (trimChars s.toList)
  let word := String.ofList (cs.map Char.toLower)
  if word == "inf" || word == "infinity" then some (withSign negative infinity)
  else if word == "nan" then some notANumber
  else readUnsigned? negative cs

end IndexNotation.Number
