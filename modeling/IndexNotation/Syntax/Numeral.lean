import IndexNotation.Number.Reader
import IndexNotation.Syntax.Expr

/-!
# Reading number texts

The grammar takes digits of every script, but only the ten digits `0` to `9` stand for numbers,
and an integer may not start with a zero unless it is zero.
-/

namespace IndexNotation

/-- Why a number text stands for no number. -/
inductive NumeralFault where
  /-- The first digit is one of another script. -/
  | strangeDigit (c : Char)
  /-- A later digit is one of another script. -/
  | malformed
  | leadingZeros
  /-- An integer of more digits than are read. -/
  | tooLong (digits : Nat)
deriving Repr, DecidableEq

namespace NumeralFault

def message : NumeralFault → String
  | strangeDigit c =>
    "invalid character \x27" ++ String.singleton c ++ "\x27 (U+" ++
      (Text.hex 4 c.toNat).toUpper ++ ")"
  | malformed => "invalid decimal literal"
  | leadingZeros =>
    "leading zeros in decimal integer literals are not permitted; " ++
      "use an 0o prefix for octal integers"
  | tooLong n =>
    "Exceeds the limit (4300 digits) for integer string conversion: value has " ++ toString n ++
      " digits; use sys.set_int_max_str_digits() to increase the limit - Consider hexadecimal " ++
      "for huge integer literals to avoid decimal conversion limits."

end NumeralFault

/-- The greatest number of digits of an integer literal. -/
def maxDigits : Nat := 4300

namespace Numeral

open Text

/-- Whether a text starts like an integer with a zero in front of a nonzero number. -/
def hasLeadingZeros (cs : List Char) : Bool :=
  let digits := cs.takeWhile isAsciiDigit
  let after := cs.dropWhile isAsciiDigit
  digits.head? == some '0' && digits.any (· != '0') &&
    !(after.head?.any fun c => c == '.' || c == 'e' || c == 'E')

/-- The digit of another script that a number text starts with, perhaps after its point. -/
def strangeStart? : List Char → Option Char
  | '.' :: c :: _ => if isAsciiDigit c then none else some c
  | c :: _ => if isAsciiDigit c || c == '.' then none else some c
  | [] => none

/-- The literal for a number text. -/
def read (s : String) : Except NumeralFault Literal :=
  let cs := s.toList
  match strangeStart? cs with
  | some c => .error (.strangeDigit c)
  | none =>
    if hasLeadingZeros cs then .error .leadingZeros
    else if cs.any fun c => isDigit c && !isAsciiDigit c then .error .malformed
    else if cs.all isAsciiDigit then
      if cs.all (· == '0') then .ok (.int 0)
      else if maxDigits < cs.length then .error (.tooLong cs.length)
      else .ok (.int (digitsToNat cs))
    else .ok (.float ((Number.readFloat? s).getD 0.0))

end Numeral

/-- Reads the number text of a literal. -/
def Literal.read : Literal → Except NumeralFault Literal
  | numeral s => Numeral.read s
  | l => .ok l

/-- Reads all number texts of a tree, left to right. -/
def Expr.readNumbers : Expr → Except NumeralFault Expr
  | name id p => .ok (name id p)
  | number v p => do return number (← v.read) p
  | index b is p => do
    let b ← readNumbers b
    let is ← readAll is
    return index b is p
  | field b n p => do return field (← readNumbers b) n p
  | call f xs p => do return call f (← readAll xs) p
  | binary l o r p => do
    let l ← readNumbers l
    let r ← readNumbers r
    return binary l o r p
  | unary o x p => do return unary o (← readNumbers x) p
  | first x p => do return first (← readNumbers x) p
  | compare xs p => do return compare (← readAll xs) p
  | keyword n v p => do return keyword n (← readNumbers v) p
  | target n is p => do return target n (← readAll is) p
  | hole => .ok hole
where
  readAll : List Expr → Except NumeralFault (List Expr)
    | [] => .ok []
    | e :: es => do
      let e ← readNumbers e
      let es ← readAll es
      return e :: es

end IndexNotation
