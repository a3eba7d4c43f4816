import IndexNotation.Number.Shortest
import IndexNotation.Text.Quoted

/-!
# Literals

The constants an expression can hold. The grammar only yields number texts, which are then read as
integers and floats; the other kinds come with trees that are built by hand.
-/

namespace IndexNotation

/-- A constant of an expression. -/
inductive Literal where
  | int (n : Int)
  | float (x : Float)
  | bool (b : Bool)
  | complex (re im : Float)
  | text (s : String)
  | none
  /-- The text of a number that has not been read yet. -/
  | numeral (s : String)

namespace Literal

/-- A part of a complex number, which is written without a fraction where it has none. -/
def partText (x : Float) : String :=
  let s := Number.floatText x
  if s.endsWith ".0" then String.ofList (s.toList.take (s.length - 2)) else s

/-- Complex numbers are written as `(re+imj)`; a real part of plain zero is left out. -/
def complexText (re im : Float) : String :=
  if re.toBits == 0 then partText im ++ "j"
  else
    let t := partText im
    "(" ++ partText re ++ (if t.startsWith "-" then "" else "+") ++ t ++ "j)"

/-- The text of a literal. -/
def toText : Literal → String
  | int n => toString n
  | float x => Number.floatText x
  | bool b => if b then "True" else "False"
  | complex re im => complexText re im
  | text s => Text.quoted s
  | none => "None"
  | numeral s => s

/-- The exact value of a real literal; truth values count as zero and one. -/
def integer? : Literal → Option Int
  | int n => some n
  | bool b => some (if b then 1 else 0)
  | _ => Option.none

/-- Literals are compared by value: `4` equals `4.0`, and truth values are numbers. -/
def same : Literal → Literal → Bool
  | text s, text t => s == t
  | none, none => true
  | numeral s, numeral t => s == t
  | float x, float y => x == y
  | complex a b, complex c d => a == c && b == d
  | complex a b, float x => a == x && b == 0.0
  | float x, complex a b => a == x && b == 0.0
  | l, float x => equalsFloat l x
  | float x, l => equalsFloat l x
  | l, complex a b => equalsFloat l a && b == 0.0
  | complex a b, l => equalsFloat l a && b == 0.0
  | l, k =>
    match l.integer?, k.integer? with
    | some m, some n => m == n
    | _, _ => false
where
  /-- Whether an integer or truth value equals a float exactly. -/
  equalsFloat (l : Literal) (x : Float) : Bool :=
    match l.integer? with
    | some n => Number.compareInt n x == some .eq
    | Option.none => false

end Literal
end IndexNotation
