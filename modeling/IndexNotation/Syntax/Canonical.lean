import IndexNotation.Syntax.Statement

/-!
# Canonical names

A name may be primed with an apostrophe or with the prime character; both mean the same index. The
canonical form uses the prime character. An index written `_` stands for position zero.
-/

namespace IndexNotation

/-- The index that holds a fixed position. -/
def placeholder : String := "_"

/-- A name with the apostrophes at its end replaced by prime characters. -/
def canonicalIndex (name : String) : String :=
  let reversed := name.toList.reverse
  let stem := (reversed.dropWhile (· == '\x27')).reverse
  String.ofList (stem ++ List.replicate (name.length - stem.length) '′')

/-- Whether a name ends in an apostrophe. -/
def endsPrimed (name : String) : Bool :=
  name.toList.getLast? == some '\x27'

namespace Expr

/-- A name of an expression in its canonical form. -/
def canonicalName (id : String) (pos : Option Pos) : Expr :=
  name (if endsPrimed id then canonicalIndex id else id) pos

mutual

/-- Puts the names of an expression into their canonical form. -/
def canonical : Expr → Expr
  | name id p => canonicalName id p
  | index b is p => index (canonical b) (canonicalEntries is) p
  | field b n p => field (canonical b) n p
  | call f xs p => call f (canonicalArgs xs) p
  | binary l o r p => binary (canonical l) o (canonical r) p
  | unary o x p => unary o (canonical x) p
  | e => e

/-- The entries of an index list, where the placeholder is position zero. -/
def canonicalEntries : List Expr → List Expr
  | [] => []
  | name id p :: es =>
    (if id == placeholder then number (.int 0) p else canonicalName id p) :: canonicalEntries es
  | e :: es => canonical e :: canonicalEntries es

def canonicalArgs : List Expr → List Expr
  | [] => []
  | e :: es => canonical e :: canonicalArgs es

end

end Expr

/-- Puts the names of target and right-hand side into their canonical form; clauses stay as they
are. -/
def Statement.canonical (s : Statement) : Statement :=
  { s with
    target := { s.target with indices := Expr.canonicalEntries s.target.indices }
    rhs := s.rhs.canonical }

end IndexNotation
