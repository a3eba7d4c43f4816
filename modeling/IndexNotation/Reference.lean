import IndexNotation.Axis.Catalog
import IndexNotation.Syntax.Statement

/-!
# References to arrays

Every bracket of the right-hand side refers to arrays, and every plain name inside it is an index
that runs over a dimension of the value in front of the bracket.
-/

namespace IndexNotation

namespace Expr

/-- The names of the values behind field access, calls and brackets, without repetitions. -/
def baseNames : Expr → List String
  | name id _ => [id]
  | field b _ _ => baseNames b
  | index b _ _ => baseNames b
  | call _ args _ => (allBaseNames args).eraseDups
  | _ => []
where
  allBaseNames : List Expr → List String
    | [] => []
    | e :: es => baseNames e ++ allBaseNames es

/-- The expression whose dimensions are those of `e`, for an index that stands in a bracket after
`e`. It has no index: a value that is picked by names is represented by the first one. -/
def axisSource : Expr → Expr
  | index b is _ =>
    if is.any mentionsName then first (axisSource b) none else index (axisSource b) is none
  | field b n _ => field (axisSource b) n none
  | call f xs _ => call f (axisSources xs) none
  | e => e
where
  axisSources : List Expr → List Expr
    | [] => []
    | e :: es => axisSource e :: axisSources es

end Expr

/-- A bracket of the right-hand side. -/
structure Reference where
  /-- The names behind the value in front of the bracket. -/
  bases : List String
  indices : List Expr
  /-- The expression whose dimensions the indices run over. -/
  source : Expr

namespace Reference

def ofIndex (base : Expr) (indices : List Expr) : Reference :=
  ⟨base.baseNames, indices, base.axisSource⟩

/-- The plain names among the indices. -/
def symbols (r : Reference) : List String :=
  symbolNames r.indices

/-- The axes of the plain names among `indices`, the first of which is at position `dim`. -/
def axesFrom (source : Expr) : (dim : Nat) → List Expr → List (String × Axis)
  | _, [] => []
  | dim, .name id _ :: es => (id, .array source dim) :: axesFrom source (dim + 1) es
  | dim, _ :: es => axesFrom source (dim + 1) es

/-- The axes that a bracket gives to the plain names in it. -/
def axes (r : Reference) : List (String × Axis) :=
  axesFrom r.source 0 r.indices

end Reference

/-- The brackets of an expression: those in front of a bracket, the bracket, then those inside it. -/
def Expr.references : Expr → List Reference
  | index b is _ => references b ++ [.ofIndex b is] ++ allReferences is
  | field b _ _ => references b
  | call _ args _ => allReferences args
  | binary l _ r _ => references l ++ references r
  | unary _ x _ => references x
  | _ => []
where
  allReferences : List Expr → List Reference
    | [] => []
    | e :: es => references e ++ allReferences es

/-- What the right-hand side refers to. -/
structure Collection where
  references : List Reference := []

namespace Collection

def ofExpr (e : Expr) : Collection := ⟨e.references⟩

/-- The arrays, in the order of their first occurrence. -/
def arrays (c : Collection) : List String :=
  (c.references.flatMap Reference.bases).eraseDups

/-- The plain names in brackets, with repetitions. -/
def indices (c : Collection) : List String :=
  c.references.flatMap Reference.symbols

def axes (c : Collection) : List (String × Axis) :=
  c.references.flatMap Reference.axes

def note (c : Collection) : LogEntry :=
  detail .references ("collected " ++ toString c.references.length ++ " references over arrays " ++
    Text.quotedList c.arrays ++ "; right-hand indices " ++ Text.quotedList c.indices.eraseDups)

end Collection

/-- The axes that an array which is written to gives to the names of the left-hand side. -/
def Target.axes (t : Target) : List (String × Axis) :=
  match t.name with
  | none => []
  | some name => Reference.axesFrom (.name name none) 0 t.indices

end IndexNotation
