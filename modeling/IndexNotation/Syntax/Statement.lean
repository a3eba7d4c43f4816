import IndexNotation.Syntax.Printer

/-!
# Statements

A statement assigns an expression to a target, and may carry a reduction clause and a tiling
clause.
-/

namespace IndexNotation

/-- The ways to assign. -/
inductive Assign where
  /-- `:=` makes a new array. -/
  | define
  /-- `=` writes into an array that exists. -/
  | store
  | add | sub | mul
deriving Repr, DecidableEq

namespace Assign

def symbol : Assign → String
  | define => ":="
  | store => "="
  | add => "+="
  | sub => "-="
  | mul => "*="

/-- The operator that an updating assignment applies to the old value. -/
def update? : Assign → Option BinaryOp
  | add => some .add
  | sub => some .sub
  | mul => some .mul
  | define | store => none

end Assign

/-- The left-hand side of a statement. A new array may have no name. -/
structure Target where
  name : Option String
  indices : List Expr
  pos : Option Pos

/-- `(op, item, item)` after the right-hand side. -/
structure ReductionClause where
  op : String
  items : List Expr
  source : String
  pos : Option Pos

/-- `{item, item}` at the end of a statement. -/
structure TilingClause where
  items : List Expr
  source : String
  pos : Option Pos

structure Statement where
  target : Target
  op : Assign
  rhs : Expr
  reduction : Option ReductionClause
  tiling : Option TilingClause
  /-- The text of the whole statement without the blanks around it. -/
  source : String
  pos : Option Pos

/-- The target as a tree. -/
def Target.toExpr (t : Target) : Expr :=
  .target t.name t.indices t.pos

def Target.text (t : Target) : String :=
  t.name.getD "" ++ "[" ++ ", ".intercalate (t.indices.map Expr.text) ++ "]"

/-- The text of a statement without its clauses. -/
def Statement.text (s : Statement) : String :=
  s.target.text ++ " " ++ s.op.symbol ++ " " ++ s.rhs.text

/-- Whether the statement makes a new array. -/
def Statement.allocates (s : Statement) : Bool :=
  s.op == .define

/-- The distinct names of the left-hand side, in order. -/
def Statement.outputIndices (s : Statement) : List String :=
  (symbolNames s.target.indices).eraseDups

/-- `Z[i] += e` as `Z[i] = Z[i] + e`; a plain assignment stays as it is. -/
def Statement.desugar (s : Statement) : Statement :=
  match s.op.update? with
  | none => s
  | some op =>
    let current := Expr.index (.name (s.target.name.getD "") s.target.pos) s.target.indices s.target.pos
    { s with op := .store, rhs := .binary current op s.rhs s.pos }

end IndexNotation
