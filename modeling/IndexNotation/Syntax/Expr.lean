import IndexNotation.Syntax.Literal

/-!
# Expressions

The tree of an expression, the walks over it, and the sameness of two trees. Positions are carried
along for messages and do not count when trees are compared.
-/

namespace IndexNotation

/-- A place in the source text. Lines and columns count from one. -/
structure Pos where
  line : Nat
  column : Nat
deriving Repr, DecidableEq

inductive BinaryOp where
  | add | sub | mul | div | floorDiv | mod | pow
  /-- Another spelling of the power, which the parser replaces by `pow`. -/
  | caret
  /-- An operator that has no meaning. -/
  | other (symbol : String)
deriving Repr, DecidableEq

namespace BinaryOp

def symbol : BinaryOp → String
  | add => "+"
  | sub => "-"
  | mul => "*"
  | div => "/"
  | floorDiv => "//"
  | mod => "%"
  | pow => "**"
  | caret => "^"
  | other s => s

def ofSymbol : String → BinaryOp
  | "+" => add
  | "-" => sub
  | "*" => mul
  | "/" => div
  | "//" => floorDiv
  | "%" => mod
  | "**" => pow
  | "^" => caret
  | s => other s

/-- How tightly an operator binds; those that the grammar does not know bind least. -/
def precedence : BinaryOp → Nat
  | add | sub => 1
  | mul | div | floorDiv | mod => 2
  | pow => 4
  | caret | other _ => 0

end BinaryOp

inductive UnaryOp where
  | neg | pos
  /-- An operator that has no meaning. -/
  | other (symbol : String)
deriving Repr, DecidableEq

namespace UnaryOp

def symbol : UnaryOp → String
  | neg => "-"
  | pos => "+"
  | other s => s

def ofSymbol : String → UnaryOp
  | "-" => neg
  | "+" => pos
  | s => other s

end UnaryOp

/-- An expression, or one of the items that stand in directive clauses. -/
inductive Expr where
  | name (id : String) (pos : Option Pos)
  | number (value : Literal) (pos : Option Pos)
  | index (base : Expr) (indices : List Expr) (pos : Option Pos)
  | field (base : Expr) (name : String) (pos : Option Pos)
  | call (func : String) (args : List Expr) (pos : Option Pos)
  | binary (left : Expr) (op : BinaryOp) (right : Expr) (pos : Option Pos)
  | unary (op : UnaryOp) (operand : Expr) (pos : Option Pos)
  /-- The first element of a value; stands only in the sources of axes. -/
  | first (source : Expr) (pos : Option Pos)
  /-- A chain `a <= b <= c`; stands only in reduction clauses. -/
  | compare (operands : List Expr) (pos : Option Pos)
  /-- An item `name=value`; stands only in reduction clauses. -/
  | keyword (name : String) (value : Expr) (pos : Option Pos)
  /-- The left-hand side of a statement, as a tree of its own. -/
  | target (name : Option String) (indices : List Expr) (pos : Option Pos)
  /-- A missing subtree. -/
  | hole

instance : Inhabited Expr := ⟨.hole⟩

namespace Expr

def pos? : Expr → Option Pos
  | name _ p | number _ p | index _ _ p | field _ _ p | call _ _ p | binary _ _ _ p | unary _ _ p
  | first _ p | compare _ p | keyword _ _ p | target _ _ p => p
  | hole => none

/-- The name that an expression consists of, if it is one. -/
def name? : Expr → Option String
  | name id _ => some id
  | _ => none

def isName (e : Expr) : Bool :=
  e.name?.isSome

/-- A subtree before its parts, left to right. Clause items and targets are leaves. -/
def walk : Expr → List Expr
  | e@(index base indices _) => e :: (walk base ++ walkAll indices)
  | e@(field base _ _) => e :: walk base
  | e@(call _ args _) => e :: walkAll args
  | e@(binary l _ r _) => e :: (walk l ++ walk r)
  | e@(unary _ x _) => e :: walk x
  | e@(first x _) => e :: walk x
  | e => [e]
where
  walkAll : List Expr → List Expr
    | [] => []
    | e :: es => walk e ++ walkAll es

/-- Whether a name occurs anywhere in the tree. -/
def mentionsName (e : Expr) : Bool :=
  e.walk.any isName

/-- Trees are the same if they differ in positions only. Literals are compared by value. -/
def same : Expr → Expr → Bool
  | name a _, name b _ => a == b
  | number a _, number b _ => a.same b
  | index a is _, index b js _ => same a b && sameAll is js
  | field a m _, field b n _ => same a b && m == n
  | call f xs _, call g ys _ => f == g && sameAll xs ys
  | binary a o b _, binary c p d _ => same a c && o == p && same b d
  | unary o a _, unary p b _ => o == p && same a b
  | first a _, first b _ => same a b
  | compare xs _, compare ys _ => sameAll xs ys
  | keyword m a _, keyword n b _ => m == n && same a b
  | target m is _, target n js _ => m == n && sameAll is js
  | hole, hole => true
  | _, _ => false
where
  sameAll : List Expr → List Expr → Bool
    | [], [] => true
    | x :: xs, y :: ys => same x y && sameAll xs ys
    | _, _ => false

end Expr

/-- The names among a list of expressions, in order. -/
def symbolNames (es : List Expr) : List String :=
  es.filterMap Expr.name?

end IndexNotation
