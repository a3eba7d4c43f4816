import IndexNotation.Syntax.Expr

/-!
# Printing expressions

`Expr.toText` writes an expression with the parentheses that its operators need, `Expr.outline`
writes the tree itself. The left operand of an operator may bind as loosely as the operator, the
right operand has to bind more tightly.
-/

namespace IndexNotation.Expr

/-- The tree of an expression: every node by its kind and its parts. -/
def outline : Expr → String
  | name id _ => "Name(id=" ++ Text.quoted id ++ ")"
  | number v _ => "Number(value=" ++ v.toText ++ ")"
  | index b is _ => "Index(base=" ++ outline b ++ ", indices=" ++ Text.tupleText (outlines is) ++ ")"
  | field b n _ => "Attr(base=" ++ outline b ++ ", name=" ++ Text.quoted n ++ ")"
  | call f xs _ => "Call(func=" ++ Text.quoted f ++ ", args=" ++ Text.tupleText (outlines xs) ++ ")"
  | binary l o r _ =>
    "BinOp(left=" ++ outline l ++ ", op=" ++ Text.quoted o.symbol ++ ", right=" ++ outline r ++ ")"
  | unary o x _ => "UnaryOp(op=" ++ Text.quoted o.symbol ++ ", value=" ++ outline x ++ ")"
  | first x _ => "First(value=" ++ outline x ++ ")"
  | compare xs _ => "Compare(operands=" ++ Text.tupleText (outlines xs) ++ ")"
  | keyword n v _ => "Keyword(name=" ++ Text.quoted n ++ ", value=" ++ outline v ++ ")"
  | target n is _ =>
    "Lhs(name=" ++ (match n with | some n => Text.quoted n | none => "None") ++
      ", indices=" ++ Text.tupleText (outlines is) ++ ")"
  | hole => "None"
where
  outlines : List Expr → List String
    | [] => []
    | e :: es => outline e :: outlines es

/-- The text of an expression as a part of one that binds with strength `parent`. -/
def toText (parent : Nat) : Expr → String
  | name id _ => id
  | number v _ => v.toText
  | index b is _ => toText 5 b ++ "[" ++ ", ".intercalate (texts is) ++ "]"
  | field b n _ => toText 5 b ++ "." ++ n
  | first x _ => "first(" ++ toText 0 x ++ ")"
  | call f xs _ => f ++ "(" ++ ", ".intercalate (texts xs) ++ ")"
  | unary o x _ => o.symbol ++ toText 3 x
  | binary l o r _ =>
    let text := toText o.precedence l ++ " " ++ o.symbol ++ " " ++ toText (o.precedence + 1) r
    if o.precedence < parent then "(" ++ text ++ ")" else text
  | compare xs _ => " <= ".intercalate (texts xs)
  | keyword n v _ => n ++ "=" ++ toText 0 v
  | e@(target ..) => outline e
  | hole => ""
where
  texts : List Expr → List String
    | [] => []
    | e :: es => toText 0 e :: texts es

/-- The text of an expression that stands on its own. -/
abbrev text (e : Expr) : String :=
  e.toText 0

end IndexNotation.Expr
