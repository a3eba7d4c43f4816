import IndexNotation.Element.Code
import IndexNotation.Syntax.Statement

/-!
# Results put into arrays

A function of the library that works cell by cell can be called with an array for its results, which
it changes. A statement that calls one in this way is run in a scope that supplies it.
-/

namespace IndexNotation

namespace Expr

/-- The functions of the library that an expression calls with an array for their results. -/
def placings (e : Expr) : List (String × Builtin) :=
  e.walk.filterMap fun
    | call id args _ =>
      match Library.names.lookup id with
      | some (.function (.builtin f)) =>
        if (Library.operands? f).map (· + 1) == some args.length then some (id, f) else none
      | _ => none
    | _ => none

/-- The expressions in an item of a reduction clause. -/
def itemParts : Expr → List Expr
  | compare operands _ => operands
  | keyword _ value _ => [value]
  | e => [e]

end Expr

/-- The functions of the library that a statement calls with an array for their results. -/
def Statement.placings (s : Statement) : List (String × Builtin) :=
  let items := (s.reduction.map ReductionClause.items).getD []
  (s.rhs :: items.flatMap Expr.itemParts).flatMap Expr.placings

namespace Scope

/-- What a function of the library is supplied as if it can be given an array for its results. No
other function has such a name. -/
def placingName (name : String) : String :=
  name ++ " into"

/-- The scope with some functions of the library supplied, so that they can be given an array for
their results. What is bound already stays bound. -/
def withPlacings (s : Scope) (placings : List (String × Builtin)) : Scope where
  bindings := s.bindings ++ placings.map fun p => (p.1, .function (.supplied (placingName p.1)))
  supplied name args :=
    match placings.find? fun p => placingName p.1 == name with
    | some (_, f) =>
      if (Library.operands? f).map (· + 1) == some args.length then Library.callInto f args
      else Library.call f args
    | none => s.supplied name args

end Scope
end IndexNotation
