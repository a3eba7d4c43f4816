import IndexNotation.Syntax.Printer

/-!
# Axes

The range of an index comes from a dimension of an array, or from bounds that are written down.
-/

namespace IndexNotation

inductive Axis where
  /-- The valid positions of dimension `dim` of the value of `source`. -/
  | array (source : Expr) (dim : Nat)
  /-- The integers from `lower` to `upper`, both included; without `lower`, from zero. -/
  | between (lower : Option Expr) (upper : Expr)

namespace Axis

def text : Axis → String
  | array source dim => "axes(" ++ source.text ++ ", " ++ toString dim ++ ")"
  | between lower upper => (lower.map Expr.text).getD "0" ++ ":" ++ upper.text

/-- Axes are the same if they are derived in the same way, wherever that is written. -/
def same : Axis → Axis → Bool
  | array s d, array t e => s.same t && d == e
  | between none u, between none v => u.same v
  | between (some l) u, between (some k) v => u.same v && l.same k
  | _, _ => false

/-- Whether the range was written down. -/
def isExplicit : Axis → Bool
  | between .. => true
  | array .. => false

end Axis
end IndexNotation
