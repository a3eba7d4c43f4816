import IndexNotation.Element.Code
import IndexNotation.Schedule.Reduction

/-!
# Reducers

How two values are made one, and what a reduction starts from. The four operators cannot be
rebound; any other name is looked up like the names of an expression.
-/

namespace IndexNotation

inductive Reducer where
  | sum | product | max | min
  | function (f : Value)

namespace Reducer

def ofName (scope : Scope) : String → Except Error Reducer
  | "+" => .ok sum
  | "*" => .ok product
  | "max" => .ok max
  | "min" => .ok min
  | op => do return function (← scope.lookup op)

/-- Takes `v` into `acc`. A maximum changes only for a greater value, a minimum only for a lesser
one. -/
def apply (scope : Scope) (r : Reducer) (acc v : Value) : Run Value :=
  match r with
  | sum => Value.binary .add acc v
  | product => Value.binary .mul acc v
  | max => do return if ← acc.less v then v else acc
  | min => do return if ← v.less acc then v else acc
  | function f => scope.call f [acc, v]

end Reducer

namespace ElemType

/-- A number as a value of the type; an array of objects holds it as it is. -/
def ofLiteral (t : ElemType) (l : Literal) : Value :=
  match t, Value.ofLiteral l with
  | .object, v => v
  | .text _, _ => .scalar (.text l.toText)
  | t, v => Dense.castCell t v

/-- The least value of the type. -/
def leastValue : ElemType → Value
  | .bool => .scalar (.bool false)
  | .int t => .scalar (.int t t.least)
  | .float t => .scalar (.float t (-Number.infinity))
  | .complex t => .scalar (.complex t (.ofReal (-Number.infinity)))
  | .text _ | .object => .float (-Number.infinity)

/-- What a reduction with `op` starts from if nothing else is said. A minimum starts from the least
value, like a maximum. -/
def neutral (op : String) (t : ElemType) : Value :=
  if op == "*" then t.ofLiteral (.int 1)
  else if op == "max" || op == "min" then t.leastValue
  else t.ofLiteral (.int 0)

end ElemType

/-- A literal of a number that is zero or one. -/
def zeroOrOne? : Expr → Option Literal
  | .number (.int n) _ => if n == 0 || n == 1 then some (.int n) else none
  | .number (.float x) _ => if x == 0.0 || x == 1.0 then some (.float x) else none
  | _ => none

/-- What a reduction starts from: the value that is written down, or the one of the operator. The
numbers zero and one are taken in the type of the elements. -/
def Reduction.initial (r : Reduction) (t : ElemType) (eval : Expr → Run Value) : Run Value :=
  match r.init with
  | none => pure (t.neutral r.op)
  | some e =>
    match zeroOrOne? e with
    | some l => pure (t.ofLiteral l)
    | none => eval e

end IndexNotation
