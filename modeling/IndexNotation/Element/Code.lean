import IndexNotation.Axis.Basic
import IndexNotation.Value.Library

/-!
# Evaluating expressions

An expression is evaluated in two steps. First its names are resolved: an index stays a name, every
other name becomes the value it is bound to. Then the resolved expression is run, as often as need
be, for the values of the indices.
-/

namespace IndexNotation

/-- The values of the indices. -/
abbrev Env := List (String × Int)

/-- Where names are looked up: among the values that are supplied, then in the library. -/
structure Scope where
  bindings : List (String × Value) := []
  /-- Calls a supplied function by its name. -/
  supplied : String → List Value → Run Value := fun _ _ => Run.fail .wrongKind

namespace Scope

def lookup (s : Scope) (name : String) : Except Error Value :=
  match s.bindings.lookup name with
  | some v => .ok v
  | none =>
    match Library.names.lookup name with
    | some v => .ok v
    | none => .error (.binding (.unbound name))

/-- Calls a function; other values cannot be called. -/
def call (s : Scope) (f : Value) (args : List Value) : Run Value :=
  match f with
  | .function (.builtin f) => Library.call f args
  | .function (.supplied name) => s.supplied name args
  | _ => Run.fail .wrongKind

end Scope

/-- An expression whose names are resolved. -/
inductive Code where
  | index (name : String)
  | value (v : Value)
  | get (base : Code) (keys : List Code)
  | field (base : Code) (name : String)
  | first (source : Code)
  | call (f : Value) (args : List Code)
  | binary (op : BinaryOp) (left right : Code)
  | unary (op : UnaryOp) (operand : Code)

namespace Expr

/-- The kind of a tree, in messages. -/
def kind : Expr → String
  | name .. => "Name"
  | number .. => "Number"
  | index .. => "Index"
  | field .. => "Attr"
  | call .. => "Call"
  | binary .. => "BinOp"
  | unary .. => "UnaryOp"
  | first .. => "First"
  | compare .. => "Compare"
  | keyword .. => "Keyword"
  | target .. => "Lhs"
  | hole => "NoneType"

/-- Resolves the names of an expression, from left to right. -/
def resolve (scope : Scope) (indices : List String) : Expr → Except Error Code
  | name id _ =>
    if indices.contains id then .ok (.index id)
    else do return .value (← scope.lookup id)
  | number v _ => .ok (.value (.ofLiteral v))
  | index base keys _ => do
    let base ← resolve scope indices base
    let keys ← resolveAll keys
    return .get base keys
  | field base n _ => do return .field (← resolve scope indices base) n
  | first e _ => do return .first (← resolve scope indices e)
  | call f args _ => do
    let value ← scope.lookup f
    if value.isCallable then return .call value (← resolveAll args)
    else throw (.binding (.notCallable f))
  | binary l op r _ =>
    match op with
    | .other _ => .error (.fault .missingKey)
    | op => do
      let l ← resolve scope indices l
      let r ← resolve scope indices r
      return .binary op l r
  | unary op e _ =>
    match op with
    | .other _ => .error (.fault .missingKey)
    | op => do return .unary op (← resolve scope indices e)
  | e => .error (.fault (.notEvaluable e.kind e.text))
where
  resolveAll : List Expr → Except Error (List Code)
    | [] => .ok []
    | e :: es => do
      let c ← resolve scope indices e
      let cs ← resolveAll es
      return c :: cs

end Expr

namespace Code

/-- The value of a resolved expression. -/
def run (scope : Scope) (env : Env) : Code → Run Value
  | index name =>
    match env.lookup name with
    | some n => pure (.int n)
    | none => Run.fail .missingKey
  | value v => pure v
  | get base keys => do
    let v ← run scope env base
    match ← runAll keys with
    | [key] => v.item key
    | keys => v.get keys
  | field base name => do (← run scope env base).field name
  | first source => do (← run scope env source).first
  | call f args => do scope.call f (← runAll args)
  | binary op l r => do
    let a ← run scope env l
    let b ← run scope env r
    Value.binary op a b
  | unary op e => do Value.unary op (← run scope env e)
where
  runAll : List Code → Run (List Value)
    | [] => pure []
    | c :: cs => do
      let v ← run scope env c
      let vs ← runAll cs
      return v :: vs

end Code

/-- The value of an expression. -/
def Expr.eval (scope : Scope) (indices : List String) (env : Env) (e : Expr) : Run Value := do
  let c ← e.resolve scope indices
  c.run scope env

/-- The range of an axis. The values it depends on are those that are bound; it has no index. -/
def Axis.resolve (scope : Scope) (indices : List String) : Axis → Run Range
  | .array source dim => do (← source.eval scope indices []).axisRange dim
  | .between lower upper => do
    let lower ← match lower with
      | none => pure 0
      | some e => do (← e.eval scope indices []).toInt
    let upper ← (← upper.eval scope indices []).toInt
    return ⟨lower, upper + 1, 1⟩

end IndexNotation
