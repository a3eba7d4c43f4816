import IndexNotation.Exec.Loops
import IndexNotation.Exec.Reducer
import IndexNotation.Kernel.Basic

/-!
# Running kernels

A kernel is called with values for the names it mentions. First the ranges of all indices are found
and compared, then the right-hand side is resolved and the output is made or taken, and only then
do the loops run.
-/

namespace IndexNotation

/-! ## Ranges -/

namespace Catalog

section

/- How an axis gets its range. -/
variable (resolver : Axis → Run Range)

/-- Resolves axes in order, up to the first that fails. -/
def resolveAxes : List (String × Axis) → StateM World (Ranges × Option Error)
  | [] => return ([], none)
  | (index, axis) :: rest => do
    match ← (resolver axis).run with
    | .error e => return ([], some e)
    | .ok r =>
      let (ranges, failed) ← resolveAxes rest
      return ((index, r) :: ranges, failed)

/-- Compares the two axes of a check. -/
def runCheck (c : AxisCheck) : Run PUnit := do
  let expected ← resolver c.expected
  let actual ← resolver c.actual
  if !expected.same actual then throw (.axisMismatch c.index expected actual)

/-- Makes the deferred checks, in order. -/
def runChecks (checks : List AxisCheck) : Run PUnit :=
  checks.forM (runCheck resolver)

/-- The ranges that were found, and why not all were found or they do not agree. -/
def resolveBy (c : Catalog) : StateM World (Ranges × Option Error) := do
  let (ranges, failed) ← resolveAxes resolver c.axes
  match failed with
  | some e => return (ranges, some e)
  | none =>
    match ← (runChecks resolver c.checks).run with
    | .error e => return (ranges, some e)
    | .ok _ => return (ranges, none)

/-- The ranges of all indices, if all were found and agree. -/
def rangesBy (c : Catalog) : Run Ranges := do
  match ← c.resolveBy resolver with
  | (ranges, none) => return ranges
  | (_, some e) => throw e

end

/-- Resolves the axes in a scope. -/
def resolve (c : Catalog) (scope : Scope) (indices : List String) :
    StateM World (Ranges × Option Error) :=
  c.resolveBy (Axis.resolve scope indices)

/-- The ranges of all indices in a scope. -/
def ranges (c : Catalog) (scope : Scope) (indices : List String) : Run Ranges :=
  c.rangesBy (Axis.resolve scope indices)

end Catalog

namespace Kernel

/-! ## The output -/

/-- The first value of every index, at which the type of the elements is found out. -/
def sample (k : Kernel) (ranges : Ranges) : Except Error Env :=
  k.symbols.mapM fun s =>
    let r := ranges.get s.name
    if r.isEmpty then .error (.shape (.emptyRange s.name)) else .ok (s.name, r.element 0)

/-- The shape of a new array. -/
def newShape (k : Kernel) (ranges : Ranges) : List Nat :=
  k.statement.target.indices.map fun e =>
    match e with
    | .name id _ => (ranges.get id).length
    | _ => 1

/-- What the cells of a new array hold before they are written. Their contents are unspecified, and
this is one choice of them: a cell that no loop writes may hold anything. -/
def blank : ElemType → Value
  | .object => .none
  | .text _ => .scalar (.text "")
  | t => .scalar (Scalar.cast t (.bool false))

/-- Makes a new array of the type that the right-hand side has at the sample. -/
def newOutput (k : Kernel) (ranges : Ranges) (element : Env → Run Value) :
    Run (Value × ElemType) := do
  let env ← k.sample ranges
  let t := (← Dense.read (← element env)).type
  let shape := k.newShape ranges
  let v ← Dense.allocate ⟨t, shape, List.replicate (cellCount shape) (blank t)⟩
  return (.array v, t)

/-- The element type of a value that is written to. -/
def elemTypeOf (v : Value) : Run ElemType := do
  match v with
  | .array a => return a.type
  | .scalar s => return s.type
  | v => return (← Dense.read v).type

/-- The output and the type of its elements. -/
def makeOutput (k : Kernel) (scope : Scope) (ranges : Ranges) (element : Env → Run Value) :
    Run (Value × ElemType) := do
  if k.statement.allocates then k.newOutput ranges element
  else
    let name := k.statement.target.name.getD ""
    match scope.bindings.lookup name with
    | none => throw (.binding (.missingOutput name))
    | some out => return (out, ← elemTypeOf out)

/-- The place of a cell: the values of the names, and the integers as they are. -/
def key (env : Env) : Expr → Value
  | .name id _ => .int ((env.lookup id).getD 0)
  | .number l _ => .ofLiteral l
  | _ => .none

def keys (k : Kernel) (env : Env) : List Value :=
  k.statement.target.indices.map (key env)

/-! ## The run -/

/-- The shape of a value, in messages. -/
def shapeText (v : Value) : Run String := do
  let shape ← match v with
    | .array a => pure a.shape
    | v => do pure (← Dense.read v).shape
  return Text.tupleText (shape.map toString)

/-- The reducer and the start value; without a reduction neither is used. -/
def reducer (k : Kernel) (scope : Scope) (t : ElemType) : Run (Reducer × Value) := do
  match k.reduction with
  | none => return (.sum, .none)
  | some r =>
    let f ← Reducer.ofName scope r.op
    let init ← r.initial t (Expr.eval scope k.analysis.indexNames [])
    return (f, init)

/-- What the loops of a kernel do at a point. -/
def machine (k : Kernel) (scope : Scope) (element : Env → Run Value) (out : Value)
    (r : Reducer) (init : Value) : Machine Run Value where
  element := element
  combine := r.apply scope
  store env v := out.set (k.keys env) v
  init := init

/-- Runs a kernel: the new array, or the array that was written to. -/
def run (k : Kernel) (scope : Scope) : Run Value := do
  let indices := k.analysis.indexNames
  let ranges ← k.analysis.catalog.ranges scope indices
  let code ← k.statement.rhs.resolve scope indices
  let element (env : Env) : Run Value := code.run scope env
  let (out, t) ← k.makeOutput scope ranges element
  let (r, init) ← k.reducer scope t
  let entry := detail .run ("running " ++ k.statement.source ++ ": output shape " ++
    (← shapeText out) ++ ", dtype " ++ t.label ++ ", mode " ++ k.config.mode)
  modify fun w => { w with log := w.log ++ [entry] }
  runPlan (k.machine scope element out r init) k.config.workerCount k.outputIndices k.plan ranges
  return out

/-- The name that a kernel goes by in its own calls, which nothing else can be bound to. -/
def ownName : String := "self"

/-- The names under which a statement and its settings are given; where values for names are given
along with them, nothing else can be bound to these. -/
def statementNames : List String := ["source", "config"]

/-- Whether values for names can be given along with a statement. -/
def checkBindings (scope : Scope) : Except Error Unit :=
  if scope.bindings.any fun b => statementNames.contains b.1 then throw (.fault .wrongKind)
  else pure ()

/-- Calls a kernel with values for names. -/
def call (k : Kernel) (scope : Scope) : Run Value :=
  if scope.bindings.any (·.1 == ownName) then Run.fail .wrongKind else k.run scope

end Kernel
end IndexNotation
