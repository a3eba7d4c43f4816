import IndexNotation.Config
import IndexNotation.Plan.Build
import IndexNotation.Syntax.Parser

/-!
# Kernels

A kernel is a statement together with the plan of its loops. Compiling takes the text of a statement
through reading, analysis and planning; the log tells how far it came.
-/

namespace IndexNotation

/-- A computation that keeps a log, also if it fails. -/
abbrev Logged := ExceptT Error (StateM Log)

/-- Adds to the log. -/
def Logged.note (entries : Log) : Logged PUnit :=
  modify (· ++ entries)

structure Kernel where
  /-- The text as it was given. -/
  source : String
  config : Config
  analysis : Analysis
  symbols : List IndexSymbol
  plan : Plan

namespace Kernel

/-- The statement that a text spells, with canonical names. -/
def readStatement (source : String) : Except Error Statement := do
  return (← Statement.parse source).canonical

/-- The entries of the left-hand side have to be names, or integers; a new array takes no integer
but zero. -/
def checkEntry (s : Statement) : Expr → Except Error PUnit
  | .name .. => .ok ⟨⟩
  | e@(.number (.int n) pos) =>
    if s.allocates && n != 0 then
      .error (.parse (.fixedPosition e.text s.target.text) (.ofPos s.source pos))
    else .ok ⟨⟩
  | e => .error (.parse (.notAnIndex s.target.text e.text) (.ofPos s.source e.pos?))

def checkTarget (s : Statement) : Except Error PUnit :=
  s.target.indices.forM (checkEntry s)

/-- The loops of a kernel in words. -/
def explain (k : Kernel) : String :=
  k.plan.text k.analysis.statement.target.text k.analysis.statement.rhs.text

def label (k : Kernel) : String :=
  "Kernel(" ++ Text.quoted k.source ++ ")"

def statement (k : Kernel) : Statement :=
  k.analysis.statement

def output (k : Kernel) : Option String :=
  k.statement.target.name

def outputIndices (k : Kernel) : List String :=
  k.analysis.outputIndices

/-- The reduction, if there is anything to reduce. -/
def reduction (k : Kernel) : Option Reduction :=
  match k.plan.body with
  | .store => none
  | .reduce .. => some k.analysis.reduction

def reductionIndices (k : Kernel) : List String :=
  (k.reduction.map Reduction.order).getD []

open Logged (note)

/-- Reads the reduction clause; the bounds in it are bound before anything else. -/
def readReduction (s : Statement) : Logged (Reduction × Catalog) := do
  let (read, stopped) := Reduction.read s.source s.reduction
  note (Catalog.empty.notes read.bounds)
  match stopped with
  | some e => throw e
  | none =>
    if let some clause := s.reduction then note (read.reduction.note clause)
    return (read.reduction, Catalog.empty.bindAll read.bounds)

def readTiling (s : Statement) : Logged (Option Tiling) := do
  match s.tiling with
  | none => return none
  | some clause =>
    let t ← Tiling.read s.source clause
    note [t.note]
    return some t

/-- Finds the references of the right-hand side, and the axes that they and the array that is
written to give to the indices. -/
def collect (s : Statement) (catalog : Catalog) : Logged (Collection × Catalog) := do
  let collection := Collection.ofExpr s.rhs
  note (catalog.notes collection.axes)
  note [collection.note]
  let catalog := catalog.bindAll collection.axes
  if s.allocates then return (collection, catalog)
  else
    note (catalog.notes s.target.axes)
    return (collection, catalog.bindAll s.target.axes)

/-- Compiles a statement that was read from the text `source`. -/
def compileStatement (config : Config) (source : String) (s : Statement) : Logged Kernel := do
  checkTarget s
  let (reduction, catalog) ← readReduction s
  let tiling ← readTiling s
  let (collection, catalog) ← collect s catalog
  let analysis : Analysis := ⟨s, collection, catalog, reduction, tiling⟩
  let (reduction, symbols, plan) ← analysis.plan config.parallel
  let kernel : Kernel := ⟨source, config, { analysis with reduction }, symbols, plan⟩
  note [detail .plan ("loop plan for " ++ s.source ++ ":\n" ++ kernel.explain)]
  return kernel

/-- Compiles the text of a statement. -/
def compile (config : Config) (source : String) : Logged Kernel := do
  compileStatement config source (← readStatement source)

end Kernel
end IndexNotation
