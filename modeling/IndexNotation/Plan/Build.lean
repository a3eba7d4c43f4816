import IndexNotation.Plan.Basic
import IndexNotation.Reference
import IndexNotation.Schedule.Tiling

/-!
# Laying out the loops

From what a statement says and refers to, the plan of its loops. A plan exists exactly if the
listed reduction indices are those of the right-hand side, every index has a range, and the tiled
indices are loop indices that are not unrolled.
-/

namespace IndexNotation

/-- What is known of a statement before its loops are laid out. -/
structure Analysis where
  statement : Statement
  collection : Collection
  catalog : Catalog
  reduction : Reduction
  tiling : Option Tiling

namespace Analysis

def outputIndices (a : Analysis) : List String :=
  a.statement.outputIndices

/-- The indices of the right-hand side that the left-hand side does not have, in the order of
their first occurrence. -/
def impliedReduction (a : Analysis) : List String :=
  a.collection.indices.eraseDups.filter fun i => !a.outputIndices.contains i

def indexNames (a : Analysis) : List String :=
  (a.outputIndices ++ a.collection.indices).eraseDups

/-- Names in the order of their characters. -/
def sortNames (names : List String) : List String :=
  names.mergeSort fun a b => decide (a ≤ b)

/-- The reduction with its loops settled: those that are listed, or else those that the right-hand
side implies. -/
def settleReduction (a : Analysis) : Except Error Reduction :=
  let implied := a.impliedReduction
  let given := a.reduction.order
  if !a.reduction.explicit then .ok { a.reduction with loops := implied }
  else if given.isPerm implied then .ok a.reduction
  else
    .error (.incomplete implied (sortNames (implied.filter (!given.contains ·)))
      (sortNames (given.filter (!implied.contains ·))) a.statement.source)

end Analysis

/-- What is known of an index. -/
structure IndexSymbol where
  name : String
  output : Bool
  axis : Axis
  unroll : Option Nat
  tiled : Bool

/-- The bounds of an index, if they are written down. -/
def IndexSymbol.bound (s : IndexSymbol) : Option Axis :=
  if s.axis.isExplicit then some s.axis else none

namespace Analysis

/-- The symbol of an index. -/
def symbol (a : Analysis) (r : Reduction) (index : String) : Except Error IndexSymbol :=
  match a.catalog.get? index with
  | none => .error (.shape (.unknownRange index a.statement.source))
  | some axis =>
    .ok {
      name := index
      output := a.outputIndices.contains index
      axis := axis
      unroll := r.unrolled.lookup index
      tiled := a.tiling.any (·.indices.contains index) }

/-- The symbols of all loops: those of the output, then those of the reduction. -/
def symbols (a : Analysis) (r : Reduction) : Except Error (List IndexSymbol) :=
  (a.outputIndices ++ r.order).mapM (a.symbol r)

/-- Tiled indices have to be loop indices, and not unrolled. -/
def checkTiling (a : Analysis) (r : Reduction) (symbols : List IndexSymbol) : Except Error PUnit :=
  match a.tiling with
  | none => .ok ⟨⟩
  | some t =>
    let unrolled := t.indices.filter ((r.unrolled.map (·.1)).contains ·)
    let unknown := t.indices.filter (!(symbols.map (·.name)).contains ·)
    if !unrolled.isEmpty then .error (.ambiguous unrolled a.statement.source)
    else if !unknown.isEmpty then .error (.shape (.unknownTile unknown a.statement.source))
    else .ok ⟨⟩

/-- The loops over the output; the leftmost index is innermost. The outermost loop is divided among
workers if `parallel`. -/
def outputLoops (parallel : Bool) (symbols : List IndexSymbol) : List OutputLoop :=
  match (symbols.filter (·.output)).reverse with
  | [] => []
  | outermost :: rest =>
    ⟨outermost.name, outermost.axis, parallel⟩ :: rest.map fun s => ⟨s.name, s.axis, false⟩

/-- What is done for every cell. The reduction resumes if the tiled group has one of its indices. -/
def body (a : Analysis) (r : Reduction) (symbols : List IndexSymbol) : Body :=
  match symbols.filter (!·.output) with
  | [] => .store
  | inner =>
    .reduce r.op (a.tiling.any (·.indices.any (r.order.contains ·)))
      (inner.map fun s => ⟨s.name, s.axis, s.unroll⟩)

/-- The loops for a statement whose symbols are known. -/
def layout (a : Analysis) (r : Reduction) (parallel : Bool) (symbols : List IndexSymbol) : Plan :=
  { tiles := a.tiling.map fun t => ⟨t.indices, t.width⟩
    outputs := outputLoops parallel symbols
    body := a.body r symbols }

/-- The settled reduction, the symbols and the plan of a statement. -/
def plan (a : Analysis) (parallel : Bool) : Except Error (Reduction × List IndexSymbol × Plan) := do
  let r ← a.settleReduction
  let symbols ← a.symbols r
  a.checkTiling r symbols
  return (r, symbols, a.layout r parallel symbols)

end Analysis
end IndexNotation
