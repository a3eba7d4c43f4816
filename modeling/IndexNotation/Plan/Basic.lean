import IndexNotation.Axis.Basic
import IndexNotation.Syntax.Statement

/-!
# Loop plans

The loops of a statement, from the outside in: blocks of the tiled group, the loops over output
cells, and, where there is something to reduce, the loops over the values of a cell.
-/

namespace IndexNotation

/-- A loop over positions of the output. -/
structure OutputLoop where
  index : String
  axis : Axis
  /-- Whether the range is divided among workers. -/
  parallel : Bool

/-- A loop over the values that are reduced to one. -/
structure InnerLoop where
  index : String
  axis : Axis
  /-- How many steps are unrolled, zero for all of them; `none` for a plain loop. -/
  unroll : Option Nat

/-- What is done for every output cell. -/
inductive Body where
  /-- The cell takes the value of the right-hand side. -/
  | store
  /-- The cell takes the values of the right-hand side, reduced with `op` in the order of `loops`.
  With `resume`, blocks of a tiled group add to what earlier blocks have reduced. -/
  | reduce (op : String) (resume : Bool) (loops : List InnerLoop)

/-- The group of indices that is cut into blocks. -/
structure TileGroup where
  indices : List String
  width : Int

structure Plan where
  tiles : Option TileGroup
  /-- The loops over the output, outermost first. -/
  outputs : List OutputLoop
  body : Body

/-- A loop or a leaf of a plan. -/
inductive PlanNode where
  | tiles (group : TileGroup)
  | range (index : String) (axis : Axis) (parallel : Bool)
  | unrolled (index : String) (axis : Axis) (width : Nat)
  | reduce (op : String) (resume : Bool)
  | accumulate
  | store

def InnerLoop.node (l : InnerLoop) : PlanNode :=
  match l.unroll with
  | some width => .unrolled l.index l.axis width
  | none => .range l.index l.axis false

def Body.nodes : Body → List PlanNode
  | store => [.store]
  | reduce op resume loops => .reduce op resume :: (loops.map InnerLoop.node ++ [.accumulate])

def Body.loops : Body → List InnerLoop
  | store => []
  | reduce _ _ loops => loops

def Body.resumes : Body → Bool
  | store => false
  | reduce _ resume _ => resume

def InnerLoop.text (l : InnerLoop) : String :=
  let mark := match l.unroll with
    | none => ""
    | some 0 => "@unroll "
    | some width => "@unroll(" ++ toString width ++ ") "
  mark ++ "for " ++ l.index ++ " in " ++ l.axis.text

def OutputLoop.text (l : OutputLoop) : String :=
  (if l.parallel then "parallel " else "") ++ "for " ++ l.index ++ " in " ++ l.axis.text

def TileGroup.text (g : TileGroup) : String :=
  "for tile in tiles(" ++ ", ".intercalate g.indices ++ "; width=" ++ toString g.width ++ ")"

namespace Plan

/-- The plan as a list of nodes, outermost first. -/
def nodes (p : Plan) : List PlanNode :=
  (p.tiles.map PlanNode.tiles).toList ++
    p.outputs.map (fun l => .range l.index l.axis l.parallel) ++ p.body.nodes

/-- The indices of all loops, outermost first. -/
def loopOrder (p : Plan) : List String :=
  p.outputs.map (·.index) ++ p.body.loops.map (·.index)

/-! ## Plans in words -/

/-- A line at a depth of nesting. -/
def indent (depth : Nat) (line : String) : String :=
  String.ofList (List.replicate (2 * depth) ' ') ++ line

/-- Lines that are nested into each other. -/
def nest : (depth : Nat) → List String → List String
  | _, [] => []
  | depth, line :: lines => indent depth line :: nest (depth + 1) lines

/-- The step that takes one more value into the accumulator. -/
def combineText (op element : String) : String :=
  if op == "+" || op == "*" then "acc = acc " ++ op ++ " " ++ element
  else "acc = " ++ op ++ "(acc, " ++ element ++ ")"

def bodyLines (depth : Nat) (target element : String) : Body → List String
  | .store => [indent depth (target ++ " = " ++ element)]
  | .reduce op resume loops =>
    [indent depth ("acc = " ++ if resume then target else "init(" ++ op ++ ")")] ++
      nest depth (loops.map InnerLoop.text ++ [combineText op element]) ++
      [indent depth (target ++ " = acc")]

/-- The plan as nested loops, for the target and the right-hand side in words. -/
def text (p : Plan) (target element : String) : String :=
  let outer := (p.tiles.map TileGroup.text).toList ++ p.outputs.map OutputLoop.text
  "\n".intercalate (nest 0 outer ++ bodyLines outer.length target element p.body)

end Plan
end IndexNotation
