import IndexNotation.Axis.Basic
import IndexNotation.Log

/-!
# The axis catalog

The first axis that is derived for an index is its range. Every later one that is derived in a
different way is kept as a check, to be made when the arrays are there.
-/

namespace IndexNotation

/-- Two axes of one index that have to agree. -/
structure AxisCheck where
  index : String
  expected : Axis
  actual : Axis

def AxisCheck.same (a b : AxisCheck) : Bool :=
  a.index == b.index && a.expected.same b.expected && a.actual.same b.actual

structure Catalog where
  /-- The axis of every index, in the order in which they were bound. -/
  axes : List (String × Axis) := []
  checks : List AxisCheck := []

namespace Catalog

def empty : Catalog := {}

def get? (c : Catalog) (index : String) : Option Axis :=
  c.axes.lookup index

/-- Derives an axis for an index. -/
def bind (c : Catalog) (index : String) (axis : Axis) : Catalog :=
  match c.get? index with
  | none => { c with axes := c.axes ++ [(index, axis)] }
  | some known =>
    if known.same axis then c
    else
      let check : AxisCheck := ⟨index, known, axis⟩
      if c.checks.any (·.same check) then c else { c with checks := c.checks ++ [check] }

def bindAll (c : Catalog) (axes : List (String × Axis)) : Catalog :=
  axes.foldl (fun c a => c.bind a.1 a.2) c

/-- What the log says about deriving an axis. -/
def note (c : Catalog) (index : String) (axis : Axis) : Log :=
  match c.get? index with
  | none => [detail .axes ("bound index " ++ index ++ " to " ++ axis.text)]
  | some known =>
    if known.same axis || c.checks.any (·.same ⟨index, known, axis⟩) then []
    else
      [detail .axes ("index " ++ index ++ " derived again from " ++ axis.text ++
        "; deferring agreement check against " ++ known.text)]

/-- What the log says about deriving several axes in turn. -/
def notes : Catalog → List (String × Axis) → Log
  | _, [] => []
  | c, (index, axis) :: rest => c.note index axis ++ (c.bind index axis).notes rest

end Catalog
end IndexNotation
