import IndexNotation.Axis.Catalog
import IndexNotation.Error
import IndexNotation.Syntax.Canonical

/-!
# Reading reduction clauses

A clause `(op, j, unroll(4), k <= 9, init=1)` names the operator, the order of the reduction loops,
which of them are unrolled and how far, the bounds of some indices, and the start value.
-/

namespace IndexNotation

structure Reduction where
  op : String := "+"
  /-- The start value, if one is written down. -/
  init : Option Expr := none
  /-- The indices of plain loops, outermost first. -/
  loops : List String := []
  /-- The indices of unrolled loops, outermost first, each with its width; zero stands for the
  whole range. -/
  unrolled : List (String × Nat) := []
  /-- Whether indices are listed. -/
  explicit : Bool := false

namespace Reduction

/-- All indices, outermost loop first. -/
def order (r : Reduction) : List String :=
  r.loops ++ r.unrolled.map (·.1)

/-- Operators that depend on the order of their operands. -/
def rejected : List String := ["-", "/", "//", "%"]

/-- What has been read of a clause. -/
structure Partial where
  reduction : Reduction := {}
  /-- The bounds, in the order in which they are written. -/
  bounds : List (String × Axis) := []
  /-- The width of the last token that turns unrolling on. -/
  unrolling : Option Nat := none

/-- A place in a clause, for messages: the whole text, and the text of the clause. -/
structure Site where
  source : String
  clause : String

def Site.error (s : Site) (pos : Option Pos) (cause : ParseCause) : Error :=
  .parse cause (.ofPos s.source pos)

/-- What is read so far, with the reason why reading stopped if it did. -/
abbrev Outcome := Partial × Option Error

/-- Lists one more index. -/
def Partial.push (site : Site) (p : Partial) (index : String) (pos : Option Pos) : Outcome :=
  let r := p.reduction
  if r.order.contains index then
    (p, some (site.error pos (.listedTwice index site.clause)))
  else
    match p.unrolling with
    | some width => ({ p with reduction := { r with unrolled := r.unrolled ++ [(index, width)] } }, none)
    | none => ({ p with reduction := { r with loops := r.loops ++ [index] } }, none)

/-- An integer literal. -/
def intLiteral? : Expr → Option Int
  | .number (.int n) _ => some n
  | _ => none

/-- The width in `unroll(width)`: one positive integer literal. -/
def unrollWidth? : List Expr → Option Nat
  | [e] =>
    match intLiteral? e with
    | some n => if 1 ≤ n then some n.toNat else none
    | none => none
  | _ => none

/-- The index and the axis of a chain `j <= M` or `N <= j <= M`. -/
def bound? : List Expr → Option (String × Axis)
  | [.name id _, upper] => some (canonicalIndex id, .between none upper)
  | [lower, .name id _, upper] => some (canonicalIndex id, .between (some lower) upper)
  | _ => none

/-- Reads one item of a clause. -/
def Partial.item (site : Site) (p : Partial) : Expr → Outcome
  | .name id pos =>
    if id == "unroll" then ({ p with unrolling := some 0 }, none)
    else p.push site (canonicalIndex id) pos
  | e@(.call f args pos) =>
    if f == "unroll" then
      match unrollWidth? args with
      | some width => ({ p with unrolling := some width }, none)
      | none => (p, some (site.error pos (.unrollWidth e.text)))
    else (p, some (site.error pos (.strayItem e.text site.clause)))
  | e@(.compare operands pos) =>
    match bound? operands with
    | some (index, axis) =>
      Partial.push site { p with bounds := p.bounds ++ [(index, axis)] } index pos
    | none => (p, some (site.error pos (.strayBound e.text site.clause)))
  | e@(.keyword name value pos) =>
    if name == "init" then ({ p with reduction := { p.reduction with init := some value } }, none)
    else (p, some (site.error pos (.strayItem e.text site.clause)))
  | e => (p, some (site.error e.pos? (.strayItem e.text site.clause)))

/-- Reads items up to the first one that makes no sense. -/
def Partial.items (site : Site) (p : Partial) : List Expr → Outcome
  | [] => (p, none)
  | e :: es =>
    match p.item site e with
    | (p, none) => p.items site es
    | stopped => stopped

/-- Reads a clause of the text `source`; without a clause nothing is listed and values are added
up. -/
def read (source : String) : Option ReductionClause → Outcome
  | none => ({}, none)
  | some clause =>
    let site : Site := ⟨source, clause.source⟩
    if rejected.contains clause.op then
      ({}, some (site.error clause.pos (.rejectedOperator clause.op clause.source)))
    else
      match Partial.items site { reduction := { op := clause.op } } clause.items with
      | (p, none) =>
        ({ p with reduction := { p.reduction with explicit := !p.reduction.order.isEmpty } }, none)
      | stopped => stopped

/-- What the log says about a clause that was read. -/
def note (r : Reduction) (clause : ReductionClause) : Log :=
  (if r.op == "min" && r.init.isNone then
    [⟨true, .directives, "min reduction starts from the element type\x27s minimum in " ++
      clause.source ++ "; pass init= to override"⟩]
  else []) ++
  [detail .directives ("reduction " ++ r.op ++ ": loop order " ++ Text.quotedList r.loops ++
    ", unrolled " ++ Text.quotedList (r.unrolled.map (·.1)))]

end Reduction
end IndexNotation
