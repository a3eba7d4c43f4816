import IndexNotation.Log
import IndexNotation.Schedule.Reduction

/-!
# Tiling

A tiling clause `{tile(128), i, j}` groups indices, whose ranges are cut into blocks of equal
width. The width is the greatest one for which a block of the group has no more points than the
size that the clause gives.
-/

namespace IndexNotation

/-! ## Widths -/

namespace Root

/-- The greatest `v ≤ w` with `v ^ group ≤ size`; zero if there is none above it. -/
def lower (size group : Nat) : Nat → Nat
  | 0 => 0
  | w + 1 => if size < Nat.pow (w + 1) group then lower size group w else w + 1

/-- Goes up from `w` while the next number still fits, `fuel` times at most. -/
def raise (size group : Nat) : (fuel : Nat) → Nat → Nat
  | 0, w => w
  | fuel + 1, w => if Nat.pow (w + 1) group ≤ size then raise size group fuel (w + 1) else w

/-- The integer root of `size`, found from any estimate of it. -/
def settle (size group estimate : Nat) : Nat :=
  max 1 (raise size group size (lower size group (max 1 estimate)))

/-- An estimate of the root, by floating point. -/
def estimate (size : Float) (group : Int) : Nat :=
  match Number.truncate (Number.roundEven (size.pow (1.0 / (Number.ofInt? group).getD 1.0))) with
  | .integer n => n.toNat
  | _ => 1

end Root

/-- The width of a block for a group of `group` indices. Sizes below one and beyond all doubles are
not promised an answer. -/
def tileWidth (size group : Int) : Except Fault Int :=
  if group ≤ 0 then .ok size
  else
    match Number.ofInt? size with
    | none => .error .overflow
    | some x =>
      if size < 0 then (if group == 1 then .ok 1 else .error .wrongKind)
      else .ok (Root.settle size.toNat group.toNat (Root.estimate x group))

/-! ## Clauses -/

structure Tiling where
  indices : List String
  size : Int
  /-- The width of a block along each index. -/
  width : Int
deriving Repr, DecidableEq

namespace Tiling

def defaultSize : Int := 512

/-- The size that the head of a clause gives. -/
def size? : Expr → Option Int
  | .name id _ => if id == "tile" then some defaultSize else none
  | .call f [e] _ => if f == "tile" then Reduction.intLiteral? e else none
  | _ => none

/-- Reads the indices of a group; `seen` are those read so far. -/
def group (site : Reduction.Site) (seen : List String) : List Expr → Except Error (List String)
  | [] => .ok seen
  | .name id pos :: es =>
    let index := canonicalIndex id
    if seen.contains index then .error (site.error pos (.tiledTwice index site.clause))
    else group site (seen ++ [index]) es
  | e :: _ => .error (site.error e.pos? (.strayTiling site.clause))

/-- Reads a clause of the text `source`. -/
def read (source : String) (clause : TilingClause) : Except Error Tiling :=
  let site : Reduction.Site := ⟨source, clause.source⟩
  match clause.items with
  | [] => .error (site.error clause.pos (.strayTiling clause.source))
  | head :: rest =>
    match size? head with
    | none => .error (site.error head.pos? (.strayTiling clause.source))
    | some size =>
      if size < 1 then .error (site.error head.pos? (.tileSize clause.source))
      else
        match group site [] rest with
        | .error e => .error e
        | .ok [] => .error (site.error clause.pos (.noTileIndices clause.source))
        | .ok indices =>
          match tileWidth size indices.length with
          | .error f => .error (.fault f)
          | .ok width => .ok ⟨indices, size, width⟩

def note (t : Tiling) : LogEntry :=
  detail .directives ("tile group " ++ Text.quotedList t.indices ++ ", size " ++ toString t.size ++
    ", width " ++ toString t.width)

end Tiling

/-! ## Blocks -/

/-- The consecutive pieces of a range, `width` elements each. -/
def blocksOf (r : Range) (width : Int) : Except Fault (List Range) :=
  if width == 0 then .error .badValue
  else .ok (if width < 0 then [] else r.pieces width.toNat)

/-- The ways to take one element from each list; the first list varies fastest. -/
def combinations {α : Type} : List (List α) → List (List α)
  | [] => [[]]
  | xs :: rest => (combinations rest).flatMap fun tail => xs.map (· :: tail)

/-- The blocks of a group of ranges; the first range varies fastest. -/
def tileBlocks (ranges : List Range) (widths : List Int) : Except Fault (List (List Range)) := do
  let pieces ← (ranges.zip widths).mapM fun p => blocksOf p.1 p.2
  return combinations pieces

end IndexNotation
