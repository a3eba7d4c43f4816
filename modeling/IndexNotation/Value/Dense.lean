import IndexNotation.Value.Basic

/-!
# Dense arrays

The cells of an array in row-major order, apart from where they are kept. Sequences become arrays
if they are regular, and arrays of different shapes are broadcast to one.
-/

namespace IndexNotation

structure Dense where
  type : ElemType
  shape : List Nat
  cells : List Value

namespace Dense

/-- The element type of a value that is no sequence. -/
def leafType : Value → ElemType
  | .bool _ => .bool
  | .int n => if IntType.fits .int64 n then .int .int64
      else if IntType.fits .uint64 n then .int .uint64 else .object
  | .float _ => .float .double
  | .complex _ => .complex .double
  | .text s => .text (max 1 s.length)
  | .scalar s => s.type
  | _ => .object

/-- A value that is no sequence as a scalar of its own type. -/
def leafScalar? : Value → Option Scalar
  | .bool b => some (.bool b)
  | .int n => if IntType.fits .int64 n then some (.int .int64 n)
      else if IntType.fits .uint64 n then some (.int .uint64 n) else none
  | .float x => some (.float .double x)
  | .complex z => some (.complex .double z)
  | .text s => some (.text s)
  | .scalar s => some s
  | _ => none

/-- A cell as a cell of another type. -/
def castCell (t : ElemType) (v : Value) : Value :=
  match t, leafScalar? v with
  | .object, _ => v
  | t, some s => .scalar (s.cast t)
  | _, none => v

/-- A sequence taken apart: its shape, the types that occur in it, and its items. -/
structure Nest where
  shape : List Nat
  types : List ElemType
  cells : List Value

/-- Parts of equal shape side by side; parts of different shape make no array. -/
def joinNests : List Nest → Except Fault Nest
  | [] => .ok ⟨[0], [], []⟩
  | n :: ns =>
    if ns.all (·.shape == n.shape) then
      .ok ⟨(ns.length + 1) :: n.shape, n.types ++ ns.flatMap (·.types),
        n.cells ++ ns.flatMap (·.cells)⟩
    else .error .badValue

/-- Takes a value apart, `depth` levels deep. -/
def nest (h : Heap) : (depth : Nat) → Value → Except Fault Nest
  | 0, _ => .error .badValue
  | depth + 1, v =>
    match v with
    | .list b => do joinNests (← (h.block b).toList.mapM (nest h depth))
    | .tuple items => do joinNests (← items.mapM (nest h depth))
    | .array a => .ok ⟨a.shape, [a.type], a.cells h⟩
    | v => .ok ⟨[], [leafType v], [v]⟩

/-- The most dimensions that an array has. -/
def maxRank : Nat := 64

/-- How deep sequences are taken apart: as deep as an array can be, and to what its cells hold. -/
def maxDepth : Nat := maxRank + 1

/-- The array of a sequence that was taken apart. Its type holds all types that occur in it. -/
def ofNest (n : Nest) : Except Fault Dense :=
  if maxRank < n.shape.length then .error .badValue
  else
    let t := match n.types with
      | [] => .float .double
      | t :: ts => ts.foldl ElemType.promote t
    .ok ⟨t, n.shape, n.cells.map (castCell t)⟩

/-- The array that a value is or stands for. -/
def ofValue (h : Heap) (v : Value) : Except Fault Dense := do
  ofNest (← nest h maxDepth v)

def read (v : Value) : Run Dense := do
  Run.ofFault (ofValue (← Run.heap) v)

/-- An array of its own with the given cells. -/
def allocate (d : Dense) : Run View := do
  return ⟨← Run.allocate d.cells.toArray, d.type, 0, d.shape, rowMajor d.shape⟩

/-- The array as a value; an array without dimensions is its only cell. -/
def toValue (d : Dense) : Run Value :=
  match d.shape, d.cells with
  | [], v :: _ => pure v
  | _, _ => do return .array (← d.allocate)

/-! ## Broadcasting -/

/-- The common shape, last dimensions first; a dimension of one fits any other. -/
def broadcastReversed : List Nat → List Nat → Option (List Nat)
  | [], t => some t
  | s, [] => some s
  | m :: s, n :: t =>
    if m == n || n == 1 then (broadcastReversed s t).map (m :: ·)
    else if m == 1 then (broadcastReversed s t).map (n :: ·)
    else none

def broadcastShapes (s t : List Nat) : Option (List Nat) :=
  (broadcastReversed s.reverse t.reverse).map List.reverse

/-- Strides that repeat the cells of an array of shape `s` along the dimensions it lacks in `t`;
both lists have their last dimensions first. -/
def repeatReversed : (strides : List Int) → (s t : List Nat) → List Int
  | _, _, [] => []
  | stride :: strides, m :: s, _ :: t => (if m == 1 then 0 else stride) :: repeatReversed strides s t
  | _, _, _ :: t => 0 :: repeatReversed [] [] t

/-- The cells of an array, repeated to fill shape `t`. -/
def spread (t : List Nat) (d : Dense) : List Value :=
  if d.shape == t then d.cells
  else
    let strides := (repeatReversed (rowMajor d.shape).reverse d.shape.reverse t.reverse).reverse
    let cells := d.cells.toArray
    (places t strides 0).map fun p => cells.getD p .none

end Dense
end IndexNotation
