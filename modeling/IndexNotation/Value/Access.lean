import IndexNotation.Number.Reader
import IndexNotation.Value.Arithmetic

/-!
# Access to the parts of values

Positions, fields, first elements and lengths. A position that is negative counts from the end. An
array that is given fewer positions than it has dimensions yields a view of the rest.
-/

namespace IndexNotation

/-- A position in a sequence of length `n`, counted from the end if it is negative. -/
def resolvePosition (n : Nat) (k : Int) : Option Nat :=
  if 0 ≤ k then (if k < n then some k.toNat else none)
  else if 0 ≤ k + n then some (k + n).toNat else none

namespace Value

/-- The integer that a value is, where a position is asked for. -/
def position? (h : Heap) : Value → Option Int
  | int n => some n
  | bool b => some (if b then 1 else 0)
  | scalar (.int _ n) => some n
  | array a =>
    match a.shape, a.cells h with
    | [], [scalar (.int _ n)] => some n
    | _, _ => Option.none
  | _ => Option.none

/-! ## Positions in arrays -/

/-- What one key does to the dimensions of an array. -/
inductive Subscript where
  /-- A new dimension of length one. -/
  | new
  /-- Picks cells: for every element of an array of keys, how far to go from the start. `single`
  says that the key is one integer. -/
  | pick (single : Bool) (shape : List Nat) (steps : List Int)

/-- A number of positions along a dimension, each as a step. -/
def stepsAlong (length : Nat) (stride : Int) (keys : List Int) : Except Fault (List Int) :=
  keys.mapM fun k =>
    match resolvePosition length k with
    | some p => .ok (p * stride)
    | Option.none => .error .outOfBounds

/-- The steps to the true cells of a mask over some dimensions. -/
def stepsOfMask (shape : List Nat) (strides : List Int) (mask : List Bool) : List Int :=
  let all := places shape (rowMajor shape) 0
  let steps := maskSteps shape strides 0
  ((all.zip mask).zip steps).filterMap fun p => if p.1.2 then some p.2 else Option.none
where
  maskSteps : List Nat → List Int → Int → List Int
    | [], _, start => [start]
    | n :: ns, strides, start =>
      (List.range n).flatMap fun (k : Nat) =>
        maskSteps ns strides.tail (start + (k : Int) * strides.headD 0)

/-- The integers in the cells of an array of keys, if they are integers. -/
def keyInts (d : Dense) : Option (List Int) :=
  match d.type with
  | .int _ => some (d.cells.map fun v => match v with | scalar (.int _ n) => n | _ => 0)
  | .float _ => if d.cells.isEmpty then some [] else Option.none
  | _ => Option.none

/-- One key in front of the dimensions that are left, and the dimensions it leaves. -/
def subscript (h : Heap) (shape : List Nat) (strides : List Int) (key : Value) :
    Except Fault (Subscript × List Nat × List Int) :=
  let mask (d : Dense) : Except Fault (Subscript × List Nat × List Int) :=
    let k := d.shape.length
    if shape.take k == d.shape then
      let steps := stepsOfMask d.shape (strides.take k)
        (d.cells.map fun v => (CellOp.scalarOf v).truth)
      .ok (.pick false [steps.length] steps, shape.drop k, strides.drop k)
    else .error .outOfBounds
  let positions (single : Bool) (keyShape : List Nat) (keys : List Int) :
      Except Fault (Subscript × List Nat × List Int) :=
    match shape, strides with
    | n :: shape, s :: strides => do
      return (.pick single keyShape (← stepsAlong n s keys), shape, strides)
    | _, _ => .error .outOfBounds
  match key with
  | none => .ok (.new, shape, strides)
  | bool b | scalar (.bool b) =>
    .ok (.pick false [if b then 1 else 0] (if b then [0] else []), shape, strides)
  | int n | scalar (.int _ n) => positions true [] [n]
  | list _ | tuple _ | array _ => do
    let d ← Dense.ofValue h key
    if d.type == .bool then mask d
    else
      match keyInts d with
      | some keys => positions (d.shape.isEmpty) d.shape keys
      | Option.none => .error .outOfBounds
  | _ => .error .outOfBounds

/-- All keys, and the dimensions that none of them takes. -/
def subscripts (h : Heap) : (shape : List Nat) → (strides : List Int) → List Value →
    Except Fault (List Subscript × List Nat × List Int)
  | shape, strides, [] => .ok ([], shape, strides)
  | shape, strides, key :: keys => do
    let (s, shape, strides) ← subscript h shape strides key
    let (ss, shape, strides) ← subscripts h shape strides keys
    return (s :: ss, shape, strides)

/-- The cells that keys select: the start, new dimensions and the picks. -/
structure Selection where
  shape : List Nat
  strides : List Int
  /-- How far the selected parts are from the start of the array, in the order of `pickShape`. -/
  steps : List Int
  /-- The dimensions that arrays of keys add, if there are any. -/
  pickShape : Option (List Nat)
  /-- How many new dimensions come in front of them. -/
  before : Nat

/-- Whether picks stand side by side. -/
def contiguous (ss : List Subscript) : Bool :=
  let rest := ss.dropWhile isNew
  (rest.dropWhile (!isNew ·)).all isNew
where
  isNew : Subscript → Bool
    | .new => true
    | .pick .. => false

/-- Steps of two picks added up, with the shapes broadcast. -/
def addPicks (a b : List Nat × List Int) : Except Fault (List Nat × List Int) :=
  match Dense.broadcastShapes a.1 b.1 with
  | Option.none => .error .outOfBounds
  | some shape =>
    let spreadInts (p : List Nat × List Int) : List Int :=
      ((Dense.mk .object p.1 (p.2.map int)).spread shape).map fun v =>
        match v with
        | int n => n
        | _ => 0
    .ok (shape, (spreadInts a).zipWith (· + ·) (spreadInts b))

/-- Selects cells of an array. -/
def select (h : Heap) (v : View) (keys : List Value) : Except Fault Selection := do
  let (ss, shape, strides) ← subscripts h v.shape v.strides keys
  let picks := ss.filterMap fun s =>
    match s with
    | .new => Option.none
    | .pick _ shape steps => some (shape, steps)
  let isFancy := ss.any fun s => match s with | .pick false .. => true | _ => false
  let (pickShape, steps) ← picks.foldlM addPicks ([], [0])
  let news := (ss.filter contiguous.isNew).length
  let before := if contiguous ss then (ss.takeWhile contiguous.isNew).length else 0
  return {
    shape := List.replicate news 1 ++ shape
    strides := List.replicate news 0 ++ strides
    steps
    pickShape := if isFancy then some pickShape else Option.none
    before }

/-- The places of the selected cells, and their shape. -/
def Selection.layout (s : Selection) (v : View) : List Nat × List Nat :=
  match s.pickShape with
  | Option.none =>
    (s.shape, places s.shape s.strides (v.offset + s.steps.headD 0))
  | some pickShape =>
    let front := s.shape.take s.before
    let back := s.shape.drop s.before
    let strides := s.strides.drop s.before
    (front ++ pickShape ++ back,
      s.steps.flatMap fun step => places back strides (v.offset + step))

/-- The part of an array that keys select: a cell, a view, or a copy if keys are arrays. -/
def arrayItem (v : View) (keys : List Value) : Run Value := do
  let h ← Run.heap
  let s ← Run.ofFault (select h v keys)
  match s.pickShape with
  | some _ =>
    let (shape, cells) := s.layout v
    let b := h.block v.block
    return array (← Dense.allocate ⟨v.type, shape, cells.map fun p => b.getD p none⟩)
  | Option.none =>
    let offset := (v.offset + s.steps.headD 0).toNat
    match s.shape with
    | [] => return (h.block v.block).getD offset none
    | shape => return array ⟨v.block, v.type, offset, shape, s.strides⟩

/-! ## Items of sequences -/

def itemOf (h : Heap) (items : List Value) (key : Value) : Except Fault Value :=
  match position? h key with
  | Option.none => .error .wrongKind
  | some k =>
    match resolvePosition items.length k with
    | some p => .ok (items.getD p none)
    | Option.none => .error .outOfBounds

/-- The item of a value at one key. -/
def item (v key : Value) : Run Value := do
  let h ← Run.heap
  match v with
  | array a =>
    match key with
    | tuple keys => arrayItem a keys
    | key => arrayItem a [key]
  | list b => Run.ofFault (itemOf h (h.block b).toList key)
  | tuple items => Run.ofFault (itemOf h items key)
  | text s | scalar (.text s) =>
    Run.ofFault (itemOf h (s.toList.map fun c => text (String.singleton c)) key)
  | scalar _ => Run.fail .outOfBounds
  | _ => Run.fail .wrongKind

/-- Items of items. -/
def items (v : Value) (keys : List Value) : Run Value :=
  keys.foldlM item v

/-- The part of a value at several keys. An array takes them together, other values one after
another. -/
def get (v : Value) (keys : List Value) : Run Value :=
  match v with
  | array a => arrayItem a keys
  | v => items v keys

/-! ## Fields -/

def ofShape (shape : List Nat) : Value :=
  tuple (shape.map fun (n : Nat) => int n)

/-- The real or the imaginary part of a scalar. -/
def partOf (imaginary : Bool) : Scalar → Scalar
  | .complex t z => .float t (if imaginary then z.im else z.re)
  | .bool b => .bool (b && !imaginary)
  | .int t n => .int t (if imaginary then 0 else n)
  | .float t x => .float t (if imaginary then 0.0 else x)
  | .text s => .text s

/-- The fields of an array. -/
def arrayField (v : View) (name : String) : Run Value := do
  let h ← Run.heap
  let partType : ElemType := match v.type with | .complex t => .float t | t => t
  let part (imaginary : Bool) : Run Value := do
    let cells := (v.cells h).map fun c =>
      match c with
      | scalar s => scalar (partOf imaginary s)
      | c => c
    return array (← Dense.allocate ⟨partType, v.shape, cells⟩)
  match name with
  | "shape" => return ofShape v.shape
  | "size" => return int (cellCount v.shape)
  | "ndim" => return int v.shape.length
  | "T" => return array { v with shape := v.shape.reverse, strides := v.strides.reverse }
  | "dtype" => return elemType v.type
  | "flat" => return array (← Dense.allocate ⟨v.type, [cellCount v.shape], v.cells h⟩)
  | "real" => match v.type with | .complex _ => part false | _ => return array v
  | "imag" => part true
  | _ => Run.fail .noSuchField

def scalarField (s : Scalar) (name : String) : Run Value :=
  match name with
  | "shape" => pure (tuple [])
  | "size" => pure (int 1)
  | "ndim" => pure (int 0)
  | "T" => pure (scalar s)
  | "dtype" => pure (elemType s.type)
  | "flat" => do return array (← Dense.allocate ⟨s.type, [1], [scalar s]⟩)
  | "real" => pure (scalar (partOf false s))
  | "imag" => pure (scalar (partOf true s))
  | _ => Run.fail .noSuchField

def numberField (p : Plain) (name : String) : Run Value :=
  match p, name with
  | .complex z, "real" => pure (float z.re)
  | .complex z, "imag" => pure (float z.im)
  | p, "real" => pure (ofPlain p)
  | .int _, "imag" => pure (int 0)
  | .float _, "imag" => pure (float 0.0)
  | .int n, "numerator" => pure (int n)
  | .int _, "denominator" => pure (int 1)
  | _, _ => Run.fail .noSuchField

def field (v : Value) (name : String) : Run Value :=
  match v with
  | record fields =>
    match fields.lookup name with
    | some x => pure x
    | Option.none => Run.fail .noSuchField
  | array a => arrayField a name
  | scalar s => scalarField s name
  | v =>
    match v.plain? with
    | some p => numberField p name
    | Option.none => Run.fail .noSuchField

/-- A field of a value that may lack it; a field that holds nothing counts as lacking. -/
def field? (v : Value) (name : String) : Run (Option Value) := do
  let r ← tryCatch (some <$> v.field name) fun e =>
    match e with
    | .fault .noSuchField => pure Option.none
    | e => throw e
  match r with
  | some none => return Option.none
  | r => return r

/-! ## First elements and lengths -/

/-- The items of a sequence. -/
def sequence? (h : Heap) : Value → Option (List Value)
  | list b => some (h.block b).toList
  | tuple items => some items
  | text s | scalar (.text s) => some (s.toList.map fun c => text (String.singleton c))
  | _ => Option.none

/-- The first element of an array in row-major order, or of any sequence. -/
def first (v : Value) : Run Value := do
  let empty : Error := .shape .emptyFirst
  match ← v.field? "flat" with
  | some flat =>
    tryCatch (flat.item (int 0)) fun e =>
      match e with
      | .fault .outOfBounds => throw empty
      | e => throw e
  | Option.none =>
    match v.sequence? (← Run.heap) with
    | Option.none => Run.fail .wrongKind
    | some [] => throw empty
    | some (x :: _) => return x

/-- The length of a sequence or of the first dimension of an array. -/
def length? (h : Heap) : Value → Option Nat
  | array a => a.shape.head?
  | v => (v.sequence? h).map List.length

/-! ## Integers -/

/-- A value cut to an integer. -/
def toInt (v : Value) : Run Int := do
  let h ← Run.heap
  let ofText (s : String) : Run Int :=
    match Number.readInt? s with
    | some n => pure n
    | Option.none => Run.fail .badValue
  let ofScalar : Scalar → Run Int
    | .text s => ofText s
    | .complex _ z => Run.ofFault (Plain.toInt (.float z.re))
    | s =>
      match s.plain? with
      | some p => Run.ofFault p.toInt
      | Option.none => Run.fail .wrongKind
  match v with
  | text s => ofText s
  | scalar s => ofScalar s
  | array a =>
    match a.shape, a.cells h with
    | [], [scalar s] => ofScalar s
    | _, _ => Run.fail .wrongKind
  | v =>
    match v.plain? with
    | some p => Run.ofFault p.toInt
    | Option.none => Run.fail .wrongKind

/-! ## Values in words -/

/-- A value as it is written in messages, `depth` levels deep. -/
def describe (h : Heap) : (depth : Nat) → Value → String
  | 0, _ => "..."
  | depth + 1, v =>
    match v with
    | none => "None"
    | bool b => if b then "True" else "False"
    | int n => toString n
    | float x => Number.floatText x
    | complex z => Literal.complexText z.re z.im
    | text s => Text.quoted s
    | list b => "[" ++ ", ".intercalate ((h.block b).toList.map (describe h depth)) ++ "]"
    | tuple items => Text.tupleText (items.map (describe h depth))
    | scalar (.bool b) => if b then "np.True_" else "np.False_"
    | scalar (.text s) => "np.str_(" ++ Text.quoted s ++ ")"
    | scalar s => "np." ++ s.type.name ++ "(" ++ s.toText ++ ")"
    | v => v.typeName

/-- The valid positions of dimension `dim` of a value. A value that has a shape is measured by it,
any other by the lengths of its first elements. -/
def axisRange (v : Value) (dim : Nat) : Run Range := do
  match ← v.field? "shape" with
  | some shape =>
    let h ← Run.heap
    match shape.length? h with
    | Option.none => Run.fail .wrongKind
    | some n =>
      if n ≤ dim then
        let parts := ((shape.sequence? h).getD []).map (describe h 20)
        throw (.shape (.noDimension (Text.tupleText parts) dim))
      else
        return .upTo (← (← shape.item (int dim)).toInt)
  | Option.none =>
    let inner ← (List.range dim).foldlM (fun v _ => first v) v
    match inner.length? (← Run.heap) with
    | some n => return .upTo n
    | Option.none => throw (.shape (.noLength inner.typeName dim))

end Value
end IndexNotation
