import IndexNotation.Value.Dense

/-!
# Arithmetic on values

Plain numbers are added as plain numbers. Where a scalar or an array takes part, the operation is
done cell by cell in the least type that holds both sides; a plain number then takes the type of
the other side, as far as its kind allows. Sequences can be joined and repeated.
-/

namespace IndexNotation

/-- One side of an operation on cells. -/
inductive Operand where
  /-- A plain number, which takes the type of the other side. -/
  | weak (p : Plain)
  | strong (d : Dense)

namespace Operand

def ofValue (h : Heap) (v : Value) : Except Fault Operand :=
  match v with
  | .int n => .ok (weak (.int n))
  | .float x => .ok (weak (.float x))
  | .complex z => .ok (weak (.complex z))
  | v => do return strong (← Dense.ofValue h v)

def read (v : Value) : Run Operand := do
  Run.ofFault (ofValue (← Run.heap) v)

/-- The type of an operation between a type and a plain number. An integer has to fit. -/
def weakType (t : ElemType) : Plain → Except Fault ElemType
  | .int n =>
    match t with
    | .bool => if IntType.fits .int64 n then .ok (.int .int64) else .error .overflow
    | .int t => if t.fits n then .ok (.int t) else .error .overflow
    | t => .ok t
  | .float _ =>
    match t with
    | .bool | .int _ => .ok (.float .double)
    | t => .ok t
  | .complex _ =>
    match t with
    | .bool | .int _ => .ok (.complex .double)
    | .float t => .ok (.complex (t.max .single))
    | t => .ok t

/-- The type of a plain number on its own. -/
def plainType (p : Plain) : ElemType :=
  Dense.leafType (.ofPlain p)

/-- The type of a side on its own. -/
def type : Operand → ElemType
  | weak p => plainType p
  | strong d => d.type

/-- Whether a text stands on one side and a number on the other. -/
def isMixed (a b : Operand) : Bool :=
  match a.type, b.type with
  | .text _, .text _ | .text _, .object | .object, .text _ => false
  | .text _, _ | _, .text _ => true
  | _, _ => false

/-- The type of an operation on two sides. -/
def commonType : Operand → Operand → Except Fault ElemType
  | strong a, strong b => .ok (a.type.promote b.type)
  | strong a, weak p => weakType a.type p
  | weak p, strong b => weakType b.type p
  | weak p, weak q => .ok ((plainType p).promote (plainType q))

/-- A side as cells of type `t`. -/
def dense (t : ElemType) : Operand → Except Fault Dense
  | strong d => .ok d
  | weak p =>
    let v := Value.ofPlain p
    match t, p with
    | .object, _ => .ok ⟨.object, [], [v]⟩
    | .int t, .int n => .ok ⟨.int t, [], [.scalar (.int t n)]⟩
    | t, p => do
      let z ← p.toComplex
      return ⟨t, [], [.scalar (Scalar.cast t (.complex .double z))]⟩

end Operand

/-- An operation on pairs of cells. -/
structure CellOp where
  /-- What it fails with on cells for which it has no rule. -/
  refusal : Fault
  /-- The type of the results, for cells of a type. -/
  type : ElemType → Except Fault ElemType
  /-- The result in a type that is not `object`. -/
  apply : ElemType → Scalar → Scalar → Except Fault Scalar

namespace CellOp

/-- The scalar in a cell; other values count as false. -/
def scalarOf : Value → Scalar
  | .scalar s => s
  | _ => .bool false

/-- Applies an operation cell by cell; `objects` is the operation on cells that hold any value. -/
def run (op : CellOp) (objects : Value → Value → Run Value) (a b : Operand) : Run Dense := do
  if a.isMixed b then Run.fail op.refusal
  let t ← Run.ofFault (a.commonType b)
  let a ← Run.ofFault (a.dense t)
  let b ← Run.ofFault (b.dense t)
  match Dense.broadcastShapes a.shape b.shape with
  | none => Run.fail .badValue
  | some shape =>
    let xs := a.spread shape
    let ys := b.spread shape
    if t == .object then
      return ⟨.object, shape, ← (xs.zip ys).mapM fun p => objects p.1 p.2⟩
    else
      let type ← Run.ofFault (op.type t)
      let cells ← (xs.zip ys).mapM fun p => do
        return Value.scalar (← Run.ofFault (op.apply t (scalarOf p.1) (scalarOf p.2)))
      return ⟨type, shape, cells⟩

/-- Sums, differences and products work in the type of both sides; the other operators look for a
type that they have. -/
def refusalOf : BinaryOp → Fault
  | .add | .sub | .mul => .noRule
  | _ => .wrongKind

/-- The type of the results of an operator. -/
def arithType (op : BinaryOp) : ElemType → Except Fault ElemType
  | .bool =>
    match op with
    | .add | .mul => .ok .bool
    | .sub => .error .wrongKind
    | .div => .ok (.float .double)
    | _ => .ok (.int .int8)
  | .int t => .ok (if op == .div then .float .double else .int t)
  | .float t => .ok (.float t)
  | .complex t => if op == .floorDiv || op == .mod then .error .wrongKind else .ok (.complex t)
  | .text w => if op == .add then .ok (.text w) else .error (refusalOf op)
  | .object => .ok .object

def arith (op : BinaryOp) : CellOp := ⟨refusalOf op, arithType op, Scalar.arith op⟩

end CellOp

namespace Value

/-- How deep arrays of arrays may be nested in an operation. -/
def maxNesting : Nat := 64

/-- The number of repetitions that a value asks for. -/
def repeatCount? : Value → Option Int
  | int n => some n
  | bool b => some (if b then 1 else 0)
  | scalar (.int _ n) => some n
  | _ => Option.none

/-- A list repeated `n` times, if the count and the length of the result are in range. -/
def repeated {α : Type} (n : Int) (xs : List α) : Except Fault (List α) :=
  if !IntType.fits .int64 n then .error .overflow
  else if n ≤ 0 || xs.isEmpty then .ok []
  else if !IntType.fits .int64 (n * xs.length) then .error .memoryExhausted
  else .ok (List.replicate n.toNat xs).flatten

/-- Whether a value is a scalar or an array. -/
def isTyped : Value → Bool
  | scalar _ | array _ => true
  | _ => false

/-- A text that stands in a cell is a text. -/
def untyped : Value → Value
  | scalar (.text s) => text s
  | v => v

/-- Joins two sequences of one kind, or repeats one; `none` if that is not what is asked for. -/
def sequenceOp (op : BinaryOp) (a b : Value) : Option (Run Value) :=
  match op, a, b with
  | .add, text s, text t => some (pure (text (s ++ t)))
  | .add, tuple xs, tuple ys => some (pure (tuple (xs ++ ys)))
  | .add, list p, list q => some do
    Run.newList ((← Run.readBlock p).toList ++ (← Run.readBlock q).toList)
  | .mul, s, n => (times s n).orElse fun _ => times n s
  | .mod, text s, v => if s.toList.contains '%' then Option.none else fill s v
  | _, _, _ => Option.none
where
  /-- A text with no gaps in it, into which nothing or a collection is filled. -/
  fill (s : String) : Value → Option (Run Value)
    | list _ | array _ | tuple [] => some (pure (text s))
    | _ => Option.none
  times (s n : Value) : Option (Run Value) :=
    match s, repeatCount? n with
    | text s, some n => some do return text (String.ofList (← Run.ofFault (repeated n s.toList)))
    | tuple xs, some n => some do return tuple (← Run.ofFault (repeated n xs))
    | list p, some n => some do
      Run.newList (← Run.ofFault (repeated n (← Run.readBlock p).toList))
    | text _, Option.none | tuple _, Option.none | list _, Option.none =>
      match n with
      | scalar _ => some (Run.fail .wrongKind)
      | _ => Option.none
    | _, _ => Option.none

/-- Applies an operator, `depth` levels of nested arrays deep. -/
def binaryAt : (depth : Nat) → BinaryOp → Value → Value → Run Value
  | 0, _, _, _ => Run.fail .wrongKind
  | depth + 1, op, a, b => do
    let a := a.untyped
    let b := b.untyped
    match a.plain?, b.plain? with
    | some p, some q => return ofPlain (← Run.ofFault (p.binary op q))
    | _, _ =>
      match sequenceOp op a b with
      | some r => r
      | Option.none =>
        if a.isTyped || b.isTyped then
          let d ← (CellOp.arith op).run (binaryAt depth op) (← Operand.read a) (← Operand.read b)
          d.toValue
        else Run.fail .wrongKind

/-- Applies an operator. -/
def binary (op : BinaryOp) (a b : Value) : Run Value :=
  binaryAt maxNesting op a b

/-- Applies a function to every cell of an array; `objects` is the function on cells that hold any
value. -/
def mapCells (type : ElemType → Except Fault ElemType) (f : Scalar → Except Fault Scalar)
    (objects : Value → Run Value) (d : Dense) : Run Dense := do
  if d.type == .object then
    return ⟨.object, d.shape, ← d.cells.mapM objects⟩
  else
    let t ← Run.ofFault (type d.type)
    let cells ← d.cells.mapM fun v => do return scalar (← Run.ofFault (f (CellOp.scalarOf v)))
    return ⟨t, d.shape, cells⟩

/-- Types that have signs. -/
def signedType (op : UnaryOp) : ElemType → Except Fault ElemType
  | .bool => .error (if op == .neg then .wrongKind else .noRule)
  | .text _ => .error .noRule
  | t => .ok t

def unaryAt : (depth : Nat) → UnaryOp → Value → Run Value
  | 0, _, _ => Run.fail .wrongKind
  | depth + 1, op, v =>
    match op, v.plain? with
    | .other _, _ => Run.fail .missingKey
    | .neg, some p => pure (ofPlain p.neg)
    | .pos, some p => pure (ofPlain p)
    | op, Option.none =>
      if v.isTyped then do
        let d ← mapCells (signedType op) (if op == .neg then Scalar.neg else Scalar.pos)
          (unaryAt depth op) (← Dense.read v)
        d.toValue
      else Run.fail .wrongKind

/-- Applies a sign. -/
def unary (op : UnaryOp) (v : Value) : Run Value :=
  unaryAt maxNesting op v

/-! ## Absolute values -/

def absType : ElemType → Except Fault ElemType
  | .complex t => .ok (.float t)
  | .text _ => .error .noRule
  | t => .ok t

def absScalar : Scalar → Except Fault Scalar
  | .bool b => .ok (.bool b)
  | .int t n => .ok (.ofInt t n.natAbs)
  | .float t x => .ok (.float t x.abs)
  | .complex t z => .ok (.ofFloat t z.abs)
  | .text _ => .error .noRule

def absAt : (depth : Nat) → Value → Run Value
  | 0, _ => Run.fail .wrongKind
  | depth + 1, v =>
    match v.plain? with
    | some p => do return ofPlain (← Run.ofFault p.abs)
    | Option.none =>
      if v.isTyped then do
        (← mapCells absType absScalar (absAt depth) (← Dense.read v)).toValue
      else Run.fail .wrongKind

/-- The absolute value of a number or of the cells of an array. -/
def abs (v : Value) : Run Value :=
  absAt maxNesting v

/-! ## Order -/

/-- Two scalars compared. Integers are compared exactly, whatever their types. -/
def lessScalars (t : ElemType) (a b : Scalar) : Bool :=
  match a, b with
  | .int _ m, .int _ n => m < n
  | a, b => Scalar.lessIn t a b

def equalScalars (t : ElemType) (a b : Scalar) : Bool :=
  match a, b with
  | .int _ m, .int _ n => m == n
  | a, b => Scalar.equalIn t a b

/-- The type in which two sides are compared. An integer need not fit. -/
def compareType (a b : Operand) : Except Fault ElemType :=
  match a, b with
  | .strong d, .weak (.int n) | .weak (.int n), .strong d =>
    match d.type with
    | .int t => .ok (if t.fits n then .int t else .object)
    | t => Operand.weakType t (.int n)
  | a, b => a.commonType b

mutual

/-- Whether two values are equal, `depth` levels deep. -/
def equalAt (h : Heap) : (depth : Nat) → Value → Value → Bool
  | 0, _, _ => false
  | depth + 1, a, b =>
    let a := a.untyped
    let b := b.untyped
    match a, b with
    | text s, text t => s == t
    | none, none => true
    | list p, list q => p == q || equalAll h depth (h.block p).toList (h.block q).toList
    | tuple xs, tuple ys => equalAll h depth xs ys
    | a, b =>
      match a.plain?, b.plain? with
      | some p, some q => p.equal q
      | _, _ =>
        match Dense.leafScalar? a, Dense.leafScalar? b with
        | some s, some t => equalScalars (s.type.promote t.type) s t
        | _, _ => false

def equalAll (h : Heap) : (depth : Nat) → List Value → List Value → Bool
  | 0, _, _ => false
  | _ + 1, [], [] => true
  | depth + 1, x :: xs, y :: ys => equalAt h depth x y && equalAll h depth xs ys
  | _ + 1, _, _ => false

end

/-- The first pair of items that differ, if there is one among the items both lists have. -/
def firstDifference (h : Heap) : List Value → List Value → Option (Value × Value)
  | x :: xs, y :: ys =>
    if equalAt h 1000 x y then firstDifference h xs ys else some (x, y)
  | _, _ => Option.none

/-- The truth of an array: that of its only cell. -/
def soleTruth (cells : List Bool) : Except Fault Bool :=
  match cells with
  | [b] => .ok b
  | _ => .error .badValue

/-- The order of scalars of a type, cell by cell. -/
def lessOp : CellOp :=
  ⟨.noRule, fun _ => .ok .bool, fun t a b => .ok (.bool (lessScalars t a b))⟩

/-- The number that a value is, whether it has a width or not. -/
def widthless : Value → Option Plain
  | scalar s => s.plain?
  | v => v.plain?

section

/- How values that are parts of others are compared. -/
variable (less : Value → Value → Run Bool)

/-- Sequences are ordered by the first items in which they differ. -/
def lessItems (h : Heap) (xs ys : List Value) : Run Bool :=
  match firstDifference h xs ys with
  | some (x, y) => less x y
  | Option.none => return decide (xs.length < ys.length)

/-- Cells of any kind; integers of a type are compared with plain ones exactly. -/
def lessObjects (a b : Value) : Run Bool :=
  match widthless a, widthless b with
  | some p, some q => Run.ofFault (p.less q)
  | _, _ => less a b

/-- Compares arrays whose cells are of any kind. -/
def lessMixed (x y : Operand) : Run Bool := do
  let dx ← Run.ofFault (x.dense .object)
  let dy ← Run.ofFault (y.dense .object)
  match Dense.broadcastShapes dx.shape dy.shape with
  | Option.none => Run.fail .badValue
  | some shape =>
    let bs ← ((dx.spread shape).zip (dy.spread shape)).mapM fun p => lessObjects less p.1 p.2
    Run.ofFault (soleTruth bs)

/-- Compares what has a type of its own with something. -/
def lessOperands (x y : Operand) : Run Bool := do
  if x.isMixed y then Run.fail .noRule
  let t ← Run.ofFault (compareType x y)
  if t == .object then lessMixed less x y
  else
    let d ← lessOp.run (fun _ _ => Run.fail .wrongKind) x y
    Run.ofFault (soleTruth (d.cells.map fun v => (CellOp.scalarOf v).truth))

/-- Compares numbers, plain ones and those of a type. -/
def lessNumbers (a b : Value) : Run Bool :=
  match a.plain?, b.plain? with
  | some p, some q => Run.ofFault (p.less q)
  | _, _ =>
    if a.isTyped || b.isTyped then do lessOperands less (← Operand.read a) (← Operand.read b)
    else Run.fail .wrongKind

/-- Compares values of one kind: texts, sequences or numbers. -/
def lessKinds (h : Heap) : Value → Value → Run Bool
  | text s, text t => return s < t
  | list p, list q => lessItems less h (h.block p).toList (h.block q).toList
  | tuple xs, tuple ys => lessItems less h xs ys
  | a, b => lessNumbers less a b

end

/-- Whether `a < b`, where parts of values are compared `depth` levels deep. -/
def lessAt : (depth : Nat) → Value → Value → Run Bool
  | 0, _, _ => Run.fail .wrongKind
  | depth + 1, a, b => do lessKinds (lessAt depth) (← Run.heap) a.untyped b.untyped

/-- Whether `a < b`. -/
def less (a b : Value) : Run Bool :=
  lessAt maxNesting a b

end Value
end IndexNotation
