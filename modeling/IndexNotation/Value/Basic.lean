import IndexNotation.Log
import IndexNotation.Value.Scalar

/-!
# Values

What names can be bound to and what expressions evaluate to. Lists and arrays can be changed, so
their contents are kept in a heap, and a value refers to a block of it. Two values that refer to the
same block see each other's changes.
-/

namespace IndexNotation

open Number (ComplexFloat)

/-- The functions that are always there. -/
inductive Builtin where
  | abs | sqrt | square | floor | ceil | sign | log | exp | round
  | maximum | minimum | add | subtract | multiply | hypot | gcd
  /-- The largest, the smallest and the sum of the elements of an array. -/
  | largest | smallest | total
  /-- Conversion to a type. -/
  | convert (t : ElemType)
  | factorial | choose | integerRoot
deriving Repr, DecidableEq

inductive Callable where
  | builtin (f : Builtin)
  /-- A function that was supplied, by its name. -/
  | supplied (name : String)
deriving Repr, DecidableEq

/-- Some of the cells of a block, arranged as an array: the cell at `(i, j, …)` is at
`offset + i * strides[0] + j * strides[1] + …`. -/
structure View where
  block : Nat
  type : ElemType
  offset : Nat
  shape : List Nat
  strides : List Int
deriving Repr, DecidableEq

inductive Value where
  | none
  | bool (b : Bool)
  | int (n : Int)
  | float (x : Float)
  | complex (z : ComplexFloat)
  | text (s : String)
  /-- A list, whose items are in a block. -/
  | list (block : Nat)
  | tuple (items : List Value)
  /-- A value with named fields. -/
  | record (fields : List (String × Value))
  | function (f : Callable)
  | scalar (s : Scalar)
  | array (v : View)
  | elemType (t : ElemType)

instance : Inhabited Value := ⟨.none⟩

/-- The blocks, by their number. -/
abbrev Heap := Array (Array Value)

/-- A value with all it refers to, as it was at one moment. -/
inductive Data where
  | none
  | bool (b : Bool)
  | int (n : Int)
  | float (x : Float)
  | complex (z : ComplexFloat)
  | text (s : String)
  | list (items : List Data)
  | tuple (items : List Data)
  | record (fields : List (String × Data))
  | function
  | scalar (s : Scalar)
  | array (type : ElemType) (shape : List Nat) (cells : List Data)
  | elemType (t : ElemType)

instance : Inhabited Data := ⟨.none⟩

/-- What a run can change. -/
structure World where
  heap : Heap := #[]
  /-- The calls that supplied functions have recorded. -/
  trace : Array (List Data) := #[]
  log : Log := []

/-- A computation on values. What it has changed stays changed if it fails. -/
abbrev Run := ExceptT Error (StateM World)

namespace Value

def ofPlain : Plain → Value
  | .int n => int n
  | .float x => float x
  | .complex z => complex z

/-- The number that a value without a width is. -/
def plain? : Value → Option Plain
  | bool b => some (.int (if b then 1 else 0))
  | int n => some (.int n)
  | float x => some (.float x)
  | complex z => some (.complex z)
  | _ => Option.none

def ofLiteral : Literal → Value
  | .int n => int n
  | .float x => float x
  | .bool b => bool b
  | .complex re im => complex ⟨re, im⟩
  | .text s => text s
  | .none => none
  | .numeral s => text s

def isCallable : Value → Bool
  | function _ => true
  | _ => false

/-- The name of the kind of a value. -/
def typeName : Value → String
  | none => "NoneType"
  | bool _ => "bool"
  | int _ => "int"
  | float _ => "float"
  | complex _ => "complex"
  | text _ => "str"
  | list _ => "list"
  | tuple _ => "tuple"
  | record _ => "SimpleNamespace"
  | function (.supplied _) => "function"
  | function (.builtin (.convert _)) => "type"
  | function (.builtin f) =>
    match f with
    | .factorial | .choose | .integerRoot => "builtin_function_or_method"
    | .largest | .smallest | .total | .round => "_ArrayFunctionDispatcher"
    | _ => "ufunc"
  | scalar (.text _) => "str_"
  | scalar s => s.type.name
  | array _ => "ndarray"
  | elemType t => elemTypeName t
where
  elemTypeName : ElemType → String
    | .bool => "BoolDType"
    | .text _ => "StrDType"
    | .object => "ObjectDType"
    | .int t => if t.signed then "Int" ++ toString t.bits ++ "DType"
        else "UInt" ++ toString t.bits ++ "DType"
    | .float .half => "Float16DType"
    | .float .single => "Float32DType"
    | .float .double => "Float64DType"
    | .complex .double => "Complex128DType"
    | .complex _ => "Complex64DType"

end Value

/-! ## Views -/

/-- The number of cells of an array. -/
def cellCount (shape : List Nat) : Nat :=
  shape.foldl (· * ·) 1

/-- The strides of an array whose cells are in row-major order. -/
def rowMajor : List Nat → List Int
  | [] => []
  | _ :: rest => (cellCount rest : Int) :: rowMajor rest

/-- The places of the cells, in row-major order. -/
def places : (shape : List Nat) → (strides : List Int) → (start : Int) → List Nat
  | [], _, start => [start.toNat]
  | n :: ns, strides, start =>
    (List.range n).flatMap fun (k : Nat) =>
      places ns strides.tail (start + (k : Int) * strides.headD 0)

def View.places (v : View) : List Nat :=
  IndexNotation.places v.shape v.strides v.offset

def Heap.block (h : Heap) (n : Nat) : Array Value :=
  h.getD n #[]

/-- The cells of an array, in row-major order. -/
def View.cells (h : Heap) (v : View) : List Value :=
  let b := h.block v.block
  v.places.map fun p => b.getD p .none

/-! ## Snapshots -/

/-- A value with all it refers to, `depth` levels deep. -/
def Value.snapshot (h : Heap) : (depth : Nat) → Value → Data
  | 0, _ => .none
  | depth + 1, v =>
    match v with
    | none => .none
    | bool b => .bool b
    | int n => .int n
    | float x => .float x
    | complex z => .complex z
    | text s => .text s
    | list b => .list ((h.block b).toList.map (snapshot h depth))
    | tuple items => .tuple (items.map (snapshot h depth))
    | record fields => .record (fields.map fun f => (f.1, snapshot h depth f.2))
    | function _ => .function
    | scalar s => .scalar s
    | array a => .array a.type a.shape ((a.cells h).map (snapshot h depth))
    | elemType t => .elemType t

/-- The depth to which values are copied. -/
def snapshotDepth : Nat := 100

namespace Run

def fail {α : Type} (f : Fault) : Run α :=
  throw (.fault f)

def ofFault {α : Type} : Except Fault α → Run α
  | .ok a => pure a
  | .error f => fail f

def heap : Run Heap := do
  return (← get).heap

/-- Adds a block to the heap. -/
def allocate (cells : Array Value) : Run Nat := do
  let w ← get
  set { w with heap := w.heap.push cells }
  return w.heap.size

def readBlock (n : Nat) : Run (Array Value) := do
  return (← heap).block n

/-- Changes one cell of a block. -/
def writeCell (n place : Nat) (v : Value) : Run PUnit :=
  modify fun w => { w with heap := w.heap.modify n (·.setIfInBounds place v) }

/-- A list with the given items. -/
def newList (items : List Value) : Run Value := do
  return .list (← allocate items.toArray)

def snapshot (v : Value) : Run Data := do
  return v.snapshot (← heap) snapshotDepth

/-- Records a call. -/
def record (args : List Value) : Run PUnit := do
  let data ← args.mapM snapshot
  modify fun w => { w with trace := w.trace.push data }

end Run
end IndexNotation
