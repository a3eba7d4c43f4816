import IndexNotation.Value.Access

/-!
# Assignment

Storing into a cell converts the value to the type of the cell, or fails. Storing into a part of an
array that is more than one cell repeats the value to fill the part.
-/

namespace IndexNotation

namespace ElemType

/-- An integer for a cell. What has a width of its own wraps around in unsigned cells. -/
def acceptInt (t : IntType) (wide : Bool) (n : Int) : Except Fault Scalar :=
  if t.fits n then .ok (.int t n)
  else if !t.signed && wide && IntType.least .int64 ≤ n && n ≤ IntType.greatest .uint64 then .ok (.ofInt t n)
  else .error .overflow

/-- A text for a cell of numbers. -/
def acceptText (t : ElemType) (s : String) : Except Fault Scalar :=
  match t with
  | .bool => .ok (.bool !s.isEmpty)
  | .int t =>
    match Number.readInt? s with
    | some n => acceptInt t false n
    | none => .error .badValue
  | .float t =>
    match Number.readFloat? s with
    | some x => .ok (.ofFloat t x)
    | none => .error .badValue
  | .complex t =>
    match Number.readFloat? s with
    | some x => .ok (.ofComplex t (.ofReal x))
    | none => .error .badValue
  | .text width => .ok (.text (String.ofList (s.toList.take width)))
  | .object => .ok (.text s)

/-- A plain number for a cell. -/
def acceptPlain (t : ElemType) (p : Plain) : Except Fault Scalar :=
  match t, p with
  | .bool, p => .ok (.bool p.truth)
  | .int t, .int n => acceptInt t false n
  | .int t, .float x => do acceptInt t true (← Plain.toInt (.float x))
  | .float t, .int n => do return .ofFloat t (← Plain.floatOfInt n)
  | .float t, .float x => .ok (.ofFloat t x)
  | .complex t, p => do return .ofComplex t (← p.toComplex)
  | _, _ => .error .wrongKind

/-- A scalar for a cell. -/
def acceptScalar (t : ElemType) (s : Scalar) : Except Fault Scalar :=
  match t, s with
  | t, .text s => t.acceptText s
  | .int t, .complex _ z => do acceptInt t true (← Plain.toInt (.float z.re))
  | .int t, .int _ n => acceptInt t true n
  | .int t, .float _ x => do acceptInt t true (← Plain.toInt (.float x))
  | t, s => .ok (s.cast t)

/-- Nothing for a cell: it is no number. -/
def acceptNone : ElemType → Except Fault Scalar
  | .bool => .ok (.bool false)
  | .float t => .ok (.float t Number.notANumber)
  | .complex t => .ok (.complex t ⟨Number.notANumber, Number.notANumber⟩)
  | .text width => .ok (.text (String.ofList ("None".toList.take width)))
  | _ => .error .wrongKind

/-- A sequence for a cell, which fits in none but those that hold truth. -/
def acceptSequence (t : ElemType) (isEmpty : Bool) : Except Fault Scalar :=
  match t with
  | .bool => .ok (.bool !isEmpty)
  | .int _ => .error .wrongKind
  | _ => .error .badValue

/-- The text of a plain value. -/
def plainText : Value → String
  | .bool b => if b then "True" else "False"
  | .int n => toString n
  | .float x => Number.floatText x
  | .complex z => Literal.complexText z.re z.im
  | _ => ""

/-- What a cell of type `t` holds after `v` is stored into it. -/
def accept (h : Heap) (t : ElemType) (v : Value) : Except Fault Value :=
  match t, v with
  | .object, v => .ok v
  | t, .scalar s => .scalar <$> t.acceptScalar s
  | t, .text s => .scalar <$> t.acceptText s
  | t, .none => .scalar <$> t.acceptNone
  | t, .list b => .scalar <$> t.acceptSequence (h.block b).isEmpty
  | t, .tuple items => .scalar <$> t.acceptSequence items.isEmpty
  | t, .array a =>
    match a.shape, a.cells h with
    | [], [.scalar s] => .scalar <$> t.acceptScalar s
    | _, _ => .error .badValue
  | .text width, v =>
    match v.plain? with
    | some _ => .ok (.scalar (.text (String.ofList ((plainText v).toList.take width))))
    | none => .error .wrongKind
  | t, v =>
    match v.plain? with
    | some p => .scalar <$> t.acceptPlain p
    | none => if t == .bool then .ok (.scalar (.bool true)) else .error .wrongKind

end ElemType

namespace Value

/-- The value as an array of cells of type `t`. -/
def cellsFor (h : Heap) (t : ElemType) (v : Value) : Except Fault Dense :=
  match v with
  | array a => .ok ⟨t, a.shape, (a.cells h).map (Dense.castCell t)⟩
  | v => do
    let n ← Dense.nest h Dense.maxDepth v
    return ⟨t, n.shape, ← n.cells.mapM (t.accept h)⟩

/-- The cells repeated to fill a shape. Dimensions of one in front may be left out. -/
def fill (shape : List Nat) (d : Dense) : Except Fault (List Value) :=
  let extra := d.shape.length - shape.length
  let d : Dense :=
    if (d.shape.take extra).all (· == 1) then { d with shape := d.shape.drop extra } else d
  if Dense.broadcastShapes d.shape shape == some shape then .ok (d.spread shape)
  else .error .badValue

/-- Stores into the cells that keys select. -/
def setArray (a : View) (keys : List Value) (v : Value) : Run PUnit := do
  let h ← Run.heap
  let s ← Run.ofFault (select h a keys)
  match s.pickShape, s.shape with
  | Option.none, [] =>
    let cell ← Run.ofFault (a.type.accept h v)
    Run.writeCell a.block (a.offset + s.steps.headD 0).toNat cell
  | _, _ =>
    let (shape, targets) := s.layout a
    let cells ← Run.ofFault (do fill shape (← cellsFor h a.type v))
    (targets.zip cells).forM fun p => Run.writeCell a.block p.1 p.2

/-- Stores an item at one key. -/
def setItem (target key v : Value) : Run PUnit := do
  match target with
  | array a =>
    match key with
    | tuple keys => setArray a keys v
    | key => setArray a [key] v
  | list b =>
    let h ← Run.heap
    match position? h key with
    | Option.none => Run.fail .wrongKind
    | some k =>
      match resolvePosition (h.block b).size k with
      | some p => Run.writeCell b p v
      | Option.none => Run.fail .outOfBounds
  | _ => Run.fail .wrongKind

/-- Stores at several keys. An array takes them together; for other values all keys but the last
lead to the place where the last one is set. -/
def set (target : Value) (keys : List Value) (v : Value) : Run PUnit := do
  match target with
  | array a => setArray a keys v
  | target =>
    match keys.getLast? with
    | Option.none => Run.fail .outOfBounds
    | some key => setItem (← target.get keys.dropLast) key v

end Value
end IndexNotation
