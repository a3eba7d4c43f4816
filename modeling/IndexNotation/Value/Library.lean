import IndexNotation.Value.Assign

/-!
# The library of functions

The names that are always bound, and what the functions among them do. Numeric functions work cell
by cell and give scalars also for plain numbers.
-/

namespace IndexNotation

open Number (ComplexFloat)

namespace Library

/-- The constants and functions that are always there, an excerpt of a namespace that is open: what
is not among them has to be supplied. -/
def names : List (String × Value) :=
  let f (b : Builtin) : Value := .function (.builtin b)
  [("pi", .float 3.141592653589793), ("e", .float 2.718281828459045),
    ("inf", .float Number.infinity), ("nan", .float Number.notANumber),
    ("tau", .float 6.283185307179586),
    ("abs", f .abs), ("sqrt", f .sqrt), ("square", f .square), ("floor", f .floor),
    ("ceil", f .ceil), ("sign", f .sign), ("log", f .log), ("exp", f .exp), ("round", f .round),
    ("maximum", f .maximum), ("minimum", f .minimum), ("add", f .add),
    ("subtract", f .subtract), ("multiply", f .multiply), ("hypot", f .hypot), ("gcd", f .gcd),
    ("max", f .largest), ("min", f .smallest), ("sum", f .total),
    ("float64", f (.convert (.float .double))), ("int32", f (.convert (.int .int32))),
    ("int8", f (.convert (.int .int8))),
    ("factorial", f .factorial), ("comb", f .choose), ("isqrt", f .integerRoot)]

/-! ## Functions of one number -/

/-- The type in which roots and logarithms are taken. -/
def floatingType : ElemType → Except Fault ElemType
  | .bool => .ok (.float .half)
  | .int t => .ok (.float (.holding t))
  | .float t => .ok (.float t)
  | .complex t => .ok (.complex t)
  | .text _ => .error .wrongKind
  | .object => .ok .object

/-- A function of doubles on scalars. -/
def floating (f : Float → Float) (g : ComplexFloat → ComplexFloat) (s : Scalar) : Except Fault Scalar := do
  match ← floatingType s.type with
  | .float t => return .ofFloat t (f (t.round s.realPart))
  | .complex t => return .ofComplex t (g s.complexPart)
  | _ => .error .wrongKind

def complexSqrt (z : ComplexFloat) : ComplexFloat :=
  if z.isZero then ⟨0.0, z.im⟩
  else
    let r := z.abs
    if 0.0 ≤ z.re then
      let t := ((z.re + r) * 0.5).sqrt
      ⟨t, z.im / (2.0 * t)⟩
    else
      let t := ((-z.re + r) * 0.5).sqrt
      ⟨z.im.abs / (2.0 * t), Number.copySign t z.im⟩

def complexLog (z : ComplexFloat) : ComplexFloat :=
  ⟨z.abs.log, Float.atan2 z.im z.re⟩

def complexExp (z : ComplexFloat) : ComplexFloat :=
  ⟨z.re.exp * z.im.cos, z.re.exp * z.im.sin⟩

/-- The type of squares: truth values count as small integers. -/
def squareType : ElemType → Except Fault ElemType
  | .bool => .ok (.int .int8)
  | .text _ => .error .wrongKind
  | t => .ok t

def square (s : Scalar) : Except Fault Scalar := do
  let t ← squareType s.type
  Scalar.arith .mul t s s

/-- Real types. -/
def realType : ElemType → Except Fault ElemType
  | .complex _ | .text _ => .error .wrongKind
  | t => .ok t

/-- Rounding in one direction; integers stay as they are. -/
def rounded (f : Float → Float) : Scalar → Except Fault Scalar
  | .float t x => .ok (.float t (f x))
  | .complex .. | .text _ => .error .wrongKind
  | s => .ok s

def signType : ElemType → Except Fault ElemType
  | .bool | .text _ => .error .noRule
  | t => .ok t

def sign : Scalar → Except Fault Scalar
  | .int t n => .ok (.int t n.sign)
  | .float t x =>
    .ok (.float t (if x.isNaN then x else if 0.0 < x then 1.0 else if x < 0.0 then -1.0 else 0.0))
  | .complex t z =>
    if z.isZero then .ok (.complex t ⟨0.0, 0.0⟩)
    else
      let r := z.abs
      .ok (.ofComplex t ⟨z.re / r, z.im / r⟩)
  | .bool _ | .text _ => .error .noRule

/-- A power of ten as a double. -/
def tenTo (n : Nat) : Float :=
  (Number.ofInt? (Number.tenTo n)).getD Number.infinity

/-- Rounds to a number of decimals, a tie going to the even digit; the steps are taken in type
`t`. -/
def roundFloat (t : FloatType) (decimals : Int) (x : Float) : Float :=
  if decimals == 0 then Number.roundEven x
  else if 0 < decimals then
    let scale := t.round (tenTo decimals.toNat)
    t.round (Number.roundEven (t.round (x * scale)) / scale)
  else
    let scale := t.round (tenTo (-decimals).toNat)
    t.round (Number.roundEven (t.round (x / scale)) * scale)

def roundScalar (decimals : Int) : Scalar → Except Fault Scalar
  | .float t x => .ok (.float t (roundFloat t decimals x))
  | .complex t z => .ok (.complex t ⟨roundFloat t decimals z.re, roundFloat t decimals z.im⟩)
  | .int t n =>
    if 0 ≤ decimals then .ok (.int t n)
    else .ok (.int t (Scalar.floatToInt t (roundFloat .double decimals (Scalar.intToFloat n))))
  | .bool b => .ok (.float .half (if b then 1.0 else 0.0))
  | .text _ => .error .wrongKind

def roundType : ElemType → Except Fault ElemType
  | .bool => .ok (.float .half)
  | .text _ => .error .wrongKind
  | t => .ok t

/-- Applies a function of one number to every cell of a value. -/
def mapValue (type : ElemType → Except Fault ElemType) (f : Scalar → Except Fault Scalar)
    (objects : Value → Run Value) (v : Value) : Run Value := do
  (← Value.mapCells type f objects (← Dense.read v)).toValue

/-- Cells of any kind have no functions of doubles. -/
def noObjects (_ : Value) : Run Value :=
  Run.fail .wrongKind

/-! ## Functions of two numbers -/

/-- Types with an order. -/
def orderedType : ElemType → Except Fault ElemType
  | .text _ => .error .noRule
  | t => .ok t

/-- Whether a scalar is no number. -/
def isNaN : Scalar → Bool
  | .float _ x => x.isNaN
  | .complex _ z => z.re.isNaN || z.im.isNaN
  | _ => false

/-- The larger or the smaller of two scalars; what is no number wins. -/
def extreme (largest : Bool) (t : ElemType) (a b : Scalar) : Except Fault Scalar :=
  let a := a.cast t
  let b := b.cast t
  if isNaN a then .ok a
  else if isNaN b then .ok b
  else if largest then .ok (if Scalar.lessIn t a b then b else a)
  else .ok (if Scalar.lessIn t b a then b else a)

def extremeOp (largest : Bool) : CellOp := ⟨.noRule, orderedType, extreme largest⟩

/-- The larger or the smaller of two values of any kind. -/
def extremeObjects (largest : Bool) (a b : Value) : Run Value := do
  if largest then return if ← a.less b then b else a
  else return if ← b.less a then b else a

def hypotOp : CellOp where
  refusal := .wrongKind
  type t := do
    match ← floatingType t with
    | .complex _ => .error .wrongKind
    | t => return t
  apply t a b := do
    match ← floatingType t with
    | .float t => return .ofFloat t (Number.hypot (t.round a.realPart) (t.round b.realPart))
    | _ => .error .wrongKind

/-- Types with common divisors. -/
def gcdType : ElemType → Except Fault ElemType
  | .int t => .ok (.int t)
  | _ => .error .noRule

def gcdOp : CellOp where
  refusal := .noRule
  type := gcdType
  apply t a b := do
    match ← gcdType t with
    | .int t => return .ofInt t (Int.gcd (a.integerPart t) (b.integerPart t))
    | _ => .error .noRule

/-- Applies a function of two numbers cell by cell. -/
def zipValues (op : CellOp) (objects : Value → Value → Run Value) (a b : Value) : Run Value := do
  let d ← op.run objects (← Operand.read a) (← Operand.read b)
  d.toValue

/-! ## Functions of an array -/

/-- The type of a sum: small integers are added up in wide ones. -/
def totalType : ElemType → Except Fault ElemType
  | .bool => .ok (.int .int64)
  | .int t => .ok (.int (if t.signed then .int64 else .uint64))
  | .text _ => .error .wrongKind
  | t => .ok t

/-- Adds up in eight interleaved sums, then the rest. -/
def sumEight (step : Float → Float) (xs : List Float) : Float :=
  let lanes := (List.range 8).map fun i => laneSum i xs
  let r (i : Nat) : Float := lanes.getD i 0.0
  let head := step (step (step (r 0 + r 1) + step (r 2 + r 3)) +
    step (step (r 4 + r 5) + step (r 6 + r 7)))
  (xs.drop (xs.length / 8 * 8)).foldl (fun a x => step (a + x)) head
where
  /-- The sum of every eighth element from element `i` on, in full groups of eight. -/
  laneSum (i : Nat) (xs : List Float) : Float :=
    let full := xs.take (xs.length / 8 * 8)
    let lane := (List.range (full.length / 8)).map fun k => full.getD (8 * k + i) 0.0
    match lane with
    | [] => 0.0
    | x :: rest => rest.foldl (fun a y => step (a + y)) x

/-- Adds up halves separately, so that errors stay small; `fuel` halvings at most. -/
def pairwise (step : Float → Float) : (fuel : Nat) → List Float → Float
  | 0, xs => sumEight step xs
  | fuel + 1, xs =>
    let n := xs.length
    if n < 8 then xs.foldl (fun a x => step (a + x)) (-0.0)
    else if n ≤ 128 then sumEight step xs
    else
      let half := n / 2 - n / 2 % 8
      step (pairwise step fuel (xs.take half) + pairwise step fuel (xs.drop half))

/-- The sum of scalars of type `t`. -/
def sumScalars (t : ElemType) (cells : List Scalar) : Except Fault Scalar :=
  match t, cells with
  | .float t, s :: rest =>
    .ok (.ofFloat t (pairwise (Scalar.stepType t).round 64 ((s :: rest).map Scalar.realPart)))
  | t, cells => cells.foldlM (Scalar.arith .add t) (Scalar.cast t (.int .int64 0))

/-- Folds values of any kind; there has to be one. -/
def foldObjects (f : Value → Value → Run Value) : List Value → Run Value
  | [] => Run.fail .badValue
  | v :: vs => vs.foldlM f v

/-- How the cells of an array are reduced to one. -/
def reduceCells (f : Builtin) (t : ElemType) (cells : List Value) : Run Value := do
  let scalars := cells.map CellOp.scalarOf
  match f with
  | .total =>
    if t == .object then
      match cells with
      | [] => return .int 0
      | cells => foldObjects (Value.binary .add) cells
    else
      let t ← Run.ofFault (totalType t)
      return .scalar (← Run.ofFault (sumScalars t (scalars.map (Scalar.cast t))))
  | _ =>
    let largest := f == .largest
    if t == .object then foldObjects (extremeObjects largest) cells
    else
      match scalars with
      | [] => Run.fail .badValue
      | s :: rest => return .scalar (← Run.ofFault (rest.foldlM (extreme largest t) s))

/-- The lines of an array along a dimension, and the shape without it. -/
def linesAlong (d : Dense) (axis : Nat) : List Nat × List (List Value) :=
  let outer := d.shape.take axis
  let length := d.shape.getD axis 1
  let inner := d.shape.drop (axis + 1)
  let step := cellCount inner
  let cells := d.cells.toArray
  let lines := (List.range (cellCount outer)).flatMap fun (o : Nat) =>
    (List.range step).map fun (i : Nat) =>
      (List.range length).map fun (k : Nat) => cells.getD (o * length * step + k * step + i) .none
  (outer ++ inner, lines)

/-- The type of the results of a reduction. -/
def reducedType (f : Builtin) (t : ElemType) : Except Fault ElemType :=
  match f with
  | .total => totalType t
  | _ => orderedType t

/-- Reduces an array to one value, or along a dimension. -/
def reduce (f : Builtin) (v : Value) (axis : Value) : Run Value := do
  let d ← Dense.read v
  let type ← Run.ofFault (reducedType f d.type)
  match axis with
  | .none => reduceCells f d.type d.cells
  | axis =>
    let n ← match axis with
      | .int n | .scalar (.int _ n) => pure n
      | _ => Run.fail .wrongKind
    let dims := d.shape.length
    if dims == 0 && (n == 0 || n == -1) then reduceCells f d.type d.cells
    else
      match resolvePosition dims n with
      | none => Run.fail .noSuchAxis
      | some axis =>
        let (shape, lines) := linesAlong d axis
        let cells ← lines.mapM (reduceCells f d.type)
        Dense.toValue ⟨type, shape, cells⟩

/-! ## Conversions and integers -/

/-- A value as one of type `t`. -/
def convert (t : ElemType) (v : Value) : Run Value := do
  let h ← Run.heap
  match v with
  | .array a => Dense.toValue ⟨t, a.shape, (a.cells h).map (Dense.castCell t)⟩
  | .list _ | .tuple _ => do
    let d ← Run.ofFault (Value.cellsFor h t v)
    d.toValue
  | .scalar (.text s) => return .scalar (← Run.ofFault (t.acceptText s))
  | .scalar s => return .scalar (s.cast t)
  | v => Run.ofFault (t.accept h v)

/-- An integer argument that is not negative. -/
def natural (v : Value) : Run Nat := do
  match Value.position? (← Run.heap) v with
  | none => Run.fail .wrongKind
  | some n => if n < 0 then Run.fail .badValue else return n.toNat

def factorial : Nat → Nat
  | 0 => 1
  | n + 1 => (n + 1) * factorial n

/-- The number of ways to choose `k` of `n`. -/
def choose (n k : Nat) : Nat :=
  if n < k then 0
  else
    let k := min k (n - k)
    (List.range k).foldl (fun acc i => acc * (n - i) / (i + 1)) 1

/-! ## Calls -/

/-- Calls a function of the library with its operands. -/
def call (f : Builtin) (args : List Value) : Run Value := do
  match f, args with
  | .abs, [v] => mapValue Value.absType Value.absScalar Value.abs v
  | .sqrt, [v] => mapValue floatingType (floating Float.sqrt complexSqrt) noObjects v
  | .log, [v] => mapValue floatingType (floating Float.log complexLog) noObjects v
  | .exp, [v] => mapValue floatingType (floating Float.exp complexExp) noObjects v
  | .square, [v] => mapValue squareType square (fun x => Value.binary .mul x x) v
  | .floor, [v] => mapValue realType (rounded Float.floor) noObjects v
  | .ceil, [v] => mapValue realType (rounded Float.ceil) noObjects v
  | .sign, [v] => mapValue signType sign noObjects v
  | .round, [v] => mapValue roundType (roundScalar 0) noObjects v
  | .round, [v, n] => do
    let n ← n.toInt
    mapValue roundType (roundScalar n) noObjects v
  | .maximum, [a, b] => zipValues (extremeOp true) (extremeObjects true) a b
  | .minimum, [a, b] => zipValues (extremeOp false) (extremeObjects false) a b
  | .add, [a, b] => zipValues (.arith .add) (Value.binary .add) a b
  | .subtract, [a, b] => zipValues (.arith .sub) (Value.binary .sub) a b
  | .multiply, [a, b] => zipValues (.arith .mul) (Value.binary .mul) a b
  | .hypot, [a, b] => zipValues hypotOp (fun _ _ => Run.fail .wrongKind) a b
  | .gcd, [a, b] => zipValues gcdOp (fun _ _ => Run.fail .wrongKind) a b
  | .largest, [v] | .smallest, [v] | .total, [v] => reduce f v .none
  | .largest, [v, axis] | .smallest, [v, axis] | .total, [v, axis] => reduce f v axis
  | .convert t, [] => return .scalar (Scalar.cast t (.int .int64 0))
  | .convert t, [v] => convert t v
  | .factorial, [v] => do return .int (factorial (← natural v))
  | .choose, [n, k] => do return .int (choose (← natural n) (← natural k))
  | .integerRoot, [v] => do return .int (Number.natSqrt (← natural v))
  | _, _ => Run.fail .wrongKind

/-! ## Results put into an array -/

/-- The number of operands of the functions that work cell by cell. They can be called with one
argument more, an array for their results. -/
def operands? : Builtin → Option Nat
  | .abs | .sqrt | .square | .floor | .ceil | .sign | .log | .exp => some 1
  | .maximum | .minimum | .add | .subtract | .multiply | .hypot | .gcd => some 2
  | _ => none

/-- The kinds of types, in the order in which one goes into another. -/
def kindRank : ElemType → Nat
  | .bool => 0
  | .int t => if t.signed then 2 else 1
  | .float _ => 3
  | .complex _ => 4
  | .text _ => 5
  | .object => 6

/-- Whether results of one type go into cells of another. -/
def goesInto (t cell : ElemType) : Bool :=
  match cell with
  | .text _ => false
  | cell => kindRank t ≤ kindRank cell

/-- Puts results into an array that has room for them. -/
def put (place : View) (d : Dense) : Run PUnit := do
  if !goesInto d.type place.type then Run.fail .noRule
  if Dense.broadcastShapes d.shape place.shape != some place.shape then Run.fail .badValue
  let cells := (d.spread place.shape).map (Dense.castCell place.type)
  (place.places.zip cells).forM fun p => Run.writeCell place.block p.1 p.2

/-- Calls a function whose last argument is an array for its results. The array is changed, and is
what the call comes to. -/
def callInto (f : Builtin) (args : List Value) : Run Value := do
  match args.getLast? with
  | some .none => call f args.dropLast
  | some (.array place) =>
    put place (← Dense.read (← call f args.dropLast))
    return .array place
  | _ => Run.fail .wrongKind

end Library
end IndexNotation
