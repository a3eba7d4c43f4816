import IndexNotation.Value.Scalar

/-!
# Numbers as bytes

Integers and floating-point numbers in little-endian order.
-/

namespace IndexNotation.Bytes

open Number (twoTo)

/-- The `width` lowest bytes of `n`, lowest first. -/
def littleEndian : (width : Nat) → (n : Nat) → List UInt8
  | 0, _ => []
  | width + 1, n => (n % 256).toUInt8 :: littleEndian width (n / 256)

/-- The number that bytes make up, lowest first. -/
def toNat : List UInt8 → Nat
  | [] => 0
  | b :: bs => b.toNat + 256 * toNat bs

/-- The width of the exponent of a floating-point type in bits. -/
def exponentBits : FloatType → Nat
  | .half => 5
  | .single => 8
  | .double => 11

/-- The number of bytes of a floating-point type. -/
def floatWidth : FloatType → Nat
  | .half => 2
  | .single => 4
  | .double => 8

/-- The bits of a number of a floating-point type. -/
def floatBits (t : FloatType) (x : Float) : Nat :=
  let f := t.format
  let fraction := f.precision - 1
  let top := twoTo (exponentBits t) - 1
  let sign (negative : Bool) : Nat := if negative then twoTo (8 * floatWidth t - 1) else 0
  match Number.exact x with
  | .nan => top * twoTo fraction + twoTo (fraction - 1)
  | .infinite negative => sign negative + top * twoTo fraction
  | .finite negative m e =>
    if m == 0 then sign negative
    else
      -- The mantissa is a multiple of the unit in the last place.
      let place : Int := max f.least (e + (m.log2 : Int) - fraction)
      let scaled := Number.scaled m (e - place)
      let mantissa := scaled.1 / scaled.2
      sign negative + (place - f.least).toNat * twoTo fraction + mantissa

/-- The number of a floating-point type that bits stand for. -/
def ofFloatBits (t : FloatType) (bits : Nat) : Float :=
  let f := t.format
  let fraction := f.precision - 1
  let top := twoTo (exponentBits t) - 1
  let negative := bits / twoTo (8 * floatWidth t - 1) % 2 == 1
  let field := bits / twoTo fraction % twoTo (exponentBits t)
  let low := bits % twoTo fraction
  let magnitude : Float :=
    if field == top then (if low == 0 then Number.infinity else Number.notANumber)
    else if field == 0 then Number.assemble low f.least
    else Number.assemble (twoTo fraction + low) (f.least + (field - 1 : Nat))
  Number.withSign negative magnitude

/-- The number of bytes of a scalar; a character of a text takes four. -/
def width : ElemType → Nat
  | .bool => 1
  | .int t => t.bits / 8
  | .float t => floatWidth t
  | .complex t => 2 * floatWidth t
  | .text n => 4 * n
  | .object => 0

/-- The bytes of a scalar of a type. -/
def ofScalar (t : ElemType) (s : Scalar) : List UInt8 :=
  match t with
  | .bool => [if s.truth then 1 else 0]
  | .int t => littleEndian (t.bits / 8) ((s.integerPart t) % twoTo t.bits).toNat
  | .float t => littleEndian (floatWidth t) (floatBits t s.realPart)
  | .complex t =>
    littleEndian (floatWidth t) (floatBits t s.complexPart.re) ++
      littleEndian (floatWidth t) (floatBits t s.complexPart.im)
  | .text n =>
    let cs := s.toText.toList.take n
    cs.flatMap (fun c => littleEndian 4 c.toNat) ++ List.replicate (4 * (n - cs.length)) 0
  | .object => []

/-- The characters of a text of fixed width; it ends before the zeros at its end. -/
def textOf : (count : Nat) → List UInt8 → List Char
  | 0, _ => []
  | count + 1, bs => Char.ofNat (toNat (bs.take 4)) :: textOf count (bs.drop 4)

/-- The scalar of a type that bytes stand for. -/
def toScalar (t : ElemType) (bs : List UInt8) : Scalar :=
  match t with
  | .bool => .bool (bs.headD 0 != 0)
  | .int t => .ofInt t (toNat bs)
  | .float t => .float t (ofFloatBits t (toNat bs))
  | .complex t =>
    .complex t ⟨ofFloatBits t (toNat (bs.take (floatWidth t))),
      ofFloatBits t (toNat (bs.drop (floatWidth t)))⟩
  | .text n =>
    .text (String.ofList ((textOf n bs).reverse.dropWhile (·.toNat == 0)).reverse)
  | .object => .bool false

end IndexNotation.Bytes
