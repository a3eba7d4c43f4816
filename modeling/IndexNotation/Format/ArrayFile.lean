import IndexNotation.Format.Bytes
import IndexNotation.Text.Digit
import IndexNotation.Text.Quoted
import IndexNotation.Value.Dense

/-!
# Array files

A file of one array: a mark, a header in words that gives the type of the cells, their order and the
shape, and then the cells one after another.
-/

namespace IndexNotation.ArrayFile

/-- The first bytes of a file: a mark that no text starts with, and the version. -/
def mark : List UInt8 :=
  0x93 :: ("NUMPY".toList.map fun c => c.toNat.toUInt8)

/-! ## Writing -/

/-- The type of the cells in the header. -/
def typeCode : ElemType → String
  | .bool => "|b1"
  | .int t =>
    (if t.bits == 8 then "|" else "<") ++ (if t.signed then "i" else "u") ++ toString (t.bits / 8)
  | .float t => "<f" ++ toString (Bytes.floatWidth t)
  | .complex t => "<c" ++ toString (2 * Bytes.floatWidth t)
  | .text n => "<U" ++ toString n
  | .object => "|O"

/-- The room that is left for the length of the first dimension. -/
def lengthWidth : Nat := 21

def headerText (d : Dense) : String :=
  let shape := Text.tupleText (d.shape.map toString)
  let room := match d.shape with
    | [] => 0
    | n :: _ => lengthWidth - (toString n).length
  "\x7b\x27descr\x27: \x27" ++ typeCode d.type ++ "\x27, \x27fortran_order\x27: False, \x27shape\x27: " ++
    shape ++ ", \x7d" ++ String.ofList (List.replicate room ' ')

/-- The cells start at a multiple of this many bytes. -/
def alignment : Nat := 64

def bytesOf (s : String) : List UInt8 :=
  s.toList.map fun c => c.toNat.toUInt8

/-- The bytes of an array file. -/
def encode (d : Dense) : List UInt8 :=
  let header := headerText d
  let start := mark.length + 4
  let blanks := alignment - (start + header.length + 1) % alignment
  let header := header ++ String.ofList (List.replicate blanks ' ') ++ "\n"
  let cells := d.cells.flatMap fun v =>
    match v with
    | .scalar s => Bytes.ofScalar d.type s
    | _ => []
  mark ++ [1, 0] ++ Bytes.littleEndian 2 header.length ++ bytesOf header ++ cells

/-! ## Reading -/

/-- What follows the first place of a word in a text. -/
def after? (word : List Char) : List Char → Option (List Char)
  | [] => none
  | c :: cs => if word.isPrefixOf (c :: cs) then some ((c :: cs).drop word.length) else after? word cs

/-- The value of an entry of the header, from its first character on. -/
def entry? (header : List Char) (name : String) : Option (List Char) := do
  let rest ← after? (('\x27' :: name.toList) ++ ['\x27', ':']) header
  return rest.dropWhile (· == ' ')

def typeOfCode? : List Char → Option ElemType
  | ['b', '1'] => some .bool
  | ['i', '1'] => some (.int .int8)
  | ['i', '2'] => some (.int .int16)
  | ['i', '4'] => some (.int .int32)
  | ['i', '8'] => some (.int .int64)
  | ['u', '1'] => some (.int .uint8)
  | ['u', '2'] => some (.int .uint16)
  | ['u', '4'] => some (.int .uint32)
  | ['u', '8'] => some (.int .uint64)
  | ['f', '2'] => some (.float .half)
  | ['f', '4'] => some (.float .single)
  | ['f', '8'] => some (.float .double)
  | ['c', '8'] => some (.complex .single)
  | ['c', '1', '6'] => some (.complex .double)
  | 'U' :: digits =>
    if !digits.isEmpty && digits.all Text.isAsciiDigit then some (.text (Text.digitsToNat digits))
    else none
  | _ => none

/-- The lengths in a shape, which are divided by other characters. -/
def lengths (cs : List Char) : List Nat :=
  ((cs.splitOnP (!Text.isAsciiDigit ·)).filter (!·.isEmpty)).map Text.digitsToNat

/-- What a header says: whether the bytes of a number are in falling order, the type, whether the
first dimension runs fastest, and the shape. -/
structure Header where
  bigEndian : Bool
  type : ElemType
  firstFastest : Bool
  shape : List Nat

def readHeader? (header : List Char) : Option Header := do
  let code ← entry? header "descr"
  let code := (code.drop 1).takeWhile (· != '\x27')
  let t ← typeOfCode? (code.drop 1)
  let order ← entry? header "fortran_order"
  let shape ← entry? header "shape"
  return ⟨code.headD '|' == '>', t, order.headD 'F' == 'T', lengths (shape.takeWhile (· != ')'))⟩

/-- Cells of `width` bytes each, `count` of them. -/
def cut (width : Nat) : (count : Nat) → List UInt8 → List (List UInt8)
  | 0, _ => []
  | count + 1, bs => bs.take width :: cut width count (bs.drop width)

/-- Turns the bytes of a cell around. A complex number has two parts and a text many. -/
def turn (t : ElemType) (bs : List UInt8) : List UInt8 :=
  let part := match t with
    | .complex t => Bytes.floatWidth t
    | .text _ => 4
    | t => Bytes.width t
  ((cut part (bs.length / part) bs).map List.reverse).flatten

/-- The array in an array file. -/
def decode? (bytes : List UInt8) : Option Dense := do
  if !(mark.isPrefixOf bytes) then none
  let major := (bytes.drop mark.length).headD 0
  let sizeWidth := if major == 1 then 2 else 4
  let rest := bytes.drop (mark.length + 2)
  let size := Bytes.toNat (rest.take sizeWidth)
  let rest := rest.drop sizeWidth
  let h ← readHeader? ((rest.take size).map fun b => Char.ofNat b.toNat)
  let width := Bytes.width h.type
  let count := cellCount h.shape
  let data := rest.drop size
  if data.length < count * width then none
  let cells := (cut width count data).map fun bs =>
    Value.scalar (Bytes.toScalar h.type (if h.bigEndian then turn h.type bs else bs))
  let d : Dense := ⟨h.type, h.shape, cells⟩
  if h.firstFastest then
    let inOrder := cells.toArray
    let strides := (rowMajor h.shape.reverse).reverse
    return { d with cells := (places h.shape strides 0).map fun p => inOrder.getD p .none }
  else return d

end IndexNotation.ArrayFile
