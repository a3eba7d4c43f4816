import IndexNotation.Number.Reader
import IndexNotation.Text.Quoted
import IndexNotation.Value.Dense

/-!
# Data files

The notation of data files: nested lists and objects of numbers, texts, truth values and `null`.
Besides the usual numbers there are `NaN`, `Infinity` and `-Infinity`. A text is read into a tree and
a tree is written with every item on a line of its own; an array is written as nested lists, from
which its shape can be told again.
-/

namespace IndexNotation

inductive Json where
  | null
  | bool (b : Bool)
  | int (n : Int)
  | float (x : Float)
  | text (s : String)
  | list (items : List Json)
  /-- Named items, in the order in which the names came up first. -/
  | object (fields : List (String × Json))

namespace Json

/-! ## Reading -/

def isSpace (c : Char) : Bool :=
  c == ' ' || c == '\t' || c == '\n' || c == '\r'

def skipSpace (cs : List Char) : List Char :=
  cs.dropWhile isSpace

/-- What follows a word at the start of a text. -/
def afterWord? : (word : List Char) → List Char → Option (List Char)
  | [], cs => some cs
  | w :: ws, c :: cs => if w == c then afterWord? ws cs else none
  | _ :: _, [] => none

def hexDigit? (c : Char) : Option Nat :=
  if Text.isAsciiDigit c then some (c.toNat - '0'.toNat)
  else if 'a' ≤ c && c ≤ 'f' then some (c.toNat - 'a'.toNat + 10)
  else if 'A' ≤ c && c ≤ 'F' then some (c.toNat - 'A'.toNat + 10)
  else none

/-- The four digits of an escape. -/
def hexUnit? : List Char → Option (Nat × List Char)
  | a :: b :: c :: d :: rest => do
    let a ← hexDigit? a
    let b ← hexDigit? b
    let c ← hexDigit? c
    let d ← hexDigit? d
    return (((a * 16 + b) * 16 + c) * 16 + d, rest)
  | _ => none

/-- The character of an escape, whose first unit is `high`. Two units that make a pair are one
character. -/
def escapedChar (high : Nat) (rest : List Char) : Char × List Char :=
  if 0xd800 ≤ high && high ≤ 0xdbff then
    match rest with
    | '\\' :: 'u' :: more =>
      match hexUnit? more with
      | some (low, more) =>
        if 0xdc00 ≤ low && low ≤ 0xdfff then
          (Char.ofNat (0x10000 + (high - 0xd800) * 0x400 + (low - 0xdc00)), more)
        else (Char.ofNat 0xfffd, rest)
      | none => (Char.ofNat 0xfffd, rest)
    | _ => (Char.ofNat 0xfffd, rest)
  else if 0xdc00 ≤ high && high ≤ 0xdfff then (Char.ofNat 0xfffd, rest)
  else (Char.ofNat high, rest)

/-- The character that a letter after a backslash stands for. -/
def shortEscape? : Char → Option Char
  | '\x22' => some '\x22'
  | '\\' => some '\\'
  | '/' => some '/'
  | 'b' => some '\x08'
  | 'f' => some '\x0c'
  | 'n' => some '\n'
  | 'r' => some '\r'
  | 't' => some '\t'
  | _ => none

/-- The characters of a text up to its closing quote. -/
def textChars : (fuel : Nat) → List Char → Option (List Char × List Char)
  | 0, _ => none
  | _ + 1, [] => none
  | fuel + 1, c :: cs =>
    if c == '\x22' then some ([], cs)
    else if c == '\\' then
      match cs with
      | 'u' :: more => do
        let (unit, more) ← hexUnit? more
        let (c, more) := escapedChar unit more
        let (chars, rest) ← textChars fuel more
        return (c :: chars, rest)
      | e :: more => do
        let c ← shortEscape? e
        let (chars, rest) ← textChars fuel more
        return (c :: chars, rest)
      | [] => none
    else if c.toNat < 0x20 then none
    else do
      let (chars, rest) ← textChars fuel cs
      return (c :: chars, rest)

/-- A point and the digits after it, if there are any. -/
def fractionPart : List Char → List Char × List Char
  | '.' :: cs =>
    match cs.takeWhile Text.isAsciiDigit with
    | [] => ([], '.' :: cs)
    | digits => ('.' :: digits, cs.dropWhile Text.isAsciiDigit)
  | cs => ([], cs)

/-- An exponent, if there is a whole one. -/
def exponentPart (cs : List Char) : List Char × List Char :=
  match cs with
  | e :: more =>
    if e == 'e' || e == 'E' then
      let (sign, digits) := match more with
        | '+' :: more => (['+'], more)
        | '-' :: more => (['-'], more)
        | more => ([], more)
      match digits.takeWhile Text.isAsciiDigit with
      | [] => ([], cs)
      | ds => (e :: sign ++ ds, digits.dropWhile Text.isAsciiDigit)
    else ([], cs)
  | [] => ([], [])

/-- The digits in front of the point. A number does not start with a zero unless that is all. -/
def wholePart : List Char → Option (List Char × List Char)
  | '0' :: cs => some (['0'], cs)
  | cs =>
    match cs.takeWhile Text.isAsciiDigit with
    | [] => none
    | digits => some (digits, cs.dropWhile Text.isAsciiDigit)

/-- A number without its sign. -/
def number (negative : Bool) (cs : List Char) : Option (Json × List Char) := do
  let (whole, rest) ← wholePart cs
  let (fraction, rest) := fractionPart rest
  let (exponent, rest) := exponentPart rest
  if fraction.isEmpty && exponent.isEmpty then
    let n : Int := Text.digitsToNat whole
    return (.int (if negative then -n else n), rest)
  else
    let x ← Number.readFloat? (String.ofList (whole ++ fraction ++ exponent))
    return (.float (if negative then -x else x), rest)

/-- A value that is no list, object or text. -/
def atom (cs : List Char) : Option (Json × List Char) :=
  match cs with
  | 'n' :: _ => (afterWord? "null".toList cs).map ((.null, ·))
  | 't' :: _ => (afterWord? "true".toList cs).map ((.bool true, ·))
  | 'f' :: _ => (afterWord? "false".toList cs).map ((.bool false, ·))
  | 'N' :: _ => (afterWord? "NaN".toList cs).map ((.float Number.notANumber, ·))
  | 'I' :: _ => (afterWord? "Infinity".toList cs).map ((.float Number.infinity, ·))
  | '-' :: rest =>
    match afterWord? "Infinity".toList rest with
    | some rest => some (.float (-Number.infinity), rest)
    | none => number true rest
  | cs => number false cs

/-- Sets a field; a name that is there already keeps its place. -/
def setField (fields : List (String × Json)) (name : String) (v : Json) : List (String × Json) :=
  if fields.any (·.1 == name) then fields.map fun f => if f.1 == name then (name, v) else f
  else fields ++ [(name, v)]

mutual

/-- A value at the start of a text, and what follows it. -/
def value : (fuel : Nat) → List Char → Option (Json × List Char)
  | 0, _ => none
  | fuel + 1, '\x22' :: cs => do
    let (chars, rest) ← textChars fuel cs
    return (.text (String.ofList chars), rest)
  | fuel + 1, '[' :: cs =>
    match skipSpace cs with
    | ']' :: rest => some (.list [], rest)
    | cs => do
      let (items, rest) ← items fuel cs
      return (.list items, rest)
  | fuel + 1, '\x7b' :: cs =>
    match skipSpace cs with
    | '\x7d' :: rest => some (.object [], rest)
    | cs => do
      let (fields, rest) ← fields fuel [] cs
      return (.object fields, rest)
  | _ + 1, cs => atom cs

/-- The items of a list, of which there is at least one. -/
def items : (fuel : Nat) → List Char → Option (List Json × List Char)
  | 0, _ => none
  | fuel + 1, cs => do
    let (first, rest) ← value fuel cs
    match skipSpace rest with
    | ']' :: rest => return ([first], rest)
    | ',' :: rest => do
      let (more, rest) ← items fuel (skipSpace rest)
      return (first :: more, rest)
    | _ => none

/-- The fields of an object, of which there is at least one; `before` are those already read. -/
def fields : (fuel : Nat) → (before : List (String × Json)) → List Char →
    Option (List (String × Json) × List Char)
  | 0, _, _ => none
  | fuel + 1, before, '\x22' :: cs => do
    let (name, rest) ← textChars fuel cs
    match skipSpace rest with
    | ':' :: rest => do
      let (v, rest) ← value fuel (skipSpace rest)
      let now := setField before (String.ofList name) v
      match skipSpace rest with
      | '\x7d' :: rest => return (now, rest)
      | ',' :: rest => fields fuel now (skipSpace rest)
      | _ => none
    | _ => none
  | _ + 1, _, _ => none

end

/-- The value that a text is. -/
def read? (s : String) : Option Json :=
  let cs := skipSpace s.toList
  match value (cs.length + 1) cs with
  | some (v, rest) => if (skipSpace rest).isEmpty then some v else none
  | none => none

/-! ## Writing -/

/-- A unit of an escape. -/
def unitText (n : Nat) : String :=
  "\\u" ++ Text.hex 4 n

/-- A character inside quotes. Only printable characters of ASCII stand for themselves. -/
def escape (c : Char) : String :=
  if c == '\x22' then "\\\x22"
  else if c == '\\' then "\\\\"
  else if c == '\n' then "\\n"
  else if c == '\r' then "\\r"
  else if c == '\t' then "\\t"
  else if c == '\x0c' then "\\f"
  else if c == '\x08' then "\\b"
  else
    let n := c.toNat
    if 0x20 ≤ n && n ≤ 0x7e then String.singleton c
    else if n < 0x10000 then unitText n
    else
      let m := n - 0x10000
      unitText (0xd800 + m / 0x400) ++ unitText (0xdc00 + m % 0x400)

def quoted (s : String) : String :=
  "\x22" ++ String.join (s.toList.map escape) ++ "\x22"

def floatText (x : Float) : String :=
  if x.isNaN then "NaN"
  else if x.isInf then (if x < 0.0 then "-Infinity" else "Infinity")
  else Number.floatText x

/-- A new line, indented. -/
def newLine (depth : Nat) : String :=
  "\n" ++ String.ofList (List.replicate (2 * depth) ' ')

/-- The text of a value that stands `depth` levels deep. -/
def render (depth : Nat) : Json → String
  | null => "null"
  | bool b => if b then "true" else "false"
  | int n => toString n
  | float x => floatText x
  | text s => quoted s
  | list [] => "[]"
  | list (v :: vs) =>
    "[" ++ newLine (depth + 1) ++ render (depth + 1) v ++ renderMore (depth + 1) vs ++
      newLine depth ++ "]"
  | object [] => "\x7b\x7d"
  | object (f :: fs) =>
    "\x7b" ++ newLine (depth + 1) ++ quoted f.1 ++ ": " ++ render (depth + 1) f.2 ++
      renderFields (depth + 1) fs ++ newLine depth ++ "\x7d"
where
  renderMore (depth : Nat) : List Json → String
    | [] => ""
    | v :: vs => "," ++ newLine depth ++ render depth v ++ renderMore depth vs
  renderFields (depth : Nat) : List (String × Json) → String
    | [] => ""
    | f :: fs =>
      "," ++ newLine depth ++ quoted f.1 ++ ": " ++ render depth f.2 ++ renderFields depth fs

/-! ## Arrays -/

/-- The value that a tree is. -/
def toValue : Json → Run Value
  | null => pure .none
  | bool b => pure (.bool b)
  | int n => pure (.int n)
  | float x => pure (.float x)
  | text s => pure (.text s)
  | list vs => do Run.newList (← allValues vs)
  | object fs => do return .record (← fieldValues fs)
where
  allValues : List Json → Run (List Value)
    | [] => pure []
    | v :: vs => do
      let x ← toValue v
      return x :: (← allValues vs)
  fieldValues : List (String × Json) → Run (List (String × Value))
    | [] => pure []
    | f :: fs => do
      let x ← toValue f.2
      return (f.1, x) :: (← fieldValues fs)

/-- A tree taken apart as an array. -/
def nest : Json → Run Dense.Nest
  | list vs => do Run.ofFault (Dense.joinNests (← nestAll vs))
  | v => do
    let x ← v.toValue
    return ⟨[], [Dense.leafType x], [x]⟩
where
  nestAll : List Json → Run (List Dense.Nest)
    | [] => pure []
    | v :: vs => do
      let n ← nest v
      return n :: (← nestAll vs)

/-- The array that a tree is. -/
def toDense (j : Json) : Run Dense := do
  Run.ofFault (Dense.ofNest (← j.nest))

/-- Cells in row-major order as nested lists. -/
def ofCells : (shape : List Nat) → List Json → Json
  | [], cells => cells.headD .null
  | n :: shape, cells =>
    let size := cellCount shape
    .list ((List.range n).map fun (k : Nat) => ofCells shape ((cells.drop (k * size)).take size))

/-- The tree of a value, if it has one. -/
def ofData? : Data → Except Fault Json
  | .none => .ok .null
  | .bool b => .ok (.bool b)
  | .int n => .ok (.int n)
  | .float x => .ok (.float x)
  | .text s => .ok (.text s)
  | .list vs => do return .list (← allData vs)
  | .tuple vs => do return .list (← allData vs)
  | .record fs => do return .object (← fieldData fs)
  | .scalar (.float .double x) => .ok (.float x)
  | .scalar (.text s) => .ok (.text s)
  | _ => .error .wrongKind
where
  allData : List Data → Except Fault (List Json)
    | [] => .ok []
    | v :: vs => do
      let x ← ofData? v
      return x :: (← allData vs)
  fieldData : List (String × Data) → Except Fault (List (String × Json))
    | [] => .ok []
    | f :: fs => do
      let x ← ofData? f.2
      return (f.1, x) :: (← fieldData fs)

/-- The tree of a cell. -/
def ofCell? (h : Heap) (t : ElemType) (v : Value) : Except Fault Json :=
  match t, v with
  | .object, v => ofData? (v.snapshot h snapshotDepth)
  | _, .scalar (.bool b) => .ok (.bool b)
  | _, .scalar (.int _ n) => .ok (.int n)
  | _, .scalar (.float _ x) => .ok (.float x)
  | _, .scalar (.text s) => .ok (.text s)
  | _, _ => .error .wrongKind

/-- The tree of an array. -/
def ofDense? (h : Heap) (d : Dense) : Except Fault Json := do
  return ofCells d.shape (← d.cells.mapM (ofCell? h d.type))

end Json
end IndexNotation
