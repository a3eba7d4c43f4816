import IndexNotation.Format.Column
import IndexNotation.Value.Access

/-!
# Arrays as text

An array is listed row by row in brackets. Rows that are too long are continued on the next line,
and of large arrays only the first and last cells of each dimension are shown.
-/

namespace IndexNotation.Listing

/-- The width of a line. -/
def lineWidth : Nat := 75

/-- An array with more cells is shortened. -/
def threshold : Nat := 1000

/-- How many cells are shown at either end of a dimension that is shortened. -/
def edge : Nat := 3

/-! ## Cells -/

/-- The text of a value on its own. -/
def valueText (h : Heap) : Value → String
  | .text s => s
  | .scalar s => s.toText
  | v => v.describe h 20

/-- The text of a cell that can hold anything. -/
def objectText (h : Heap) : Value → String
  | .list b => "list(" ++ (Value.list b).describe h 20 ++ ")"
  | v => v.describe h 20

def floatOf : Value → Float
  | .scalar s => s.realPart
  | _ => 0.0

def complexOf : Value → Number.ComplexFloat
  | .scalar s => s.complexPart
  | _ => ⟨0.0, 0.0⟩

/-- Puts a mark before the blanks at the end of a text. -/
def markEnd (mark : String) (s : String) : String :=
  let blanks := (s.toList.reverse.takeWhile (· == ' ')).length
  String.ofList (s.toList.take (s.length - blanks)) ++ mark ++
    String.ofList (List.replicate blanks ' ')

/-- How the cells of an array are written, so that they fill columns; `shown` are the cells that
will be written. -/
def cellText (h : Heap) (t : ElemType) (shown : List Value) : Value → String :=
  match t with
  | .bool => fun v =>
    match v with
    | .scalar (.bool true) => " True"
    | _ => "False"
  | .int _ =>
    let width := Column.maxOf (shown.map fun v => (valueText h v).length)
    fun v => padLeft width (valueText h v)
  | .float t =>
    let column := Column.ofFloats t false (shown.map floatOf)
    fun v => column.text t (floatOf v)
  | .complex t =>
    let re := Column.ofFloats t false (shown.map fun v => (complexOf v).re)
    let im := Column.ofFloats t true (shown.map fun v => (complexOf v).im)
    fun v => re.text t (complexOf v).re ++ markEnd "j" (im.text t (complexOf v).im)
  | .text _ => fun v => Text.quoted (valueText h v)
  | .object => objectText h

/-! ## Rows -/

/-- Lines that are finished, and the line that is being filled. -/
structure Lines where
  done : String
  line : String

def trimRight (s : String) : String :=
  String.ofList (s.toList.reverse.dropWhile Text.isBlank).reverse

/-- Adds a word, on a new line if the line is full. -/
def Lines.add (width : Nat) (indent : String) (l : Lines) (word : String) : Lines :=
  if width < l.line.length + word.length && indent.length < l.line.length then
    ⟨l.done ++ trimRight l.line ++ "\n", indent ++ word⟩
  else ⟨l.done, l.line ++ word⟩

/-- A row of words. -/
def row (width : Nat) (indent : String) : Lines → List String → String
  | l, [] => l.done ++ l.line
  | l, [w] => let l := l.add width indent w; l.done ++ l.line
  | l, w :: ws =>
    let l := l.add width indent w
    row width indent ⟨l.done, l.line ++ " "⟩ ws

/-- The positions of a dimension that are shown; `none` stands for those that are not. -/
def positions (shorten : Bool) (n : Nat) : List (Option Nat) :=
  if shorten && 2 * edge < n then
    (List.range edge).map some ++ [none] ++ (List.range' (n - edge) edge).map some
  else (List.range n).map some

/-- What is written for the positions that are not shown. -/
def gap : String := "..."

/-- The cells from `start` on in brackets. -/
def block (shorten : Bool) (word : Nat → String) :
    (shape : List Nat) → (start : Nat) → (indent : String) → (width : Nat) → String
  | [], start, _, _ => word start
  | [n], start, indent, width =>
    let words := (positions shorten n).map fun p =>
      match p with
      | some k => word (start + k)
      | none => gap
    "[" ++ String.ofList ((row (width - 1) indent ⟨"", indent⟩ words).toList.drop indent.length) ++ "]"
  | n :: shape, start, indent, width =>
    let parts := (positions shorten n).map fun p =>
      match p with
      | some k => block shorten word shape (start + k * cellCount shape) (indent ++ " ") (width - 1)
      | none => gap
    let newLines := String.ofList (List.replicate shape.length '\n')
    "[" ++ (newLines ++ indent).intercalate parts ++ "]"

/-- The places of the cells that are shown. -/
def shownPlaces (shorten : Bool) : (shape : List Nat) → (start : Nat) → List Nat
  | [], start => [start]
  | n :: shape, start =>
    (positions shorten n).flatMap fun p =>
      match p with
      | some k => shownPlaces shorten shape (start + k * cellCount shape)
      | none => []

/-- The text of an array. -/
def text (h : Heap) (d : Dense) : String :=
  match d.shape, d.cells with
  | [], v :: _ => valueText h v
  | shape, cells =>
    if cells.isEmpty then "[]"
    else
      let shorten := threshold < cells.length
      let cells := cells.toArray
      let cell (k : Nat) : Value := cells.getD k .none
      let write := cellText h d.type ((shownPlaces shorten shape 0).map cell)
      block shorten (fun k => write (cell k)) shape 0 " " lineWidth

end IndexNotation.Listing
