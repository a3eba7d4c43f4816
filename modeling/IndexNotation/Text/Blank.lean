/-!
# Blanks and lines

The characters that trimming removes, and the characters that end a line. A line end is a blank,
but not the other way round.
-/

namespace IndexNotation.Text

/-- A character that trimming removes: white space of any script and the four separators
U+001C to U+001F. -/
def isBlank (c : Char) : Bool :=
  let n := c.toNat
  (0x9 ≤ n && n ≤ 0xd) || (0x1c ≤ n && n ≤ 0x20) || n == 0x85 || n == 0xa0 || n == 0x1680 ||
    (0x2000 ≤ n && n ≤ 0x200a) || n == 0x2028 || n == 0x2029 || n == 0x202f || n == 0x205f ||
    n == 0x3000

/-- A character that ends a line. A carriage return followed by a line feed ends one line. -/
def isLineEnd (c : Char) : Bool :=
  let n := c.toNat
  (0xa ≤ n && n ≤ 0xd) || (0x1c ≤ n && n ≤ 0x1e) || n == 0x85 || n == 0x2028 || n == 0x2029

/-- Text without the blanks at its two ends. -/
def trimChars (cs : List Char) : List Char :=
  (((cs.dropWhile isBlank).reverse).dropWhile isBlank).reverse

/-- Text without the blanks at its two ends. -/
def trim (s : String) : String :=
  String.ofList (trimChars s.toList)

/-- The lines of a text; `line` holds the characters of the line that is being read, last first.
Text that ends in a line end has no empty line after it. -/
def splitLines : (line : List Char) → List Char → List (List Char)
  | [], [] => []
  | line, [] => [line.reverse]
  | line, '\r' :: '\n' :: rest => line.reverse :: splitLines [] rest
  | line, c :: rest =>
    if isLineEnd c then line.reverse :: splitLines [] rest else splitLines (c :: line) rest

/-- The lines of a text, without their ends. -/
def lines (s : String) : List String :=
  (splitLines [] s.toList).map String.ofList

/-- Line `n` of a text, counting from one. -/
def line? (s : String) (n : Int) : Option String :=
  if 1 ≤ n then (lines s)[(n - 1).toNat]? else none

end IndexNotation.Text
