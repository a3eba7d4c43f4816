import IndexNotation.Number.Reader
import IndexNotation.Text.Digit
import IndexNotation.Value.Dense

/-!
# Tables of numbers

A table has a row of numbers on each line, divided by blanks. A number sign starts a comment, and
lines with no number on them do not count.
-/

namespace IndexNotation.Table

/-- The lines of a table. -/
def lines (cs : List Char) : List (List Char) :=
  cs.splitOnP fun c => c == '\n' || c == '\r'

/-- The words of a line, up to a comment. -/
def words (line : List Char) : List (List Char) :=
  ((line.takeWhile (· != '#')).splitOnP Text.isBlank).filter (!·.isEmpty)

/-- A number is plain: it has neither digits of other scripts nor marks between its digits. -/
def number? (word : List Char) : Option Float :=
  if word.all fun c => c.toNat < 128 && c != '_' then Number.readFloat? (String.ofList word)
  else none

/-- The shape of a table without the dimensions of length one. At least one dimension is left. -/
def shapeOf (rows columns : Nat) : List Nat :=
  if rows == 1 then [columns] else if columns == 1 then [rows] else [rows, columns]

/-- The array of a table. All rows have to have the same length. -/
def read (s : String) : Except Fault Dense :=
  let rows := ((lines s.toList).map words).filter (!·.isEmpty)
  match rows with
  | [] => .ok ⟨.float .double, [0], []⟩
  | first :: rest =>
    if rest.all (·.length == first.length) then
      match (rows.flatten).mapM number? with
      | some xs => .ok ⟨.float .double, shapeOf rows.length first.length,
          xs.map fun x => .scalar (.float .double x)⟩
      | none => .error .badValue
    else .error .badValue

end IndexNotation.Table
