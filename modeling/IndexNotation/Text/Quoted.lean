import IndexNotation.Text.Printable

/-!
# Quoted text

Text is quoted with single quotes, or with double quotes when it holds a single quote and no
double one. The quote in use, the backslash, and every character that is not printable are
escaped.
-/

namespace IndexNotation.Text

/-- `n` in base 16 with lower-case digits and at least `width` places. -/
def hex (width n : Nat) : String :=
  let digits := Nat.toDigits 16 n
  String.ofList (List.replicate (width - digits.length) '0' ++ digits)

/-- A character inside quotes `q`. -/
def escape (q c : Char) : String :=
  if c == q || c == '\\' then String.ofList ['\\', c]
  else if c == '\n' then "\\n"
  else if c == '\r' then "\\r"
  else if c == '\t' then "\\t"
  else if isPrintable c then String.singleton c
  else
    let n := c.toNat
    if n < 0x100 then "\\x" ++ hex 2 n
    else if n < 0x10000 then "\\u" ++ hex 4 n
    else "\\U" ++ hex 8 n

/-- The quote for a text: double only if the text holds a single quote and no double one. -/
def quoteFor (s : String) : Char :=
  if s.toList.contains '\x27' && !s.toList.contains '\x22' then '\x22' else '\x27'

/-- Text in quotes, with escapes. -/
def quoted (s : String) : String :=
  let q := quoteFor s
  String.singleton q ++ String.join (s.toList.map (escape q)) ++ String.singleton q

/-- A list of texts in brackets, each quoted. -/
def quotedList (xs : List String) : String :=
  "[" ++ ", ".intercalate (xs.map quoted) ++ "]"

/-- The items of a tuple in parentheses; a single item is followed by a comma. -/
def tupleText : List String → String
  | [] => "()"
  | [s] => "(" ++ s ++ ",)"
  | ss => "(" ++ ", ".intercalate ss ++ ")"

end IndexNotation.Text
