import IndexNotation.Syntax.Expr
import IndexNotation.Text.Digit

/-!
# Terminals

A cursor stands in front of the text that is left to read. A terminal takes the longest piece of
text that belongs to it, after the blanks in front of it; what a terminal is depends on nothing but
the text, and which terminal is asked for depends on the grammar alone.
-/

namespace IndexNotation

structure Cursor where
  rest : List Char
  pos : Pos
deriving Repr, DecidableEq

/-- The position after a character. -/
def Pos.after (p : Pos) (c : Char) : Pos :=
  if c == '\n' then ⟨p.line + 1, 1⟩ else ⟨p.line, p.column + 1⟩

namespace Cursor

def ofText (text : String) : Cursor := ⟨text.toList, ⟨1, 1⟩⟩

/-- The cursor `n` characters further on. -/
def advance : Nat → Cursor → Cursor
  | n + 1, ⟨c :: cs, p⟩ => advance n ⟨cs, p.after c⟩
  | _, c => c

/-- The characters between two cursors of one text. -/
def textTo (start stop : Cursor) : String :=
  String.ofList (start.rest.take (start.rest.length - stop.rest.length))

/-- Of two cursors of one text, the one further on. -/
def furthest (a b : Cursor) : Cursor :=
  if b.rest.length < a.rest.length then b else a

end Cursor

/-- White space that may stand between terminals. -/
def isSpace (c : Char) : Bool :=
  c == ' ' || c == '\t' || c == '\x0c' || c == '\r' || c == '\n'

/-- The cursor after the white space in front of it. -/
def Cursor.skip (c : Cursor) : Cursor :=
  c.advance (c.rest.takeWhile isSpace).length

/-- How many characters at the front of a text belong to a terminal; zero if it does not start
there. -/
abbrev Terminal := List Char → Nat

namespace Terminal

/-- The first of the given symbols that the text starts with. -/
def symbols (ss : List String) : Terminal := fun cs =>
  match ss.find? fun s => s.toList.isPrefixOf cs with
  | some s => s.length
  | none => 0

def symbol (s : String) : Terminal := symbols [s]

def isNameStart (c : Char) : Bool :=
  c.isAlpha || c == '_'

def isNamePart (c : Char) : Bool :=
  c.isAlphanum || c == '_'

/-- The two characters that prime a name. -/
def isPrime (c : Char) : Bool :=
  c == '\x27' || c == '′'

/-- A letter or underscore, then letters, digits and underscores, then primes. -/
def name : Terminal
  | [] => 0
  | c :: cs =>
    if isNameStart c then
      1 + (cs.takeWhile isNamePart).length + ((cs.dropWhile isNamePart).takeWhile isPrime).length
    else 0

/-- Digits with an optional point, or a point followed by digits. -/
def mantissa : Terminal := fun cs =>
  let whole := (cs.takeWhile Text.isDigit).length
  match cs.dropWhile Text.isDigit with
  | '.' :: rest =>
    let fraction := (rest.takeWhile Text.isDigit).length
    if whole == 0 && fraction == 0 then 0 else whole + 1 + fraction
  | _ => whole

/-- `e` or `E`, a sign if any, and digits. -/
def exponent : Terminal
  | [] => 0
  | c :: cs =>
    if c == 'e' || c == 'E' then
      let sign := if cs.head?.any fun s => s == '+' || s == '-' then 1 else 0
      let digits := ((cs.drop sign).takeWhile Text.isDigit).length
      if digits == 0 then 0 else 1 + sign + digits
    else 0

def number : Terminal := fun cs =>
  let n := mantissa cs
  if n == 0 then 0 else n + exponent (cs.drop n)

def assign : Terminal := symbols [":=", "+=", "-=", "*=", "="]
def addOp : Terminal := symbols ["+", "-"]
def mulOp : Terminal := symbols ["//", "*", "/", "%"]
def powOp : Terminal := symbols ["**", "^"]

end Terminal

/-- A terminal as it stands in the text. -/
structure Token where
  text : String
  pos : Pos
deriving Repr, DecidableEq

/-- Takes a terminal after the white space in front of it. -/
def Cursor.take? (t : Terminal) (c : Cursor) : Option (Token × Cursor) :=
  let c := c.skip
  let n := t c.rest
  if n == 0 then none else some (⟨String.ofList (c.rest.take n), c.pos⟩, c.advance n)

/-- Takes a terminal, or fails where it should have been. -/
def Cursor.take (t : Terminal) (c : Cursor) : Except Cursor (Token × Cursor) :=
  match c.take? t with
  | some r => .ok r
  | none => .error c.skip

/-- Whether a terminal stands next. -/
def Cursor.sees (t : Terminal) (c : Cursor) : Bool :=
  (c.take? t).isSome

/-- Nothing but white space is left. -/
def Cursor.finish (c : Cursor) : Except Cursor PUnit :=
  if c.skip.rest.isEmpty then .ok ⟨⟩ else .error c.skip

end IndexNotation
