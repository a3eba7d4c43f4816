import IndexNotation.Error
import IndexNotation.Syntax.Cursor
import IndexNotation.Syntax.Statement

/-!
# The grammar

```
statement:  target ASSIGN sum clause? tiling?
target:     NAME? "[" list? "]"
list:       sum ("," sum)*
sum:        product (ADD product)*
product:    unary (MUL unary)*
unary:      ADD unary | power
power:      access (POW unary)?
access:     atom ("[" list "]" | "." NAME)*
atom:       NUMBER | NAME | NAME "(" list? ")" | "(" sum ")"
clause:     "(" (ADD | MUL | NAME) ("," item)* ")"
item:       sum | sum "<=" sum ("<=" sum)? | NAME "=" sum
tiling:     "{" list "}"
```

One text can have two readings: a name with parentheses at the very end of the right-hand side may
be a call, or a name that is followed by a clause. The clause wins.

Every function takes fuel, which bounds the depth of the recursion; `parse` supplies more than a
text can use up.
-/

namespace IndexNotation

/-- An expression and where its text starts, parentheses around it included. -/
structure Located where
  expr : Expr
  start : Pos

namespace Grammar

def comma : Terminal := .symbol ","
def openBracket : Terminal := .symbol "["
def closeBracket : Terminal := .symbol "]"
def openParen : Terminal := .symbol "("
def closeParen : Terminal := .symbol ")"
def openBrace : Terminal := .symbol "\x7b"
def closeBrace : Terminal := .symbol "\x7d"
def dot : Terminal := .symbol "."
def atMost : Terminal := .symbol "<="
def equals : Terminal := .symbol "="

/-- The operator of a clause. -/
def clauseOp (c : Cursor) : Except Cursor (Token × Cursor) :=
  match c.take? .addOp with
  | some r => .ok r
  | none =>
    match c.take? .mulOp with
    | some r => .ok r
    | none => c.take .name

mutual

/-- Sums associate to the left. `final` says that the expression ends the right-hand side, so that
a clause may follow. -/
def sum : (fuel : Nat) → (final : Bool) → Cursor → Except Cursor (Located × Cursor)
  | 0, _, c => .error c
  | fuel + 1, final, c => do
    let (left, c) ← product fuel final c
    sumRest fuel final left c

def sumRest : (fuel : Nat) → (final : Bool) → Located → Cursor → Except Cursor (Located × Cursor)
  | 0, _, _, c => .error c
  | fuel + 1, final, left, c =>
    match c.take? .addOp with
    | none => .ok (left, c)
    | some (op, c) => do
      let (right, c) ← product fuel final c
      sumRest fuel final ⟨.binary left.expr (.ofSymbol op.text) right.expr op.pos, left.start⟩ c

def product : (fuel : Nat) → (final : Bool) → Cursor → Except Cursor (Located × Cursor)
  | 0, _, c => .error c
  | fuel + 1, final, c => do
    let (left, c) ← unary fuel final c
    productRest fuel final left c

def productRest : (fuel : Nat) → (final : Bool) → Located → Cursor → Except Cursor (Located × Cursor)
  | 0, _, _, c => .error c
  | fuel + 1, final, left, c =>
    match c.take? .mulOp with
    | none => .ok (left, c)
    | some (op, c) => do
      let (right, c) ← unary fuel final c
      productRest fuel final ⟨.binary left.expr (.ofSymbol op.text) right.expr op.pos, left.start⟩ c

def unary : (fuel : Nat) → (final : Bool) → Cursor → Except Cursor (Located × Cursor)
  | 0, _, c => .error c
  | fuel + 1, final, c =>
    match c.take? .addOp with
    | none => power fuel final c
    | some (op, c) => do
      let (x, c) ← unary fuel final c
      return (⟨.unary (.ofSymbol op.text) x.expr op.pos, op.pos⟩, c)

/-- The exponent is a `unary`, so powers associate to the right. -/
def power : (fuel : Nat) → (final : Bool) → Cursor → Except Cursor (Located × Cursor)
  | 0, _, c => .error c
  | fuel + 1, final, c => do
    let (base, c) ← atom fuel final c
    let (base, c) ← accesses fuel base c
    match c.take? .powOp with
    | none => return (base, c)
    | some (op, c) => do
      let (exponent, c) ← unary fuel final c
      return (⟨.binary base.expr .pow exponent.expr op.pos, base.start⟩, c)

def accesses : (fuel : Nat) → Located → Cursor → Except Cursor (Located × Cursor)
  | 0, _, c => .error c
  | fuel + 1, base, c =>
    match c.take? openBracket with
    | some (_, c) => do
      let (indices, c) ← list fuel c
      let (_, c) ← c.take closeBracket
      accesses fuel ⟨.index base.expr indices base.start, base.start⟩ c
    | none =>
      match c.take? dot with
      | some (_, c) => do
        let (name, c) ← c.take .name
        accesses fuel ⟨.field base.expr name.text base.start, base.start⟩ c
      | none => .ok (base, c)

def atom : (fuel : Nat) → (final : Bool) → Cursor → Except Cursor (Located × Cursor)
  | 0, _, c => .error c
  | fuel + 1, final, c =>
    match c.take? openParen with
    | some (paren, c) => do
      let (x, c) ← sum fuel false c
      let (_, c) ← c.take closeParen
      return (⟨x.expr, paren.pos⟩, c)
    | none =>
      match c.take? .number with
      | some (n, c) => .ok (⟨.number (.numeral n.text) n.pos, n.pos⟩, c)
      | none => do
        let (name, c) ← c.take .name
        let bare : Located × Cursor := (⟨.name name.text name.pos, name.pos⟩, c)
        if c.sees openParen then
          if final then
            match clauses fuel c with
            | .ok _ => return bare
            | .error stop =>
              match call fuel name c with
              | .ok r => return r
              | .error stop' => throw (stop.furthest stop')
          else call fuel name c
        else return bare

/-- The arguments of a call. -/
def call : (fuel : Nat) → Token → Cursor → Except Cursor (Located × Cursor)
  | 0, _, c => .error c
  | fuel + 1, name, c => do
    let (_, c) ← c.take openParen
    let (args, c) ← if c.sees closeParen then pure ([], c) else list fuel c
    let (_, c) ← c.take closeParen
    return (⟨.call name.text args name.pos, name.pos⟩, c)

/-- One or more expressions with commas between them. -/
def list : (fuel : Nat) → Cursor → Except Cursor (List Expr × Cursor)
  | 0, c => .error c
  | fuel + 1, c => do
    let (x, c) ← sum fuel false c
    match c.take? comma with
    | none => return ([x.expr], c)
    | some (_, c) => do
      let (xs, c) ← list fuel c
      return (x.expr :: xs, c)

/-- An item of a reduction clause. -/
def item : (fuel : Nat) → Cursor → Except Cursor (Expr × Cursor)
  | 0, c => .error c
  | fuel + 1, c =>
    match keywordStart c with
    | some (name, c) => do
      let (value, c) ← sum fuel false c
      return (.keyword name.text value.expr name.pos, c)
    | none => do
      let (x, c) ← sum fuel false c
      match c.take? atMost with
      | none => return (x.expr, c)
      | some (_, c) => do
        let (y, c) ← sum fuel false c
        match c.take? atMost with
        | none => return (.compare [x.expr, y.expr] x.start, c)
        | some (_, c) => do
          let (z, c) ← sum fuel false c
          return (.compare [x.expr, y.expr, z.expr] x.start, c)
where
  /-- A name that is followed by an equals sign. -/
  keywordStart (c : Cursor) : Option (Token × Cursor) :=
    match c.take? .name with
    | none => none
    | some (name, c) => (c.take? equals).map fun r => (name, r.2)

/-- The items of a reduction clause, each after a comma. -/
def items : (fuel : Nat) → Cursor → Except Cursor (List Expr × Cursor)
  | 0, c => .error c
  | fuel + 1, c =>
    match c.take? comma with
    | none => .ok ([], c)
    | some (_, c) => do
      let (x, c) ← item fuel c
      let (xs, c) ← items fuel c
      return (x :: xs, c)

def clause : (fuel : Nat) → Cursor → Except Cursor (ReductionClause × Cursor)
  | 0, c => .error c
  | fuel + 1, c => do
    let start := c.skip
    let (_, c) ← c.take openParen
    let (op, c) ← clauseOp c
    let (xs, c) ← items fuel c
    let (_, c) ← c.take closeParen
    return (⟨op.text, xs, start.textTo c, start.pos⟩, c)

def tiling : (fuel : Nat) → Cursor → Except Cursor (TilingClause × Cursor)
  | 0, c => .error c
  | fuel + 1, c => do
    let start := c.skip
    let (_, c) ← c.take openBrace
    let (xs, c) ← list fuel c
    let (_, c) ← c.take closeBrace
    return (⟨xs, start.textTo c, start.pos⟩, c)

/-- A reduction clause, a tiling clause if there is one, and the end of the text. -/
def clauses : (fuel : Nat) → Cursor → Except Cursor ((ReductionClause × Option TilingClause) × Cursor)
  | 0, c => .error c
  | fuel + 1, c => do
    let (reduction, c) ← clause fuel c
    let (tiles, c) ← tilingEnd fuel c
    return ((reduction, tiles), c)

/-- A tiling clause if there is one, and the end of the text. -/
def tilingEnd : (fuel : Nat) → Cursor → Except Cursor (Option TilingClause × Cursor)
  | 0, c => .error c
  | fuel + 1, c => do
    let (tiles, c) ←
      if c.sees openBrace then do
        let (t, c) ← tiling fuel c
        pure (some t, c)
      else pure (none, c)
    c.finish
    return (tiles, c)

end

def target (fuel : Nat) (c : Cursor) : Except Cursor (Target × Cursor) := do
  let start := c.skip
  let (name, c) := match c.take? .name with
    | some (name, c) => (some name.text, c)
    | none => (none, c)
  let (_, c) ← c.take openBracket
  let (indices, c) ← if c.sees closeBracket then pure ([], c) else list fuel c
  let (_, c) ← c.take closeBracket
  return (⟨name, indices, start.pos⟩, c)

def assign (c : Cursor) : Except Cursor (Assign × Cursor) := do
  let (op, c) ← c.take .assign
  let op := match op.text with
    | ":=" => Assign.define
    | "+=" => .add
    | "-=" => .sub
    | "*=" => .mul
    | _ => .store
  return (op, c)

/-- A whole statement; number texts are not read yet. -/
def statement (fuel : Nat) (text : String) : Except Cursor Statement := do
  let (target, c) ← target fuel (.ofText text)
  let (op, c) ← assign c
  let (rhs, c) ← sum fuel true c
  if c.sees openParen then
    let ((reduction, tiles), _) ← clauses fuel c
    return ⟨target, op, rhs.expr, some reduction, tiles, Text.trim text, target.pos⟩
  else
    let (tiles, _) ← tilingEnd fuel c
    return ⟨target, op, rhs.expr, none, tiles, Text.trim text, target.pos⟩

end Grammar

/-- Fuel for a text: no function of the grammar calls another one ten times without reading a
character. -/
def fuelFor (text : String) : Nat :=
  10 * text.length + 20

/-- Where reading stopped, in the words of a message. The end of the text counts as its start. -/
def Cursor.location (text : String) (c : Cursor) : Location :=
  let p : Pos := if c.rest.isEmpty then ⟨1, 1⟩ else c.pos
  .ofPos text (some p)

/-- Reads the numbers of a statement up to the clauses. -/
def Statement.readBody (s : Statement) : Except NumeralFault Statement := do
  let indices ← Expr.readNumbers.readAll s.target.indices
  let rhs ← s.rhs.readNumbers
  return { s with target := { s.target with indices }, rhs }

/-- Reads the numbers of the clauses of a statement. -/
def Statement.readClauses (s : Statement) : Except NumeralFault Statement := do
  let reduction ← s.reduction.mapM fun r => do
    return { r with items := ← Expr.readNumbers.readAll r.items }
  let tiling ← s.tiling.mapM fun t => do
    return { t with items := ← Expr.readNumbers.readAll t.items }
  return { s with reduction, tiling }

/-- An array without a name can only be a new one. -/
def Statement.checkTarget (text : String) (s : Statement) : Except Error PUnit :=
  if s.target.name.isNone && s.op != .define then
    let location := Location.ofPos text s.pos
    .error (.parse (.anonymousTarget s.target.text)
      { location with lineText := some (location.lineText.getD "") })
  else .ok ⟨⟩

/-- The statement as it is written, before updating assignments are replaced. -/
def Statement.parseWritten (text : String) : Except Error Statement := do
  let s ← (Grammar.statement (fuelFor text) text).mapError fun c =>
    .parse (.unexpected text) (c.location text)
  let s ← s.readBody.mapError fun f => .parse (.numeral f) .unknown
  s.checkTarget text
  s.readClauses.mapError fun f => .parse (.numeral f) .unknown

/-- The statement that a text spells. -/
def Statement.parse (text : String) : Except Error Statement := do
  return (← Statement.parseWritten text).desugar

end IndexNotation
