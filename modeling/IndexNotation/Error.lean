import IndexNotation.Range
import IndexNotation.Syntax.Numeral
import IndexNotation.Text.Blank

/-!
# Errors

What can go wrong, as causes. The wording of every message is in this module.
-/

namespace IndexNotation

/-- Where in the text an error was found; each part may be unknown. -/
structure Location where
  line : Option Int := none
  column : Option Int := none
  lineText : Option String := none
deriving Repr, DecidableEq

namespace Location

def unknown : Location := {}

/-- The line and the column in parentheses. -/
def place (l : Location) : String :=
  let parts := (l.line.map fun n => "line " ++ toString n).toList ++
    (l.column.map fun n => "col " ++ toString n).toList
  if parts.isEmpty then "" else " (" ++ ", ".intercalate parts ++ ")"

/-- The place, followed by the line and a caret below the column if both are known. -/
def text (l : Location) : String :=
  match l.line, l.column, l.lineText with
  | none, none, _ => ""
  | _, some column, some line =>
    if column < 1 then l.place
    else
      l.place ++ "\n  " ++ line ++ "\n  " ++
        String.ofList (List.replicate (column - 1).toNat ' ') ++ "^"
  | _, _, _ => l.place

/-- The place of a position in a text. -/
def ofPos (source : String) (p : Option Pos) : Location :=
  match p with
  | none => {}
  | some p => ⟨some p.line, some p.column, Text.line? source p.line⟩

end Location

/-- Why a text is no statement, or its clauses say nothing sensible. -/
inductive ParseCause where
  /-- The text does not follow the grammar. -/
  | unexpected (text : String)
  | numeral (fault : NumeralFault)
  | anonymousTarget (target : String)
  | rejectedOperator (op clause : String)
  | unrollWidth (item : String)
  | strayItem (item clause : String)
  | strayBound (item clause : String)
  | listedTwice (index clause : String)
  | strayTiling (clause : String)
  | tileSize (clause : String)
  | tiledTwice (index clause : String)
  | noTileIndices (clause : String)
  | notAnIndex (target item : String)
  | fixedPosition (item target : String)
  /-- A cause in words of its own. -/
  | stated (message : String)
deriving Repr, DecidableEq

def ParseCause.message : ParseCause → String
  | unexpected text => "Syntax error while parsing " ++ Text.quoted (Text.trim text)
  | numeral fault =>
    "Error trying to process rule \"number\":\n\n" ++ fault.message ++ " (<unknown>, line 1)"
  | anonymousTarget target => "anonymous output " ++ target ++ " requires \x27:=\x27"
  | rejectedOperator op clause =>
    "reduction operator must be associative and commutative, got " ++ Text.quoted op ++ " in " ++
      clause
  | unrollWidth item => "unroll width must be a positive integer, got " ++ item
  | strayItem item clause =>
    "expected something like (+, i, j, unroll, k) but got " ++ Text.quoted item ++ " in " ++ clause
  | strayBound item clause =>
    "expected \x27j <= M\x27 or \x27N <= j <= M\x27 but got " ++ Text.quoted item ++ " in " ++ clause
  | listedTwice index clause => "reduction index " ++ index ++ " listed twice in " ++ clause
  | strayTiling clause => "expected something like \x7btile(128), i, j\x7d but got " ++ clause
  | tileSize clause => "tile size must be positive in " ++ clause
  | tiledTwice index clause => "index " ++ index ++ " tiled twice in " ++ clause
  | noTileIndices clause => "tiling clause names no indices: " ++ clause
  | notAnIndex target item => "can\x27t understand LHS " ++ target ++ ": " ++ item ++ " is not an index"
  | fixedPosition item target =>
    "only \x27_\x27 may fix a position of a new array, got " ++ item ++ " in " ++ target
  | stated message => message

/-- Why a range cannot be found or does not fit. -/
inductive ShapeCause where
  | emptyFirst
  /-- An array of the given shape has too few dimensions. -/
  | noDimension (shape : String) (dim : Nat)
  /-- A value of the given type has no length. -/
  | noLength (type : String) (dim : Nat)
  | unknownRange (index source : String)
  | unknownTile (indices : List String) (source : String)
  | emptyRange (index : String)
deriving Repr, DecidableEq

def ShapeCause.message : ShapeCause → String
  | emptyFirst => "cannot take the first element of an empty array"
  | noDimension shape dim => "array of shape " ++ shape ++ " has no dimension " ++ toString dim
  | noLength type dim => "value of type " ++ type ++ " has no dimension " ++ toString dim
  | unknownRange index source =>
    "cannot infer the range of index " ++ index ++ ": it indexes no array in " ++ source
  | unknownTile indices source =>
    "tiled index " ++ ", ".intercalate indices ++ " does not appear in " ++ source
  | emptyRange index => "cannot infer the element type: range of index " ++ index ++ " is empty"

/-- Why a name cannot be used. -/
inductive BindingCause where
  | unbound (name : String)
  | notCallable (name : String)
  | missingOutput (name : String)
deriving Repr, DecidableEq

def BindingCause.message : BindingCause → String
  | unbound name => "name " ++ Text.quoted name ++ " is not bound; pass it as a keyword argument"
  | notCallable name => Text.quoted name ++ " is called in the expression but is not callable"
  | missingOutput name =>
    "output array " ++ Text.quoted name ++ " must be passed to update it in place"

/-- What an operation on values can fail with. -/
inductive Fault where
  /-- A position outside a sequence, or a key that is none. -/
  | outOfBounds
  /-- A name or operator that is not in a table. -/
  | missingKey
  /-- An operation that the kind of value does not have. -/
  | wrongKind
  /-- A function of cells that has no rule for cells of the type. -/
  | noRule
  /-- A value that the operation does not take. -/
  | badValue
  | overflow
  | divisionByZero
  | noSuchField
  | noSuchAxis
  /-- A text that is not in the notation of data files. -/
  | malformedData
  /-- The file system refused a path. -/
  | badPath
  /-- A directory stands where a file is asked for. -/
  | isDirectory
  /-- A file stands where a directory is asked for, in the middle of a path or at its end. -/
  | notDirectory
  | fileExists
  | memoryExhausted
  /-- A supplied function failed on its own account. -/
  | raised (message : String)
  | unknownMode (mode : String)
  | nonPositiveWorkers
  /-- A tree that is no expression was to be evaluated. -/
  | notEvaluable (kind text : String)
deriving Repr, DecidableEq

/-- The words of a failure, for those that have words of their own. -/
def Fault.message? : Fault → Option String
  | raised message => some message
  | unknownMode mode => some ("Unsupported execution mode: " ++ mode)
  | nonPositiveWorkers => some "workers must be positive when provided"
  | notEvaluable kind text => some ("cannot evaluate " ++ kind ++ ": " ++ text)
  | _ => none

inductive Error where
  | parse (cause : ParseCause) (location : Location)
  | shape (cause : ShapeCause)
  /-- Two derivations of one index disagree. -/
  | axisMismatch (index : String) (expected actual : Range)
  /-- The listed reduction indices are not those of the right-hand side. -/
  | incomplete (expected missing extra : List String) (source : String)
  /-- Indices are both tiled and unrolled. -/
  | ambiguous (indices : List String) (source : String)
  | binding (cause : BindingCause)
  | fault (cause : Fault)
deriving Repr, DecidableEq

namespace Error

def message? : Error → Option String
  | parse cause location => some (cause.message ++ location.text)
  | shape cause => some cause.message
  | axisMismatch index expected actual =>
    some ("range of index " ++ index ++ " must agree: " ++ expected.text ++ " != " ++ actual.text)
  | incomplete expected missing extra source =>
    let details :=
      (if missing.isEmpty then [] else ["missing " ++ ", ".intercalate missing]) ++
      (if extra.isEmpty then [] else ["not reduction indices: " ++ ", ".intercalate extra])
    some ("if you give any reduction indices, you must give them all: expected \x7b" ++
      ", ".intercalate expected ++ "\x7d (" ++ "; ".intercalate details ++ ") in " ++ source)
  | ambiguous indices source =>
    some ("index " ++ ", ".intercalate indices ++ " cannot be both tiled and unrolled in " ++ source)
  | binding cause => some cause.message
  | fault cause => cause.message?

/-- Whether an error is one of the notation itself, and not of the values it is applied to. -/
def isOwn : Error → Bool
  | fault _ => false
  | _ => true

end Error

end IndexNotation
