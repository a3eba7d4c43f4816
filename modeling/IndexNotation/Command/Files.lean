import IndexNotation.Error
import IndexNotation.Format.Json
import IndexNotation.Format.Table

/-!
# Files

The files that the command line reads and writes, by their paths. How an array is kept in a file
depends on the ending of the path.
-/

namespace IndexNotation.Command

inductive Content where
  | text (s : String)
  | array (d : Dense)
  /-- Several arrays, each with a name. -/
  | archive (arrays : List (String × Dense))

/-! ## Paths -/

/-- A path: whether it starts at the top, and the names on it. -/
structure Path where
  absolute : Bool
  names : List String
deriving Repr, DecidableEq

namespace Path

def ofString (s : String) : Path :=
  let parts := (s.toList.splitOnP (· == '/')).map String.ofList
  ⟨(s.toList.headD ' ') == '/', parts.filter fun p => p != "" && p != "."⟩

def text (p : Path) : String :=
  let names := "/".intercalate p.names
  if p.absolute then "/" ++ names else if p.names.isEmpty then "." else names

def name (p : Path) : String := p.names.getLastD ""

def parent (p : Path) : Path := { p with names := p.names.dropLast }

def child (p : Path) (name : String) : Path := { p with names := p.names ++ [name] }

/-- Whether a path is on the way to another one, or the same. -/
def leadsTo (p q : Path) : Bool :=
  p.absolute == q.absolute && p.names.isPrefixOf q.names

/-- The path with a text added to its last name. -/
def extend (p : Path) (s : String) : Path :=
  { p with names := p.names.dropLast ++ [(if p.names.isEmpty then "." else p.name) ++ s] }

/-- The ending of the last name, with its point. A name that only starts or ends with a point has
none. -/
def ending (p : Path) : String :=
  let cs := p.name.toList
  let tail := (cs.reverse.takeWhile (· != '.')).reverse
  if tail.length + 1 < cs.length && !tail.isEmpty then String.ofList ('.' :: tail) else ""

def endsWith (p : Path) (s : String) : Bool :=
  s.toList.reverse.isPrefixOf p.text.toList.reverse

end Path

/-! ## Looking up paths -/

/-- What stands at a path. -/
inductive Place where
  | missing
  | directory
  | file (c : Content)

/-- The longest name, and the longest path, in bytes. -/
def maxNameBytes : Nat := 255
def maxPathBytes : Nat := 4095

/-- What is there. A directory is there, too, if something is in it. -/
structure Files where
  files : List (String × Content) := []
  directories : List String := []

namespace Files

/-- What stands at a path, if all names on it are directories but the last. -/
def lookup (fs : Files) (p : Path) : Place :=
  if p.names.isEmpty then .directory
  else
    match fs.files.find? fun f => Path.ofString f.1 == p with
    | some f => .file f.2
    | none =>
      if (fs.files.map (·.1) ++ fs.directories).any (p.leadsTo <| Path.ofString ·) then .directory
      else .missing

/-- Follows names one after another from a directory. A name that is too long is refused. -/
def walk (fs : Files) (p : Path) : List String → Except Fault Place
  | [] => .ok (fs.lookup p)
  | n :: rest =>
    if maxNameBytes < n.utf8ByteSize then .error .badPath
    else
      let p := if n == ".." then p.parent else p.child n
      match fs.lookup p with
      | .missing => .ok .missing
      | .file c => .ok (if rest.isEmpty then .file c else .missing)
      | .directory => fs.walk p rest

/-- What stands at a path. -/
def find (fs : Files) (p : Path) : Except Fault Place :=
  if p.text.toList.contains '\x00' then .ok .missing
  else if maxPathBytes < p.text.utf8ByteSize then .error .badPath
  else
    match fs.lookup p with
    | .file c => .ok (.file c)
    | _ => fs.walk { p with names := [] } p.names

/-! ## Arrays in files -/

/-- An array that is read without trusting the file holds no objects. -/
def plainArray (d : Dense) : Run Dense :=
  if d.type == .object then Run.fail .badValue else pure d

/-- The array in a text that is in the notation of data files. -/
def readJson (s : String) : Run Dense :=
  match Json.read? s with
  | some j => j.toDense
  | none => Run.fail .malformedData

/-- The array in a file, by the ending of its path. -/
def readContent (p : Path) (c : Content) : Run Dense :=
  match p.ending.toLower, c with
  | ".npy", .array d => plainArray d
  | ".npz", .archive arrays =>
    match arrays with
    | [] => Run.fail .outOfBounds
    | a :: _ => plainArray a.2
  | ".npy", _ | ".npz", _ => Run.fail .badValue
  | ".json", .text s => readJson s
  | _, .text s => Run.ofFault (Table.read s)
  | _, _ => Run.fail .badValue

/-- The array that a text stands for: the one in the file it names, if there is such a file, and
otherwise the one it spells. -/
def readArray (fs : Files) (s : String) : Run Dense := do
  let p := Path.ofString s
  match ← Run.ofFault (fs.find p) with
  | .file c => readContent p c
  | .directory => Run.fail .isDirectory
  | .missing => readJson s

/-! ## Writing -/

/-- Fails if a directory cannot be made, together with those it is in. -/
def checkDirectory (fs : Files) (p : Path) : Except Fault PUnit :=
  (List.range p.names.length).forM fun (k : Nat) => do
    let q : Path := { p with names := p.names.take (k + 1) }
    if maxNameBytes < q.name.utf8ByteSize then throw .badPath
    match fs.lookup q with
    | .file _ => throw (if q == p then .fileExists else .notDirectory)
    | _ => pure ()

/-- Fails if there can be no file at a path. -/
def checkFile (fs : Files) (p : Path) : Except Fault PUnit := do
  if maxNameBytes < p.name.utf8ByteSize then throw .badPath
  match fs.lookup p with
  | .directory => throw .isDirectory
  | _ => pure ()

/-- The file for an array, by the ending of the path. -/
def encode (h : Heap) (p : Path) (d : Dense) : Except Fault (Path × Content) := do
  let lower := Path.ofString p.text.toLower
  if lower.endsWith ".npz" then
    return (if p.endsWith ".npz" then p else p.extend ".npz", .archive [("arr_0", d)])
  else if lower.endsWith ".json" then
    return (p, .text ((← Json.ofDense? h d).render 0))
  else
    return (if p.endsWith ".npy" then p else p.extend ".npy", .array d)

/-- The file that an array is written to. -/
def write (fs : Files) (h : Heap) (out : String) (d : Dense) : Except Fault (String × Content) := do
  let p := Path.ofString out
  fs.checkDirectory p.parent
  let (p, c) ← encode h p d
  fs.checkFile p
  return (p.text, c)

end Files
end IndexNotation.Command
