import IndexNotation.Command.Invocation
import IndexNotation.Format.Archive

/-!
# The command line

Reads the files that the arguments name, invokes, and carries out what comes of it.
-/

namespace IndexNotation.Command

/-- What is in a file. Bytes that are not what the ending of the path promises are no array. -/
def Content.ofBytes (path : String) (bytes : ByteArray) : Content :=
  match (Path.ofString path).ending.toLower with
  | ".npy" => ((ArrayFile.decode? bytes.toList).map Content.array).getD (.text "")
  | ".npz" => ((Archive.decode? bytes.toList).map Content.archive).getD (.text "")
  | _ => .text ((String.fromUTF8? bytes).getD "")

def Content.toBytes : Content → ByteArray
  | .text s => s.toUTF8
  | .array d => (ArrayFile.encode d).toByteArray
  | .archive arrays => (Archive.encode arrays).toByteArray

/-- Adds what stands at a path, if anything does. -/
def look (fs : Files) (path : String) : IO Files := do
  let path := (Path.ofString path).text
  try
    let bytes ← IO.FS.readBinFile path
    return { fs with files := (path, .ofBytes path bytes) :: fs.files }
  catch e =>
    match e with
    | .inappropriateType .. => return { fs with directories := path :: fs.directories }
    | _ => return fs

/-- Writes a file, and makes the directories that it is in. -/
def save (path : String) (c : Content) : IO Unit := do
  IO.FS.createDirAll (Path.ofString path).parent.text
  IO.FS.writeBinFile path c.toBytes

/-- What is told about an error. -/
def Exit.words : Exit → String
  | .message text => text
  | .failure e => e.message?.getD "the values do not fit the statement"
  | _ => ""

/-- Invokes the command line and says with which code it ends. -/
def execute (argv : List String) : IO UInt32 := do
  let fs ← (paths argv).foldlM look {}
  let o := invoke fs argv
  IO.print o.output
  IO.eprint o.report
  for f in o.files do
    save f.1 f.2
  match o.exit with
  | .success => return 0
  | .misuse => return 2
  | e =>
    IO.eprintln e.words
    return 1

end IndexNotation.Command

def main (argv : List String) : IO UInt32 :=
  IndexNotation.Command.execute argv
