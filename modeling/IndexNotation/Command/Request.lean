import IndexNotation.Command.Arguments
import IndexNotation.Number.Reader

/-!
# Requests

What the command line can be asked for: to run a statement on arrays, to print its loops, or to
say how it is used.
-/

namespace IndexNotation.Command

structure Settings where
  threads : Bool
  workers : Option Int
deriving Repr, DecidableEq

inductive Task where
  /-- Runs a statement. `arrays` are the texts that bind its arrays, and the result is printed if
  there is no file for it. -/
  | run (expression : String) (arrays : List String) (out : Option String)
  /-- Prints the loops of a statement. -/
  | explain (expression : String)
deriving Repr, DecidableEq

structure Request where
  verbose : Bool
  /-- Without a task only the help text is printed. -/
  task : Option (Task × Settings)
deriving Repr, DecidableEq

/-! ## Interfaces -/

def helpFlag : Flag := { names := ["-h", "--help"] }

def integerComplaint (s : String) : Option String :=
  match Number.readInt? s with
  | some _ => none
  | none => some ("invalid int value: " ++ Text.quoted s)

def threadsFlag : Flag := { names := ["--threads"] }

def workersFlag : Flag :=
  { names := ["--workers"], takesValue := true, complaint := integerComplaint }

def usage : String := "usage: einloop [-h] [-v] \x7brun,explain\x7d ...\n"

def program : Interface where
  program := "einloop"
  usage := usage
  help := usage ++ "
einloop command line utilities

positional arguments:
  \x7brun,explain\x7d
    run          Evaluate an index-notation expression
    explain      Print the loop plan of an expression

options:
  -h, --help     show this help message and exit
  -v, --verbose  Log compiler passes
"
  flags := [helpFlag, { names := ["-v", "--verbose"] }]
  words := .rest

def runUsage : String := "usage: einloop run [-h] [--array NAME=PATH] [--out OUT] [--threads]
                   [--workers WORKERS]
                   expression
"

def runCommand : Interface where
  program := "einloop run"
  usage := runUsage
  help := runUsage ++ "
positional arguments:
  expression         e.g. \"A[i] := B[i,j] * C[j]\"

options:
  -h, --help         show this help message and exit
  --array NAME=PATH  Bind an array from .npy/.npz/.json/text file, or an
                     inline JSON list
  --out OUT          Optional output path (.npy/.npz/.json). If omitted,
                     prints the result
  --threads          Split the outer loop across workers
  --workers WORKERS  Worker count (default: CPU count)
"
  flags := [helpFlag, { names := ["--array"], takesValue := true },
    { names := ["--out"], takesValue := true }, threadsFlag, workersFlag]
  words := .one "expression"

def explainUsage : String :=
  "usage: einloop explain [-h] [--threads] [--workers WORKERS] expression\n"

def explainCommand : Interface where
  program := "einloop explain"
  usage := explainUsage
  help := explainUsage ++ "
positional arguments:
  expression

options:
  -h, --help         show this help message and exit
  --threads          Split the outer loop across workers
  --workers WORKERS  Worker count (default: CPU count)
"
  flags := [helpFlag, threadsFlag, workersFlag]
  words := .one "expression"

/-! ## Reading requests -/

/-- The last value of an option that may be given more than once. -/
def lastValue? (p : Parsed) (name : String) : Option String :=
  (p.values name).getLast?

def settings (p : Parsed) : Settings :=
  ⟨p.has "--threads", (lastValue? p "--workers").bind Number.readInt?⟩

/-- The word of a command that takes one. -/
def onlyWord (p : Parsed) : String :=
  (p.words.getD []).headD ""

/-- Reads the arguments of a command, and what nothing was made of. -/
def readTask : List String → Except Stop (Task × Settings × List String)
  | "run" :: argv => do
    let p ← runCommand.parse argv
    return (.run (onlyWord p) (p.values "--array") (lastValue? p "--out"), settings p, p.extras)
  | "explain" :: argv => do
    let p ← explainCommand.parse argv
    return (.explain (onlyWord p), settings p, p.extras)
  | words =>
    program.misuse ("argument cmd: invalid choice: " ++ Text.quoted (words.headD "") ++
      " (choose from \x27run\x27, \x27explain\x27)")

/-- Reads the command line. Arguments that nothing was made of are an error. -/
def readRequest (argv : List String) : Except Stop Request := do
  let p ← program.parse argv
  let (task, extras) ← match p.words with
    | none => pure (none, p.extras)
    | some words => do
      let (task, settings, extras) ← readTask words
      pure (some (task, settings), p.extras ++ extras)
  if extras.isEmpty then return ⟨p.has "--verbose", task⟩
  else program.misuse ("unrecognized arguments: " ++ " ".intercalate extras)

end IndexNotation.Command
