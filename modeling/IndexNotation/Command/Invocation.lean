import IndexNotation.Command.Files
import IndexNotation.Command.Request
import IndexNotation.Element.Placing
import IndexNotation.Format.Listing
import IndexNotation.Kernel.Run
import IndexNotation.Kernel.Settings

/-!
# Invocations

The command line as a function: from the arguments and the files that are there to how it ends, what
it prints, and the files it writes.
-/

namespace IndexNotation.Command

/-- How an invocation ends. -/
inductive Exit where
  | success
  /-- The arguments make no sense. -/
  | misuse
  /-- It gives up with a message. -/
  | message (text : String)
  /-- It fails. -/
  | failure (e : Error)

structure Outcome where
  exit : Exit
  /-- What is printed. -/
  output : String := ""
  /-- What is reported beside the output. -/
  report : String := ""
  /-- The files that are written. -/
  files : List (String × Content) := []

/-- The part of a log that is shown: warnings, and details if they are asked for. -/
def logText (verbose : Bool) (log : Log) : String :=
  String.join ((log.filter fun e => verbose || e.warning).map fun e => e.text ++ "\n")

/-- What a task produces. -/
structure Product where
  output : String := ""
  files : List (String × Content) := []

/-- Why a task is given up. -/
inductive Abort where
  | message (text : String)
  | error (e : Error)

/-- A task at work. -/
abbrev Work := ExceptT Abort (StateM World)

namespace Work

def ofRun {α : Type} (x : Run α) : Work α :=
  ExceptT.adapt Abort.error x

/-- Compiling, with the log kept. -/
def ofLogged {α : Type} (x : Logged α) : Work α := do
  let (r, log) := x.run []
  modify fun w => { w with log := w.log ++ log }
  ofRun (liftExcept r)
where
  liftExcept {α : Type} : Except Error α → Run α
    | .ok a => pure a
    | .error e => throw e

end Work

/-- Compiles a statement. -/
def compile (s : Settings) (expression : String) : Work Kernel := do
  let mode : Value := .text (if s.threads then "threads" else "sequential")
  let workers : Value := match s.workers with | some n => .int n | none => .none
  let config ← Work.ofRun (Config.ofValues mode workers)
  Work.ofLogged (Kernel.compile config expression)

/-- The two sides of `NAME=VALUE`. -/
def splitBinding? (spec : String) : Option (String × String) :=
  match splitEquals spec with
  | (name, some value) => if name.isEmpty then none else some (name, value)
  | _ => none

/-- Reads `NAME=VALUE`. -/
def readBinding (fs : Files) (spec : String) : Work (String × Value) := do
  match splitBinding? spec with
  | some (name, value) =>
    let d ← Work.ofRun (fs.readArray value)
    return (name, .array (← Work.ofRun d.allocate))
  | none => throw (.message ("expected NAME=PATH or NAME=JSON, got " ++ Text.quoted spec))

/-- The paths that an invocation may look at. -/
def paths (argv : List String) : List String :=
  match readRequest argv with
  | .ok ⟨_, some (.run _ arrays _, _)⟩ => (arrays.filterMap splitBinding?).map (·.2)
  | _ => []

/-- The result of a run as a text or a file. -/
def deliver (fs : Files) (k : Kernel) (out : Option String) (result : Value) : Work Product := do
  let d ← Work.ofRun (Dense.read result)
  let h := (← get).heap
  match out with
  | none => return { output := "# " ++ k.output.getD "result" ++ "\n" ++ Listing.text h d ++ "\n" }
  | some out => return { files := [← Work.ofRun (Run.ofFault (fs.write h out d))] }

def perform (fs : Files) (s : Settings) : Task → Work Product
  | .run expression arrays out => do
    let k ← compile s expression
    let bindings ← arrays.mapM (readBinding fs)
    -- Of two bindings of a name the later one counts.
    let scope : Scope := { bindings := bindings.reverse }
    let result ← Work.ofRun (k.call (scope.withPlacings k.statement.placings))
    deliver fs k out result
  | .explain expression => do
    let k ← compile s expression
    return { output := k.explain ++ "\n" }

/-- How an error ends an invocation. Errors of the notation itself are told as messages. -/
def exitOf : Abort → Exit
  | .message text => .message text
  | .error e =>
    if e.isOwn then .message ("error: " ++ e.message?.getD "") else .failure e

/-- Runs the command line. -/
def invoke (fs : Files) (argv : List String) : Outcome :=
  match readRequest argv with
  | .error (.help text) => { exit := .success, output := text }
  | .error (.misuse text) => { exit := .misuse, report := text }
  | .ok ⟨_, none⟩ => { exit := .success, output := program.help }
  | .ok ⟨verbose, some (task, settings)⟩ =>
    let (result, world) := (perform fs settings task).run {}
    let report := logText verbose world.log
    match result with
    | .ok p => { exit := .success, output := p.output, report, files := p.files }
    | .error a => { exit := exitOf a, report }

end IndexNotation.Command
