/-!
# Execution settings
-/

namespace IndexNotation

/-- How the loops of a plan are run. -/
structure Config where
  /-- Whether the outermost loop over the output is divided among workers. -/
  parallel : Bool := false
  /-- The number of workers, if it is given. -/
  workers : Option Nat := none
deriving Repr, DecidableEq

namespace Config

/-- The number of workers where none is given. The machine is asked for it; this stands for the
answer. -/
def defaultWorkers : Nat := 4

def mode (c : Config) : String :=
  if c.parallel then "threads" else "sequential"

/-- The number of workers that the outermost loop is divided among. -/
def workerCount (c : Config) : Nat :=
  if c.parallel then c.workers.getD defaultWorkers else 1

end Config
end IndexNotation
