/-!
# The log

Compiling and running leave a record of what was found out. An entry belongs to one of the parts of
the program; entries are in the order of the events.
-/

namespace IndexNotation

/-- The part of the program that an entry comes from. -/
inductive Origin where
  | axes | references | directives | plan | run
deriving Repr, DecidableEq

namespace Origin

/-- The name under which a part of the program logs. -/
def logger : Origin → String
  | axes => "einloop.core.context"
  | references => "einloop.core.collect"
  | directives => "einloop.core.directives"
  | plan => "einloop.core.plan"
  | run => "einloop.core.executor"

end Origin

structure LogEntry where
  /-- Warnings are shown also where details are not asked for. -/
  warning : Bool
  origin : Origin
  message : String
deriving Repr, DecidableEq

namespace LogEntry

def level (e : LogEntry) : String :=
  if e.warning then "WARNING" else "DEBUG"

/-- An entry as a line of the log. -/
def text (e : LogEntry) : String :=
  e.level ++ " " ++ e.origin.logger ++ ": " ++ e.message

end LogEntry

/-- An entry of details. -/
def detail (origin : Origin) (message : String) : LogEntry := ⟨false, origin, message⟩

abbrev Log := List LogEntry

end IndexNotation
