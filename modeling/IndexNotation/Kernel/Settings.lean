import IndexNotation.Config
import IndexNotation.Value.Access

/-!
# Settings from values

The mode and the number of workers can be given as values of any kind. A mode may be spelled in
capitals, and a number of workers is cut to an integer.
-/

namespace IndexNotation

/-- Whether a value counts as true. -/
def Value.truth (v : Value) : Run Bool := do
  let h ← Run.heap
  match v with
  | none => return false
  | scalar s => return s.truth
  | array a =>
    match a.cells h with
    | [scalar s] => return s.truth
    | [_] => return true
    | _ => Run.fail .badValue
  | v =>
    match v.plain?, v.sequence? h with
    | some p, _ => return p.truth
    | _, some items => return !items.isEmpty
    | _, _ => return true

namespace Config

/-- Whether a mode is parallel; a mode that is nothing is sequential. -/
def readMode (mode : Value) : Run Bool := do
  if !(← mode.truth) then return false
  match mode with
  | .text s | .scalar (.text s) =>
    match s.toLower with
    | "sequential" => return false
    | "threads" => return true
    | _ => Run.fail (.unknownMode s)
  | _ => Run.fail .noSuchField

def readWorkers (workers : Value) : Run (Option Nat) := do
  match workers with
  | .none => return none
  | workers =>
    let n ← workers.toInt
    if n ≤ 0 then Run.fail .nonPositiveWorkers
    return some n.toNat

def ofValues (mode workers : Value) : Run Config := do
  let parallel ← readMode mode
  return { parallel, workers := ← readWorkers workers }

end Config
end IndexNotation
