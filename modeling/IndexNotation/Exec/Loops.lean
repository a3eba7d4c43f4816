import IndexNotation.Element.Code
import IndexNotation.Plan.Basic
import IndexNotation.Schedule.Tiling

/-!
# Running loops

The loops of a plan, run in any monad for any kind of value. What a plan does at a point is given by
a `Machine`: evaluate the right-hand side, combine two values, store a value. This module fixes the
points and their order, and nothing else.
-/

namespace IndexNotation

/-- What a plan does at a point. -/
structure Machine (m : Type → Type) (V : Type) where
  /-- The right-hand side for values of all indices. -/
  element : Env → m V
  /-- Takes one more value into an accumulator. -/
  combine : V → V → m V
  /-- Stores a value at the output cell of values of the output indices. -/
  store : Env → V → m PUnit
  /-- What an accumulator starts from. -/
  init : V

/-- The ranges of the indices. -/
abbrev Ranges := List (String × Range)

namespace Ranges

def get (rs : Ranges) (index : String) : Range :=
  (rs.lookup index).getD (.upTo 0)

/-- The ranges with those of some indices replaced. -/
def rebind (rs : Ranges) (indices : List String) (block : List Range) : Ranges :=
  indices.zip block ++ rs

end Ranges

/-! ## The order of points -/

/-- The longest piece of a range that is unrolled as a whole. -/
def maxUnroll : Nat := 64

/-- The elements of a range in the order of an unrolled loop: full pieces of `width` steps, then
the remainder. -/
def unrolledElements (r : Range) (width : Nat) : List Int :=
  let w := if width == 0 then min r.length maxUnroll else width
  if w == 0 then []
  else
    let pieces := r.length / w
    ((List.range pieces).flatMap fun k =>
      (List.range w).map fun (offset : Nat) => r.element (k * w) + offset) ++
    (List.range' (pieces * w) (r.length % w)).map r.element

/-- The values that an inner loop runs through. -/
def InnerLoop.values (l : InnerLoop) (rs : Ranges) : List Int :=
  match l.unroll with
  | none => (rs.get l.index).toList
  | some width => unrolledElements (rs.get l.index) width

/-- Nested loops, outermost first, that pass a state from point to point. -/
def foldLoops {m : Type → Type} {σ : Type} [Monad m] :
    List (String × List Int) → (Env → σ → m σ) → Env → σ → m σ
  | [], body, env, s => body env s
  | (index, values) :: loops, body, env, s =>
    values.foldlM (fun s v => foldLoops loops body ((index, v) :: env) s) s

/-! ## Accumulators that wait for more -/

/-- The accumulators of output cells, by the values of the output indices. -/
abbrev Table (V : Type) := List (List Int × V)

namespace Table

def get {V : Type} (t : Table V) (cell : List Int) (init : V) : V :=
  (t.lookup cell).getD init

/-- Sets the accumulator of a cell. -/
def set {V : Type} (cell : List Int) (v : V) : Table V → Table V
  | [] => [(cell, v)]
  | (c, w) :: rest => if c == cell then (c, v) :: rest else (c, w) :: set cell v rest

end Table

/-- The values of some indices, in order. -/
def Env.cell (env : Env) (indices : List String) : List Int :=
  indices.map fun i => (env.lookup i).getD 0

section

variable {m : Type → Type} {V : Type} [Monad m]

/-- Reduces the values of one output cell, starting from `acc`. -/
def reduceCell (k : Machine m V) (rs : Ranges) (loops : List InnerLoop) (env : Env) (acc : V) : m V :=
  foldLoops (loops.map fun l => (l.index, l.values rs))
    (fun env acc => do k.combine acc (← k.element env)) env acc

/-- What is done for one output cell. -/
def runCell (k : Machine m V) (rs : Ranges) (outputs : List String) (body : Body) (env : Env)
    (table : Table V) : m (Table V) :=
  match body with
  | .store => do
    k.store env (← k.element env)
    return table
  | .reduce _ false loops => do
    k.store env (← reduceCell k rs loops env k.init)
    return table
  | .reduce _ true loops => do
    let cell := env.cell outputs
    let acc ← reduceCell k rs loops env (table.get cell k.init)
    return table.set cell acc

/-! ## Workers -/

variable [MonadExceptOf Error m]

/-- Runs a computation and keeps its error. -/
def attempt {α : Type} (x : m α) : m (Except Error α) :=
  tryCatch (Except.ok <$> x) fun e => pure (.error e)

/-- Runs a piece of work for every chunk. A chunk that fails does not stop the others; in the end
the error of the first chunk that failed is the error of all. -/
def runChunks {σ : Type} (work : Range → σ → m σ) : List Range → Option Error → σ → m σ
  | [], none, s => pure s
  | [], some e, _ => throw e
  | c :: cs, failed, s => do
    match ← attempt (work c s) with
    | .ok s => runChunks work cs failed s
    | .error e => runChunks work cs (failed.orElse fun _ => some e) s

/-! ## Plans -/

/-- The loops over the output. The outermost loop is divided into chunks if it is parallel and
there is more than one worker. -/
def runOutputs (k : Machine m V) (workers : Nat) (outputs : List String) (p : Plan) (rs : Ranges)
    (table : Table V) : m (Table V) :=
  let cell := runCell k rs outputs p.body
  match p.outputs with
  | [] => cell [] table
  | outermost :: rest =>
    let loops := rest.map fun l => (l.index, (rs.get l.index).toList)
    let work (chunk : Range) (table : Table V) : m (Table V) :=
      foldLoops ((outermost.index, chunk.toList) :: loops) cell [] table
    if outermost.parallel && 1 < workers then
      runChunks work ((rs.get outermost.index).partition workers) none table
    else work (rs.get outermost.index) table

/-- All blocks of the tiled group, each with the ranges of the group cut to the block. -/
def runTiles (k : Machine m V) (workers : Nat) (outputs : List String) (p : Plan) (rs : Ranges) :
    m (Table V) :=
  match p.tiles with
  | none => runOutputs k workers outputs p rs []
  | some g =>
    match tileBlocks (g.indices.map rs.get) (g.indices.map fun _ => g.width) with
    | .error f => throw (Error.fault f)
    | .ok blocks =>
      blocks.foldlM (fun table block =>
        runOutputs k workers outputs p (rs.rebind g.indices block) table) []

/-- Stores the accumulators of all output cells; a cell that has none takes the start value. -/
def flush (k : Machine m V) (outputs : List String) (rs : Ranges) (table : Table V) : m PUnit :=
  foldLoops (outputs.map fun i => (i, (rs.get i).toList))
    (fun env _ => k.store env (table.get (env.cell outputs) k.init)) [] ⟨⟩

/-- Runs a plan. `outputs` are the output indices from left to right. -/
def runPlan (k : Machine m V) (workers : Nat) (outputs : List String) (p : Plan) (rs : Ranges) :
    m PUnit := do
  let table ← runTiles k workers outputs p rs
  if p.body.resumes then flush k outputs rs table

end

end IndexNotation
