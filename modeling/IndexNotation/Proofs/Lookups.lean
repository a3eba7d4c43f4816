import IndexNotation.Proofs.Bounds
import IndexNotation.Proofs.Steps

/-!
# Every index has a value

A kernel has one loop for each index, so an index has a value wherever it is looked up: in the
right-hand side, in the place of an output cell, and in the cell that an accumulator belongs to. To
say this about all of a run, a run is made that fetches the values of the indices before it uses any,
and does something of its own for an index that has none. What that something is makes no difference.
-/

namespace IndexNotation

open Run (exec)

/-! ## Fetching values -/

namespace Env

section

variable {m : Type → Type} [Monad m] (missing : String → m Int)

/-- The values of some indices and of no others; for an index without a value, `missing` is asked. -/
def fetch (env : Env) (indices : List String) : m Env :=
  indices.mapM fun i => do return (i, ← (env.lookup i).elim (missing i) pure)

/-- The values of some indices, in order, where the indices are fetched. -/
def fetchCell (env : Env) (indices : List String) : m (List Int) := do
  return (← env.fetch missing indices).cell indices

variable [LawfulMonad m]

/-- Where all indices have values, nothing is asked and the values are what they are. -/
theorem fetch_eq {env : Env} {indices : List String} (h : ∀ i ∈ indices, (env.lookup i).isSome) :
    ∃ env', env.fetch missing indices = pure env' ∧ ∀ i ∈ indices, env'.lookup i = env.lookup i := by
  induction indices with
  | nil => exact ⟨[], rfl, fun i hi => absurd hi List.not_mem_nil⟩
  | cons i indices ih =>
    obtain ⟨v, hv⟩ := Option.isSome_iff_exists.1 (h i (.head _))
    obtain ⟨env', hfetch, hlookup⟩ := ih fun j hj => h j (.tail _ hj)
    refine ⟨(i, v) :: env', ?_, fun j hj => ?_⟩
    · unfold fetch at hfetch ⊢
      rw [List.mapM_cons, hv, hfetch]
      simp
    · rw [List.lookup_cons]
      cases hji : j == i with
      | true => rw [eq_of_beq hji, hv]
      | false =>
        rcases List.mem_cons.1 hj with rfl | hj
        · simp at hji
        · exact hlookup j hj

theorem Covers.isSome {env : Env} {rs : Ranges} {indices : List String} (h : env.Covers rs indices) {i : String}
    (hi : i ∈ indices) : (env.lookup i).isSome :=
  lookup_isSome.2 (h.bound i hi)

theorem Covers.fetchCell_eq {env : Env} {rs : Ranges} {indices : List String} (h : env.Covers rs indices) :
    env.fetchCell missing indices = pure (env.cell indices) := by
  obtain ⟨env', hfetch, hlookup⟩ := fetch_eq missing fun i hi => h.isSome hi
  have hcell : env'.cell indices = env.cell indices := List.map_congr_left fun i hi => by rw [hlookup i hi]
  rw [fetchCell, hfetch, pure_bind, hcell]

end

end Env

namespace Code

/-- The indices that a resolved expression mentions. -/
def indices : Code → List String
  | index name => [name]
  | value _ => []
  | get base keys => indices base ++ allIndices keys
  | field base _ => indices base
  | first source => indices source
  | call _ args => allIndices args
  | binary _ l r => indices l ++ indices r
  | unary _ e => indices e
where
  allIndices : List Code → List String
    | [] => []
    | c :: cs => indices c ++ allIndices cs

variable {scope : Scope} {env env' : Env}

mutual

/-- A resolved expression looks up no index that it does not mention. -/
theorem run_eq_of_indices {c : Code} (h : ∀ i ∈ c.indices, env'.lookup i = env.lookup i) :
    c.run scope env' = c.run scope env := by
  cases c with
  | index name => rw [run, run, h name (.head _)]
  | value v => rfl
  | get base keys =>
    rw [indices, List.forall_mem_append] at h
    rw [run, run, run_eq_of_indices h.1, runAll_eq_of_indices h.2]
  | field base name => rw [run, run, run_eq_of_indices (c := base) h]
  | first source => rw [run, run, run_eq_of_indices (c := source) h]
  | call f args => rw [run, run, runAll_eq_of_indices h]
  | binary op l r =>
    rw [indices, List.forall_mem_append] at h
    rw [run, run, run_eq_of_indices h.1, run_eq_of_indices h.2]
  | unary op e => rw [run, run, run_eq_of_indices (c := e) h]

theorem runAll_eq_of_indices {cs : List Code} (h : ∀ i ∈ indices.allIndices cs, env'.lookup i = env.lookup i) :
    run.runAll scope env' cs = run.runAll scope env cs := by
  cases cs with
  | nil => rfl
  | cons c cs =>
    rw [indices.allIndices, List.forall_mem_append] at h
    rw [run.runAll, run.runAll, run_eq_of_indices h.1, runAll_eq_of_indices h.2]

end

end Code

namespace Expr

variable {scope : Scope} {names : List String}

mutual

/-- Only indices are left as names. -/
theorem indices_of_resolve {e : Expr} {c : Code} (h : e.resolve scope names = .ok c) : c.indices ⊆ names := by
  cases e with
  | name id p =>
    obtain ⟨hid, rfl⟩ | ⟨-, v, -, rfl⟩ := resolve_name_eq_ok h
    · exact List.cons_subset.2 ⟨hid, List.nil_subset _⟩
    · exact List.nil_subset _
  | number v p =>
    cases h
    exact List.nil_subset _
  | index b is p =>
    obtain ⟨base, codes, hb, his, rfl⟩ := resolve_index_eq_ok h
    exact List.append_subset.2 ⟨indices_of_resolve hb, indices_of_resolveAll his⟩
  | field b n p =>
    obtain ⟨base, hb, rfl⟩ := resolve_field_eq_ok h
    rw [Code.indices]
    exact indices_of_resolve hb
  | first e p =>
    obtain ⟨source, he, rfl⟩ := resolve_first_eq_ok h
    rw [Code.indices]
    exact indices_of_resolve he
  | call f args p =>
    obtain ⟨v, codes, -, hargs, rfl⟩ := resolve_call_eq_ok h
    exact indices_of_resolveAll hargs
  | binary l op r p =>
    obtain ⟨left, right, hl, hr, rfl⟩ := resolve_binary_eq_ok h
    exact List.append_subset.2 ⟨indices_of_resolve hl, indices_of_resolve hr⟩
  | unary op e p =>
    obtain ⟨operand, he, rfl⟩ := resolve_unary_eq_ok h
    rw [Code.indices]
    exact indices_of_resolve he
  | compare _ _ | keyword _ _ _ | target _ _ _ | hole => cases h

theorem indices_of_resolveAll {es : List Expr} {cs : List Code} (h : resolve.resolveAll scope names es = .ok cs) :
    Code.indices.allIndices cs ⊆ names := by
  cases es with
  | nil =>
    cases h
    exact List.nil_subset _
  | cons e es =>
    obtain ⟨c, cs, hc, hcs, rfl⟩ := resolveAll_cons_eq_ok h
    exact List.append_subset.2 ⟨indices_of_resolve hc, indices_of_resolveAll hcs⟩

end

end Expr

/-! ## Loops with the work for a cell left open -/

section

variable {σ : Type}

/-- The loops over the output, with any work for a cell. -/
def overOutputs (workers : Nat) (p : Plan) (rs : Ranges) (cell : Env → σ → Run σ) (s : σ) : Run σ :=
  p.outputs.head?.elim (cell [] s) fun outermost =>
    let work (chunk : Range) (s : σ) : Run σ :=
      foldLoops ((outermost.index, chunk.toList) :: p.outputs.tail.map fun l => (l.index, (rs.get l.index).toList))
        cell [] s
    if outermost.parallel && 1 < workers then
      runChunks work ((rs.get outermost.index).partition workers) none s
    else work (rs.get outermost.index) s

/-- All blocks of the tiled group, with any work for a block. -/
def overTiles (p : Plan) (rs : Ranges) (block : Ranges → σ → Run σ) (s : σ) : Run σ :=
  p.tiles.elim (block rs s) fun g => do
    let blocks ← Run.ofFault (tileBlocks (g.indices.map rs.get) (g.indices.map fun _ => g.width))
    blocks.foldlM (fun s b => block (rs.rebind g.indices b) s) s

theorem runOutputs_eq_overOutputs (k : Machine Run σ) (workers : Nat) (outputs : List String) (p : Plan) (rs : Ranges)
    (table : Table σ) :
    runOutputs k workers outputs p rs table = overOutputs workers p rs (runCell k rs outputs p.body) table := by
  unfold runOutputs overOutputs
  cases p.outputs <;> rfl

theorem runTiles_eq_overTiles (k : Machine Run σ) (workers : Nat) (outputs : List String) (p : Plan) (rs : Ranges) :
    runTiles k workers outputs p rs =
      overTiles p rs (fun rs => overOutputs workers p rs (runCell k rs outputs p.body)) [] := by
  unfold runTiles overTiles
  cases p.tiles with
  | none => exact runOutputs_eq_overOutputs k workers outputs p rs []
  | some g =>
    simp only [Option.elim_some, runOutputs_eq_overOutputs]
    cases tileBlocks (g.indices.map rs.get) (g.indices.map fun _ => g.width) <;> rfl

/-- Nested loops come to the same if what they do at their points does. -/
theorem foldLoops_congr (rs : Ranges) (indices : List String) {body body' : Env → σ → Run σ}
    (loops : List (String × List Int)) (hloops : ∀ l ∈ loops, ∀ v ∈ l.2, v ∈ (rs.get l.1).toList)
    (h : ∀ env, env.Covers rs ((loops.map Prod.fst).reverse ++ indices) → ∀ s, body env s = body' env s)
    {env : Env} (henv : env.Covers rs indices) (s : σ) :
    foldLoops loops body env s = foldLoops loops body' env s := by
  induction loops generalizing env s indices with
  | nil => exact h env henv s
  | cons l loops ih =>
    obtain ⟨index, values⟩ := l
    refine foldlM_congr_mem (fun v hv s => ?_) s
    refine ih (index :: indices) (fun l hl => hloops l (.tail _ hl)) (fun env henv => h env ?_)
      (henv.cons (hloops _ (.head _) v hv)) s
    simpa using henv

theorem runChunks_congr {work work' : Range → σ → Run σ} {chunks : List Range}
    (h : ∀ c ∈ chunks, ∀ s, work c s = work' c s) (failed : Option Error) (s : σ) :
    runChunks work chunks failed s = runChunks work' chunks failed s := by
  induction chunks generalizing failed s with
  | nil => cases failed <;> rfl
  | cons c chunks ih =>
    have hrest := ih fun d hd => h d (.tail _ hd)
    rw [runChunks, runChunks, h c (.head _)]
    simp only [hrest]

variable {p : Plan} {rs : Ranges}

theorem overOutputs_congr (workers : Nat) {rs' : Ranges} (hr : rs'.Refines rs) {cell cell' : Env → σ → Run σ}
    (h : ∀ env, env.Covers rs p.outer → ∀ s, cell env s = cell' env s) (s : σ) :
    overOutputs workers p rs' cell s = overOutputs workers p rs' cell' s := by
  unfold overOutputs
  cases ho : p.outputs with
  | nil => exact h [] (by simpa [Plan.outer, ho] using Env.Covers.nil) s
  | cons outermost rest =>
    have hwork (c : Range) (hc : ∀ v ∈ c.toList, v ∈ (rs.get outermost.index).toList) (s : σ) :
        foldLoops ((outermost.index, c.toList) :: rest.map fun l => (l.index, (rs'.get l.index).toList)) cell [] s =
          foldLoops ((outermost.index, c.toList) :: rest.map fun l => (l.index, (rs'.get l.index).toList))
            cell' [] s := by
      refine foldLoops_congr rs [] _ (fun l hl v hv => ?_) (fun env henv => h env (henv.mono fun x hx => ?_)) .nil s
      · rcases List.mem_cons.1 hl with rfl | hl
        · exact hc v hv
        · obtain ⟨l, -, rfl⟩ := List.mem_map.1 hl
          exact (hr _).2 v hv
      · simpa [Plan.outer, ho, or_comm, eq_comm] using hx
    simp only [List.head?_cons, Option.elim_some, List.tail_cons]
    split
    · exact runChunks_congr (fun c hc => hwork c fun v hv => (hr _).2 v (Range.mem_of_mem_pieces hc hv)) none s
    · exact hwork _ (fun v hv => (hr _).2 v hv) s

theorem overTiles_congr (hrs : rs.Gapless) (hw : ∀ g, p.tiles = some g → 0 < g.width)
    {block block' : Ranges → σ → Run σ} (h : ∀ rs', rs'.Refines rs → ∀ s, block rs' s = block' rs' s) (s : σ) :
    overTiles p rs block s = overTiles p rs block' s := by
  unfold overTiles
  cases hg : p.tiles with
  | none => exact h rs hrs.refines s
  | some g =>
    rw [Option.elim_some, Option.elim_some, tileBlocks_eq rs g.indices (hw g hg)]
    exact foldlM_congr_mem (fun b hb s => h _ (Ranges.refines_rebind hrs hb) s) s

end

/-! ## Runs that fetch -/

section

variable (missing : String → Run Int) {V : Type} (k : Machine Run V) (outputs : List String)

/-- What is done for one output cell, where the cell of an accumulator is fetched. -/
def runCellFetching (rs : Ranges) (body : Body) (env : Env) (table : Table V) : Run (Table V) :=
  if body.resumes then do
    let cell ← env.fetchCell missing outputs
    let acc ← reduceCell k rs body.loops env (table.get cell k.init)
    return table.set cell acc
  else runCell k rs outputs body env table

/-- Stores the accumulators of all output cells, where the cells are fetched. -/
def flushFetching (rs : Ranges) (table : Table V) : Run PUnit :=
  foldLoops (outputs.map fun i => (i, (rs.get i).toList)) (fun env _ => do
    let cell ← env.fetchCell missing outputs
    k.store env (table.get cell k.init)) [] ⟨⟩

def runPlanFetching (workers : Nat) (p : Plan) (rs : Ranges) : Run PUnit := do
  let table ← overTiles p rs (fun rs => overOutputs workers p rs (runCellFetching missing k outputs rs p.body)) []
  if p.body.resumes then flushFetching missing k outputs rs table

variable {missing k outputs} {p : Plan} {rs : Ranges}

theorem runCellFetching_eq {rs' : Ranges} {body : Body} {env : Env} (henv : env.Covers rs outputs) (table : Table V) :
    runCellFetching missing k outputs rs' body env table = runCell k rs' outputs body env table := by
  unfold runCellFetching
  split
  · rename_i hresumes
    rw [henv.fetchCell_eq, pure_bind]
    cases body with
    | store => cases hresumes
    | reduce op resume loops =>
      cases resume with
      | false => cases hresumes
      | true => rfl
  · rfl

theorem runPlanFetching_eq (workers : Nat) (hrs : rs.Gapless) (hw : ∀ g, p.tiles = some g → 0 < g.width)
    (hout : ∀ x ∈ outputs, x ∈ p.outer) :
    runPlanFetching missing k outputs workers p rs = runPlan k workers outputs p rs := by
  have htiles : overTiles p rs (fun rs => overOutputs workers p rs (runCellFetching missing k outputs rs p.body)) [] =
      runTiles k workers outputs p rs := by
    rw [runTiles_eq_overTiles]
    refine overTiles_congr hrs hw (fun rs' hr => overOutputs_congr workers hr fun env henv => ?_) []
    exact runCellFetching_eq (henv.mono hout)
  have hflush (table : Table V) : flushFetching missing k outputs rs table = flush k outputs rs table := by
    refine foldLoops_congr rs [] _ (fun l hl v hv => ?_) (fun env henv _ => ?_) .nil _
    · obtain ⟨x, -, rfl⟩ := List.mem_map.1 hl
      exact hv
    · have hcovers : env.Covers rs outputs := henv.mono fun x hx => by simpa using hx
      rw [hcovers.fetchCell_eq, pure_bind]
  simp only [runPlanFetching, runPlan, htiles, hflush]

end

/-! ## Workers that fetch -/

section

open Process (own put)

variable (missing : String → Run Int) {V : Type} (k : Machine Run V) (outputs : List String)

/-- What a worker does for one output cell, where the cell of an accumulator is fetched. -/
def workCellFetching (rs : Ranges) (body : Body) (env : Env) : Process (World × Table V) PUnit :=
  if body.resumes then do
    let cell ← env.fetchCell (fun i => own (missing i)) outputs
    let acc ← Process.fetch cell k.init
    put cell (← reduceCell k.stepwise rs body.loops env acc)
  else workCell k outputs rs body env

/-- Stores the accumulators of all output cells, where the cells are fetched. -/
def flushWorkFetching (rs : Ranges) : Process (World × Table V) PUnit :=
  foldLoops (outputs.map fun i => (i, (rs.get i).toList)) (fun env _ => do
    let cell ← env.fetchCell (fun i => own (missing i)) outputs
    k.stepwise.store env (← Process.fetch cell k.init)) [] ⟨⟩

def crewFetching (workers : Nat) (p : Plan) (rs : Ranges) (w : World) : Crew (World × Table V) where
  state := (w, [])
  active := []
  waiting := (p.blocks rs).map (fun rs => share workers p rs (workCellFetching missing k outputs rs p.body)) ++
    if p.body.resumes then [[flushWorkFetching missing k outputs rs]] else []

variable {missing k outputs} {p : Plan} {rs : Ranges}

theorem workCellFetching_eq {rs' : Ranges} {body : Body} {env : Env} (henv : env.Covers rs outputs) :
    workCellFetching missing k outputs rs' body env = workCell k outputs rs' body env := by
  unfold workCellFetching
  split
  · rename_i hresumes
    rw [henv.fetchCell_eq, pure_bind]
    cases body with
    | store => cases hresumes
    | reduce op resume loops =>
      cases resume with
      | false => cases hresumes
      | true => rfl
  · rfl

theorem crewFetching_eq (workers : Nat) (hrs : rs.Gapless) (hout : ∀ x ∈ outputs, x ∈ p.outer) (w : World) :
    crewFetching missing k outputs workers p rs w = crew k outputs workers p rs w := by
  have hblock (rs' : Ranges) (h : rs' ∈ p.blocks rs) :
      share workers p rs' (workCellFetching missing k outputs rs' p.body) = blockWork k outputs workers p rs' := by
    refine Comparison.eq_of_forall_same (goes_share workers (Plan.refines_of_mem_blocks hrs h) fun env henv j _ => ?_)
    rw [workCellFetching_eq (henv.mono hout)]
    exact Comparison.same_self j _ fun _ => trivial
  have hflush : flushWorkFetching missing k outputs rs = flushWork k outputs rs := by
    refine Comparison.eq_of_same (Q := fun _ _ => True) (fun _ _ _ => rfl) (i := ())
      ((Comparison.same _).simulation.foldLoops rs [] _ (fun l hl v hv => ?_) (fun env henv j _ _ _ _ => ?_) .nil trivial)
    · obtain ⟨x, -, rfl⟩ := List.mem_map.1 hl
      exact hv
    · have hcovers : env.Covers rs outputs := henv.mono fun x hx => by simpa using hx
      rw [hcovers.fetchCell_eq, pure_bind]
      exact Comparison.same_self j _ fun _ => trivial
  rw [crewFetching, crew, hflush, List.map_congr_left hblock]

end

/-- A resolved expression, run with the indices that it mentions. -/
def Code.runFetching (missing : String → Run Int) (scope : Scope) (c : Code) (env : Env) : Run Value := do
  c.run scope (← env.fetch missing c.indices)

theorem Code.runFetching_eq {scope : Scope} {c : Code} {env : Env} (h : ∀ i ∈ c.indices, (env.lookup i).isSome)
    (missing : String → Run Int) : c.runFetching missing scope env = c.run scope env := by
  obtain ⟨env', hfetch, hlookup⟩ := Env.fetch_eq missing h
  rw [runFetching, hfetch, pure_bind, run_eq_of_indices hlookup]

namespace Kernel

/-- What the loops of a kernel do at a point, where the indices of the right-hand side and of the place
of a cell are fetched. -/
def machineFetching (k : Kernel) (missing : String → Run Int) (scope : Scope) (code : Code) (out : Value)
    (r : Reducer) (init : Value) : Machine Run Value :=
  { k.machine scope (code.runFetching missing scope) out r init with
    store := fun env v => do
      out.set (k.keys (← env.fetch missing (symbolNames k.statement.target.indices))) v }

/-- Runs a kernel and fetches the values of indices wherever they are used. -/
def runFetching (k : Kernel) (missing : String → Run Int) (scope : Scope) : Run Value := do
  let indices := k.analysis.indexNames
  let ranges ← k.analysis.catalog.ranges scope indices
  let code ← k.statement.rhs.resolve scope indices
  let (out, t) ← k.makeOutput scope ranges (code.runFetching missing scope)
  let (r, init) ← k.reducer scope t
  let entry := detail .run ("running " ++ k.statement.source ++ ": output shape " ++
    (← shapeText out) ++ ", dtype " ++ t.label ++ ", mode " ++ k.config.mode)
  modify fun w => { w with log := w.log ++ [entry] }
  runPlanFetching missing (k.machineFetching missing scope code out r init) k.outputIndices
    k.config.workerCount k.plan ranges
  return out

/-- The workers of a call, who fetch the values of indices wherever they use them. -/
def workersFetching (k : Kernel) (missing : String → Run Int) (scope : Scope) (s : Setup) (w : World) :
    Crew (World × Table Value) :=
  crewFetching missing (k.machineFetching missing scope s.code s.out s.reducer s.init) k.outputIndices
    k.config.workerCount k.plan s.ranges w

/-- The place of a cell depends on the names of the left-hand side. -/
theorem keys_eq_of_names (k : Kernel) {env env' : Env}
    (h : ∀ i ∈ symbolNames k.statement.target.indices, env'.lookup i = env.lookup i) : k.keys env' = k.keys env := by
  refine List.map_congr_left fun e he => ?_
  cases e with
  | name i pos => rw [key, key, h i (List.mem_filterMap.2 ⟨_, he, rfl⟩)]
  | _ => rfl

namespace Planned

variable {k : Kernel} {read : Reduction.Partial} (hk : k.Planned read)

include hk

theorem loopOrder_eq : k.plan.loopOrder = k.outputIndices.reverse ++ k.analysis.reduction.order := by
  rw [← hk.outer_eq, ← hk.inner_eq]
  rfl

/-- The loops over the values of a cell are those that are listed, in that order, or else all that there
are. -/
theorem order_eq : k.analysis.reduction.order =
    if read.reduction.order = [] then k.analysis.impliedReduction else read.reduction.order := by
  rcases hk.reduction_cases with ⟨hempty, hunrolled, heq⟩ | ⟨hlisted, -, heq⟩
  · rw [if_pos hempty, heq, Reduction.order, hunrolled, List.map_nil, List.append_nil]
  · rw [if_neg hlisted, heq]

theorem mem_indexNames_iff {i : String} :
    i ∈ k.analysis.indexNames ↔ i ∈ k.outputIndices ++ k.analysis.reduction.order := by
  rw [Analysis.indexNames, List.mem_eraseDups, List.mem_append, List.mem_append, hk.order_perm.mem_iff,
    Analysis.impliedReduction, List.mem_filter, List.mem_eraseDups]
  by_cases hi : i ∈ k.outputIndices <;> simp_all [Kernel.outputIndices]

/-- Where all indices of the loops have values, the right-hand side can fetch those that it mentions. -/
theorem runFetching_eq (missing : String → Run Int) {scope : Scope} {code : Code}
    (hcode : k.statement.rhs.resolve scope k.analysis.indexNames = .ok code) {rs : Ranges} {env : Env}
    (henv : env.Covers rs (k.outputIndices ++ k.analysis.reduction.order)) :
    code.runFetching missing scope env = code.run scope env :=
  Code.runFetching_eq (fun _ hi => henv.isSome (hk.mem_indexNames_iff.1 (Expr.indices_of_resolve hcode hi))) missing

theorem machineFetching_agrees (missing : String → Run Int) {scope : Scope} {code : Code}
    (hcode : k.statement.rhs.resolve scope k.analysis.indexNames = .ok code) (rs : Ranges) (out : Value)
    (r : Reducer) (init : Value) : (k.machineFetching missing scope code out r init).Agrees
      (k.machine scope (fun env => code.run scope env) out r init) k.plan rs where
  element env henv := by
    rw [hk.outer_eq, hk.inner_eq] at henv
    exact hk.runFetching_eq missing hcode (henv.mono (by simp))
  combine _ _ := rfl
  store env henv v := by
    rw [hk.outer_eq] at henv
    have hbound (i : String) (hi : i ∈ symbolNames k.statement.target.indices) : (env.lookup i).isSome :=
      henv.isSome (List.mem_reverse.2 (List.mem_eraseDups.2 hi))
    obtain ⟨env', hfetch, hlookup⟩ := Env.fetch_eq missing hbound
    change (env.fetch missing _ >>= fun env => out.set (k.keys env) v) = out.set (k.keys env) v
    rw [hfetch, pure_bind, k.keys_eq_of_names hlookup]
  init := rfl

/-- A run that fetches is a run. -/
theorem exec_runFetching (missing : String → Run Int) (scope : Scope) (w : World) :
    exec (k.runFetching missing scope) w = exec (k.run scope) w := by
  refine Run.exec_bind_congr fun rs w₁ hranges => Run.exec_bind_congr fun code w₂ hcode => ?_
  have hgapless := Catalog.gapless_of_ranges hranges
  rw [Run.exec_lift, Prod.mk.injEq] at hcode
  dsimp only
  rw [makeOutput_congr hk scope fun env henv => hk.runFetching_eq missing hcode.1 henv]
  refine Run.exec_bind_congr fun ⟨out, t⟩ _ _ => Run.exec_bind_congr fun ⟨r, init⟩ _ _ =>
    Run.exec_bind_congr fun shape _ _ => Run.exec_bind_congr fun _ w₃ _ => ?_
  have hwidth (g : TileGroup) (hg : k.plan.tiles = some g) := (hk.group_sound hg).2.1
  rw [runPlanFetching_eq k.config.workerCount hgapless hwidth (by simp [hk.outer_eq]), Run.exec_bind, Run.exec_bind,
    (hk.machineFetching_agrees missing hcode.1 rs out r init).exec_runPlan k.config.workerCount hgapless hwidth
      (by simp [hk.outer_eq])]

/-- Workers who fetch are the workers. -/
theorem workersFetching_eq (missing : String → Run Int) {scope : Scope} {w w₁ : World} {s : Setup}
    (h : exec (k.launch scope) w = (.ok s, w₁)) : k.workersFetching missing scope s w₁ = k.workers scope s w₁ := by
  obtain ⟨_, _, _, _, -, hcode, -⟩ := prepare_eq_ok (launch_eq_ok h)
  have hgapless := gapless_of_launch h
  rw [workersFetching, crewFetching_eq k.config.workerCount hgapless (by simp [hk.outer_eq])]
  exact (hk.machineFetching_agrees missing hcode s.ranges s.out s.reducer s.init).crew_eq k.config.workerCount hgapless
    (by simp [hk.outer_eq]) w₁

end Planned

/-- **Every index is bound by exactly one loop.** The loops are those of the left-hand side, the last
first, then those of the reduction, as listed or as they come; no index has two, the indices of the
statement and those with a symbol have one, and so have the tiled ones. So an index has a value
wherever a run uses one: a run that fetches does not depend on what is done about an index without. Nor do
workers who fetch, whatever the order of their steps. -/
theorem loops_bind_every_index {config : Config} {source : String} {k : Kernel} (hk : Compiles config source k) :
    (∃ read, Reduction.read k.statement.source k.statement.reduction = (read, none) ∧
      k.plan.loopOrder = (symbolNames k.statement.target.indices).eraseDups.reverse ++
        if read.reduction.order = [] then k.analysis.impliedReduction else read.reduction.order) ∧
    k.plan.loopOrder.Nodup ∧
    k.analysis.indexNames.Perm k.plan.loopOrder ∧
    (k.symbols.map (·.name)).Perm k.plan.loopOrder ∧
    (∀ g, k.plan.tiles = some g → g.indices ⊆ k.plan.loopOrder) ∧
    ∀ (missing : String → Run Int) (scope : Scope) (w : World),
      exec (k.runFetching missing scope) w = exec (k.run scope) w ∧
      ∀ s w₁, exec (k.launch scope) w = (.ok s, w₁) →
        k.workersFetching missing scope s w₁ = k.workers scope s w₁ := by
  obtain ⟨-, read, hk⟩ := hk.planned
  have hloops := hk.loopOrder_eq
  have hmem (i : String) : i ∈ k.plan.loopOrder ↔ i ∈ k.outputIndices ++ k.analysis.reduction.order := by
    simp [hloops]
  have hnodup : k.plan.loopOrder.Nodup := by
    rw [hloops]
    refine List.Nodup.append (List.nodup_reverse.2 (nodup_eraseDups _)) hk.nodup_order fun i ho hi => ?_
    exact hk.notMem_outputs hi (List.mem_reverse.1 ho)
  refine ⟨⟨read, hk.clause, ?_⟩, hnodup, ?_, ?_, fun g hg i hi => ?_, fun missing scope w =>
    ⟨hk.exec_runFetching missing scope w, fun _ _ => hk.workersFetching_eq missing⟩⟩
  · rw [hloops, ← hk.order_eq]
    rfl
  · refine (List.perm_ext_iff_of_nodup (nodup_eraseDups _) hnodup).2 fun i => ?_
    rw [hmem, ← hk.mem_indexNames_iff]
    rfl
  · obtain ⟨outer, inner, hsymbols, houter, hinner, -, -⟩ := hk.symbols_eq
    rw [hsymbols, List.map_append, houter, hinner, hloops]
    exact (List.reverse_perm _).symm.append_right _
  · exact (hmem i).2 ((hk.group_sound hg).2.2.1 i hi)

/-- Workers, blocks that resume and a listed order. -/
theorem loops_bind_every_index_blocks : ∃ k, Compiles ⟨true, some 2⟩
      "C[i, j] := A[i, k] * B[k, j] * w[l] (+, l, unroll, k) \x7btile(2), i, l\x7d" k ∧
    k.plan.loopOrder = ["j", "i", "l", "k"] ∧ k.plan.loopOrder.Nodup ∧
    ∀ (missing : String → Run Int) (scope : Scope) (w : World),
      exec (k.runFetching missing scope) w = exec (k.run scope) w ∧
      ∀ s w₁, exec (k.launch scope) w = (.ok s, w₁) →
        k.workersFetching missing scope s w₁ = k.workers scope s w₁ := by
  obtain ⟨k, hk, hcheck⟩ := exists_compiles ⟨true, some 2⟩
    "C[i, j] := A[i, k] * B[k, j] * w[l] (+, l, unroll, k) \x7btile(2), i, l\x7d"
    (fun k => k.plan.loopOrder == ["j", "i", "l", "k"]) (by decide +kernel)
  obtain ⟨-, hnodup, -, -, -, hruns⟩ := loops_bind_every_index hk
  exact ⟨k, hk, beq_iff_eq.1 hcheck, hnodup, hruns⟩

end Kernel

end IndexNotation
