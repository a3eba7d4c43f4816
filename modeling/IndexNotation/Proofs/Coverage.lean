import IndexNotation.Proofs.Events
import IndexNotation.Proofs.Independence

/-!
# Every point once

A run evaluates the right-hand side at every point of the ranges, at each point once, whatever is
done about the loops: unrolled steps, blocks of a tiled group, chunks for workers. Before that, a run
that makes a new array evaluates it at the first value of every index, to find the type. Nothing
of this depends on what the values are.

To say so, the run is written down for any monad in which evaluating the right-hand side is one thing
and everything else another. Where the two are the same it is the run itself; where evaluating also
notes the point, it is a run that leaves a list of points behind. Of workers whose steps come in any order,
the same is said by what they write down.
-/

namespace IndexNotation

open Run (exec)

/-! ## Runs in other monads -/

namespace Kernel

section

variable {m : Type → Type} [Monad m] [MonadLiftT Run m]

/-- Makes a new array, whose type is found by `element`. -/
def newOutputIn (k : Kernel) (ranges : Ranges) (element : Env → m Value) : m (Value × ElemType) := do
  let env ← (k.sample ranges : Run Env)
  let t := (← Dense.read (← element env)).type
  let shape := k.newShape ranges
  let v ← Dense.allocate ⟨t, shape, List.replicate (cellCount shape) (blank t)⟩
  return (.array v, t)

def makeOutputIn (k : Kernel) (scope : Scope) (ranges : Ranges) (element : Env → m Value) :
    m (Value × ElemType) := do
  if k.statement.allocates then k.newOutputIn ranges element
  else
    let name := k.statement.target.name.getD ""
    match scope.bindings.lookup name with
    | none => liftM (throw (.binding (.missingOutput name)) : Run (Value × ElemType))
    | some out => return (out, ← elemTypeOf out)

/-- What the loops do at a point, if the right-hand side is evaluated by `element`. -/
def machineIn (k : Kernel) (scope : Scope) (element : Env → m Value) (out : Value) (r : Reducer)
    (init : Value) : Machine m Value where
  element := element
  combine acc v := liftM (r.apply scope acc v)
  store env v := liftM (out.set (k.keys env) v)
  init := init

/-- Everything that a run does before its loops; `evaluate` is how the right-hand side is evaluated. -/
def prepareIn (evaluate : (Env → Run Value) → Env → m Value) (k : Kernel) (scope : Scope) : m Setup := do
  let indices := k.analysis.indexNames
  let ranges ← k.analysis.catalog.ranges scope indices
  let code ← (k.statement.rhs.resolve scope indices : Run Code)
  let (out, t) ← k.makeOutputIn scope ranges (evaluate fun env => code.run scope env)
  let (r, init) ← k.reducer scope t
  let entry := detail .run ("running " ++ k.statement.source ++ ": output shape " ++
    (← shapeText out) ++ ", dtype " ++ t.label ++ ", mode " ++ k.config.mode)
  (modify fun w => { w with log := w.log ++ [entry] } : Run PUnit)
  return ⟨ranges, code, out, r, init⟩

variable [MonadExceptOf Error m]

/-- Runs a kernel; `evaluate` is how the right-hand side is evaluated. -/
def runIn (evaluate : (Env → Run Value) → Env → m Value) (k : Kernel) (scope : Scope) : m Value := do
  let s ← k.prepareIn evaluate scope
  runPlan (k.machineIn scope (evaluate fun env => s.code.run scope env) s.out s.reducer s.init)
    k.config.workerCount k.outputIndices k.plan s.ranges
  return s.out

end

theorem prepareIn_id (k : Kernel) (scope : Scope) : k.prepareIn (m := Run) id scope = k.prepare scope := rfl

theorem runIn_id (k : Kernel) (scope : Scope) : k.runIn (m := Run) id scope = k.run scope :=
  (k.run_eq scope).symm

end Kernel

/-! ## Runs that note points -/

/-- A computation that keeps a list of points. -/
abbrev Traced := Noting Env

namespace Traced

/-- Notes a point before the right-hand side is evaluated there. -/
def evaluate (element : Env → Run Value) (env : Env) : Traced Value := do
  Noting.note env
  element env

theorem exec_evaluate (element : Env → Run Value) (env : Env) (s : World × List Env) :
    exec (evaluate element env) s =
      ((exec (element env) s.1).1, ((exec (element env) s.1).2, s.2 ++ [env])) := rfl

theorem erasing_evaluate (element : Env → Run Value) (env : Env) :
    Noting.erasing.Rel () (fun _ => Eq) (evaluate element env) (element env) := fun _ =>
  ⟨rfl, Noting.concur_self _⟩

end Traced

namespace Kernel

/-- Sets up a run and notes the points at which it evaluates the right-hand side. -/
def prepareTraced (k : Kernel) (scope : Scope) : Traced Setup :=
  k.prepareIn Traced.evaluate scope

/-- A run that notes the points at which it evaluates the right-hand side. -/
def runTraced (k : Kernel) (scope : Scope) : Traced Value :=
  k.runIn Traced.evaluate scope

theorem erasing_makeOutputIn (k : Kernel) (scope : Scope) (rs : Ranges) (element : Env → Run Value) :
    Noting.erasing.Rel () (fun _ => Eq)
      (k.makeOutputIn scope rs (Traced.evaluate element))
      (k.makeOutputIn (m := Run) scope rs element) := by
  unfold makeOutputIn
  split
  · refine Noting.erasing.bind (Noting.erasing_lift _) fun _ env _ _ henv => ?_
    cases henv
    refine Noting.erasing.bind (Traced.erasing_evaluate element env) fun _ v _ _ hv => ?_
    cases hv
    refine Noting.erasing.bind (Noting.erasing_lift _) fun _ d _ _ hd => ?_
    cases hd
    refine Noting.erasing.bind (Noting.erasing_lift _) fun _ a _ _ ha => ?_
    cases ha
    exact Noting.erasing.pure rfl
  · dsimp only
    split
    · exact Noting.erasing_lift _
    · refine Noting.erasing.bind (Noting.erasing_lift _) fun _ t _ _ ht => ?_
      cases ht
      exact Noting.erasing.pure rfl

theorem erasing_machineIn (k : Kernel) (scope : Scope) (element : Env → Run Value) (out : Value)
    (r : Reducer) (init : Value) (p : Plan) (rs : Ranges) :
    (k.machineIn scope (Traced.evaluate element) out r init).Follows Noting.erasing ()
      (fun _ => Eq) p rs (k.machineIn scope element out r init) where
  mono _ _ _ _ _ := id
  element _ env _ _ := Traced.erasing_evaluate element env
  init _ := rfl
  combine _ _ acc acc' v v' _ hacc hv := by
    cases hacc
    cases hv
    exact Noting.erasing_lift _
  store _ env v v' _ _ hv := by
    cases hv
    intro s
    obtain ⟨hworld, hsame⟩ := Noting.erasing_lift (out.set (k.keys env) v) s
    refine ⟨hworld, ?_⟩
    change Concur _ (exec (out.set (k.keys env) v) s.1).1 (exec (out.set (k.keys env) v) s.1).1
    cases (exec (out.set (k.keys env) v) s.1).1 with
    | error e => rfl
    | ok _ => trivial

/-- Setting up a run and noting points comes to setting it up. -/
theorem erasing_prepareIn (k : Kernel) (scope : Scope) :
    Noting.erasing.Rel () (fun _ => Eq) (k.prepareTraced scope) (k.prepare scope) := by
  rw [← prepareIn_id]
  refine Noting.erasing.bind (Noting.erasing_lift _) fun _ rs _ _ hrs => ?_
  cases hrs
  refine Noting.erasing.bind (Noting.erasing_lift _) fun _ code _ _ hcode => ?_
  cases hcode
  refine Noting.erasing.bind (k.erasing_makeOutputIn scope rs _) fun _ output _ _ houtput => ?_
  cases houtput
  refine Noting.erasing.bind (Noting.erasing_lift _) fun _ reducer _ _ hreducer => ?_
  cases hreducer
  refine Noting.erasing.bind (Noting.erasing_lift _) fun _ shape _ _ hshape => ?_
  cases hshape
  exact Noting.erasing.bind (Noting.erasing_lift _) fun _ _ _ _ _ => Noting.erasing.pure rfl

end Kernel

/-! ## The points that are noted -/

namespace Traced

open Noting (Notes notes_pure)

theorem notes_evaluate (element : Env → Run Value) (env : Env) : Notes some (evaluate element env) [env] := by
  intro s a s' h
  rw [exec_evaluate] at h
  obtain ⟨-, rfl⟩ := Prod.mk.inj h
  simp

section

variable {V : Type} {element : Env → Run Value} {k : Machine Traced Value}
  (helement : k.element = evaluate element) (hcombine : ∀ acc v, Notes some (k.combine acc v) [])
  (hstore : ∀ env v, Notes some (k.store env v) [])

include helement hcombine

theorem notes_reduceCell {rs : Ranges} (hrs : rs.Gapless) (loops : List InnerLoop) (env : Env)
    (acc : Value) : Notes some (reduceCell k rs loops env acc)
      ((rs.points (loops.map (·.index))).map fun p => p.reverse ++ env) := by
  have hbody (env : Env) (acc : Value) : Notes some (do k.combine acc (← k.element env)) [env] := by
    rw [helement]
    exact (notes_evaluate element env).bind fun v => hcombine acc v
  have hnotes := Notes.foldLoops (loops.map fun l => (l.index, l.values rs)) hbody env acc
  rwa [← List.map_eq_flatMap, hrs.points_values] at hnotes

include hstore

theorem notes_runCell {rs : Ranges} (hrs : rs.Gapless) (outputs : List String) (body : Body) (env : Env)
    (table : Table Value) : Notes some (runCell k rs outputs body env table)
      ((rs.points (body.loops.map (·.index))).map fun p => p.reverse ++ env) := by
  have hreduce (loops : List InnerLoop) (acc : Value) :=
    notes_reduceCell helement hcombine hrs loops env acc
  have hend (v : Value) : Notes some (do k.store env v; return table) [] :=
    (hstore env v).bind fun _ => notes_pure table
  cases body with
  | store =>
    have h := (notes_evaluate element env).bind hend
    rw [← helement] at h
    exact h
  | reduce op resume loops =>
    cases resume with
    | false =>
      have h := (hreduce loops k.init).bind hend
      rwa [List.append_nil] at h
    | true =>
      have h := (hreduce loops (table.get (env.cell outputs) k.init)).bind fun acc =>
        notes_pure (table.set (env.cell outputs) acc)
      rwa [List.append_nil] at h

theorem notes_runOutputs {rs : Ranges} (hrs : rs.Gapless) (workers : Nat) (outputs : List String)
    (p : Plan) (table : Table Value) : Notes some (runOutputs k workers outputs p rs table)
      ((rs.points (p.outer ++ p.inner)).map List.reverse) := by
  have hcell (c : Env) (t : Table Value) := notes_runCell helement hcombine hstore hrs outputs p.body c t
  have hcells := Notes.foldlM (fun c (_ : c ∈ p.cells rs) t => hcell c t) table
  rw [← Plan.inner, p.flatMap_cells rs] at hcells
  exact .of_sameOutcome (runOutputs_sameOutcome k workers outputs p rs table) hcells

theorem notes_runTiles {rs : Ranges} (hrs : rs.Gapless) (workers : Nat) (outputs : List String) {p : Plan}
    (hw : ∀ g, p.tiles = some g → 0 < g.width) : Notes some (runTiles k workers outputs p rs)
      ((p.blocks rs).flatMap fun rs' => (rs'.points (p.outer ++ p.inner)).map List.reverse) := by
  unfold runTiles Plan.blocks
  cases hg : p.tiles with
  | none =>
    have h := notes_runOutputs helement hcombine hstore hrs workers outputs p []
    rwa [List.flatMap_singleton]
  | some g =>
    simp only [tileBlocks_eq rs g.indices (hw g hg), List.flatMap_map]
    refine Notes.foldlM (fun block hblock table => ?_) []
    have hgapless : (rs.rebind g.indices block).Gapless := fun i =>
      (Ranges.refines_rebind hrs hblock i).1
    exact notes_runOutputs helement hcombine hstore hgapless workers outputs p table

omit helement hcombine in
theorem notes_flush (outputs : List String) (rs : Ranges) (table : Table Value) :
    Notes some (flush k outputs rs table) [] := by
  have h := Notes.foldLoops (outputs.map fun i => (i, (rs.get i).toList))
    (fun env (_ : PUnit) => hstore env (table.get (env.cell outputs) k.init)) [] .unit
  rwa [List.flatMap_eq_nil_iff.2 fun _ _ => rfl] at h

/-- A plan notes the points of all its blocks. -/
theorem notes_runPlan {rs : Ranges} (hrs : rs.Gapless) (workers : Nat) (outputs : List String) {p : Plan}
    (hw : ∀ g, p.tiles = some g → 0 < g.width) : Notes some (runPlan k workers outputs p rs)
      ((p.blocks rs).flatMap fun rs' => (rs'.points (p.outer ++ p.inner)).map List.reverse) := by
  have hend (table : Table Value) :
      Notes some (if p.body.resumes then flush k outputs rs table else pure PUnit.unit) [] := by
    split
    · exact notes_flush hstore outputs rs table
    · exact notes_pure PUnit.unit
  have h := (notes_runTiles helement hcombine hstore hrs workers outputs hw).bind hend
  rwa [List.append_nil] at h

end

end Traced

/-- The values that an environment gives to some indices. -/
def Env.restrict (indices : List String) (env : Env) : Env :=
  indices.filterMap fun i => (env.lookup i).map (i, ·)

theorem Env.restrict_congr {env env' : Env} (h : ∀ i, env.lookup i = env'.lookup i) (indices : List String) :
    env.restrict indices = env'.restrict indices :=
  List.filterMap_congr fun i _ => by rw [h]

namespace Ranges

theorem restrict_of_mem_points {rs : Ranges} {indices : List String} (hnodup : indices.Nodup) {p : Env}
    (hp : p ∈ rs.points indices) : p.restrict indices = p := by
  have hfst := map_fst_of_mem_points hp
  rw [Env.restrict, ← hfst, List.filterMap_map]
  have hself (q : String × Int) (hq : q ∈ p) :
      ((fun i => (p.lookup i).map (i, ·)) ∘ Prod.fst) q = some q := by
    rw [Function.comp_apply, (Env.lookup_eq_some_iff (by rwa [hfst])).2 hq]
    rfl
  rw [List.filterMap_congr hself, List.filterMap_some]

theorem restrict_reverse {rs : Ranges} {loops : List String} (hnodup : loops.Nodup) {q : Env}
    (hq : q ∈ rs.points loops) (indices : List String) :
    Env.restrict indices q.reverse = Env.restrict indices q := by
  refine Env.restrict_congr (lookup_eq_of_perm (List.reverse_perm q) ?_) indices
  rw [List.map_reverse, List.nodup_reverse, map_fst_of_mem_points hq]
  exact hnodup

/-- The points that a plan goes through, in whatever order, are the points of its indices. -/
theorem map_restrict_perm (rs : Ranges) {p : Plan} {indices : List String} (hnodup : indices.Nodup)
    (hindices : (p.outer ++ p.inner).Perm indices)
    (hgroup : ∀ g, p.tiles = some g → g.indices.Nodup ∧ 0 < g.width ∧ ∀ i ∈ g.indices, i ∈ indices) :
    (((p.blocks rs).flatMap fun rs' => (rs'.points (p.outer ++ p.inner)).map List.reverse).map
      (Env.restrict indices)).Perm (rs.points indices) := by
  have hloops : (p.outer ++ p.inner).Nodup := hindices.nodup_iff.2 hnodup
  have hblocks := (p.points_blocks_perm rs hloops fun g hg => by
    obtain ⟨hg₁, hg₂, hg₃⟩ := hgroup g hg
    exact ⟨hg₁, hg₂, fun i hi => hindices.mem_iff.2 (hg₃ i hi)⟩).map fun q =>
      Env.restrict indices q.reverse
  rw [← List.map_flatMap, List.map_map]
  refine hblocks.trans ?_
  rw [List.map_congr_left fun q hq => restrict_reverse hloops hq indices]
  refine (map_points_perm hindices hloops fun q q' hq => Env.restrict_congr hq indices).trans ?_
  rw [List.map_congr_left fun q hq => restrict_of_mem_points hnodup hq, List.map_id']

end Ranges

namespace Kernel

/-- The point at which the right-hand side is evaluated to find the type of a new array. -/
def samplePoints (k : Kernel) (rs : Ranges) : List Env :=
  if k.statement.allocates then
    [(k.outputIndices ++ k.reductionIndices).map fun i => (i, (rs.get i).element 0)] else []

/-- Every way to give a value of its range to every index of the kernel is in a list once. -/
def VisitsOnce (k : Kernel) (rs : Ranges) (walk : List Env) : Prop :=
  (walk.map (Env.restrict (k.outputIndices ++ k.reductionIndices))).Nodup ∧
    ∀ p, p ∈ walk.map (Env.restrict (k.outputIndices ++ k.reductionIndices)) ↔
      List.Forall₂ (fun i q => q.1 = i ∧ q.2 ∈ (rs.get i).toList) (k.outputIndices ++ k.reductionIndices) p

namespace Planned

variable {k : Kernel} {read : Reduction.Partial} (hk : k.Planned read) {rs : Ranges}

include hk

/-- The points that the blocks go through are those of the indices. -/
theorem perm_points {envs : List Env} (h : envs.Perm ((k.plan.blocks rs).flatMap fun rs' =>
      (rs'.points (k.plan.outer ++ k.plan.inner)).map List.reverse)) :
    (envs.map (Env.restrict (k.outputIndices ++ k.reductionIndices))).Perm
      (rs.points (k.outputIndices ++ k.reductionIndices)) := by
  rw [hk.reductionIndices_eq]
  refine (h.map _).trans (Ranges.map_restrict_perm rs hk.lays.nodup ?_ fun g hg => ?_)
  · rw [hk.outer_eq, hk.inner_eq]
    exact (List.reverse_perm _).append_right _
  · obtain ⟨hnodup, hwidth, hmem, -⟩ := hk.group_sound hg
    exact ⟨hnodup, hwidth, hmem⟩

theorem visitsOnce {envs : List Env} (h : envs.Perm ((k.plan.blocks rs).flatMap fun rs' =>
      (rs'.points (k.plan.outer ++ k.plan.inner)).map List.reverse)) : k.VisitsOnce rs envs := by
  have hperm := hk.perm_points h
  refine ⟨hperm.nodup_iff.2 (rs.nodup_points _), fun p => ?_⟩
  rw [hperm.mem_iff, Ranges.points, mem_points, List.forall₂_map_left_iff]

/-- Making the output evaluates the right-hand side at the first value of every index, or not at
all. -/
theorem notes_makeOutputIn (scope : Scope) (rs : Ranges) (element : Env → Run Value) :
    Noting.Notes some (k.makeOutputIn scope rs (Traced.evaluate element)) (k.samplePoints rs) := by
  intro s r s' h
  rw [samplePoints, hk.reductionIndices_eq]
  unfold makeOutputIn at h
  split at h
  · rename_i hs
    obtain ⟨env, s₁, hsample, h⟩ := Run.exec_bind_eq_ok h
    have henv : k.sample rs = .ok env ∧ s = s₁ := by
      rw [Noting.exec_lift, Run.exec_lift] at hsample
      exact Prod.mk.inj hsample
    obtain ⟨henv, rfl⟩ := henv
    obtain ⟨-, rfl⟩ := hk.sample_eq_ok_iff.1 henv
    have hrest := (Traced.notes_evaluate element ((k.outputIndices ++ k.analysis.reduction.order).map
      fun i => (i, (rs.get i).element 0))).bind fun v =>
      (Noting.notes_lift (Dense.read v)).bind fun d => (Noting.notes_lift (Dense.allocate
        ⟨d.type, k.newShape rs, List.replicate (cellCount (k.newShape rs)) (blank d.type)⟩)).bind fun a =>
          Noting.notes_pure (Value.array a, d.type)
    rw [if_pos hs]
    exact hrest s r s' h
  · rename_i hs
    rw [if_neg hs]
    dsimp only at h
    split at h
    · exact Noting.notes_lift _ s r s' h
    · rename_i out _
      exact (Noting.notes_lift (elemTypeOf out)).bind (fun t => Noting.notes_pure (out, t)) s r s' h

/-- Setting up a run evaluates the right-hand side at the sample only. -/
theorem exec_prepareTraced {scope : Scope} {w w' : World} {s : Setup}
    (h : exec (k.prepare scope) w = (.ok s, w')) :
    exec (k.prepareTraced scope) (w, []) = (.ok s, (w', k.samplePoints s.ranges)) := by
  have herase := Noting.exec_of_erasing (k.erasing_prepareIn scope) (w, [])
  rw [h] at herase
  rcases htraced : exec (k.prepareTraced scope) (w, []) with ⟨r, u, trace⟩
  rw [htraced] at herase
  cases herase
  obtain ⟨rs, s₁, hranges, hrest⟩ := Run.exec_bind_eq_ok htraced
  obtain ⟨code, s₂, hcode, hrest⟩ := Run.exec_bind_eq_ok hrest
  obtain ⟨⟨out, t⟩, s₃, houtput, hrest⟩ := Run.exec_bind_eq_ok hrest
  obtain ⟨⟨r, init⟩, s₄, hreducer, hrest⟩ := Run.exec_bind_eq_ok hrest
  obtain ⟨text, s₅, htext, hrest⟩ := Run.exec_bind_eq_ok hrest
  obtain ⟨_, s₆, hlog, hrest⟩ := Run.exec_bind_eq_ok hrest
  cases hrest
  have hnoted : trace.filterMap some = s₅.2.filterMap some ++ [] := Noting.notes_lift _ _ _ _ hlog
  rw [Noting.notes_lift _ _ _ _ htext, Noting.notes_lift _ _ _ _ hreducer,
    hk.notes_makeOutputIn scope rs _ _ _ _ houtput, Noting.notes_lift _ _ _ _ hcode,
    Noting.notes_lift _ _ _ _ hranges] at hnoted
  simp only [List.filterMap_some, List.nil_append, List.append_nil] at hnoted
  rw [hnoted]

/-- The loops evaluate the right-hand side at every point once. -/
theorem exists_walk {scope : Scope} {s : Setup} (hrs : s.ranges.Gapless) {w w' : World}
    (h : exec (runPlan (s.machine k scope) k.config.workerCount k.outputIndices k.plan s.ranges) w = (.ok ⟨⟩, w'))
    (trace : List Env) : ∃ walk, k.VisitsOnce s.ranges walk ∧
      exec (runPlan (k.machineIn scope (Traced.evaluate fun env => s.code.run scope env) s.out s.reducer s.init)
        k.config.workerCount k.outputIndices k.plan s.ranges) (w, trace) = (.ok ⟨⟩, (w', trace ++ walk)) := by
  have hwidth (g : TileGroup) (hg : k.plan.tiles = some g) := (hk.group_sound hg).2.1
  have herase := runPlan_rel k.outputIndices (k.erasing_machineIn scope (fun env => s.code.run scope env) s.out
    s.reducer s.init k.plan s.ranges) k.config.workerCount hrs hwidth (by simp [hk.outer_eq]) (w, trace)
  change _ = (exec (runPlan (s.machine k scope) k.config.workerCount k.outputIndices k.plan s.ranges) w).2 ∧
    Concur _ _ (exec (runPlan (s.machine k scope) k.config.workerCount k.outputIndices k.plan s.ranges) w).1 at herase
  rw [h] at herase
  rcases htraced : exec (runPlan (k.machineIn scope (Traced.evaluate fun env => s.code.run scope env) s.out s.reducer
    s.init) k.config.workerCount k.outputIndices k.plan s.ranges) (w, trace) with ⟨e | _, u, trace'⟩
  · rw [htraced] at herase
    exact herase.2.elim
  · rw [htraced] at herase
    obtain rfl : u = w' := herase.1
    have hnoted := Traced.notes_runPlan rfl (fun acc v => Noting.notes_lift (s.reducer.apply scope acc v))
      (fun env v => Noting.notes_lift (s.out.set (k.keys env) v)) hrs k.config.workerCount k.outputIndices hwidth
      _ _ _ htraced
    simp only [List.filterMap_some] at hnoted
    exact ⟨_, hk.visitsOnce (.refl _), by rw [hnoted]⟩

end Planned

/-! ## Workers that take turns -/

/-- Everything is allowed. The evaluations count. -/
def visiting : Duty where
  allowed _ := True
  counted := Step.evaluatedAt?
  change _ _ _ := True
  refl _ := trivial
  trans _ _ := trivial

theorem owes_visiting {α : Type} (step : Step) (x : Run α) :
    visiting.Owes (Noting.witness step x) step.evaluatedAt?.toList :=
  Duty.owes_witness trivial fun _ _ => trivial

theorem owed_flushWork_visiting (m : Machine Run Value) (outputs : List String) (rs : Ranges) :
    visiting.Owed (flushWork m.witnessed outputs rs) [] := by
  have hnone : (points (outputs.map fun i => (i, (rs.get i).toList))).flatMap (fun _ => ([] : List Env)) = [] :=
    List.flatMap_eq_nil_iff.2 fun _ _ => rfl
  rw [flushWork, foldLoops_eq, ← hnone]
  refine Duty.Owed.foldlM (fun q _ _ => ?_) PUnit.unit
  exact (Duty.owed_fetch (Env.cell (q.reverse ++ []) outputs) m.init).bind fun v =>
    (owes_visiting (.store (q.reverse ++ []) v) _).own

/-- Workers that have all ended well have evaluated the right-hand side at every point once. -/
theorem Planned.workers_visitsOnce {k : Kernel} {read : Reduction.Partial} (hk : k.Planned read) {scope : Scope}
    {s : Setup} (hrs : s.ranges.Gapless) {w : World} {d : Crew ((World × List Event) × Table Value)}
    (hreach : Crew.Reaches (k.witnessedWorkers scope s w) d) (hend : d.result = some (.ok ⟨⟩)) :
    k.VisitsOnce s.ranges (d.state.1.2.filterMap (·.step.evaluatedAt?)) := by
  obtain ⟨later, hlater, htotal⟩ := Duty.owed_blocks (d := visiting) (m := s.machine k scope) (p := k.plan)
    k.outputIndices (fun env => owes_visiting (.evaluate env) _) (fun acc v => owes_visiting (.combine acc v) _)
    (fun _ env v => owes_visiting (.store env v) _) hrs k.config.workerCount
  have hgroups : ∃ later', List.Forall₂ (List.Forall₂ visiting.Owed) (k.witnessedWorkers scope s w).waiting later' ∧
      later'.flatten.flatten = later.flatten.flatten := by
    unfold witnessedWorkers crew
    dsimp only
    split
    · refine ⟨later ++ [[[]]], List.rel_append hlater (.cons (.cons ?_ .nil) .nil), by simp⟩
      exact owed_flushWork_visiting (s.machine k scope) k.outputIndices s.ranges
    · exact ⟨later, by simpa using hlater, rfl⟩
  obtain ⟨later', hlater', hsame⟩ := hgroups
  have hstart : visiting.Busy w [] later'.flatten.flatten [] [] (k.witnessedWorkers scope s w) := by
    have hbusy := Duty.busy_start [] (t := ([] : Table Value)) hlater' w
    rwa [List.append_nil] at hbusy
  rw [hsame, htotal] at hstart
  obtain ⟨es, hbusy⟩ := Duty.Busy.reaches hstart hreach
  obtain ⟨hawait, hwaiting⟩ := Crew.result_eq_ok hend
  rw [hbusy.log]
  exact hk.visitsOnce (hbusy.paid hwaiting hawait).2

/-- **No point is lost and none is visited twice.** A run that returns has evaluated the right-hand
side at every way to give a value of its range to every index of the kernel, at each once, and, if
it makes a new array, before that at the first value of every index. The same holds of a call whose workers
take their steps in any order: setting it up evaluates the right-hand side at the first value of every
index or not at all, and workers that end well have evaluated it at every point once. -/
theorem run_visits_points_once {config : Config} {source : String} {k : Kernel}
    (hk : Compiles config source k) (scope : Scope) (w : World) :
    (∀ out w', exec (k.run scope) w = (.ok out, w') →
      ∃ rs w₁ walk, exec (k.analysis.catalog.ranges scope k.analysis.indexNames) w = (.ok rs, w₁) ∧
        exec (k.runTraced scope) (w, []) = (.ok out, (w', k.samplePoints rs ++ walk)) ∧ k.VisitsOnce rs walk) ∧
    ∀ s w₁, exec (k.launch scope) w = (.ok s, w₁) →
      exec (k.prepareTraced scope) (w, []) = (.ok s, (w₁, k.samplePoints s.ranges)) ∧
      (∀ c, Crew.Reaches (k.workers scope s w₁) c → ∃ d, Crew.Reaches (k.witnessedWorkers scope s w₁) d ∧
        d.state.1.1 = c.state.1 ∧ d.result = c.result) ∧
      ∀ d, Crew.Reaches (k.witnessedWorkers scope s w₁) d → d.result = some (.ok ⟨⟩) →
        k.VisitsOnce s.ranges (d.state.1.2.filterMap (·.step.evaluatedAt?)) := by
  obtain ⟨-, read, hk⟩ := hk.planned
  refine ⟨fun out w' hrun => ?_, fun s w₁ hlaunch => ?_⟩
  · rw [run_eq] at hrun
    obtain ⟨s, w₁, hprepare, hrest⟩ := Run.exec_bind_eq_ok hrun
    obtain ⟨_, w₂, hloops, hout⟩ := Run.exec_bind_eq_ok hrest
    cases hout
    obtain ⟨t, u, -, -, hranges, -⟩ := prepare_eq_ok hprepare
    obtain ⟨walk, hvisits, hwalk⟩ := hk.exists_walk (gapless_of_prepare hprepare) hloops (k.samplePoints s.ranges)
    refine ⟨s.ranges, u, walk, hranges, ?_, hvisits⟩
    rw [runTraced, runIn]
    refine (Run.exec_bind_ok (hk.exec_prepareTraced hprepare)).trans ?_
    rw [Run.exec_bind_ok hwalk]
    rfl
  · have hgapless := gapless_of_launch hlaunch
    exact ⟨hk.exec_prepareTraced (launch_eq_ok hlaunch), fun c hc => hk.exists_watched hgapless hc,
      fun d hd hend => hk.workers_visitsOnce hgapless hd hend⟩

/-- Workers, blocks of a reduction index and unrolled steps visit the cubes once each, and so do workers
that take turns. -/
theorem run_visits_points_once_cubes : ∃ k out w' s w₁,
    Compiles ⟨true, some 2⟩ "Z[i] := X[i, j, l] (+, l, unroll(2), j) \x7btile(2), i, l\x7d" k ∧
    exec (k.run cubes) cubesWorld = (.ok out, w') ∧
    (∃ rs w₁ walk, exec (k.analysis.catalog.ranges cubes k.analysis.indexNames) cubesWorld = (.ok rs, w₁) ∧
      exec (k.runTraced cubes) (cubesWorld, []) = (.ok out, (w', k.samplePoints rs ++ walk)) ∧
      k.VisitsOnce rs walk) ∧
    exec (k.launch cubes) cubesWorld = (.ok s, w₁) ∧
    ∀ d, Crew.Reaches (k.witnessedWorkers cubes s w₁) d → d.result = some (.ok ⟨⟩) →
      k.VisitsOnce s.ranges (d.state.1.2.filterMap (·.step.evaluatedAt?)) := by
  obtain ⟨k, hk, hsum⟩ := exists_compiles ⟨true, some 2⟩
    "Z[i] := X[i, j, l] (+, l, unroll(2), j) \x7btile(2), i, l\x7d"
    (fun k => k.isSumOf ["i"] "X" ["i", "j", "l"]) (by decide +kernel)
  obtain ⟨out, w', hrun⟩ := exists_run_cubes hk hsum
  obtain ⟨hruns, hworkers⟩ := run_visits_points_once hk cubes cubesWorld
  have hcall : exec (k.call cubes) cubesWorld = (.ok out, w') := hrun
  rw [call_eq] at hcall
  obtain ⟨s, w₁, hlaunch, -⟩ := Run.exec_bind_eq_ok hcall
  exact ⟨k, out, w', s, w₁, hk, hrun, hruns out w' hrun, hlaunch, (hworkers s w₁ hlaunch).2.2⟩

end Kernel
end IndexNotation
