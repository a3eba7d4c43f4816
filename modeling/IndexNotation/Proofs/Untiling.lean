import IndexNotation.Proofs.Independence
import IndexNotation.Proofs.Meaning
import IndexNotation.Proofs.Steps

/-!
# Blocks of output indices

A tiling clause that names no reduction index cuts the output into blocks and leaves the values of
every cell alone. The blocks have each cell of the output once, so each cell is stored to once, and
its values are reduced in the order that they have without the clause. Nothing is asked of the reducer
for that. If what it gives depends on its arguments only, the arrays are the same too.
-/

namespace IndexNotation

open Run (exec Keeps)

/-! ## Kernels without tiling -/

/-- A statement without its tiling clause. -/
def Statement.untiled (s : Statement) : Statement := { s with tiling := none }

def IndexSymbol.untiled (s : IndexSymbol) : IndexSymbol := { s with tiled := false }

namespace Kernel

/-- The kernel of the statement without its tiling clause, if that names no reduction index. -/
def untiled (k : Kernel) : Kernel where
  source := k.source
  config := k.config
  analysis := { k.analysis with statement := k.statement.untiled, tiling := none }
  symbols := k.symbols.map IndexSymbol.untiled
  plan := { k.plan with tiles := none }

namespace Planned

variable {k : Kernel} {read : Reduction.Partial} (h : k.Planned read)

include h

/-- A group without reduction indices leaves reductions whole. -/
theorem resumes_of_group (hgroup : ∀ g, k.plan.tiles = some g → ∀ i ∈ g.indices, i ∉ k.reductionIndices) :
    k.plan.body.resumes = false := by
  rw [h.reductionIndices_eq] at hgroup
  rcases h.body_eq with ⟨-, hbody⟩ | ⟨-, loops, -, hbody⟩
  · rw [hbody]
    rfl
  · rw [hbody]
    change k.analysis.tiling.any _ = false
    have htiles : k.plan.tiles = k.analysis.tiling.map fun t => ⟨t.indices, t.width⟩ := by
      rw [h.plan]
      rfl
    cases ht : k.analysis.tiling with
    | none => rfl
    | some t =>
      rw [ht] at htiles
      simpa using hgroup _ htiles

theorem plan_untiled (hplain : k.plan.body.resumes = false) : k.untiled.plan =
    k.untiled.analysis.layout k.untiled.analysis.reduction k.untiled.config.parallel k.untiled.symbols := by
  have hbody : k.untiled.analysis.body k.untiled.analysis.reduction k.untiled.symbols = k.plan.body := by
    rw [h.plan] at hplain ⊢
    change (k.analysis.body k.analysis.reduction k.symbols).resumes = false at hplain
    change _ = k.analysis.body k.analysis.reduction k.symbols
    unfold Analysis.body at hplain ⊢
    rw [untiled, List.filter_map,
      show (fun s : IndexSymbol => !s.output) ∘ IndexSymbol.untiled = fun s => !s.output from rfl]
    generalize k.symbols.filter (!·.output) = inner at hplain ⊢
    cases inner with
    | nil => rfl
    | cons s inner =>
      dsimp only [Body.resumes] at hplain
      simp only [hplain, List.map_cons, List.map_map]
      rfl
  have houtputs : Analysis.outputLoops k.untiled.config.parallel k.untiled.symbols = k.plan.outputs := by
    rw [h.plan]
    exact Analysis.outputLoops_map IndexSymbol.untiled fun _ => ⟨rfl, rfl, rfl⟩
  rw [Analysis.layout, hbody, houtputs]
  rfl

theorem symbols_untiled : k.untiled.analysis.symbols k.untiled.analysis.reduction = .ok k.untiled.symbols := by
  refine mapM_map_eq_ok (fun i => ?_) h.symbols
  unfold Analysis.symbol
  rw [show k.untiled.analysis.catalog = k.analysis.catalog from rfl]
  cases k.analysis.catalog.get? i <;> rfl

/-- The statement without its tiling clause compiles, to the kernel without blocks. -/
theorem untiled (hplain : k.plan.body.resumes = false) : k.untiled.Planned read where
  named := h.named
  target := h.target
  clause := h.clause
  tiling := rfl
  collection := h.collection
  catalog := h.catalog
  settled := h.settled
  symbols := h.symbols_untiled
  tiles := rfl
  plan := h.plan_untiled hplain

end Planned

end Kernel

/-! ## Stores -/

namespace Machine

open Noting (Notes notes_pure notes_lift notes_note)

variable (m : Machine Run Value)

theorem notes_element (env : Env) : Notes Step.storedAt? (m.recorded.element env) [] :=
  (notes_note (Step.evaluate env)).bind fun _ => notes_lift (m.element env)

theorem notes_combine (acc v : Value) : Notes Step.storedAt? (m.recorded.combine acc v) [] :=
  (notes_note (Step.combine acc v)).bind fun _ => notes_lift (m.combine acc v)

theorem notes_store (env : Env) (v : Value) : Notes Step.storedAt? (m.recorded.store env v) [env] :=
  (notes_note (Step.store env v)).bind fun _ => notes_lift (m.store env v)

theorem notes_reduceCell (rs : Ranges) (loops : List InnerLoop) (env : Env) (acc : Value) :
    Notes Step.storedAt? (reduceCell m.recorded rs loops env acc) [] := by
  have hbody (env : Env) (acc : Value) :
      Notes Step.storedAt? (do m.recorded.combine acc (← m.recorded.element env)) [] :=
    (m.notes_element env).bind fun v => m.notes_combine acc v
  have h := Notes.foldLoops (loops.map fun l => (l.index, l.values rs)) hbody env acc
  rwa [List.flatMap_eq_nil_iff.2 fun _ _ => rfl] at h

/-- A cell whose reduction is whole is stored to once. -/
theorem notes_runCell (rs : Ranges) (outputs : List String) {body : Body} (hplain : body.resumes = false)
    (env : Env) (table : Table Value) :
    Notes Step.storedAt? (runCell m.recorded rs outputs body env table) [env] := by
  have hend (v : Value) : Notes Step.storedAt? (do m.recorded.store env v; return table) [env] :=
    (m.notes_store env v).bind fun _ => notes_pure table
  cases body with
  | store => exact (m.notes_element env).bind hend
  | reduce op resume loops =>
    obtain rfl : resume = false := hplain
    exact (m.notes_reduceCell rs loops env _).bind hend

/-- The stores of a plan that does not resume are those of the cells of its blocks. -/
theorem notes_runPlan (workers : Nat) (outputs : List String) {p : Plan} {rs : Ranges}
    (hw : ∀ g, p.tiles = some g → 0 < g.width) (hplain : p.body.resumes = false)
    (hinner : ∀ rs' ∈ p.blocks rs, ∀ i ∈ p.inner, rs'.get i = rs.get i) :
    Notes Step.storedAt? (runPlan m.recorded workers outputs p rs) ((p.blocks rs).flatMap p.cells) := by
  have hcells := Notes.foldlM (fun c (_ : c ∈ (p.blocks rs).flatMap p.cells) table =>
    m.notes_runCell rs outputs hplain c table) []
  rw [List.flatMap_singleton'] at hcells
  refine .of_sameOutcome (runPlan_sameOutcome m.recorded workers outputs hw hplain hinner) ?_
  have h := hcells.bind fun _ => notes_pure PUnit.unit
  rwa [List.append_nil] at h

end Machine

/-! ## Runs without tiling -/

namespace Kernel

theorem Filled.exists_get {k : Kernel} {read : Reduction.Partial} (hk : k.Planned read) {a : View}
    (hrank : k.statement.target.indices.length = a.shape.length) {G : Env → Value → Prop} {cs : List Env}
    {u u' : World} (h : k.Filled a G cs u u') {c : Env} (hc : c ∈ cs) :
    ∃ cell, (exec ((Value.array a).get (k.keys c)) u').1 = .ok cell ∧ G c cell := by
  obtain ⟨p, cell, hplace, hcell, hG⟩ := h.holds c hc
  refine ⟨cell, ?_, hG⟩
  rw [hk.keys_eq, Value.exec_get_ints (by simp [positions, hrank]), hplace]
  simp [Array.getD_eq_getD_getElem?, hcell]

/-- All cells of all blocks are given their meaning. -/
theorem Ready.runPlan_blocks {k : Kernel} {scope : Scope} {w w' : World} {s : Setup} {a : View}
    (h : k.Ready scope w s w' a) (hplain : k.plan.body.resumes = false) {u : World}
    (hr : exec (runPlan (s.machine k scope) k.config.workerCount k.outputIndices k.plan s.ranges) w' =
      (.ok ⟨⟩, u)) :
    k.Filled a (k.Means scope w a s.ranges (s.reducer.apply scope) s.init w')
      ((k.plan.blocks s.ranges).flatMap k.plan.cells) w' u := by
  obtain ⟨read, hk⟩ := h.planned
  have hperm := hk.lays.cells_blocks_perm s.ranges hplain
  have hseq := (runPlan_sameOutcome _ _ _ (fun g hg => (hk.group_sound hg).2.1) hplain fun rs' hrs' i hi =>
    hk.lays.get_inner hplain hrs' (hk.inner_eq ▸ hi)).eq_of_ok hr
  obtain ⟨table, u', hcells, hend⟩ := Run.exec_bind_eq_ok hseq
  cases hend
  refine h.foldlM_runCell_spec hplain (fun c hc => ?_) (hperm.nodup_iff.2 (k.plan.nodup_cells _))
    ((World.Keeps.refl _).but _) rfl hcells
  exact hk.lays.mem_cells.1 (hperm.mem_iff.1 hc)

/-- Each cell of the output is stored to once. -/
theorem Planned.countP_stores {k : Kernel} {read : Reduction.Partial} (hk : k.Planned read)
    (hplain : k.plan.body.resumes = false) {scope : Scope} {w w₁ u : World} {s : Setup}
    (hprepare : exec (k.prepare scope) w = (.ok s, w₁)) {out : Value} {steps : List Step}
    (h : exec (k.runRecorded scope) (w, []) = (.ok out, (u, steps))) {c : Env}
    (hc : c ∈ s.ranges.points k.outputIndices) :
    (steps.filterMap Step.storedAt?).countP (k.positions · = k.positions c) = 1 := by
  obtain ⟨s', s₁, hs', h⟩ := Run.exec_bind_eq_ok h
  obtain ⟨_, s₂, hloops, h⟩ := Run.exec_bind_eq_ok h
  cases h
  rw [Noting.exec_lift, hprepare] at hs'
  cases hs'
  have hstores := (s.machine k scope).notes_runPlan _ _ (fun g hg => (hk.group_sound hg).2.1) hplain
    (fun rs' hrs' i hi => hk.lays.get_inner hplain hrs' (hk.inner_eq ▸ hi)) _ _ _ hloops
  simp only [List.filterMap_nil, List.nil_append] at hstores
  have hperm := hk.lays.cells_blocks_perm s.ranges hplain
  rw [hstores, hperm.countP_eq]
  have hsame (c' : Env) (hc' : c' ∈ k.plan.cells s.ranges) : k.positions c' = k.positions c ↔ c' = c :=
    ⟨fun e => Ranges.eq_of_cell_eq k.nodup_outputIndices (hk.lays.mem_cells.1 hc') hc
      (cell_eq_of_positions_eq e), fun e => by rw [e]⟩
  rw [List.countP_congr (q := (· == c)) fun c' hc' => by simpa using hsame c' hc']
  exact List.count_eq_one_of_mem (k.plan.nodup_cells _) (hk.lays.mem_cells.2 hc)

section

variable {k : Kernel} {scope : Scope} {w : World} {P : Look → Prop} {g : Look → Look → Except Error Look}

theorem Tame.untiled (h : k.Tame scope w P g) : k.untiled.Tame scope w P g where
  element := h.element
  value := h.value
  closed := h.closed
  combine := h.combine
  initial := h.initial
  start := h.start

theorem Forecast.untiled {rs : Ranges} {t : ElemType} {init : Look} (h : k.Forecast scope w rs t init) :
    k.untiled.Forecast scope w rs t init := by
  obtain ⟨env, l, henv, hl, htyped⟩ := h.sample
  refine ⟨h.ranges, h.code, ⟨env, l, ?_, hl, htyped⟩, h.start⟩
  rw [← henv]
  exact sample_congr (by simp [Kernel.untiled, IndexSymbol.untiled]) rs

/-- With a reducer that is a function of its arguments, the kernel without the tiling clause returns
an array that looks the same. -/
theorem Planned.exists_run_untiled {read : Reduction.Partial} (hk : k.Planned read)
    (hplain : k.plan.body.resumes = false) (quiet : scope.Quiet) (hs : k.statement.allocates = true)
    (tame : k.Tame scope w P g) {out : Value} {u : World} (hrun : exec (k.run scope) w = (.ok out, u)) :
    ∃ out' u', exec (k.untiled.run scope) w = (.ok out', u') ∧ out'.look u'.heap = out.look u.heap := by
  have hk' := hk.untiled hplain
  have hserved' : k.untiled.Served scope w g := served_of_plain hk' hplain
  obtain ⟨rs, a, init, w₁, cells, hf, rfl, hfresh, hfills, htracks⟩ :=
    fills_of_run hk (still_of_quiet quiet k) hs tame (served_of_plain hk hplain) hrun
  obtain ⟨out', u', hrun'⟩ := exists_run hk' (still_of_quiet quiet _) hs tame.untiled hserved' hf.untiled hfills
  obtain ⟨rs', a', init', w₁', cells', hf', rfl, hfresh', hfills', htracks'⟩ :=
    fills_of_run hk' (still_of_quiet quiet _) hs tame.untiled hserved' hrun'
  obtain ⟨rfl, htype, rfl⟩ := hf.untiled.unique hf'
  rw [← htype] at hfills'
  obtain rfl := Rule.Fills.unique hfills hfills'
  exact ⟨_, u', hrun', (htracks.look_eq htracks' hfresh hfresh' htype fun _ => ⟨.rfl, rfl, rfl⟩).symm⟩

end

/-- **Blocks of output indices change no reduction.** If a statement that makes a new array compiles
with a tiling clause that names no reduction index, it also compiles without the clause. When the
kernel with the clause returns, it has stored to each cell of the left-hand side exactly once, and the
cell holds its meaning in the kernel without the clause: the left fold of its values, in the order that
they have there. If moreover the reducer is a function of its arguments, any function, the kernel
without the clause returns an array that looks the same. -/
theorem run_untiled {config : Config} {source : String} {k : Kernel} (hk : Compiles config source k)
    (hs : k.statement.allocates = true)
    (hgroup : ∀ g, k.plan.tiles = some g → ∀ i ∈ g.indices, i ∉ k.reductionIndices) {scope : Scope}
    (quiet : scope.Quiet) {w w' : World} {out : Value} (hcall : exec (k.call scope) w = (.ok out, w'))
    (hsees : ∀ b, k.Sees scope w b → b < w.heap.size) (hpure : k.Pure scope w) :
    ∃ k', CompilesFrom config source k.statement.untiled k' ∧ ∃ a rs f init u u' steps,
      out = .array a ∧ (exec (k'.analysis.catalog.ranges scope k'.analysis.indexNames) w).1 = .ok rs ∧
      w.Keeps u ∧ exec (k'.reducer scope a.type) u = (.ok (f, init), u') ∧
      exec (k.runRecorded scope) (w, []) = (.ok out, (w', steps)) ∧
      (∀ c ∈ rs.points k'.outputIndices,
        (steps.filterMap Step.storedAt?).countP (k'.positions · = k'.positions c) = 1 ∧
        ∃ cell, (exec (out.get (k'.keys c)) w').1 = .ok cell ∧
          k'.Means scope w a rs (f.apply scope) init u' c cell) ∧
      ∀ P g, k.Tame scope w P g → ∃ out' w'', exec (k'.call scope) w = (.ok out', w'') ∧
        out'.look w''.heap = out.look w'.heap := by
  obtain ⟨-, hsource⟩ := hk.readStatement_eq
  obtain ⟨rfl, read, hplanned⟩ := hk.planned
  subst hsource
  have hplain := hplanned.resumes_of_group hgroup
  have hrun : exec (k.run scope) w = (.ok out, w') ∧ k.untiled.call scope = k.untiled.run scope := by
    unfold call at hcall ⊢
    split at hcall
    · cases hcall
    · rename_i hself
      exact ⟨hcall, if_neg hself⟩
  obtain ⟨hrun, hcall'⟩ := hrun
  have hrecorded := exec_runRecorded hplanned scope (w, [])
  rw [hrun] at hrecorded
  rcases hsteps : exec (k.runRecorded scope) (w, []) with ⟨r, u₁, steps⟩
  rw [hsteps] at hrecorded
  cases hrecorded
  have hloops := hrun
  rw [run_eq] at hloops
  obtain ⟨s, w₁, hprepare, hloops⟩ := Run.exec_bind_eq_ok hloops
  obtain ⟨_, w₂, hloops, hend⟩ := Run.exec_bind_eq_ok hloops
  cases hend
  have hp := (still_of_quiet quiet k).prepared hprepare
  obtain ⟨a, hready⟩ := hp.ready hplanned quiet hpure hsees (by simp [hs])
  have hfilled := hready.runPlan_blocks hplain hloops
  obtain ⟨t, u, u', htype, -, hu, hu', hreducer⟩ := hp.reducer
  obtain rfl := htype a hready.out
  refine ⟨k.untiled, (hplanned.untiled hplain).compilesFrom, a, s.ranges, s.reducer, s.init, u, u', steps,
    hready.out, hp.ranges, hu, hreducer, rfl, fun c hc => ⟨?_, ?_⟩, fun P g tame => ?_⟩
  · exact hplanned.countP_stores hplain hprepare hsteps hc
  · have hmem := (hplanned.lays.cells_blocks_perm s.ranges hplain).mem_iff.2 (hplanned.lays.mem_cells.2 hc)
    obtain ⟨cell, hcell, hmeans⟩ := hfilled.exists_get hplanned hready.rank hmem
    rw [hready.out]
    exact ⟨cell, hcell, hmeans.mono (hu'.but _)⟩
  · rw [hcall']
    exact hplanned.exists_run_untiled hplain quiet hs tame hrun

/-- To take a cell of an array by plain indices is pure. -/
theorem pure_of_reads {e : Expr} {name : String} {keys indices : List String} (h : e.Reads name keys)
    (hname : name ∉ indices) (hmem : ∀ i ∈ keys, i ∈ indices) {scope : Scope} {a : View}
    (hlookup : scope.bindings.lookup name = some (.array a)) (hlen : keys.length = a.shape.length)
    (w : World) : e.Pure scope indices w := by
  refine Expr.pure_of_reference (h.resolve hname hlookup hmem) hlen name ?_ (by simp [Scope.lookup, hlookup])
  obtain ⟨pos, entries, pos', rfl, -⟩ := h
  simp [Expr.namesRead, Expr.walk]

theorem Sums.pure {k : Kernel} {read : Reduction.Partial} (hk : k.Planned read) {scope : Scope} {w : World}
    {t : IntType} {a : View} (h : k.Sums scope w t a) : k.Pure scope w := by
  obtain ⟨name, indices, hreads, hname, hlookup, hlen⟩ := h.reads
  exact pure_of_reads hreads hname (fun i hi => hk.mem_indexNames hreads hi) hlookup hlen w

theorem eq_zero_of_sees_cubes {k : Kernel} (hnames : k.statement.rhs.namesRead = ["X", "i", "j", "l"])
    {b : Nat} (h : k.Sees cubes cubesWorld b) : b = 0 := by
  obtain ⟨name, hname, v, hv, hreach⟩ := h
  rw [hnames] at hname
  simp only [List.mem_cons, List.not_mem_nil, or_false] at hname
  rcases hname with rfl | rfl | rfl | rfl <;> cases hv
  exact hreach.eq_block cells_cubes

/-- Rows of cubes in blocks of two, with workers and unrolled steps. -/
theorem run_untiled_cubes : ∃ k out w',
    Compiles ⟨true, some 2⟩ "Z[i] := X[i, j, l] (+, l, unroll(2), j) \x7btile(2), i\x7d" k ∧
    exec (k.call cubes) cubesWorld = (.ok out, w') ∧
    ∃ k', CompilesFrom ⟨true, some 2⟩ "Z[i] := X[i, j, l] (+, l, unroll(2), j) \x7btile(2), i\x7d"
        k.statement.untiled k' ∧
      (∃ a rs f init u u' steps, out = .array a ∧
        (exec (k'.analysis.catalog.ranges cubes k'.analysis.indexNames) cubesWorld).1 = .ok rs ∧
        cubesWorld.Keeps u ∧ exec (k'.reducer cubes a.type) u = (.ok (f, init), u') ∧
        exec (k.runRecorded cubes) (cubesWorld, []) = (.ok out, (w', steps)) ∧
        ∀ c ∈ rs.points k'.outputIndices,
          (steps.filterMap Step.storedAt?).countP (k'.positions · = k'.positions c) = 1 ∧
          ∃ cell, (exec (out.get (k'.keys c)) w').1 = .ok cell ∧
            k'.Means cubes cubesWorld a rs (f.apply cubes) init u' c cell) ∧
      ∃ out' w'', exec (k'.call cubes) cubesWorld = (.ok out', w'') ∧
        out'.look w''.heap = out.look w'.heap := by
  obtain ⟨k, hk, hcheck⟩ := exists_compiles ⟨true, some 2⟩
    "Z[i] := X[i, j, l] (+, l, unroll(2), j) \x7btile(2), i\x7d"
    (fun k => k.isSumOf ["i"] "X" ["i", "j", "l"] && k.plan.tiles.map (·.indices) == some ["i"] &&
      k.reductionIndices == ["l", "j"] && k.statement.rhs.namesRead == ["X", "i", "j", "l"])
    (by decide +kernel)
  simp only [Bool.and_eq_true, beq_iff_eq] at hcheck
  obtain ⟨⟨⟨hsum, htiles⟩, hinner⟩, hnames⟩ := hcheck
  obtain ⟨out, w', hcall⟩ := exists_run_cubes hk hsum
  obtain ⟨-, read, hp⟩ := hk.planned
  have hgroup (g : TileGroup) (hg : k.plan.tiles = some g) (i : String) (hi : i ∈ g.indices) :
      i ∉ k.reductionIndices := by
    rw [hg, Option.map_some, Option.some.injEq] at htiles
    rw [htiles] at hi
    obtain rfl := List.mem_singleton.1 hi
    simp [hinner]
  obtain ⟨k', hk', a, rs, f, init, u, u', steps, hout, hrs, hu, hreducer, hsteps, hcells, hsame⟩ :=
    run_untiled hk (allocates_of_isSumOf hsum) hgroup quiet_cubes hcall
      (fun b hb => by rw [eq_zero_of_sees_cubes hnames hb]; decide) ((sums_cubes hsum).pure hp)
  exact ⟨k, out, w', hk, hcall, k', hk', ⟨a, rs, f, init, u, u', steps, hout, hrs, hu, hreducer, hsteps,
    hcells⟩, hsame _ _ ((sums_cubes hsum).tame hp)⟩

end Kernel
end IndexNotation
