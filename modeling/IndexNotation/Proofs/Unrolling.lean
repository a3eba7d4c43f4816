import IndexNotation.Proofs.Steps

/-!
# Unrolling is invisible

The items of a reduction clause that unroll loops change the plan and nothing else. The statement
without them has the same loops in the same order, since all indices that are listed after the first
of these items are unrolled. And as the ranges of a run have no gaps, an unrolled loop runs through
the same values in the same order as a plain one, whatever is done at its points.
-/

namespace IndexNotation

open Run (exec)

/-! ## Statements without unrolling -/

/-- Items of a reduction clause that unroll loops: `unroll` and `unroll(width)`. -/
def Expr.isUnroll : Expr → Bool
  | name id _ => id == "unroll"
  | call f _ _ => f == "unroll"
  | _ => false

def ReductionClause.withoutUnroll (c : ReductionClause) : ReductionClause :=
  { c with items := c.items.filter (!·.isUnroll) }

/-- A statement with all items that unroll loops deleted. -/
def Statement.withoutUnroll (s : Statement) : Statement :=
  { s with reduction := s.reduction.map ReductionClause.withoutUnroll }

namespace Reduction

/-- The same loops, none of them unrolled. -/
def plain (r : Reduction) : Reduction :=
  { r with loops := r.order, unrolled := [] }

@[simp] theorem order_plain (r : Reduction) : r.plain.order = r.order := by
  simp [plain, order]

namespace Partial

def plain (p : Partial) : Partial :=
  { p with reduction := p.reduction.plain, unrolling := none }

/-- As long as nothing turns unrolling on, no index is unrolled. -/
def Ordered (p : Partial) : Prop := p.unrolling = none → p.reduction.unrolled = []

variable {site : Site} {p p' : Partial}

/-- An index is listed after all others, unrolled or not. -/
theorem Ordered.push {index : String} {pos : Option Pos} (hp : p.Ordered)
    (h : p.push site index pos = (p', none)) :
    p'.Ordered ∧ p.plain.push site index pos = (p'.plain, none) := by
  unfold Partial.push at h ⊢
  dsimp only at h ⊢
  rw [show p.plain.reduction.order = p.reduction.order from order_plain _]
  split at h
  · simp at h
  · rename_i hnew
    rw [if_neg hnew]
    split at h
    · rename_i width hwidth
      cases h
      refine ⟨fun hnone => ?_, ?_⟩
      · exact absurd (hwidth.symm.trans hnone) (by simp)
      · simp [plain, Reduction.plain, order]
    · rename_i hnone
      cases h
      refine ⟨fun _ => hp hnone, ?_⟩
      simp [plain, Reduction.plain, order, hp hnone]

theorem Ordered.pushBound {index : String} {axis : Axis} {pos : Option Pos} (hp : p.Ordered)
    (h : Partial.push site { p with bounds := p.bounds ++ [(index, axis)] } index pos = (p', none)) :
    p'.Ordered ∧
      Partial.push site { p.plain with bounds := p.plain.bounds ++ [(index, axis)] } index pos =
        (p'.plain, none) :=
  Ordered.push (p := { p with bounds := p.bounds ++ [(index, axis)] }) hp h

/-- An item that unrolls loops leaves the plain reading as it is; any other item does to the plain
reading what it does to the reading itself. -/
theorem Ordered.item {e : Expr} (hp : p.Ordered) (h : p.item site e = (p', none)) :
    p'.Ordered ∧ if e.isUnroll then p'.plain = p.plain else p.plain.item site e = (p'.plain, none) := by
  unfold Partial.item at h
  split at h
  · rename_i id pos
    split at h
    · rename_i hid
      cases h
      refine ⟨fun hnone => absurd hnone (by simp), ?_⟩
      rw [if_pos (by exact hid)]
      rfl
    · rename_i hid
      obtain ⟨hp', hpush⟩ := hp.push h
      refine ⟨hp', ?_⟩
      rw [if_neg (by exact hid), Partial.item, if_neg hid, hpush]
  · rename_i f args pos
    split at h
    · rename_i hf
      split at h
      · cases h
        refine ⟨fun hnone => absurd hnone (by simp), ?_⟩
        rw [if_pos (by exact hf)]
        rfl
      · simp at h
    · simp at h
  · rename_i operands pos
    split at h
    · rename_i index axis hbound
      obtain ⟨hp', hpush⟩ := hp.pushBound h
      refine ⟨hp', ?_⟩
      rw [if_neg (by simp [Expr.isUnroll])]
      simp only [Partial.item, hbound, hpush]
    · simp at h
  · rename_i name value pos
    split at h
    · rename_i hname
      cases h
      refine ⟨fun hnone => hp hnone, ?_⟩
      rw [if_neg (by simp [Expr.isUnroll])]
      simp only [Partial.item, hname, if_true]
      rfl
    · simp at h
  · simp at h

theorem Ordered.items {es : List Expr} (hp : p.Ordered) (h : p.items site es = (p', none)) :
    p.plain.items site (es.filter (!·.isUnroll)) = (p'.plain, none) := by
  induction es generalizing p with
  | nil =>
    cases h
    rfl
  | cons e es ih =>
    rw [Partial.items] at h
    rcases hitem : p.item site e with ⟨q, _ | err⟩
    · rw [hitem] at h
      obtain ⟨hq, hplain⟩ := hp.item hitem
      cases he : e.isUnroll with
      | true =>
        rw [he, if_pos rfl] at hplain
        rw [List.filter_cons_of_neg (by simp [he]), ← hplain]
        exact ih hq h
      | false =>
        rw [he, if_neg Bool.false_ne_true] at hplain
        rw [List.filter_cons_of_pos (by simp [he]), Partial.items, hplain]
        exact ih hq h
    · simp [hitem] at h

end Partial

/-- A clause reads the same without the items that unroll loops, but for the unrolling. -/
theorem read_withoutUnroll {source : String} {clause : Option ReductionClause} {p : Partial}
    (h : read source clause = (p, none)) :
    read source (clause.map ReductionClause.withoutUnroll) = (p.plain, none) := by
  cases clause with
  | none =>
    cases h
    rfl
  | some clause =>
    unfold read at h
    dsimp only at h
    split at h
    · simp at h
    · rename_i hop
      rcases hitems : Partial.items ⟨source, clause.source⟩ { reduction := { op := clause.op } } clause.items
        with ⟨q, _ | err⟩
      · rw [hitems] at h
        cases h
        have hplain : Partial.items ⟨source, clause.source⟩ { reduction := { op := clause.op } } _ = _ :=
          Partial.Ordered.items (fun _ => rfl) hitems
        simp only [read, Option.map_some, ReductionClause.withoutUnroll]
        rw [if_neg hop, hplain]
        simp [Partial.plain, plain, order]
      · simp [hitems] at h

end Reduction

/-! ## Plans without unrolling -/

def InnerLoop.plain (l : InnerLoop) : InnerLoop := { l with unroll := none }

def Body.plain : Body → Body
  | store => store
  | reduce op resume loops => reduce op resume (loops.map InnerLoop.plain)

/-- The same loops, none of them unrolled. -/
def Plan.plain (p : Plan) : Plan := { p with body := p.body.plain }

def IndexSymbol.plain (s : IndexSymbol) : IndexSymbol := { s with unroll := none }

@[simp] theorem Body.resumes_plain (b : Body) : b.plain.resumes = b.resumes := by
  cases b <;> rfl

section

variable {m : Type → Type} {V : Type} [Monad m]

theorem reduceCell_plain (k : Machine m V) {rs : Ranges} (hrs : rs.Gapless) (loops : List InnerLoop)
    (env : Env) (acc : V) :
    reduceCell k rs (loops.map InnerLoop.plain) env acc = reduceCell k rs loops env acc := by
  have hvalues (l : InnerLoop) : (l.plain.index, l.plain.values rs) = (l.index, l.values rs) := by
    rw [InnerLoop.values_eq (hrs _), InnerLoop.values_eq (hrs _)]
    rfl
  simp only [reduceCell, List.map_map, Function.comp_def, hvalues]

theorem runCell_plain (k : Machine m V) {rs : Ranges} (hrs : rs.Gapless) (outputs : List String)
    (body : Body) (env : Env) (table : Table V) :
    runCell k rs outputs body.plain env table = runCell k rs outputs body env table := by
  cases body with
  | store => rfl
  | reduce op resume loops =>
    cases resume <;> simp only [Body.plain, runCell, reduceCell_plain k hrs]

variable [MonadExceptOf Error m]

theorem runOutputs_plain (k : Machine m V) (workers : Nat) (outputs : List String) (p : Plan) {rs : Ranges}
    (hrs : rs.Gapless) (table : Table V) :
    runOutputs k workers outputs p.plain rs table = runOutputs k workers outputs p rs table := by
  have hcell : runCell k rs outputs p.body.plain = runCell k rs outputs p.body :=
    funext fun env => funext fun table => runCell_plain k hrs outputs p.body env table
  simp only [runOutputs, Plan.plain, hcell]

theorem runTiles_plain (k : Machine m V) (workers : Nat) (outputs : List String) {p : Plan} {rs : Ranges}
    (hrs : rs.Gapless) (hw : ∀ g, p.tiles = some g → 0 < g.width) :
    runTiles k workers outputs p.plain rs = runTiles k workers outputs p rs := by
  unfold runTiles
  rw [show p.plain.tiles = p.tiles from rfl]
  cases hg : p.tiles with
  | none => exact runOutputs_plain k workers outputs p hrs []
  | some g =>
    simp only [tileBlocks_eq rs g.indices (hw g hg)]
    refine foldlM_congr_mem (fun block hblock table => ?_) []
    refine runOutputs_plain k workers outputs p (fun i => ?_) table
    exact (Ranges.refines_rebind hrs hblock i).1

/-- Whatever a machine does at the points, and in whatever monad, a plan does the same with plain
loops in place of unrolled ones. -/
theorem runPlan_plain (k : Machine m V) (workers : Nat) (outputs : List String) {p : Plan} {rs : Ranges}
    (hrs : rs.Gapless) (hw : ∀ g, p.tiles = some g → 0 < g.width) :
    runPlan k workers outputs p.plain rs = runPlan k workers outputs p rs := by
  rw [runPlan, runPlan, runTiles_plain k workers outputs hrs hw]
  simp only [Plan.plain, Body.resumes_plain]

end

/-! ## Kernels without unrolling -/

namespace Kernel

/-- The kernel of the statement without the items that unroll loops. -/
def plain (k : Kernel) : Kernel where
  source := k.source
  config := k.config
  analysis := { k.analysis with statement := k.statement.withoutUnroll, reduction := k.analysis.reduction.plain }
  symbols := k.symbols.map IndexSymbol.plain
  plan := k.plan.plain

namespace Planned

variable {k : Kernel} {read : Reduction.Partial} (h : k.Planned read)

include h

theorem settled_plain : Analysis.settleReduction { k.plain.analysis with reduction := read.plain.reduction } =
    .ok k.plain.analysis.reduction := by
  have hexplicit : read.plain.reduction.explicit = !read.reduction.order.isEmpty :=
    (Reduction.sound_of_read h.clause).2
  unfold Analysis.settleReduction
  dsimp only
  rw [show read.plain.reduction.order = read.reduction.order from Reduction.order_plain _]
  change _ = Except.ok k.analysis.reduction.plain
  rcases h.reduction_cases with ⟨hempty, hunrolled, heq⟩ | ⟨hlisted, hperm, heq⟩
  · -- Nothing is listed, so nothing is unrolled.
    rw [if_pos (by simp [hexplicit, hempty]), heq]
    refine congrArg Except.ok ?_
    simp only [Reduction.plain, Reduction.order, hunrolled, List.map_nil, List.append_nil]
    rfl
  · rw [if_neg (by simp [hexplicit, hlisted]), heq]
    exact if_pos (List.isPerm_iff.2 hperm)

theorem symbols_plain : k.plain.analysis.symbols k.plain.analysis.reduction = .ok k.plain.symbols := by
  have hsymbol (i : String) : k.plain.analysis.symbol k.plain.analysis.reduction i =
      (k.analysis.symbol k.analysis.reduction i).map IndexSymbol.plain := by
    unfold Analysis.symbol
    rw [show k.plain.analysis.catalog = k.analysis.catalog from rfl]
    cases k.analysis.catalog.get? i <;> rfl
  unfold Analysis.symbols
  rw [show k.plain.analysis.reduction.order = k.analysis.reduction.order from Reduction.order_plain _]
  exact mapM_map_eq_ok hsymbol h.symbols

theorem tiles_plain :
    k.plain.analysis.checkTiling k.plain.analysis.reduction k.plain.symbols = .ok () := by
  have hnames : k.plain.symbols.map (·.name) = k.symbols.map (·.name) := by
    rw [plain, List.map_map]
    rfl
  refine Analysis.checkTiling_eq_ok_iff.2 fun t ht => ⟨fun i _ => List.not_mem_nil, fun i hi => ?_⟩
  rw [hnames]
  exact (Analysis.checkTiling_eq_ok_iff.1 h.tiles t ht).2 i hi

theorem plan_plain : k.plain.plan =
    k.plain.analysis.layout k.plain.analysis.reduction k.plain.config.parallel k.plain.symbols := by
  have hbody : k.plain.analysis.body k.plain.analysis.reduction k.plain.symbols =
      (k.analysis.body k.analysis.reduction k.symbols).plain := by
    unfold Analysis.body
    rw [plain, List.filter_map,
      show k.analysis.reduction.plain.order = k.analysis.reduction.order from Reduction.order_plain _,
      show (fun s : IndexSymbol => !s.output) ∘ IndexSymbol.plain = fun s => !s.output from rfl]
    cases k.symbols.filter (!·.output) with
    | nil => rfl
    | cons s inner =>
      simp only [List.map_cons, Body.plain, List.map_map]
      rfl
  rw [Analysis.layout, hbody, plain, Plan.plain, h.plan, Analysis.layout,
    Analysis.outputLoops_map IndexSymbol.plain (fun _ => ⟨rfl, rfl, rfl⟩)]

/-- The statement without the items that unroll loops compiles, to the kernel with plain loops. -/
theorem plain : k.plain.Planned read.plain where
  named := h.named
  target := h.target
  clause := Reduction.read_withoutUnroll h.clause
  tiling := h.tiling
  collection := h.collection
  catalog := h.catalog
  settled := h.settled_plain
  symbols := h.symbols_plain
  tiles := h.tiles_plain
  plan := h.plan_plain

end Planned

/-! ## Runs without unrolling -/

theorem prepare_plain (k : Kernel) (scope : Scope) : k.plain.prepare scope = k.prepare scope := by
  have hreduction : k.plain.reduction = k.reduction.map Reduction.plain := by
    unfold reduction
    rw [show k.plain.plan.body = k.plan.body.plain from rfl]
    cases k.plan.body <;> rfl
  refine prepare_congr scope ⟨rfl, rfl, rfl, rfl⟩ rfl rfl rfl (by simp [plain, IndexSymbol.plain]) fun t => ?_
  unfold reducer
  rw [hreduction]
  cases k.reduction <;> rfl

/-- On ranges without gaps the loops of the two kernels are the same computation. -/
theorem Planned.runPlan_plain {k : Kernel} {read : Reduction.Partial} (h : k.Planned read) {m : Type → Type}
    [Monad m] [MonadExceptOf Error m] {V : Type} (machine : Machine m V) {rs : Ranges} (hrs : rs.Gapless) :
    runPlan machine k.plain.config.workerCount k.plain.outputIndices k.plain.plan rs =
      runPlan machine k.config.workerCount k.outputIndices k.plan rs :=
  IndexNotation.runPlan_plain machine _ _ hrs fun _ hg => (h.group_sound hg).2.1

/-- **Unrolling cannot be seen.** If a statement compiles, it also compiles without the items of its
reduction clause that unroll loops. The two kernels take the same steps in the same order (what is
evaluated, what is combined, what is stored), return the same or fail with the same error, and leave
the same world. -/
theorem run_withoutUnroll {config : Config} {source : String} {k : Kernel} (hk : Compiles config source k) :
    readStatement source = .ok k.statement ∧
    ∃ k', CompilesFrom config source k.statement.withoutUnroll k' ∧
      (∀ scope s, exec (k'.runRecorded scope) s = exec (k.runRecorded scope) s) ∧
      ∀ scope w, exec (k'.run scope) w = exec (k.run scope) w := by
  obtain ⟨hstatement, hsource⟩ := hk.readStatement_eq
  obtain ⟨hconfig, read, hk⟩ := hk.planned
  refine ⟨hstatement, k.plain, ?_, fun scope s => ?_, fun scope w => ?_⟩
  · have hcompiles := hk.plain.compilesFrom
    rwa [show k.plain.config = config from hconfig, show k.plain.source = source from hsource] at hcompiles
  · rw [runRecorded, runRecorded, prepare_plain]
    refine Run.exec_bind_congr fun setup s' hsetup => ?_
    have hrs : setup.ranges.Gapless := by
      rw [Noting.exec_lift] at hsetup
      have hprepare : exec (k.prepare scope) s.1 = (.ok setup, s'.1) :=
        Prod.ext (Prod.mk.inj hsetup).1 (by rw [← (Prod.mk.inj hsetup).2])
      exact gapless_of_prepare hprepare
    rw [hk.runPlan_plain _ hrs]
    rfl
  · rw [run_eq, run_eq, prepare_plain]
    refine Run.exec_bind_congr fun setup w' hsetup => ?_
    rw [hk.runPlan_plain _ (gapless_of_prepare hsetup)]
    rfl

/-- One loop unrolled twice and one as a whole, under blocks of an output index. -/
theorem run_withoutUnroll_cubes : ∃ k,
    Compiles {} "Z[i] := f(X[i, j, l]) (g, unroll(2), j, unroll, l) \x7btile(2), i\x7d" k ∧
    k.plan.body.loops.map (·.unroll) = [some 2, some 0] ∧
    readStatement "Z[i] := f(X[i, j, l]) (g, unroll(2), j, unroll, l) \x7btile(2), i\x7d" = .ok k.statement ∧
    ∃ k', CompilesFrom {} "Z[i] := f(X[i, j, l]) (g, unroll(2), j, unroll, l) \x7btile(2), i\x7d"
        k.statement.withoutUnroll k' ∧
      (∀ scope s, exec (k'.runRecorded scope) s = exec (k.runRecorded scope) s) ∧
      ∀ scope w, exec (k'.run scope) w = exec (k.run scope) w := by
  obtain ⟨k, hk, hloops⟩ := exists_compiles {}
    "Z[i] := f(X[i, j, l]) (g, unroll(2), j, unroll, l) \x7btile(2), i\x7d"
    (fun k => k.plan.body.loops.map (·.unroll) == [some 2, some 0]) (by decide +kernel)
  exact ⟨k, hk, by simpa using hloops, run_withoutUnroll hk⟩

end Kernel
end IndexNotation
