import IndexNotation.Proofs.Agreement
import IndexNotation.Proofs.References

/-!
# Which statements compile

Once a statement is parsed, its left-hand side is found to be sound and its clauses are read, there
are four reasons left not to compile it, and they are looked for in a fixed order: the listed indices
are not those to reduce over, an index of a new array stands in no bracket, a tiled index is
unrolled, a tiled index has no loop. Each of the sets that the reasons speak of is found by another
part of the compiler; here they are said of the statement itself.
-/

namespace IndexNotation

open Run (exec)

/-! ## Compiling without the log -/

/-- What is read of a reduction clause, or why it cannot be read. -/
def Reduction.outcome (source : String) (clause : Option ReductionClause) : Except Error Partial :=
  (read source clause).2.elim (.ok (read source clause).1) .error

theorem Reduction.read_of_outcome {source : String} {clause : Option ReductionClause} {p : Partial}
    (h : outcome source clause = .ok p) : read source clause = (p, none) := by
  unfold outcome at h
  rcases hread : read source clause with ⟨q, _ | e⟩
  · rw [hread] at h
    cases h
    rfl
  · rw [hread] at h
    cases h

/-- All axes that a statement gives to indices, bounds first. -/
def Statement.axes (s : Statement) (bounds : List (String × Axis)) : List (String × Axis) :=
  bounds ++ (Collection.ofExpr s.rhs).axes ++ if s.allocates then [] else s.target.axes

/-- What is known of a statement whose clauses are read. -/
def Statement.analysed (s : Statement) (read : Reduction.Partial) (tiling : Option Tiling) : Analysis :=
  ⟨s, .ofExpr s.rhs, Catalog.empty.bindAll (s.axes read.bounds), read.reduction, tiling⟩

/-- What is found out about a statement before its loops are laid out. -/
def Statement.analyse (s : Statement) : Except Error Analysis := do
  Kernel.checkTarget s
  let read ← Reduction.outcome s.source s.reduction
  let tiling ← s.tiling.mapM (Tiling.read s.source)
  return s.analysed read tiling

namespace Kernel

/-- The kernel of a statement about which everything is found out. -/
def ofAnalysis (config : Config) (source : String) (a : Analysis) : Except Error Kernel :=
  (a.plan config.parallel).map fun p => ⟨source, config, { a with reduction := p.1 }, p.2.1, p.2.2⟩

section

variable (s : Statement) (log : Log)

theorem exec_readReduction : ∃ log', exec (readReduction s) log =
    ((Reduction.outcome s.source s.reduction).map fun p => (p.reduction, Catalog.empty.bindAll p.bounds), log') := by
  unfold readReduction Reduction.outcome
  rcases Reduction.read s.source s.reduction with ⟨p, _ | e⟩
  · cases s.reduction <;> exact ⟨_, rfl⟩
  · exact ⟨_, rfl⟩

theorem exec_readTiling : ∃ log', exec (readTiling s) log = (s.tiling.mapM (Tiling.read s.source), log') := by
  unfold readTiling
  cases s.tiling with
  | none => exact ⟨_, rfl⟩
  | some clause =>
    cases h : Tiling.read s.source clause with
    | error e => exact ⟨_, by simp [h]; rfl⟩
    | ok t => exact ⟨_, by simp [h]; rfl⟩

theorem exec_collect (c : Catalog) : ∃ log', exec (collect s c) log =
    (.ok (.ofExpr s.rhs, (c.bindAll (Collection.ofExpr s.rhs).axes).bindAll
      (if s.allocates then [] else s.target.axes)), log') := by
  unfold collect
  cases h : s.allocates <;> exact ⟨_, rfl⟩

/-- What compiling comes to does not depend on the log. -/
theorem exec_compileStatement (config : Config) (source : String) :
    (exec (compileStatement config source s) log).1 = s.analyse >>= ofAnalysis config source := by
  unfold compileStatement Statement.analyse
  cases htarget : checkTarget s with
  | error e => rfl
  | ok _ =>
    obtain ⟨log₁, hreduction⟩ := exec_readReduction s log
    cases houtcome : Reduction.outcome s.source s.reduction with
    | error e =>
      rw [houtcome] at hreduction
      exact congrArg Prod.fst (Run.exec_bind_error hreduction)
    | ok read =>
      rw [houtcome] at hreduction
      refine (congrArg Prod.fst (Run.exec_bind_ok hreduction)).trans ?_
      obtain ⟨log₂, htiling⟩ := exec_readTiling s log₁
      cases hread : s.tiling.mapM (Tiling.read s.source) with
      | error e =>
        rw [hread] at htiling
        exact congrArg Prod.fst (Run.exec_bind_error htiling)
      | ok tiling =>
        rw [hread] at htiling
        refine (congrArg Prod.fst (Run.exec_bind_ok htiling)).trans ?_
        obtain ⟨log₃, hcollect⟩ := exec_collect s log₂ (Catalog.empty.bindAll read.bounds)
        refine (congrArg Prod.fst (Run.exec_bind_ok hcollect)).trans ?_
        rw [← Catalog.bindAll_append, ← Catalog.bindAll_append, ← List.append_assoc]
        change (exec (liftM ((s.analysed read tiling).plan config.parallel) >>= _) log₃).1 =
          ofAnalysis config source (s.analysed read tiling)
        unfold ofAnalysis
        cases (s.analysed read tiling).plan config.parallel <;> rfl

end

end Kernel

/-! ## The sets that the reasons speak of -/

mutual

/-- What is collected is a bracket of the expression. -/
theorem Expr.refers_of_mem_references {r : Reference} {e : Expr} (h : r ∈ e.references) :
    ∃ base keys, r = .ofIndex base keys ∧ Refers base keys e := by
  cases e with
  | index b is p =>
    rw [references, List.mem_append, List.mem_append] at h
    rcases h with (h | h) | h
    · obtain ⟨base, keys, hr, hb⟩ := refers_of_mem_references h
      exact ⟨base, keys, hr, .base is p hb⟩
    · exact ⟨b, is, List.mem_singleton.1 h, .here p⟩
    · obtain ⟨e, he, base, keys, hr, hk⟩ := refers_of_mem_allReferences h
      exact ⟨base, keys, hr, .key b p he hk⟩
  | field b n p =>
    obtain ⟨base, keys, hr, hb⟩ := refers_of_mem_references (e := b) h
    exact ⟨base, keys, hr, .field n p hb⟩
  | call f args p =>
    have hargs : r ∈ references.allReferences args := h
    obtain ⟨e, he, base, keys, hr, hk⟩ := refers_of_mem_allReferences hargs
    exact ⟨base, keys, hr, .arg f p he hk⟩
  | binary l op r' p =>
    rw [references, List.mem_append] at h
    rcases h with h | h
    · obtain ⟨base, keys, hr, hl⟩ := refers_of_mem_references h
      exact ⟨base, keys, hr, .left op r' p hl⟩
    · obtain ⟨base, keys, hr, hright⟩ := refers_of_mem_references h
      exact ⟨base, keys, hr, .right l op p hright⟩
  | unary op x p =>
    obtain ⟨base, keys, hr, hx⟩ := refers_of_mem_references (e := x) h
    exact ⟨base, keys, hr, .operand op p hx⟩
  | name _ _ | number _ _ | first _ _ | compare _ _ | keyword _ _ _ | target _ _ _ | hole => cases h

theorem Expr.refers_of_mem_allReferences {r : Reference} {es : List Expr}
    (h : r ∈ references.allReferences es) :
    ∃ e ∈ es, ∃ base keys, r = .ofIndex base keys ∧ Refers base keys e := by
  cases es with
  | nil => cases h
  | cons e es =>
    rw [references.allReferences, List.mem_append] at h
    rcases h with h | h
    · exact ⟨e, .head _, refers_of_mem_references h⟩
    · obtain ⟨e', he', hrest⟩ := refers_of_mem_allReferences h
      exact ⟨e', .tail _ he', hrest⟩

end

theorem mem_symbolNames {es : List Expr} {i : String} : i ∈ symbolNames es ↔ ∃ pos, Expr.name i pos ∈ es := by
  constructor
  · intro h
    obtain ⟨e, he, hi⟩ := List.mem_filterMap.1 h
    cases e with
    | name id pos =>
      cases hi
      exact ⟨pos, he⟩
    | _ => cases hi
  · rintro ⟨pos, h⟩
    exact List.mem_filterMap.2 ⟨_, h, rfl⟩

/-- A name stands as a plain index in a bracket of the right-hand side. -/
def Statement.Indexes (s : Statement) (i : String) : Prop :=
  ∃ base keys pos, Expr.Refers base keys s.rhs ∧ Expr.name i pos ∈ keys

theorem Statement.indexes_iff {s : Statement} {i : String} :
    s.Indexes i ↔ i ∈ (Collection.ofExpr s.rhs).indices := by
  constructor
  · rintro ⟨base, keys, pos, hrefers, hi⟩
    exact List.mem_flatMap.2 ⟨_, hrefers.mem_references, mem_symbolNames.2 ⟨pos, hi⟩⟩
  · intro h
    obtain ⟨r, hr, hi⟩ := List.mem_flatMap.1 h
    obtain ⟨base, keys, rfl, hrefers⟩ := Expr.refers_of_mem_references hr
    obtain ⟨pos, hi⟩ := mem_symbolNames.1 hi
    exact ⟨base, keys, pos, hrefers, hi⟩

theorem Statement.mem_outputIndices {s : Statement} {i : String} :
    i ∈ s.outputIndices ↔ ∃ pos, Expr.name i pos ∈ s.target.indices := by
  rw [outputIndices, List.mem_eraseDups, mem_symbolNames]

/-! ## Axes -/

/-- A bracket gives an axis to every plain name in it, and to no other. -/
theorem Reference.map_fst_axesFrom (source : Expr) (dim : Nat) (es : List Expr) :
    (axesFrom source dim es).map Prod.fst = symbolNames es := by
  induction es generalizing dim with
  | nil => rfl
  | cons e es ih =>
    cases e with
    | name id pos => exact congrArg (id :: ·) (ih (dim + 1))
    | _ => exact ih (dim + 1)

theorem Collection.map_fst_axes (c : Collection) : c.axes.map Prod.fst = c.indices := by
  rw [axes, List.map_flatMap, indices]
  exact List.flatMap_congr fun r _ => Reference.map_fst_axesFrom r.source 0 r.indices

theorem Target.map_fst_axes {t : Target} {name : String} (h : t.name = some name) :
    t.axes.map Prod.fst = symbolNames t.indices := by
  rw [Target.axes, h]
  exact Reference.map_fst_axesFrom _ 0 t.indices

/-- The indices that have an axis: those with bounds, those in brackets, and those of the left-hand side
of a statement that writes into an array. -/
theorem Statement.axis_isSome_iff {s : Statement} (hs : s.allocates = false → ∃ name, s.target.name = some name)
    (read : Reduction.Partial) (tiling : Option Tiling) (i : String) :
    ((s.analysed read tiling).catalog.get? i).isSome ↔ i ∈ read.bounds.map Prod.fst ∨ s.Indexes i ∨
      s.allocates = false ∧ i ∈ s.outputIndices := by
  rw [analysed, Catalog.get?_bindAll_empty, Env.lookup_isSome, axes, List.map_append, List.map_append,
    List.mem_append, List.mem_append, Collection.map_fst_axes, ← indexes_iff, or_assoc]
  refine or_congr_right (or_congr_right ?_)
  cases halloc : s.allocates with
  | true => simp
  | false =>
    obtain ⟨name, hname⟩ := hs halloc
    rw [if_neg Bool.false_ne_true, Target.map_fst_axes hname, outputIndices, List.mem_eraseDups]
    exact (and_iff_right rfl).symm

/-- Where only indices in brackets have bounds, the indices of an output that have no axis are those of
a new array that stand in no bracket. -/
theorem Statement.unmeasured_iff {s : Statement} (hs : s.allocates = false → ∃ name, s.target.name = some name)
    {read : Reduction.Partial} (hbounds : ∀ i ∈ read.bounds.map Prod.fst, s.Indexes i) (tiling : Option Tiling) :
    (∃ i ∈ s.outputIndices, ¬ ((s.analysed read tiling).catalog.get? i).isSome) ↔
      s.allocates = true ∧ ∃ i ∈ s.outputIndices, ¬ s.Indexes i := by
  simp only [axis_isSome_iff hs read tiling, not_or]
  constructor
  · rintro ⟨i, hi, -, hno, hstore⟩
    refine ⟨?_, i, hi, hno⟩
    by_contra halloc
    exact hstore ⟨by simpa using halloc, hi⟩
  · rintro ⟨halloc, i, hi, hno⟩
    exact ⟨i, hi, fun hb => hno (hbounds i hb), hno, by simp [halloc]⟩

/-! ## The steps of laying out loops -/

namespace Analysis

/-- The indices that are tiled, none without a clause. -/
def tiled (a : Analysis) : List String :=
  (a.tiling.map Tiling.indices).getD []

variable {a : Analysis} {R : List String}

/-- The listed indices are refused if they are not those to reduce over, in some order. -/
theorem settleReduction_of_incomplete (hexplicit : a.reduction.explicit = !a.reduction.order.isEmpty)
    (hR : a.impliedReduction.Perm R) (h : a.reduction.order ≠ [] ∧ ¬ a.reduction.order.Perm R) :
    ∃ expected missing extra, a.settleReduction = .error (.incomplete expected missing extra a.statement.source) := by
  have hperm : ¬ a.reduction.order.isPerm a.impliedReduction = true := fun hp =>
    h.2 ((List.isPerm_iff.1 hp).trans hR)
  simp only [settleReduction, hexplicit, List.isEmpty_eq_false_iff.2 h.1, Bool.not_false, Bool.not_true,
    Bool.false_eq_true, if_false, if_neg hperm]
  exact ⟨_, _, _, rfl⟩

/-- Else the loops are settled: those that are listed, or all that there are to reduce over. -/
theorem settleReduction_of_complete (hexplicit : a.reduction.explicit = !a.reduction.order.isEmpty)
    (hR : a.impliedReduction.Perm R) (h : ¬ (a.reduction.order ≠ [] ∧ ¬ a.reduction.order.Perm R)) :
    ∃ r, a.settleReduction = .ok r ∧ r.order.Perm R ∧ r.unrolled = a.reduction.unrolled := by
  unfold settleReduction
  dsimp only
  by_cases hempty : a.reduction.order = []
  · have hunrolled : a.reduction.unrolled = [] := by simpa using (List.append_eq_nil_iff.1 hempty).2
    refine ⟨_, if_pos (by simp [hexplicit, hempty]), ?_, rfl⟩
    simpa [Reduction.order, hunrolled] using hR
  · have hperm : a.reduction.order.Perm R := by
      by_contra hnot
      exact h ⟨hempty, hnot⟩
    refine ⟨a.reduction, ?_, hperm, rfl⟩
    rw [if_neg (by simp [hexplicit, hempty]), if_pos (List.isPerm_iff.2 (hperm.trans hR.symm))]

theorem exists_ok_of_mapM {ε α β : Type} {f : α → Except ε β} {as : List α} {bs : List β}
    (h : as.mapM f = .ok bs) {a : α} (ha : a ∈ as) : ∃ b, f a = .ok b := by
  have hall := mapM_eq_ok h
  clear h
  induction hall with
  | nil => cases ha
  | cons hb _ ih =>
    rcases List.mem_cons.1 ha with rfl | ha
    · exact ⟨_, hb⟩
    · exact ih ha

theorem symbol_of_axis {r : Reduction} {i : String} (h : (a.catalog.get? i).isSome) :
    ∃ s, a.symbol r i = .ok s ∧ s.name = i := by
  obtain ⟨axis, haxis⟩ := Option.isSome_iff_exists.1 h
  rw [symbol, haxis]
  exact ⟨_, rfl, rfl⟩

/-- An index without an axis is reported. -/
theorem symbols_of_unmeasured {r : Reduction} {i : String} (hi : i ∈ a.outputIndices ++ r.order)
    (hnone : ¬ (a.catalog.get? i).isSome) : ∃ j ∈ a.outputIndices ++ r.order, ¬ (a.catalog.get? j).isSome ∧
      a.symbols r = .error (.shape (.unknownRange j a.statement.source)) := by
  have hsymbol {j : String} (hj : ¬ (a.catalog.get? j).isSome) :
      a.symbol r j = .error (.shape (.unknownRange j a.statement.source)) := by
    rw [symbol, Option.not_isSome_iff_eq_none.1 hj]
  cases hs : a.symbols r with
  | ok symbols =>
    obtain ⟨s, hs⟩ := exists_ok_of_mapM hs hi
    rw [hsymbol hnone] at hs
    cases hs
  | error e =>
    obtain ⟨j, hj, he⟩ := mapM_eq_error hs
    have hjnone : ¬ (a.catalog.get? j).isSome := fun hsome => by
      obtain ⟨s, hs, -⟩ := symbol_of_axis (r := r) hsome
      rw [hs] at he
      cases he
    rw [hsymbol hjnone] at he
    cases he
    exact ⟨j, hj, hjnone, rfl⟩

/-- Indices that all have axes are the names of the symbols. -/
theorem symbols_of_measured {r : Reduction}
    (h : ∀ i ∈ a.outputIndices ++ r.order, (a.catalog.get? i).isSome) :
    ∃ symbols, a.symbols r = .ok symbols ∧ symbols.map (·.name) = a.outputIndices ++ r.order := by
  unfold symbols
  generalize a.outputIndices ++ r.order = is at h
  induction is with
  | nil => exact ⟨[], rfl, rfl⟩
  | cons i is ih =>
    obtain ⟨s, hs, hname⟩ := symbol_of_axis (r := r) (h i (.head _))
    obtain ⟨symbols, hsymbols, hnames⟩ := ih fun j hj => h j (.tail _ hj)
    refine ⟨s :: symbols, ?_, by rw [List.map_cons, hname, hnames]⟩
    rw [List.mapM_cons, hs, hsymbols]
    rfl

variable {r : Reduction} (symbols : List IndexSymbol)

theorem checkTiling_of_ambiguous (h : ∃ i ∈ a.tiled, i ∈ r.unrolled.map Prod.fst) :
    ∃ is, a.checkTiling r symbols = .error (.ambiguous is a.statement.source) := by
  obtain ⟨i, hi, hunrolled⟩ := h
  unfold tiled at hi
  unfold checkTiling
  cases ht : a.tiling with
  | none => simp [ht] at hi
  | some t =>
    rw [ht] at hi
    dsimp only
    rw [if_pos]
    · exact ⟨_, rfl⟩
    · simpa using ⟨i, hi, by simpa using hunrolled⟩

theorem checkTiling_of_unknown (h : ¬ ∃ i ∈ a.tiled, i ∈ r.unrolled.map Prod.fst)
    (hunknown : ∃ i ∈ a.tiled, i ∉ symbols.map (·.name)) :
    ∃ is, a.checkTiling r symbols = .error (.shape (.unknownTile is a.statement.source)) := by
  obtain ⟨i, hi, hunknown⟩ := hunknown
  unfold tiled at hi h
  unfold checkTiling
  cases ht : a.tiling with
  | none => simp [ht] at hi
  | some t =>
    rw [ht] at hi h
    dsimp only
    rw [if_neg, if_pos]
    · exact ⟨_, rfl⟩
    · simpa using ⟨i, hi, by simpa using hunknown⟩
    · simpa using h

theorem checkTiling_of_known (h : ¬ ∃ i ∈ a.tiled, i ∈ r.unrolled.map Prod.fst)
    (hknown : ¬ ∃ i ∈ a.tiled, i ∉ symbols.map (·.name)) : a.checkTiling r symbols = .ok ⟨⟩ := by
  refine checkTiling_eq_ok_iff.2 fun t ht => ?_
  have htiled : a.tiled = t.indices := by rw [tiled, ht, Option.map_some, Option.getD_some]
  rw [htiled] at h hknown
  push Not at h hknown
  exact ⟨h, hknown⟩

/-- Laying out loops fails for the first of four reasons that applies. -/
theorem plan_verdict (hexplicit : a.reduction.explicit = !a.reduction.order.isEmpty)
    (hR : a.impliedReduction.Perm R) (hmeasured : ∀ i ∈ R, (a.catalog.get? i).isSome) (parallel : Bool) :
    let incomplete := a.reduction.order ≠ [] ∧ ¬ a.reduction.order.Perm R
    let unmeasured := ∃ i ∈ a.outputIndices, ¬ (a.catalog.get? i).isSome
    let ambiguous := ∃ i ∈ a.tiled, i ∈ a.reduction.unrolled.map Prod.fst
    let unknown := ∃ i ∈ a.tiled, i ∉ a.outputIndices ∧ i ∉ R
    (incomplete → ∃ expected missing extra,
      a.plan parallel = .error (.incomplete expected missing extra a.statement.source)) ∧
    (¬ incomplete → unmeasured → ∃ i, a.plan parallel = .error (.shape (.unknownRange i a.statement.source))) ∧
    (¬ incomplete → ¬ unmeasured → ambiguous → ∃ is, a.plan parallel = .error (.ambiguous is a.statement.source)) ∧
    (¬ incomplete → ¬ unmeasured → ¬ ambiguous → unknown →
      ∃ is, a.plan parallel = .error (.shape (.unknownTile is a.statement.source))) ∧
    (¬ incomplete → ¬ unmeasured → ¬ ambiguous → ¬ unknown → ∃ p, a.plan parallel = .ok p) := by
  intro incomplete unmeasured ambiguous unknown
  refine ⟨fun h => ?_, ?_⟩
  · obtain ⟨expected, missing, extra, hsettle⟩ := settleReduction_of_incomplete hexplicit hR h
    exact ⟨expected, missing, extra, by rw [plan, hsettle]; rfl⟩
  by_cases hcomplete : incomplete
  · exact ⟨fun h => absurd hcomplete h, fun h => absurd hcomplete h, fun h => absurd hcomplete h,
      fun h => absurd hcomplete h⟩
  obtain ⟨r, hsettle, hperm, hunrolled⟩ := settleReduction_of_complete hexplicit hR hcomplete
  have hplan : a.plan parallel = do
      let symbols ← a.symbols r
      a.checkTiling r symbols
      return (r, symbols, a.layout r parallel symbols) := by
    rw [plan, bind_of_ok hsettle]
  refine ⟨fun _ h => ?_, ?_⟩
  · obtain ⟨i, hi, hnone⟩ := h
    obtain ⟨j, -, -, hsymbols⟩ := symbols_of_unmeasured (List.mem_append_left r.order hi) hnone
    exact ⟨j, by rw [hplan, hsymbols]; rfl⟩
  by_cases hall : unmeasured
  · exact ⟨fun _ h => absurd hall h, fun _ h => absurd hall h, fun _ h => absurd hall h⟩
  obtain ⟨symbols, hsymbols, hnames⟩ := symbols_of_measured (a := a) (r := r) fun i hi => by
    rcases List.mem_append.1 hi with hi | hi
    · by_contra hnone
      exact hall ⟨i, hi, hnone⟩
    · exact hmeasured i (hperm.mem_iff.1 hi)
  have hknown (i : String) : i ∉ symbols.map (·.name) ↔ i ∉ a.outputIndices ∧ i ∉ R := by
    rw [hnames, List.mem_append, hperm.mem_iff, not_or]
  rw [bind_of_ok hsymbols] at hplan
  rw [hplan]
  refine ⟨fun _ _ h => ?_, fun _ _ h h' => ?_, fun _ _ h h' => ?_⟩
  · obtain ⟨is, hcheck⟩ := checkTiling_of_ambiguous symbols (r := r) (by rwa [hunrolled])
    exact ⟨is, by rw [hcheck]; rfl⟩
  · obtain ⟨is, hcheck⟩ := checkTiling_of_unknown symbols (r := r) (by rwa [hunrolled])
      (by simpa only [hknown] using h')
    exact ⟨is, by rw [hcheck]; rfl⟩
  · rw [checkTiling_of_known symbols (r := r) (by rwa [hunrolled]) (by simpa only [hknown] using h')]
    exact ⟨_, rfl⟩

end Analysis

namespace Kernel

/-- What compiling comes to once the clauses are read. -/
theorem exec_compile_of_read {source : String} {s : Statement} (hs : readStatement source = .ok s)
    (htarget : checkTarget s = .ok ()) {log : Log} {r : Reduction} {c : Catalog} {tiling : Option Tiling}
    (hreduction : (exec (readReduction s) log).1 = .ok (r, c)) (htiling : (exec (readTiling s) log).1 = .ok tiling)
    (config : Config) : ∃ read, Reduction.read s.source s.reduction = (read, none) ∧ read.reduction = r ∧
      (exec (compile config source) log).1 = ofAnalysis config source (s.analysed read tiling) := by
  obtain ⟨log₁, hread⟩ := exec_readReduction s log
  obtain ⟨log₂, htiles⟩ := exec_readTiling s log
  rw [hread] at hreduction
  rw [htiles] at htiling
  obtain ⟨read, houtcome, hr⟩ := map_eq_ok hreduction
  obtain ⟨rfl, -⟩ := Prod.mk.inj hr
  have hanalyse : s.analyse = .ok (s.analysed read tiling) := by
    rw [Statement.analyse, bind_of_ok htarget, bind_of_ok houtcome, bind_of_ok htiling]
    rfl
  refine ⟨read, Reduction.read_of_outcome houtcome, rfl, ?_⟩
  change (exec (liftM (readStatement source) >>= compileStatement config source) log).1 = _
  rw [Run.exec_bind, Run.exec_lift, hs]
  exact (exec_compileStatement s log config source).trans (bind_of_ok hanalyse _)

/-- **Which statements compile.** Let a statement be parsed, its left-hand side be sound and its clauses
be read. Let `O` be the different names of the left-hand side, and `R` the different plain names in
brackets of the right-hand side that are not in `O`. Compiling fails since the listed indices are
not `R` in some order, if indices are listed; else since the range of an index of a new array is unknown,
if one of `O` stands in no bracket; else since an index is both tiled and unrolled; else since a tiled
index is neither in `O` nor in `R`. In all other cases it succeeds. -/
theorem compile_verdict {source : String} {s : Statement} (hs : readStatement source = .ok s)
    (htarget : checkTarget s = .ok ()) {log : Log} {r : Reduction} {c : Catalog} {tiling : Option Tiling}
    (hreduction : (exec (readReduction s) log).1 = .ok (r, c)) (htiling : (exec (readTiling s) log).1 = .ok tiling)
    {O R : List String} (hO : O.Nodup ∧ ∀ i, i ∈ O ↔ ∃ pos, Expr.name i pos ∈ s.target.indices)
    (hR : R.Nodup ∧ ∀ i, i ∈ R ↔ s.Indexes i ∧ i ∉ O) (config : Config) :
    let outcome := (exec (compile config source) log).1
    let tiled := (tiling.map Tiling.indices).getD []
    let incomplete := r.order ≠ [] ∧ ¬ r.order.Perm R
    let unmeasured := s.allocates = true ∧ ∃ i ∈ O, ¬ s.Indexes i
    let ambiguous := ∃ i ∈ tiled, i ∈ r.unrolled.map Prod.fst
    let unknown := ∃ i ∈ tiled, i ∉ O ∧ i ∉ R
    ((∃ expected missing extra text, outcome = .error (.incomplete expected missing extra text)) ↔ incomplete) ∧
    (¬ incomplete → unmeasured → ∃ i, outcome = .error (.shape (.unknownRange i s.source))) ∧
    (¬ incomplete → ¬ unmeasured → ambiguous → ∃ is, outcome = .error (.ambiguous is s.source)) ∧
    (¬ incomplete → ¬ unmeasured → ¬ ambiguous → unknown →
      ∃ is, outcome = .error (.shape (.unknownTile is s.source))) ∧
    (¬ incomplete → ¬ unmeasured → ¬ ambiguous → ¬ unknown → ∃ k, outcome = .ok k) := by
  intro outcome tiled incomplete unmeasured ambiguous unknown
  obtain ⟨read, hclause, rfl, hcompile⟩ := exec_compile_of_read hs htarget hreduction htiling config
  have houtcome : outcome = ofAnalysis config source (s.analysed read tiling) := hcompile
  obtain ⟨hsound, hexplicit⟩ := Reduction.sound_of_read hclause
  have hnamed := named_of_readStatement hs
  have hmem (i : String) : i ∈ s.outputIndices ↔ i ∈ O := by rw [Statement.mem_outputIndices, hO.2]
  have hperm : (s.analysed read tiling).impliedReduction.Perm R := by
    refine (List.perm_ext_iff_of_nodup ((nodup_eraseDups _).filter _) hR.1).2 fun i => ?_
    rw [hR.2, List.mem_filter, List.mem_eraseDups, Statement.indexes_iff, ← hmem]
    simp [Statement.analysed, Analysis.outputIndices]
  -- A bound lists its index, so where the listed indices are complete, bounds measure no output.
  have hbounds (h : ¬ incomplete) (i : String) (hi : i ∈ read.bounds.map Prod.fst) : s.Indexes i := by
    obtain ⟨b, hb, rfl⟩ := List.mem_map.1 hi
    have hlisted := hsound.bounds_mem b hb
    have hlistedR : read.reduction.order.Perm R := by
      by_contra hnot
      exact h ⟨List.ne_nil_of_mem hlisted, hnot⟩
    exact ((hR.2 _).1 (hlistedR.mem_iff.1 hlisted)).1
  have hunmeasured (h : ¬ incomplete) : unmeasured ↔ ∃ i ∈ (s.analysed read tiling).outputIndices,
      ¬ ((s.analysed read tiling).catalog.get? i).isSome := by
    refine Iff.trans ?_ (Statement.unmeasured_iff hnamed (hbounds h) tiling).symm
    simp only [hmem]
    rfl
  have hunknown : unknown ↔ ∃ i ∈ (s.analysed read tiling).tiled,
      i ∉ (s.analysed read tiling).outputIndices ∧ i ∉ R :=
    exists_congr fun i => and_congr_right fun _ => and_congr_left fun _ => not_congr (hmem i).symm
  have herror {e : Error} (h : (s.analysed read tiling).plan config.parallel = .error e) : outcome = .error e := by
    rw [houtcome, ofAnalysis, h]
    rfl
  obtain ⟨h₁, h₂, h₃, h₄, h₅⟩ := Analysis.plan_verdict hexplicit hperm
    (fun i hi => (Statement.axis_isSome_iff hnamed read tiling i).2 (.inr (.inl ((hR.2 i).1 hi).1))) config.parallel
  have hranges (hc : ¬ incomplete) (hu : unmeasured) : ∃ i, outcome = .error (.shape (.unknownRange i s.source)) := by
    obtain ⟨i, h⟩ := h₂ hc ((hunmeasured hc).1 hu)
    exact ⟨i, herror h⟩
  have hboth (hc : ¬ incomplete) (hu : ¬ unmeasured) (ha : ambiguous) :
      ∃ is, outcome = .error (.ambiguous is s.source) := by
    obtain ⟨is, h⟩ := h₃ hc ((hunmeasured hc).not.1 hu) ha
    exact ⟨is, herror h⟩
  have hneither (hc : ¬ incomplete) (hu : ¬ unmeasured) (ha : ¬ ambiguous) (hn : unknown) :
      ∃ is, outcome = .error (.shape (.unknownTile is s.source)) := by
    obtain ⟨is, h⟩ := h₄ hc ((hunmeasured hc).not.1 hu) ha (hunknown.1 hn)
    exact ⟨is, herror h⟩
  have hok (hc : ¬ incomplete) (hu : ¬ unmeasured) (ha : ¬ ambiguous) (hn : ¬ unknown) : ∃ k, outcome = .ok k := by
    obtain ⟨p, h⟩ := h₅ hc ((hunmeasured hc).not.1 hu) ha (hunknown.not.1 hn)
    exact ⟨_, by rw [houtcome, ofAnalysis, h]; rfl⟩
  refine ⟨⟨?_, fun hc => ?_⟩, hranges, hboth, hneither, hok⟩
  · -- The other outcomes carry other errors.
    rintro ⟨_, _, _, _, h⟩
    by_contra hc
    by_cases hu : unmeasured
    · obtain ⟨_, h'⟩ := hranges hc hu
      cases h.symm.trans h'
    by_cases ha : ambiguous
    · obtain ⟨_, h'⟩ := hboth hc hu ha
      cases h.symm.trans h'
    by_cases hn : unknown
    · obtain ⟨_, h'⟩ := hneither hc hu ha hn
      cases h.symm.trans h'
    · obtain ⟨_, h'⟩ := hok hc hu ha hn
      cases h.symm.trans h'
  · obtain ⟨expected, missing, extra, h⟩ := h₁ hc
    exact ⟨expected, missing, extra, _, herror h⟩

theorem exists_ok_of_any {ε α : Type} {x : Except ε α} {p : α → Bool} (h : x.toOption.any p = true) :
    ∃ a, x = .ok a ∧ p a = true := by
  cases x with
  | error e => cases h
  | ok a => exact ⟨a, rfl, h⟩

/-- All indices to reduce over are listed and only one is unrolled, but a tiled one has no loop. -/
def strayTile : String :=
  "Z[i] := X[i, j, k] (+, k, unroll, j) \x7btile(2), k, n\x7d"

theorem compile_verdict_strayTile : ∃ s r c t, readStatement strayTile = .ok s ∧ checkTarget s = .ok () ∧
    (exec (readReduction s) []).1 = .ok (r, c) ∧ r.order = ["k", "j"] ∧ r.unrolled.map Prod.fst = ["j"] ∧
    (exec (readTiling s) []).1 = .ok (some t) ∧ t.indices = ["k", "n"] ∧
    ∃ is, (exec (compile {} strayTile) []).1 = .error (.shape (.unknownTile is s.source)) := by
  have hchecks : (readStatement strayTile).toOption.any (fun s => (checkTarget s : Except Error Unit).isOk &&
      (exec (readReduction s) []).1.toOption.any (fun p =>
        p.1.order == ["k", "j"] && p.1.unrolled.map Prod.fst == ["j"]) &&
      (exec (readTiling s) []).1.toOption.any (fun t => t.map Tiling.indices == some ["k", "n"]) &&
      s.outputIndices == ["i"] && (Collection.ofExpr s.rhs).indices == ["i", "j", "k"]) = true := by
    decide +kernel
  obtain ⟨s, hs, hchecks⟩ := exists_ok_of_any hchecks
  simp only [Bool.and_eq_true, beq_iff_eq] at hchecks
  obtain ⟨⟨⟨⟨htarget, hreduction⟩, htiling⟩, houtputs⟩, hindices⟩ := hchecks
  obtain ⟨⟨r, c⟩, hread, hr⟩ := exists_ok_of_any hreduction
  obtain ⟨_, htiles, hsome⟩ := exists_ok_of_any htiling
  simp only [Bool.and_eq_true, beq_iff_eq] at hr
  obtain ⟨t, rfl, ht⟩ := Option.map_eq_some_iff.1 (beq_iff_eq.1 hsome)
  have hcheck : checkTarget s = .ok () := by
    cases h : (checkTarget s : Except Error Unit) with
    | ok _ => rfl
    | error e => simp [h, Except.isOk, Except.toBool] at htarget
  have hindexes (i : String) : s.Indexes i ↔ i ∈ ["i", "j", "k"] := by rw [Statement.indexes_iff, hindices]
  obtain ⟨-, -, -, hunknown, -⟩ := compile_verdict hs hcheck hread htiles (O := ["i"]) (R := ["j", "k"])
    ⟨by decide, fun i => by rw [← Statement.mem_outputIndices, houtputs]⟩
    ⟨by decide, fun i => by rw [hindexes]; simp; grind⟩ {}
  refine ⟨s, r, c, t, hs, hcheck, hread, hr.1, hr.2, htiles, ht, hunknown ?_ ?_ ?_ ?_⟩
  · rw [hr.1]
    decide
  · simp [hindexes]
  · simp [ht, hr.2]
  · simp [ht]

end Kernel

end IndexNotation
