import IndexNotation.Proofs.Cells
import IndexNotation.Proofs.References

/-!
# What a run sets up

Before its loops, a run finds the ranges, resolves the right-hand side, makes or takes the output,
and finds the reducer and the start value. Nothing that is there is changed on the way. A new output
is a block of its own, with one cell for each position.
-/

namespace IndexNotation

open Run (exec Keeps Yields Determined)

namespace Kernel

/-- What the loops of a run work with. -/
structure Setup where
  ranges : Ranges
  code : Code
  out : Value
  reducer : Reducer
  init : Value

/-- Everything that a run does before its loops. -/
def prepare (k : Kernel) (scope : Scope) : Run Setup := do
  let indices := k.analysis.indexNames
  let ranges ← k.analysis.catalog.ranges scope indices
  let code ← k.statement.rhs.resolve scope indices
  let (out, t) ← k.makeOutput scope ranges fun env => code.run scope env
  let (reducer, init) ← k.reducer scope t
  let entry := detail .run ("running " ++ k.statement.source ++ ": output shape " ++
    (← shapeText out) ++ ", dtype " ++ t.label ++ ", mode " ++ k.config.mode)
  modify fun w => { w with log := w.log ++ [entry] }
  return ⟨ranges, code, out, reducer, init⟩

/-- The machine that the loops run. -/
def Setup.machine (s : Setup) (k : Kernel) (scope : Scope) : Machine Run Value :=
  k.machine scope (fun env => s.code.run scope env) s.out s.reducer s.init

theorem run_eq (k : Kernel) (scope : Scope) : k.run scope = (do
    let s ← k.prepare scope
    runPlan (s.machine k scope) k.config.workerCount k.outputIndices k.plan s.ranges
    return s.out) := by
  simp only [run, prepare, bind_assoc, pure_bind]
  rfl

/-- The right-hand side for values of the indices. -/
def element (k : Kernel) (scope : Scope) (env : Env) : Run Value :=
  k.statement.rhs.eval scope k.analysis.indexNames env

theorem element_of_resolve {k : Kernel} {scope : Scope} {code : Code}
    (h : k.statement.rhs.resolve scope k.analysis.indexNames = .ok code) (env : Env) :
    k.element scope env = code.run scope env :=
  Expr.eval_of_resolve h env

theorem sample_congr {k k' : Kernel} (h : k'.symbols.map (·.name) = k.symbols.map (·.name)) (rs : Ranges) :
    k'.sample rs = k.sample rs := by
  have hmap (k : Kernel) : k.sample rs = (k.symbols.map (·.name)).mapM fun i =>
      let r := rs.get i
      if r.isEmpty then .error (.shape (.emptyRange i)) else .ok (i, r.element 0) := by
    rw [sample, List.mapM_map]
    rfl
  rw [hmap, h, hmap]

/-- What a run sets up depends on the statement without its clauses, on the ranges, on the names of
the indices and on the reducer; it does not depend on the loops. -/
theorem prepare_congr {k k' : Kernel} (scope : Scope)
    (hstatement : k'.statement.target = k.statement.target ∧ k'.statement.op = k.statement.op ∧
      k'.statement.rhs = k.statement.rhs ∧ k'.statement.source = k.statement.source)
    (hmode : k'.config.mode = k.config.mode) (hcatalog : k'.analysis.catalog = k.analysis.catalog)
    (hindices : k'.analysis.indexNames = k.analysis.indexNames)
    (hsymbols : k'.symbols.map (·.name) = k.symbols.map (·.name))
    (hreducer : ∀ t, k'.reducer scope t = k.reducer scope t) : k'.prepare scope = k.prepare scope := by
  obtain ⟨htarget, hop, hrhs, hsource⟩ := hstatement
  have houtput (rs : Ranges) (element : Env → Run Value) :
      k'.makeOutput scope rs element = k.makeOutput scope rs element := by
    have hallocates : k'.statement.allocates = k.statement.allocates := congrArg (· == Assign.define) hop
    have hshape : k'.newShape rs = k.newShape rs := by rw [newShape, htarget, newShape]
    simp only [makeOutput, newOutput, sample_congr hsymbols, htarget, hallocates, hshape]
  simp only [prepare, houtput, hreducer, hcatalog, hindices, hrhs, hsource, hmode]

/-! ## Nothing is changed -/

theorem keeps_elemTypeOf (v : Value) : Keeps (elemTypeOf v) := by
  unfold elemTypeOf
  split
  · exact Run.keeps_pure _
  · exact Run.keeps_pure _
  · exact (Dense.calm_read _).keeps.bind fun _ => Run.keeps_pure _

theorem exec_read (v : Value) (w : World) :
    exec (Dense.read v) w = ((Dense.ofValue w.heap v).mapError .fault, w) := by
  rw [Dense.read, Run.exec_bind_ok (Run.exec_heap w), Run.exec_ofFault]

theorem exec_shapeText (v : Value) (w : World) : (exec (shapeText v) w).2 = w := by
  unfold shapeText
  extract_lets text
  split
  · rfl
  · rw [Run.exec_bind, exec_read]
    cases Dense.ofValue w.heap v <;> rfl

theorem keeps_makeOutput (k : Kernel) (scope : Scope) (rs : Ranges) {element : Env → Run Value}
    (h : ∀ env, Keeps (element env)) : Keeps (k.makeOutput scope rs element) := by
  unfold makeOutput
  split
  · exact (Run.keeps_lift _).bind fun env => (h env).bind fun v => (Dense.calm_read v).keeps.bind fun _ =>
      (Dense.calm_allocate _).keeps.bind fun _ => Run.keeps_pure _
  · dsimp only
    split
    · exact Run.keeps_throw _
    · exact (keeps_elemTypeOf _).bind fun _ => Run.keeps_pure _

theorem keeps_initial {scope : Scope} (quiet : scope.Quiet) (r : Reduction) (t : ElemType)
    (indices : List String) : Keeps (r.initial t (Expr.eval scope indices [])) := by
  unfold Reduction.initial
  split
  · exact Run.keeps_pure _
  · split
    · exact Run.keeps_pure _
    · exact Expr.keeps_eval quiet _ _ _

/-- Nothing that a call of a kernel evaluates changes what is there: neither the axes of its indices nor
the right-hand side, the start value or the reducer. -/
structure Still (k : Kernel) (scope : Scope) : Prop where
  catalog : k.analysis.catalog.Still scope k.analysis.indexNames
  element : ∀ env, Keeps (k.element scope env)
  initial : ∀ r t, k.reduction = some r → Keeps (r.initial t (Expr.eval scope k.analysis.indexNames []))
  combine : ∀ r f, k.reduction = some r → Reducer.ofName scope r.op = .ok f →
    ∀ acc v, Keeps (f.apply scope acc v)

theorem still_of_quiet {scope : Scope} (quiet : scope.Quiet) (k : Kernel) : k.Still scope where
  catalog := Catalog.still_of_quiet quiet _ _
  element _ := Expr.keeps_eval quiet _ _ _
  initial r t _ := keeps_initial quiet r t _
  combine _ f _ _ := Reducer.keeps_apply quiet f

theorem Still.code {k : Kernel} {scope : Scope} (still : k.Still scope) {code : Code}
    (h : k.statement.rhs.resolve scope k.analysis.indexNames = .ok code) (env : Env) :
    Keeps (code.run scope env) :=
  element_of_resolve h env ▸ still.element env

theorem Still.reducer {k : Kernel} {scope : Scope} (still : k.Still scope) (t : ElemType) :
    Keeps (k.reducer scope t) := by
  unfold Kernel.reducer
  split
  · exact Run.keeps_pure _
  · rename_i r hr
    exact (Run.keeps_lift _).bind fun _ => (still.initial r t hr).bind fun _ => Run.keeps_pure _

/-! ## What is found -/

/-- A block of its own for a new array, with a blank cell for each position. -/
structure Fresh (a : View) (shape : List Nat) (w w' : World) : Prop where
  offset : a.offset = 0
  shape_eq : a.shape = shape
  strides : a.strides = rowMajor shape
  new : w.heap.size ≤ a.block
  exists_block : a.block < w'.heap.size
  blank : w'.heap.block a.block = (List.replicate (cellCount shape) (blank a.type)).toArray

/-- What changes at most a new array changes nothing that was there before. -/
theorem Fresh.keeps_of_but {a : View} {shape : List Nat} {w w' u : World} (h : Fresh a shape w w')
    (hw : w.Keeps w') (hu : World.KeepsBut a.block w' u) : w.Keeps u := by
  refine ⟨Nat.le_trans hw.1 hu.1, fun b hb => ?_⟩
  rw [hu.2 b (Nat.lt_of_lt_of_le hb hw.1) (Nat.ne_of_lt (Nat.lt_of_lt_of_le hb h.new)), hw.2 b hb]

theorem elemTypeOf_eq {a : View} {w w' : World} {t : ElemType}
    (h : exec (elemTypeOf (.array a)) w = (.ok t, w')) : t = a.type := by
  cases h
  rfl

/-- The output is a new array, or the value that its name is bound to. -/
theorem makeOutput_eq_ok {k : Kernel} {scope : Scope} {rs : Ranges} {element : Env → Run Value}
    (helement : ∀ env, Keeps (element env)) {w w' : World} {out : Value} {t : ElemType}
    (h : exec (k.makeOutput scope rs element) w = (.ok (out, t), w')) :
    (∀ a, out = .array a → t = a.type) ∧
      if k.statement.allocates then ∃ a, out = .array a ∧ Fresh a (k.newShape rs) w w'
      else scope.bindings.lookup (k.statement.target.name.getD "") = some out := by
  unfold makeOutput at h
  split at h
  · rename_i hs
    rw [if_pos hs]
    obtain ⟨env, w₁, henv, h⟩ := Run.exec_bind_eq_ok h
    obtain ⟨v, w₂, hv, h⟩ := Run.exec_bind_eq_ok h
    obtain ⟨d, w₃, hd, h⟩ := Run.exec_bind_eq_ok h
    have hk₁ := Run.keeps_lift (k.sample rs) w
    have hk₂ := helement env w₁
    have hk₃ := (Dense.calm_read v).keeps w₂
    rw [henv] at hk₁
    rw [hv] at hk₂
    rw [hd] at hk₃
    have hsize := ((hk₁.trans hk₂).trans hk₃).1
    cases h
    refine ⟨fun a ha => by cases ha; rfl, _, rfl, rfl, rfl, rfl, hsize, ?_, ?_⟩
    · simp
    · simp [Heap.block, Array.getD_eq_getD_getElem?]
  · rename_i hs
    rw [if_neg hs]
    dsimp only at h
    split at h
    · simp at h
    · rename_i hlookup
      obtain ⟨t', w₁, ht, h⟩ := Run.exec_bind_eq_ok h
      cases h
      refine ⟨fun a ha => ?_, hlookup⟩
      subst ha
      exact elemTypeOf_eq ht

/-- Whatever the values that are asked do, this is what has been found when a run has been set up. -/
theorem prepare_eq_ok {k : Kernel} {scope : Scope} {w w' : World} {s : Setup}
    (h : exec (k.prepare scope) w = (.ok s, w')) : ∃ t w₁ w₂ w₃,
      exec (k.analysis.catalog.ranges scope k.analysis.indexNames) w = (.ok s.ranges, w₁) ∧
      k.statement.rhs.resolve scope k.analysis.indexNames = .ok s.code ∧
      exec (k.makeOutput scope s.ranges fun env => s.code.run scope env) w₁ = (.ok (s.out, t), w₂) ∧
      exec (k.reducer scope t) w₂ = (.ok (s.reducer, s.init), w₃) ∧ w'.heap = w₃.heap := by
  obtain ⟨rs, w₁, hranges, h⟩ := Run.exec_bind_eq_ok h
  obtain ⟨code, w₁', hcode, h⟩ := Run.exec_bind_eq_ok h
  obtain ⟨⟨out, t⟩, w₂, hout, h⟩ := Run.exec_bind_eq_ok h
  obtain ⟨⟨f, init⟩, w₃, hreducer, h⟩ := Run.exec_bind_eq_ok h
  obtain ⟨text, w₄, htext, h⟩ := Run.exec_bind_eq_ok h
  obtain ⟨_, w₅, hlog, h⟩ := Run.exec_bind_eq_ok h
  cases h
  simp only [Run.exec_lift, Prod.mk.injEq] at hcode
  obtain ⟨hcode, rfl⟩ := hcode
  have htold := exec_shapeText out w₃
  rw [htext] at htold
  obtain rfl : w₄ = w₃ := htold
  cases hlog
  exact ⟨t, w₁, w₂, w₄, hranges, hcode, hout, hreducer, rfl⟩

theorem gapless_of_prepare {k : Kernel} {scope : Scope} {w w' : World} {s : Setup}
    (h : exec (k.prepare scope) w = (.ok s, w')) : s.ranges.Gapless := by
  obtain ⟨_, _, _, _, hranges, -⟩ := prepare_eq_ok h
  exact Catalog.gapless_of_ranges hranges

/-- The facts about what a run has set up. -/
structure Prepared (k : Kernel) (scope : Scope) (w : World) (s : Setup) (w' : World) : Prop where
  keeps : w.Keeps w'
  ranges : (exec (k.analysis.catalog.ranges scope k.analysis.indexNames) w).1 = .ok s.ranges
  resolved : k.analysis.catalog.Resolved scope k.analysis.indexNames w s.ranges
  code : k.statement.rhs.resolve scope k.analysis.indexNames = .ok s.code
  reducer : ∃ t u u', (∀ a, s.out = .array a → t = a.type) ∧
    (∀ a, s.out = .array a → k.statement.allocates = true → a.block < u.heap.size) ∧ w.Keeps u ∧
    u'.Keeps w' ∧ exec (k.reducer scope t) u = (.ok (s.reducer, s.init), u')
  output : if k.statement.allocates then
      ∃ a, s.out = .array a ∧ Fresh a (k.newShape s.ranges) w w'
    else scope.bindings.lookup (k.statement.target.name.getD "") = some s.out

theorem Prepared.ranges_eq {k : Kernel} {scope : Scope} {w w' w₁ : World} {s : Setup}
    (h : k.Prepared scope w s w') {rs : Ranges}
    (hranges : exec (k.analysis.catalog.ranges scope k.analysis.indexNames) w = (.ok rs, w₁)) : s.ranges = rs := by
  have hfound := h.ranges
  rw [hranges] at hfound
  exact (Except.ok.inj hfound).symm

theorem Still.prepared {k : Kernel} {scope : Scope} (still : k.Still scope) {w w' : World}
    {s : Setup} (h : exec (k.prepare scope) w = (.ok s, w')) : k.Prepared scope w s w' := by
  obtain ⟨t, w₁, w₂, w₃, hranges, hcode, hout, hreducer, hheap⟩ := prepare_eq_ok h
  obtain ⟨hk₁, hresolved⟩ := still.catalog.resolved hranges
  have helement := still.code hcode
  have hk₂ := k.keeps_makeOutput scope s.ranges helement w₁
  have hk₃ := still.reducer t w₂
  rw [hout] at hk₂
  rw [hreducer] at hk₃
  have hk₄ : w₃.Keeps w' := .of_heap_eq hheap
  have hrest := hk₃.trans hk₄
  obtain ⟨htype, houtput⟩ := makeOutput_eq_ok helement hout
  refine ⟨(hk₁.trans hk₂).trans hrest, by rw [hranges], hresolved, hcode,
    ⟨t, w₂, w₃, htype, fun a ha hs => ?_, hk₁.trans hk₂, hk₄, hreducer⟩, ?_⟩
  · rw [if_pos hs] at houtput
    obtain ⟨a', ha', hfresh⟩ := houtput
    cases ha.symm.trans ha'
    exact hfresh.exists_block
  split
  · rename_i hs
    rw [if_pos hs] at houtput
    obtain ⟨a, ha, hfresh⟩ := houtput
    refine ⟨a, ha, hfresh.offset, hfresh.shape_eq, hfresh.strides, Nat.le_trans hk₁.1 hfresh.new,
      Nat.lt_of_lt_of_le hfresh.exists_block hrest.1, ?_⟩
    rw [hrest.2 _ hfresh.exists_block, hfresh.blank]
  · rename_i hs
    rwa [if_neg hs] at houtput

theorem Prepared.element_eq {k : Kernel} {scope : Scope} {w w' : World} {s : Setup}
    (h : k.Prepared scope w s w') (env : Env) : s.code.run scope env = k.element scope env :=
  (element_of_resolve h.code env).symm

end Kernel
end IndexNotation
