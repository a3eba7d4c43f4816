import IndexNotation.Element.Placing
import IndexNotation.Proofs.Crews

/-!
# No access out of bounds

Once the ranges of a kernel are found, every value that an index takes is a position of every
dimension that it stands for, on the right-hand side and on the left. This is a statement about all
accesses of a run. To make it, a run is watched: before every evaluation of the right-hand side and
before every store it tells what it is about to do.
-/

namespace IndexNotation

open Run (exec Yields Determined)

/-- What a run is about to do. -/
inductive Access where
  /-- Evaluate the right-hand side for values of the indices. -/
  | evaluate (env : Env)
  /-- Store at the cell of `out` that the left-hand side has for values of the indices. -/
  | store (out : Value) (env : Env)

/-- The plain names among `entries` have values that are positions in the dimensions of `shape`
where they stand. -/
def Env.Fits (env : Env) (entries : List Expr) (shape : List Nat) : Prop :=
  ∀ (d : Nat) (i : String) (pos : Option Pos), entries[d]? = some (.name i pos) →
    ∃ (v : Int) (n : Nat), env.lookup i = some v ∧ shape[d]? = some n ∧ 0 ≤ v ∧ v < n

/-- A machine that calls `watch` before every access. -/
def Machine.watched (watch : Access → Run PUnit) (out : Value) (k : Machine Run Value) :
    Machine Run Value :=
  { k with
    element := fun env => do
      watch (.evaluate env)
      k.element env
    store := fun env v => do
      watch (.store out env)
      k.store env v }

namespace Kernel

/-- An access is safe if it is within all arrays that are named: an evaluation within the arrays in
front of the brackets of the right-hand side, a store within the array that is written to. -/
def Safe (k : Kernel) (scope : Scope) : Access → Prop
  | .evaluate env => ∀ name pos keys a, Expr.Refers (.name name pos) keys k.statement.rhs →
      scope.bindings.lookup name = some (.array a) → env.Fits keys a.shape
  | .store out env => ∀ a, out = .array a → env.Fits k.statement.target.indices a.shape

/-- Runs a kernel and calls `watch` before every access. -/
def runWatched (k : Kernel) (watch : Access → Run PUnit) (scope : Scope) : Run Value := do
  let indices := k.analysis.indexNames
  let ranges ← k.analysis.catalog.ranges scope indices
  let code ← k.statement.rhs.resolve scope indices
  let element (env : Env) : Run Value := code.run scope env
  let (out, t) ← k.makeOutput scope ranges fun env => do
    watch (.evaluate env)
    element env
  let (r, init) ← k.reducer scope t
  let entry := detail .run ("running " ++ k.statement.source ++ ": output shape " ++
    (← shapeText out) ++ ", dtype " ++ t.label ++ ", mode " ++ k.config.mode)
  modify fun w => { w with log := w.log ++ [entry] }
  runPlan ((k.machine scope element out r init).watched watch out) k.config.workerCount
    k.outputIndices k.plan ranges
  return out

/-- The workers of a call, who call `watch` before every access. -/
def workersWatched (k : Kernel) (watch : Access → Run PUnit) (scope : Scope) (s : Setup) (w : World) :
    Crew (World × Table Value) :=
  crew ((s.machine k scope).watched watch s.out) k.outputIndices k.config.workerCount k.plan s.ranges w

/-- A run that is watched in silence is a run. -/
theorem runWatched_silent (k : Kernel) (scope : Scope) :
    k.runWatched (fun _ => pure ⟨⟩) scope = k.run scope := by
  simp only [runWatched, run, Machine.watched, pure_bind]

end Kernel

/-! ## Values within dimensions -/

theorem Range.bounds_of_same {r : Range} {n : Nat} {v : Int} (h : r.same (.upTo n))
    (hv : v ∈ r.toList) : 0 ≤ v ∧ v < n := by
  rw [Range.toList_eq_of_same h] at hv
  exact Range.mem_upTo.1 hv

/-- A range without gaps that has the positions of a dimension is the range of the dimension, unless
both are empty. -/
theorem Range.eq_upTo_of_same {r : Range} {n : Nat} (hr : r.step = 1) (h : r.same (.upTo n)) :
    r = .upTo n ∨ (n = 0 ∧ r.isEmpty) := by
  have hlen := Range.length_of_step_one hr
  simp only [Range.same, Bool.and_eq_true, Bool.or_eq_true, beq_iff_eq, Range.length_upTo,
    Int.toNat_natCast] at h
  obtain ⟨hn, hrest⟩ := h
  rcases Nat.eq_zero_or_pos n with rfl | hpos
  · exact .inr ⟨rfl, by simp [Range.isEmpty, hn]⟩
  · have hstart : r.start = 0 := by
      rcases hrest with h | ⟨h, -⟩
      · omega
      · exact h
    have hstop : r.stop = n := by omega
    obtain ⟨start, stop, step⟩ := r
    simp only at hr hstart hstop
    subst hr hstart hstop
    exact .inl rfl

namespace Kernel

/-- Every index that stands in a bracket of the right-hand side has a loop. -/
theorem Planned.mem_loops_of_reference {k : Kernel} {read : Reduction.Partial} (hk : k.Planned read)
    {base : Expr} {keys : List Expr} {d : Nat} {i : String} {pos : Option Pos}
    (hr : Expr.Refers base keys k.statement.rhs) (hd : keys[d]? = some (.name i pos)) :
    i ∈ k.outputIndices ++ k.analysis.reduction.order := by
  have hsymbol : i ∈ k.analysis.collection.indices := by
    rw [hk.collection]
    refine List.mem_flatMap.2 ⟨_, hr.mem_references, ?_⟩
    exact List.mem_filterMap.2 ⟨.name i pos, List.mem_of_getElem? hd, rfl⟩
  by_cases ho : i ∈ k.outputIndices
  · exact List.mem_append_left _ ho
  · refine List.mem_append_right _ (hk.order_perm.mem_iff.2 (List.mem_filter.2 ⟨?_, ?_⟩))
    · exact List.mem_eraseDups.2 hsymbol
    · simpa [Kernel.outputIndices] using ho

section

variable {k : Kernel} {read : Reduction.Partial} (hk : k.Planned read) {scope : Scope} {w : World}
  {rs : Ranges} (hrs : k.analysis.catalog.Resolved scope k.analysis.indexNames w rs)
  (hdet : ∀ i axis, k.analysis.catalog.get? i = some axis →
    Determined w (axis.resolve scope k.analysis.indexNames))

include hk hrs hdet

/-- An index that stands in a bracket after a name runs over that dimension of the array. -/
theorem Planned.same_of_reference {name i : String} {pos pos' : Option Pos} {keys : List Expr}
    {d : Nat} {a : View} (hr : Expr.Refers (.name name pos) keys k.statement.rhs)
    (hname : scope.bindings.lookup name = some (.array a)) (hd : keys[d]? = some (.name i pos')) :
    ∃ n : Nat, a.shape[d]? = some n ∧ (rs.get i).same (.upTo n) :=
  hrs.same_of_answers hk.sound_catalog (hdet i) hname (hk.answers_reference hr hd)

/-- Values for all loops are within the arrays of the right-hand side. -/
theorem Planned.safe_evaluate {env : Env}
    (henv : env.Covers rs (k.outputIndices ++ k.analysis.reduction.order)) :
    k.Safe scope (.evaluate env) := by
  intro name pos keys a hr hname d i pos' hd
  obtain ⟨n, hn, hsame⟩ := hk.same_of_reference hrs hdet hr hname hd
  obtain ⟨v, hv, hmem⟩ := henv.lookup (hk.mem_loops_of_reference hr hd)
  exact ⟨v, n, hv, hn, Range.bounds_of_same hsame hmem⟩

/-- What a store is made into: a new array has room for all values of the output indices, and an
array that was there has been measured. -/
theorem Planned.safe_store {element : Env → Run Value} {out : Value} {t : ElemType} {u u' : World}
    (hout : exec (k.makeOutput scope rs element) u = (.ok (out, t), u')) {env : Env}
    (henv : env.Covers rs k.outputIndices) : k.Safe scope (.store out env) := by
  rintro a rfl d i pos hd
  have hi : i ∈ k.outputIndices :=
    List.mem_eraseDups.2 (List.mem_filterMap.2 ⟨.name i pos, List.mem_of_getElem? hd, rfl⟩)
  obtain ⟨v, hv, hmem⟩ := henv.lookup hi
  unfold makeOutput at hout
  split at hout
  · obtain ⟨sample, _, -, hout⟩ := Run.exec_bind_eq_ok hout
    obtain ⟨x, _, -, hout⟩ := Run.exec_bind_eq_ok hout
    obtain ⟨dense, _, -, hout⟩ := Run.exec_bind_eq_ok hout
    cases hout
    obtain ⟨n, hn⟩ := hk.range_of_output hrs hi
    refine ⟨v, n.toNat, hv, ?_, ?_⟩
    · simp [newShape, hd, hn]
    · rw [hn, Range.mem_upTo] at hmem
      omega
  · rename_i hs
    obtain ⟨name, hname⟩ := hk.named (by simpa using hs)
    simp only [hname, Option.getD_some] at hout
    split at hout
    · simp at hout
    · rename_i hlookup
      obtain ⟨_, _, -, hout⟩ := Run.exec_bind_eq_ok hout
      cases hout
      obtain ⟨n, hn, hsame⟩ := hrs.same_of_answers hk.sound_catalog (hdet i) hlookup
        (hk.answers_target (by simpa using hs) hname hd)
      exact ⟨v, n, hv, hn, Range.bounds_of_same hsame hmem⟩

/-- The loops make safe accesses only: where these are let pass, it makes no difference to be watched. -/
theorem Planned.watched_agrees {watch : Access → Run PUnit}
    (hwatch : ∀ access, k.Safe scope access → watch access = pure ⟨⟩) {element element' : Env → Run Value}
    {out : Value} {t : ElemType} {u u' : World}
    (hout : exec (k.makeOutput scope rs element') u = (.ok (out, t), u')) (r : Reducer) (init : Value) :
    ((k.machine scope element out r init).watched watch out).Agrees (k.machine scope element out r init)
      k.plan rs where
  element env henv := by
    rw [hk.outer_eq, hk.inner_eq] at henv
    simp only [Machine.watched, hwatch _ (hk.safe_evaluate hrs hdet (henv.mono (by simp))), pure_bind]
  combine _ _ := rfl
  store env henv v := by
    rw [hk.outer_eq] at henv
    simp only [Machine.watched, hwatch _ (hk.safe_store hrs hdet hout (henv.mono (by simp))), pure_bind]
  init := rfl

end

/-- The sample has values for all loops. -/
theorem covers_sample {k : Kernel} {read : Reduction.Partial} (hk : k.Planned read) {rs : Ranges}
    {env : Env} (h : k.sample rs = .ok env) :
    env.Covers rs (k.outputIndices ++ k.analysis.reduction.order) := by
  obtain ⟨outer, inner, hsymbols, ho, hi, -, -⟩ := hk.symbols_eq
  rw [← ho, ← hi, ← List.map_append, ← hsymbols]
  have hall := mapM_eq_ok h
  clear h
  generalize k.symbols = symbols at hall
  induction hall with
  | nil => exact .nil
  | @cons s q symbols env hs _ ih =>
    dsimp only at hs
    split at hs
    · simp at hs
    · rename_i hne
      cases hs
      refine ih.cons (List.mem_map.2 ⟨0, ?_, rfl⟩)
      simpa [Range.isEmpty, Nat.pos_iff_ne_zero] using hne

/-- All ranges have a first value. -/
theorem exists_sample {k : Kernel} {read : Reduction.Partial} (hk : k.Planned read) {rs : Ranges}
    (hne : ∀ i ∈ k.outputIndices ++ k.reductionIndices, (rs.get i).isEmpty = false) : ∃ env, k.sample rs = .ok env := by
  obtain ⟨outer, inner, hsymbols, ho, hi, -, -⟩ := hk.symbols_eq
  rw [hk.reductionIndices_eq, ← ho, ← hi, ← List.map_append, ← hsymbols] at hne
  unfold sample
  clear hsymbols
  generalize k.symbols = symbols at hne
  induction symbols with
  | nil => exact ⟨[], rfl⟩
  | cons s symbols ih =>
    obtain ⟨env, henv⟩ := ih fun i hi => hne i (.tail _ hi)
    refine ⟨(s.name, (rs.get s.name).element 0) :: env, ?_⟩
    rw [List.mapM_cons, henv]
    dsimp only
    rw [hne s.name (.head _)]
    rfl

/-- Making the output evaluates the right-hand side at the sample only. -/
theorem makeOutput_congr {k : Kernel} {read : Reduction.Partial} (hk : k.Planned read) {rs : Ranges}
    (scope : Scope) {element element' : Env → Run Value}
    (h : ∀ env, env.Covers rs (k.outputIndices ++ k.analysis.reduction.order) →
      element env = element' env) :
    k.makeOutput scope rs element = k.makeOutput scope rs element' := by
  unfold makeOutput newOutput
  split
  · cases hsample : k.sample rs with
    | error e => rfl
    | ok env =>
      change (element env >>= _) = (element' env >>= _)
      rw [h env (covers_sample hk hsample)]
  · rfl

/-- **No access is out of bounds.** Suppose that the axes of a kernel change nothing when they are
evaluated and come to the same range each time, and that its ranges are found. Then a run makes safe
accesses only: it does not differ from a run that is watched by anyone who lets safe accesses pass,
whatever they do about others. Nor do the workers of a call, so none of them makes another access,
whatever the order of their steps. And written bounds are those of every array that their index stands for,
or both are empty. -/
theorem run_within_bounds {config : Config} {source : String} {k : Kernel}
    (hk : Compiles config source k) {scope : Scope} {w w' : World} {rs : Ranges}
    (still : k.analysis.catalog.Still scope k.analysis.indexNames)
    (hranges : exec (k.analysis.catalog.ranges scope k.analysis.indexNames) w = (.ok rs, w'))
    (hdet : ∀ i axis, k.analysis.catalog.get? i = some axis →
      Determined w (axis.resolve scope k.analysis.indexNames)) :
    (∀ watch : Access → Run PUnit, (∀ access, k.Safe scope access → watch access = pure ⟨⟩) →
      exec (k.runWatched watch scope) w = exec (k.run scope) w ∧
      ∀ s w₁, exec (k.launch scope) w = (.ok s, w₁) → k.workersWatched watch scope s w₁ = k.workers scope s w₁) ∧
    (∀ (name i : String) (pos pos' : Option Pos) (keys : List Expr) (a : View) (d : Nat),
      Expr.Refers (.name name pos) keys k.statement.rhs →
      scope.bindings.lookup name = some (.array a) → keys[d]? = some (.name i pos') →
      ∃ n : Nat, a.shape[d]? = some n ∧ (rs.get i = .upTo n ∨ (n = 0 ∧ (rs.get i).isEmpty))) := by
  obtain ⟨-, read, hk⟩ := hk.planned
  obtain ⟨-, hrs⟩ := still.resolved hranges
  refine ⟨fun watch hwatch => ⟨?_, fun s w₁ hlaunch => ?_⟩, fun name i pos pos' keys a d hr hname hd => ?_⟩
  · have helement (element : Env → Run Value) (env : Env)
        (henv : env.Covers rs (k.outputIndices ++ k.analysis.reduction.order)) :
        (do watch (.evaluate env); element env) = element env := by
      rw [hwatch _ (hk.safe_evaluate hrs hdet henv), pure_bind]
    rw [runWatched, run, Run.exec_bind_ok hranges, Run.exec_bind_ok hranges]
    refine Run.exec_bind_congr fun code u _ => ?_
    dsimp only
    rw [makeOutput_congr hk scope (helement _)]
    refine Run.exec_bind_congr fun made u hout => ?_
    obtain ⟨out, t⟩ := made
    refine Run.exec_bind_congr fun reducing _ _ => ?_
    obtain ⟨r, init⟩ := reducing
    refine Run.exec_bind_congr fun shape _ _ => Run.exec_bind_congr fun _ u' _ => ?_
    rw [Run.exec_bind, Run.exec_bind, (hk.watched_agrees hrs hdet hwatch hout r init).exec_runPlan
      k.config.workerCount hrs.gapless (fun g hg => (hk.group_sound hg).2.1) (by simp [hk.outer_eq])]
  · obtain ⟨t, u, u', -, hfound, -, hout, -⟩ := prepare_eq_ok (launch_eq_ok hlaunch)
    cases hranges.symm.trans hfound
    exact (hk.watched_agrees hrs hdet hwatch hout s.reducer s.init).crew_eq k.config.workerCount hrs.gapless
      (by simp [hk.outer_eq]) w₁
  · obtain ⟨n, hn, hsame⟩ := hk.same_of_reference hrs hdet hr hname hd
    exact ⟨n, hn, Range.eq_upTo_of_same (hrs.gapless i) hsame⟩

/-- A table of three rows and three columns. -/
def table : Scope := { bindings := [("X", .array ⟨0, .int .int64, 0, [3, 3], [3, 1]⟩)] }

def tableWorld : World :=
  { heap := #[#[1, 2, 3, 4, 5, 6, 7, 8, 9].map fun n => .scalar (.int .int64 n)] }

/-- Workers, blocks, unrolled steps and a written bound stay within a table. -/
theorem run_within_bounds_table :
    ∃ k rs, Compiles ⟨true, some 2⟩ "A[i] := X[i, j] (+, unroll(2), j <= 2) \x7btile(2), i\x7d" k ∧
      (exec (k.analysis.catalog.ranges table k.analysis.indexNames) tableWorld).1 = .ok rs ∧
      (∃ s w₁, exec (k.launch table) tableWorld = (.ok s, w₁)) ∧
      (∀ watch : Access → Run PUnit, (∀ access, k.Safe table access → watch access = pure ⟨⟩) →
        exec (k.runWatched watch table) tableWorld = exec (k.run table) tableWorld ∧
        ∀ s w₁, exec (k.launch table) tableWorld = (.ok s, w₁) →
          k.workersWatched watch table s w₁ = k.workers table s w₁) ∧
      (∀ (name i : String) (pos pos' : Option Pos) (keys : List Expr) (a : View) (d : Nat),
        Expr.Refers (.name name pos) keys k.statement.rhs →
        table.bindings.lookup name = some (.array a) → keys[d]? = some (.name i pos') →
        ∃ n : Nat, a.shape[d]? = some n ∧ (rs.get i = .upTo n ∨ (n = 0 ∧ (rs.get i).isEmpty))) := by
  obtain ⟨k, hk, hcheck⟩ := exists_compiles ⟨true, some 2⟩
    "A[i] := X[i, j] (+, unroll(2), j <= 2) \x7btile(2), i\x7d"
    (fun k => (exec (k.analysis.catalog.ranges table k.analysis.indexNames) tableWorld).1.isOk &&
      (exec (k.launch table) tableWorld).1.isOk &&
      k.analysis.catalog.axes.all (·.2.isPlain table k.analysis.indexNames)) (by decide +kernel)
  simp only [Bool.and_eq_true] at hcheck
  obtain ⟨⟨hok, hlaunch⟩, hplain⟩ := hcheck
  obtain ⟨rs, w', hranges⟩ := Run.exists_of_isOk hok
  refine ⟨k, rs, hk, by rw [hranges], Run.exists_of_isOk hlaunch, ?_⟩
  refine run_within_bounds hk (Catalog.still_of_quiet (fun _ _ => Run.keeps_fail _) _ _) hranges fun i axis hi => ?_
  exact Axis.determined_of_isPlain (List.all_eq_true.1 hplain _ (Env.mem_of_lookup hi)) _

/-- A table of two rows and two columns, and a number that `subtract(N, 1, N)` makes smaller by one. -/
def shrinking : Scope :=
  Scope.withPlacings { bindings := [("N", .array ⟨0, .int .int64, 0, [], []⟩),
    ("X", .array ⟨1, .int .int8, 0, [2, 2], [2, 1]⟩)] } [("subtract", .subtract)]

def shrinkingWorld : World :=
  { heap := #[#[.scalar (.int .int64 3)], #[100, 3, 4, 5].map fun n => .scalar (.int .int8 n)] }

/-- A bound that is lower when it is compared with the table than when the range is found. All checks
pass with a range of three columns, and the run reads beyond the two that there are. -/
theorem ranges_of_shrinking_bound :
    ∃ k rs, Compiles {} "A[i] := X[i, j] (+, j <= subtract(N, 1, N))" k ∧
      (exec (k.analysis.catalog.ranges shrinking k.analysis.indexNames) shrinkingWorld).1 = .ok rs ∧
      rs.get "j" = .upTo 3 ∧
      (exec (k.call shrinking) shrinkingWorld).1.map (fun _ => ()) = .error (.fault .outOfBounds) := by
  obtain ⟨k, hk, hcheck⟩ := exists_compiles {} "A[i] := X[i, j] (+, j <= subtract(N, 1, N))"
    (fun k => ((exec (k.analysis.catalog.ranges shrinking k.analysis.indexNames) shrinkingWorld).1.toOption.any
        fun rs => rs.get "j" == .upTo 3) &&
      (exec (k.call shrinking) shrinkingWorld).1.map (fun _ => ()) == .error (.fault .outOfBounds)) (by decide +kernel)
  simp only [Bool.and_eq_true] at hcheck
  obtain ⟨hranges, hcall⟩ := hcheck
  obtain ⟨rs, w', hrs, hj⟩ := Run.exists_of_any hranges
  exact ⟨k, rs, hk, by rw [hrs], by simpa using hj, of_decide_eq_true hcall⟩

end Kernel

end IndexNotation
