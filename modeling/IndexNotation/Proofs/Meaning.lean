import IndexNotation.Proofs.Looks
import IndexNotation.Proofs.Targets

/-!
# The meaning of a statement

Without a tiling clause and without workers, a run gives every cell of the left-hand side what the
notation says: the value of the right-hand side, or its values for all reduction indices, reduced
from left to right in the order of the loops. A step lemma says what is done for one cell, and a run
lemma that later cells leave it alone.

The right-hand side has to be pure: what it evaluates to is decided by the values of the indices and
by the arrays that its names lead to, and the output is none of them. The reducer need not be pure.
-/

namespace IndexNotation

open Run (exec outcome Keeps)

/-! ## What is asked of the right-hand side -/

namespace Expr

/-- The names that an expression reads, those of functions among them. -/
def namesRead (e : Expr) : List String :=
  e.walk.filterMap fun e =>
    match e with
    | .name id _ => some id
    | .call f _ _ => some f
    | _ => none

/-- A block that the names of an expression lead to. -/
def Sees (e : Expr) (scope : Scope) (w : World) (b : Nat) : Prop :=
  ∃ name ∈ e.namesRead, ∃ v, scope.lookup name = .ok v ∧ v.Reaches w.heap b

/-- What comes of an expression is decided by the blocks that its names lead to. -/
def Pure (e : Expr) (scope : Scope) (indices : List String) (w : World) : Prop :=
  ∀ env u, (∀ b, e.Sees scope w b → u.heap.block b = w.heap.block b) →
    outcome (e.eval scope indices env) u = outcome (e.eval scope indices env) w

/-- One reference to an array, by plain indices, is pure. -/
theorem pure_of_reference {e : Expr} {scope : Scope} {indices : List String} {w : World} {a : View}
    {keys : List String}
    (hcode : e.resolve scope indices = .ok (.get (.value (.array a)) (keys.map .index)))
    (hlen : keys.length = a.shape.length) (name : String) (hname : name ∈ e.namesRead)
    (hlookup : scope.lookup name = .ok (.array a)) : e.Pure scope indices w := by
  intro env u hu
  have hsees {b : Nat} (hb : (Value.array a).Reaches w.heap b) : u.heap.block b = w.heap.block b :=
    hu b ⟨name, hname, _, hlookup, hb⟩
  rw [outcome, outcome, eval_of_resolve hcode, Code.exec_run_reference hlen, Code.exec_run_reference hlen]
  simp only [View.readAt, hsees (.array a)]
  cases keys.mapM (fun i => List.lookup i env) with
  | none => rfl
  | some vs =>
    dsimp only
    cases a.place vs with
    | none => rfl
    | some p =>
      refine congrArg Except.ok (Value.look_congr fun b hb => ?_)
      cases hp : (w.heap.block a.block)[p]? with
      | none =>
        rw [Array.getD_eq_getD_getElem?, hp] at hb
        cases hb
      | some x =>
        rw [Array.getD_eq_getD_getElem?, hp] at hb
        exact hsees (.arrayCell (Array.mem_toList_iff.2 (Array.mem_of_getElem? hp)) hb)

end Expr

namespace Kernel

/-- A block that the names of the right-hand side lead to. -/
def Sees (k : Kernel) (scope : Scope) (w : World) (b : Nat) : Prop :=
  ∃ name ∈ k.statement.rhs.namesRead, ∃ v, scope.lookup name = .ok v ∧ v.Reaches w.heap b

/-- What comes of the right-hand side is decided by the blocks that its names lead to. -/
def Pure (k : Kernel) (scope : Scope) (w : World) : Prop :=
  ∀ env u, (∀ b, k.Sees scope w b → u.heap.block b = w.heap.block b) →
    outcome (k.element scope env) u = outcome (k.element scope env) w

theorem pure_of_reference {k : Kernel} {scope : Scope} {w : World} {a : View} {indices : List String}
    (hcode : k.statement.rhs.resolve scope k.analysis.indexNames =
      .ok (.get (.value (.array a)) (indices.map .index)))
    (hlen : indices.length = a.shape.length) (name : String)
    (hname : name ∈ k.statement.rhs.namesRead) (hlookup : scope.lookup name = .ok (.array a)) :
    k.Pure scope w :=
  Expr.pure_of_reference hcode hlen name hname hlookup

end Kernel

/-! ## Folding with an effect -/

/-- A left fold of `f` over the values that `element` gives at points, each evaluated when it is
needed. All of them look as they do in the world `start`. -/
inductive FoldsTo (start : World) (element : Env → Run Value) (f : Value → Value → Run Value) :
    World → Value → List Env → Value → World → Prop where
  | nil {w : World} {acc : Value} : FoldsTo start element f w acc [] acc w
  | cons {w u u' z : World} {acc acc' r v : Value} {p : Env} {ps : List Env} :
      exec (element p) w = (.ok v, u) → outcome (element p) start = .ok (v.look u.heap) →
      exec (f acc v) u = (.ok acc', u') → FoldsTo start element f u' acc' ps r z →
      FoldsTo start element f w acc (p :: ps) r z

namespace Kernel

/-- What the cell for the values `c` of the output indices has to hold, in the type of the array:
the right-hand side at `c`, or the fold of its values at `c` and all points of the reduction
indices, in their order. The values are those at the start, in `w`; the fold is done later than
`u`. -/
def Means (k : Kernel) (scope : Scope) (w : World) (a : View) (rs : Ranges)
    (f : Value → Value → Run Value) (init : Value) (u : World) (c : Env) (cell : Value) : Prop :=
  if k.reductionIndices = [] then
    ∃ v z z', World.KeepsBut a.block u z ∧ exec (k.element scope c) z = (.ok v, z') ∧
      outcome (k.element scope c) w = .ok (v.look z'.heap) ∧ a.type.accept z'.heap v = .ok cell
  else
    ∃ acc z z', World.KeepsBut a.block u z ∧
      FoldsTo w (fun r => k.element scope (c ++ r)) f z init (rs.points k.reductionIndices) acc z' ∧
      a.type.accept z'.heap acc = .ok cell

theorem Means.mono {k : Kernel} {scope : Scope} {w : World} {a : View} {rs : Ranges}
    {f : Value → Value → Run Value} {init : Value} {u u' : World} {c : Env} {cell : Value}
    (hu : World.KeepsBut a.block u u') (h : k.Means scope w a rs f init u' c cell) :
    k.Means scope w a rs f init u c cell := by
  unfold Means at h ⊢
  split
  · rw [if_pos ‹_›] at h
    obtain ⟨v, z, z', hz, h⟩ := h
    exact ⟨v, z, z', hu.trans hz, h⟩
  · rw [if_neg ‹_›] at h
    obtain ⟨acc, z, z', hz, h⟩ := h
    exact ⟨acc, z, z', hu.trans hz, h⟩

end Kernel

/-! ## One cell -/

theorem Env.lookup_append_reverse {c r : Env} (h : (c.map Prod.fst ++ r.map Prod.fst).Nodup)
    (i : String) : (r.reverse ++ c).lookup i = (c ++ r).lookup i := by
  have hperm : (c ++ r).Perm (r.reverse ++ c) :=
    (List.perm_append_comm).trans ((List.reverse_perm r).symm.append_right c)
  exact (lookup_eq_of_perm hperm (by rwa [List.map_append]) i).symm

/-- Evaluating and combining along points is a fold of the values at the points. -/
theorem foldsTo_of_foldlM {f : Value → Value → Run Value} {element : Env → Run Value}
    (hf : ∀ acc v, Keeps (f acc v)) (helement : ∀ env, Keeps (element env)) {b : Nat} {w : World}
    (hpure : ∀ p u, World.KeepsBut b w u → outcome (element p) u = outcome (element p) w)
    {ps : List Env} {acc r : Value} {u u' : World} (hu : World.KeepsBut b w u)
    (h : exec (ps.foldlM (fun acc p => do f acc (← element p)) acc) u = (.ok r, u')) :
    FoldsTo w element f u acc ps r u' ∧ u.Keeps u' := by
  induction ps generalizing acc u with
  | nil =>
    cases h
    exact ⟨.nil, .refl _⟩
  | cons p ps ih =>
    rw [List.foldlM_cons] at h
    obtain ⟨acc', u₂, hstep, h⟩ := Run.exec_bind_eq_ok h
    obtain ⟨v, u₁, hv, hstep⟩ := Run.exec_bind_eq_ok hstep
    have hk₁ := helement p u
    have hk₂ := hf acc v u₁
    rw [hv] at hk₁
    rw [hstep] at hk₂
    have hk := hk₁.trans hk₂
    obtain ⟨hfolds, hk'⟩ := ih (hu.trans (hk.but b)) h
    exact ⟨.cons hv (by rw [← hpure p u hu, Run.outcome_ok hv]) hstep hfolds, hk.trans hk'⟩

namespace Kernel

/-- A run that has been set up to fill an array, with a pure right-hand side that does not lead to
the array. -/
structure Ready (k : Kernel) (scope : Scope) (w : World) (s : Setup) (w' : World) (a : View) : Prop where
  planned : ∃ read, k.Planned read
  quiet : scope.Quiet
  prepared : k.Prepared scope w s w'
  out : s.out = .array a
  rank : k.statement.target.indices.length = a.shape.length
  solid : a.Solid w'.heap
  pure : k.Pure scope w
  apart : ∀ b, k.Sees scope w b → b < w.heap.size ∧ b ≠ a.block

namespace Ready

variable {k : Kernel} {scope : Scope} {w w' : World} {s : Setup} {a : View}
  (h : k.Ready scope w s w' a)

include h

theorem keeps_element (env : Env) : Keeps (k.element scope env) :=
  Expr.keeps_eval h.quiet _ _ _

/-- What comes of the right-hand side is what comes of it at the start. -/
theorem outcome_eq (env : Env) (u : World) (hu : World.KeepsBut a.block w u) :
    outcome (k.element scope env) u = outcome (k.element scope env) w :=
  h.pure env u fun b hb => hu.2 b (h.apart b hb).1 (h.apart b hb).2

/-- The values of a cell are reduced in the order of their points. -/
theorem reduceCell_spec {loops : List InnerLoop}
    (hloops : loops.map (·.index) = k.reductionIndices) {c : Env}
    (hc : c ∈ s.ranges.points k.outputIndices) {acc r : Value} {u u' : World}
    (hu : World.KeepsBut a.block w u)
    (hr : exec (reduceCell (s.machine k scope) s.ranges loops c acc) u = (.ok r, u')) :
    FoldsTo w (fun r => k.element scope (c ++ r)) (s.reducer.apply scope) u acc
      (s.ranges.points k.reductionIndices) r u' ∧ u.Keeps u' := by
  obtain ⟨read, hk⟩ := h.planned
  -- The loops have the innermost index in front, the points have it at the end.
  have henv {r : Env} (hr : r ∈ s.ranges.points k.reductionIndices) :
      s.code.run scope (r.reverse ++ c) = k.element scope (c ++ r) := by
    rw [h.prepared.element_eq, element, element]
    refine Expr.eval_congr (Env.lookup_append_reverse ?_) _
    rw [Ranges.map_fst_of_mem_points hc, Ranges.map_fst_of_mem_points hr, hk.reductionIndices_eq]
    exact List.Nodup.append k.nodup_outputIndices hk.nodup_order fun i hi hi' => hk.notMem_outputs hi' hi
  rw [reduceCell, foldLoops_eq, h.prepared.resolved.gapless.points_values, hloops] at hr
  refine foldsTo_of_foldlM (fun acc v => Reducer.keeps_apply h.quiet _ acc v)
    (fun r => h.keeps_element (c ++ r)) (fun r => h.outcome_eq (c ++ r)) hu ?_
  rw [← hr]
  refine congrArg (exec · u) (foldlM_congr_mem (fun r hr acc => ?_) acc)
  rw [← henv hr]
  rfl

/-- A value that is stored is converted and put at its place. -/
theorem store_spec {c : Env} {v : Value} {u u' : World}
    (hv : exec ((s.machine k scope).store c v) u = (.ok ⟨⟩, u')) :
    ∃ p cell, a.place (k.positions c) = some p ∧ a.type.accept u.heap v = .ok cell ∧
      u'.heap = u.heap.modify a.block (·.setIfInBounds p cell) := by
  obtain ⟨read, hk⟩ := h.planned
  exact hk.store_eq_ok h.out h.rank hv

/-- A cell is given what it has to hold, and nothing else that is there changes. -/
theorem runCell_spec (hplain : k.plan.body.resumes = false) {c : Env}
    (hc : c ∈ s.ranges.points k.outputIndices) {table table' : Table Value} {u u' : World}
    (hu : World.KeepsBut a.block w' u)
    (hr : exec (runCell (s.machine k scope) s.ranges k.outputIndices k.plan.body c table) u =
      (.ok table', u')) :
    ∃ p cell z, u.Keeps z ∧ a.place (k.positions c) = some p ∧
      k.Means scope w a s.ranges (s.reducer.apply scope) s.init w' c cell ∧
      u'.heap = z.heap.modify a.block (·.setIfInBounds p cell) := by
  obtain ⟨read, hk⟩ := h.planned
  have hw : World.KeepsBut a.block w u := (h.prepared.keeps.but _).trans hu
  rcases hk.body_eq with ⟨horder, hbody⟩ | ⟨horder, loops, hloops, hbody⟩
  · rw [hbody] at hr
    obtain ⟨v, z, hv, hr⟩ := Run.exec_bind_eq_ok hr
    obtain ⟨_, z', hstore, hr⟩ := Run.exec_bind_eq_ok hr
    cases hr
    obtain ⟨p, cell, hplace, haccept, hheap⟩ := h.store_spec hstore
    have hv : exec (s.code.run scope c) u = (.ok v, z) := hv
    rw [h.prepared.element_eq] at hv
    have hz := h.keeps_element c u
    rw [hv] at hz
    refine ⟨p, cell, z, hz, hplace, ?_, hheap⟩
    rw [Means, if_pos (by rw [hk.reductionIndices_eq, horder])]
    exact ⟨v, u, z, hu, hv, by rw [← h.outcome_eq c u hw, Run.outcome_ok hv], haccept⟩
  · rw [hbody] at hr hplain
    rw [show k.analysis.tiling.any _ = false from hplain] at hr
    obtain ⟨acc, z, hacc, hr⟩ := Run.exec_bind_eq_ok hr
    obtain ⟨_, z', hstore, hr⟩ := Run.exec_bind_eq_ok hr
    cases hr
    obtain ⟨p, cell, hplace, haccept, hheap⟩ := h.store_spec hstore
    obtain ⟨hfolds, hz⟩ :=
      h.reduceCell_spec (hloops.trans hk.reductionIndices_eq.symm) hc hw hacc
    refine ⟨p, cell, z, hz, hplace, ?_, hheap⟩
    rw [Means, if_neg (by rwa [hk.reductionIndices_eq])]
    exact ⟨acc, u, z, hu, hfolds, haccept⟩

end Ready

/-! ## All cells -/

/-- From `u` to `u'`, the cells of `a` for the values `cs` have been filled with what `G` says of
them, and nothing else has changed. -/
structure Filled (k : Kernel) (a : View) (G : Env → Value → Prop) (cs : List Env) (u u' : World) :
    Prop where
  keeps : World.KeepsBut a.block u u'
  size : (u'.heap.block a.block).size = (u.heap.block a.block).size
  holds : ∀ c ∈ cs, ∃ p cell, a.place (k.positions c) = some p ∧
    (u'.heap.block a.block)[p]? = some cell ∧ G c cell
  others : ∀ p, (∀ c ∈ cs, a.place (k.positions c) ≠ some p) →
    (u'.heap.block a.block)[p]? = (u.heap.block a.block)[p]?

namespace Filled

variable {k : Kernel} {a : View} {G : Env → Value → Prop} {c : Env} {cs : List Env} {u u' u'' : World}

theorem of_modify (ha : a.Solid u.heap) {z : World} {p : Nat} {cell : Value} (hz : u.Keeps z)
    (hplace : a.place (k.positions c) = some p) (hG : G c cell)
    (hheap : u'.heap = z.heap.modify a.block (·.setIfInBounds p cell)) :
    k.Filled a G [c] u u' := by
  have hblock : u'.heap.block a.block = (u.heap.block a.block).setIfInBounds p cell := by
    rw [hheap, ← hz.2 _ ha.exists_block, Heap.block_modify (Nat.lt_of_lt_of_le ha.exists_block hz.1)]
  refine ⟨(hz.but _).trans (.of_modify _ hheap), by simp [hblock], fun c' hc' => ?_, fun q hq => ?_⟩
  · obtain rfl := List.mem_singleton.1 hc'
    refine ⟨p, cell, hplace, ?_, hG⟩
    rw [hblock, Array.getElem?_setIfInBounds_self_of_lt (ha.place_lt hplace)]
  · have hne : p ≠ q := fun e => hq c (.head _) (e ▸ hplace)
    rw [hblock, Array.getElem?_setIfInBounds_ne hne]

theorem cons (h : k.Filled a G [c] u u') (hs : k.Filled a G cs u' u'')
    (hne : ∀ c' ∈ cs, ∀ p, a.place (k.positions c) = some p → a.place (k.positions c') ≠ some p) :
    k.Filled a G (c :: cs) u u'' := by
  refine ⟨h.keeps.trans hs.keeps, hs.size.trans h.size, fun c' hc' => ?_, fun p hp => ?_⟩
  · rcases List.mem_cons.1 hc' with rfl | hc'
    · obtain ⟨p, cell, hplace, hcell, hG⟩ := h.holds c' (.head _)
      exact ⟨p, cell, hplace, by rw [hs.others p fun c' hc' => hne c' hc' p hplace, hcell], hG⟩
    · exact hs.holds c' hc'
  · rw [hs.others p fun c' hc' => hp c' (.tail _ hc'), h.others p]
    intro c' hc'
    obtain rfl := List.mem_singleton.1 hc'
    exact hp c' (.head _)

end Filled

namespace Ready

variable {k : Kernel} {scope : Scope} {w w' : World} {s : Setup} {a : View}
  (h : k.Ready scope w s w' a)

include h

theorem place_ne {c c' : Env} (hc : c ∈ s.ranges.points k.outputIndices)
    (hc' : c' ∈ s.ranges.points k.outputIndices) (hne : c ≠ c') (p : Nat)
    (hp : a.place (k.positions c) = some p) : a.place (k.positions c') ≠ some p := by
  obtain ⟨read, hk⟩ := h.planned
  exact hk.place_ne h.prepared.resolved h.solid hc hc' hne p hp

/-- The loops over the output fill one cell after the other. -/
theorem foldlM_runCell_spec (hplain : k.plan.body.resumes = false) {cs : List Env}
    (hcs : ∀ c ∈ cs, c ∈ s.ranges.points k.outputIndices) (hnodup : cs.Nodup)
    {table table' : Table Value} {u u' : World} (hu : World.KeepsBut a.block w' u)
    (hsize : (u.heap.block a.block).size = (w'.heap.block a.block).size)
    (hr : exec (cs.foldlM (fun table c =>
      runCell (s.machine k scope) s.ranges k.outputIndices k.plan.body c table) table) u =
      (.ok table', u')) :
    k.Filled a (k.Means scope w a s.ranges (s.reducer.apply scope) s.init w') cs u u' := by
  induction cs generalizing table u with
  | nil =>
    cases hr
    exact ⟨(World.Keeps.refl _).but _, rfl, by simp, by simp⟩
  | cons c cs ih =>
    obtain ⟨hnew, hnodup⟩ := List.nodup_cons.1 hnodup
    rw [List.foldlM_cons] at hr
    obtain ⟨table₁, u₁, hcell, hr⟩ := Run.exec_bind_eq_ok hr
    obtain ⟨p, cell, z, hz, hplace, hmeans, hheap⟩ := h.runCell_spec hplain (hcs c (.head _)) hu hcell
    have hsolid : a.Solid u.heap :=
      ⟨Nat.lt_of_lt_of_le h.solid.exists_block hu.1, h.solid.nodup, by rw [hsize]; exact h.solid.bounds⟩
    have hfirst := Filled.of_modify hsolid hz hplace hmeans hheap
    refine hfirst.cons (ih (fun c hc => hcs c (.tail _ hc)) hnodup (hu.trans hfirst.keeps)
      (hfirst.size.trans hsize) hr) fun c' hc' => ?_
    exact h.place_ne (hcs c (.head _)) (hcs c' (.tail _ hc')) (fun e => hnew (e ▸ hc'))

end Ready

/-! ## Whole runs -/

/-- What an existing output has to be: an array with one dimension for each entry of the left-hand
side, which does not overlap itself and is not among what the right-hand side reads. -/
def Apart (k : Kernel) (scope : Scope) (w : World) : Prop :=
  ∃ a, scope.bindings.lookup (k.statement.target.name.getD "") = some (.array a) ∧
    a.shape.length = k.statement.target.indices.length ∧ a.Solid w.heap ∧ ¬ k.Sees scope w a.block

theorem Prepared.ready {k : Kernel} {read : Reduction.Partial} (hk : k.Planned read) {scope : Scope}
    (quiet : scope.Quiet) {w w' : World} {s : Setup} (h : k.Prepared scope w s w')
    (hpure : k.Pure scope w) (hsees : ∀ b, k.Sees scope w b → b < w.heap.size)
    (hout : k.statement.allocates = false → k.Apart scope w) : ∃ a, k.Ready scope w s w' a := by
  have houtput := h.output
  cases hs : k.statement.allocates with
  | true =>
    rw [if_pos hs] at houtput
    obtain ⟨a, ha, hfresh⟩ := houtput
    refine ⟨a, ⟨read, hk⟩, quiet, h, ha, ?_, hfresh.solid, hpure, fun b hb => ⟨hsees b hb, ?_⟩⟩
    · rw [hfresh.shape_eq, newShape, List.length_map]
    · exact Nat.ne_of_lt (Nat.lt_of_lt_of_le (hsees b hb) hfresh.new)
  | false =>
    rw [if_neg (by simp [hs])] at houtput
    obtain ⟨a, hlookup, hrank, hsolid, hnot⟩ := hout hs
    have ha : s.out = .array a := Option.some.inj (houtput.symm.trans hlookup)
    refine ⟨a, ⟨read, hk⟩, quiet, h, ha, hrank.symm, hsolid.mono h.keeps, hpure,
      fun b hb => ⟨hsees b hb, fun e => hnot (e ▸ hb)⟩⟩

end Kernel
end IndexNotation
