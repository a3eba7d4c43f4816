import IndexNotation.Proofs.Sums

/-!
# Schedules do not change results

The directives of a statement say how its loops are done: the order of the reduction indices, which
of them are unrolled, and which indices are cut into blocks. Kernels that differ in that do the same
task. If nothing fails on the way, and the values of a cell may be taken in any order, one of them
returns if the other does, with an array that looks the same.
-/

namespace IndexNotation

open Run (exec outcome PureFrom Determined)

namespace Rule.Sure

/-- Neither the order of the reduction indices nor the way in which ranges are listed changes what
the cells are given. -/
theorem fills_of_perm {r : Rule} {P : Look → Prop} {rs rs' : Ranges} {outputs inner inner' : List String}
    (h : r.Sure P rs outputs inner) (hnodup : inner.Nodup) (hperm : inner.Perm inner')
    (hrs : ∀ i, rs'.get i = rs.get i) {cells : Cells} (hfills : r.Fills rs outputs inner cells) :
    r.Fills rs' outputs inner' cells := by
  have hpoints (indices : List String) : rs'.points indices = rs.points indices :=
    Ranges.points_congr fun i _ => by rw [hrs]
  have hgiven {c : Env} (hc : c ∈ rs.points outputs) : r.given rs' inner' c = r.given rs inner c := by
    rw [given, given, h.value_perm hc hnodup hperm, value, value, hpoints]
  rw [Fills, hpoints outputs]
  refine ⟨fun c hc => ?_, hfills.2⟩
  rw [hgiven hc]
  exact hfills.1 c hc

end Rule.Sure

namespace Kernel

/-- The bounds of an index, if they are written down. -/
def bound (k : Kernel) (i : String) : Option Axis :=
  (k.analysis.catalog.get? i).filter Axis.isExplicit

/-- Kernels that differ at most in the order of the reduction indices, in which of them are unrolled,
in the tiling clause, and in where things are written. -/
structure SameTask (k k' : Kernel) : Prop where
  target : k.statement.target.indices.map Expr.bare = k'.statement.target.indices.map Expr.bare
  rhs : k.statement.rhs.bare = k'.statement.rhs.bare
  op : k.analysis.reduction.op = k'.analysis.reduction.op
  init : k.analysis.reduction.init.map Expr.bare = k'.analysis.reduction.init.map Expr.bare
  bound : ∀ i, (k.bound i).map Axis.bare = (k'.bound i).map Axis.bare

namespace Planned

variable {k : Kernel} {read : Reduction.Partial} (h : k.Planned read)

include h

theorem reduction_eq :
    k.reduction = if k.analysis.reduction.order = [] then none else some k.analysis.reduction := by
  rcases h.body_eq with ⟨horder, hbody⟩ | ⟨horder, loops, -, hbody⟩
  · rw [reduction, hbody, if_pos horder]
  · rw [reduction, hbody, if_neg horder]

/-- The written bounds of an index are those of the reduction clause. -/
theorem bound_eq (hs : k.statement.allocates = true) (i : String) : k.bound i = read.bounds.lookup i := by
  have hsound := (Reduction.sound_of_read h.clause).1
  have hcatalog : k.analysis.catalog =
      (Catalog.empty.bindAll read.bounds).bindAll k.analysis.collection.axes := by
    rw [h.catalog, if_pos hs]
    rfl
  rw [bound, hcatalog, Catalog.bindAll_of_nodup hsound.bounds_nodup]
  cases hi : read.bounds.lookup i with
  | some axis =>
    rw [Catalog.get?_bindAll (c := ⟨read.bounds, []⟩) hi, Option.filter_some,
      if_pos (hsound.bounds_explicit _ (Env.mem_of_lookup hi))]
  | none =>
    cases hget : (Catalog.bindAll ⟨read.bounds, []⟩ k.analysis.collection.axes).get? i with
    | none => rfl
    | some axis =>
      rcases Catalog.get?_bindAll_cases hget with hget | hmem
      · exact absurd (hi.symm.trans hget) (by simp)
      · obtain ⟨r, -, hr⟩ := List.mem_flatMap.1 hmem
        obtain ⟨d, rfl⟩ := Reference.eq_array_of_mem_axesFrom hr
        rfl

/-- The sample exists if no range is empty. -/
theorem sample_eq_ok_iff {rs : Ranges} {env : Env} : k.sample rs = .ok env ↔
    (∀ i ∈ k.outputIndices ++ k.analysis.reduction.order, (rs.get i).isEmpty = false) ∧
      env = (k.outputIndices ++ k.analysis.reduction.order).map fun i => (i, (rs.get i).element 0) := by
  obtain ⟨outer, inner, hsymbols, ho, hi, -, -⟩ := h.symbols_eq
  rw [← ho, ← hi, ← List.map_append, ← hsymbols, sample]
  generalize k.symbols = symbols
  induction symbols generalizing env with
  | nil =>
    change Except.ok [] = Except.ok env ↔ _
    exact ⟨fun h => ⟨by simp, (Except.ok.inj h).symm⟩, fun h => by rw [h.2]; rfl⟩
  | cons s symbols ih =>
    rw [List.mapM_cons, List.map_cons, List.map_cons, List.forall_mem_cons]
    dsimp only
    cases hempty : (rs.get s.name).isEmpty with
    | true =>
      rw [if_pos rfl]
      constructor
      · intro h
        cases h
      · intro h
        cases h.1.1
    | false =>
      rw [if_neg Bool.false_ne_true]
      constructor
      · intro hmap
        obtain ⟨q, hq, hrest⟩ := bind_eq_ok hmap
        obtain ⟨env', henv', hpair⟩ := bind_eq_ok hrest
        obtain ⟨hall, rfl⟩ := ih.1 henv'
        cases hq
        cases hpair
        exact ⟨⟨rfl, hall⟩, rfl⟩
      · rintro ⟨⟨-, hall⟩, rfl⟩
        dsimp only at ih
        rw [ih.2 ⟨hall, rfl⟩]
        rfl

end Planned

theorem position_bare (env : Env) (e : Expr) : position env e.bare = position env e := by
  cases e with
  | number l _ => cases l <;> rfl
  | _ => rfl

theorem zeroOrOne?_bare (e : Expr) : zeroOrOne? e.bare = zeroOrOne? e := by
  cases e with
  | number l _ => cases l <;> rfl
  | _ => rfl

namespace SameTask

variable {k k' : Kernel}

theorem symm (h : k.SameTask k') : k'.SameTask k :=
  ⟨h.target.symm, h.rhs.symm, h.op.symm, h.init.symm, fun i => (h.bound i).symm⟩

variable (h : k.SameTask k')

include h

theorem outputIndices_eq : k.outputIndices = k'.outputIndices := by
  change (symbolNames k.statement.target.indices).eraseDups =
    (symbolNames k'.statement.target.indices).eraseDups
  rw [← Expr.symbolNames_bare, h.target, Expr.symbolNames_bare]

theorem positions_eq (env : Env) : k.positions env = k'.positions env := by
  have hmap (es : List Expr) : es.map (position env) = (es.map Expr.bare).map (position env) := by
    rw [List.map_map]
    exact List.map_congr_left fun e _ => (position_bare env e).symm
  rw [positions, hmap, h.target, ← hmap, positions]

theorem newShape_eq {rs rs' : Ranges} (hrs : ∀ i, rs'.get i = rs.get i) :
    k'.newShape rs' = k.newShape rs := by
  have hmap (rs : Ranges) (es : List Expr) : es.map (extent rs) = (es.map Expr.bare).map (extent rs) := by
    rw [List.map_map]
    refine List.map_congr_left fun e _ => ?_
    cases e <;> rfl
  have hextent (e : Expr) : extent rs' e = extent rs e := by
    cases e <;> simp only [extent, hrs]
  change k'.statement.target.indices.map (extent rs') = k.statement.target.indices.map (extent rs)
  rw [hmap, ← h.target, ← hmap]
  exact List.map_congr_left fun e _ => hextent e

variable {read read' : Reduction.Partial} (hk : k.Planned read) (hk' : k'.Planned read')

include hk hk'

theorem collection_indices_eq : k.analysis.collection.indices = k'.analysis.collection.indices := by
  rw [hk.collection, hk'.collection, ← Collection.indices_bare, h.rhs, Collection.indices_bare]

theorem indexNames_eq : k.analysis.indexNames = k'.analysis.indexNames := by
  change (k.outputIndices ++ _).eraseDups = (k'.outputIndices ++ _).eraseDups
  rw [h.outputIndices_eq, h.collection_indices_eq hk hk']

theorem order_perm : k.analysis.reduction.order.Perm k'.analysis.reduction.order := by
  have himplied : k.analysis.impliedReduction = k'.analysis.impliedReduction := by
    change k.analysis.collection.indices.eraseDups.filter (fun i => !k.outputIndices.contains i) =
      k'.analysis.collection.indices.eraseDups.filter fun i => !k'.outputIndices.contains i
    rw [h.collection_indices_eq hk hk', h.outputIndices_eq]
  exact hk.order_perm.trans (himplied ▸ hk'.order_perm.symm)

theorem resolve_eq (scope : Scope) : k.statement.rhs.resolve scope k.analysis.indexNames =
    k'.statement.rhs.resolve scope k'.analysis.indexNames := by
  rw [← Expr.resolve_bare, h.rhs, Expr.resolve_bare, h.indexNames_eq hk hk']

theorem element_eq (scope : Scope) (env : Env) : k.element scope env = k'.element scope env := by
  simp only [element, Expr.eval, h.resolve_eq hk hk' scope]

theorem initial_eq (scope : Scope) (t : ElemType) :
    k.analysis.reduction.initial t (Expr.eval scope k.analysis.indexNames []) =
      k'.analysis.reduction.initial t (Expr.eval scope k'.analysis.indexNames []) := by
  have hinit := h.init
  rw [h.indexNames_eq hk hk', Reduction.initial, Reduction.initial, h.op]
  cases he : k.analysis.reduction.init with
  | none =>
    cases he' : k'.analysis.reduction.init with
    | none => rfl
    | some e' => simp [he, he'] at hinit
  | some e =>
    cases he' : k'.analysis.reduction.init with
    | none => simp [he, he'] at hinit
    | some e' =>
      have hbare : e.bare = e'.bare := by simpa [he, he'] using hinit
      dsimp only
      rw [← zeroOrOne?_bare, hbare, zeroOrOne?_bare, ← Expr.eval_bare, hbare, Expr.eval_bare]

theorem start_eq (scope : Scope) (t : ElemType) : k.start scope t = k'.start scope t := by
  have horder : k.analysis.reduction.order = [] ↔ k'.analysis.reduction.order = [] := by
    have hperm := h.order_perm hk hk'
    exact ⟨fun e => by rw [e] at hperm; exact hperm.nil_eq.symm,
      fun e => by rw [e] at hperm; exact hperm.eq_nil⟩
  rw [start, start, reducer, reducer, hk.reduction_eq, hk'.reduction_eq]
  by_cases hnil : k.analysis.reduction.order = []
  · rw [if_pos hnil, if_pos (horder.1 hnil)]
  · rw [if_neg hnil, if_neg fun e => hnil (horder.2 e)]
    simp only [h.op, h.initial_eq hk hk']

theorem catalog_alike (hs : k.statement.allocates = true) (hs' : k'.statement.allocates = true) :
    k.analysis.catalog.Alike k'.analysis.catalog := by
  have hsound := (Reduction.sound_of_read hk.clause).1
  have hsound' := (Reduction.sound_of_read hk'.clause).1
  rw [hk.catalog, hk'.catalog, if_pos hs, if_pos hs', Catalog.bindAll_of_nodup hsound.bounds_nodup,
    Catalog.bindAll_of_nodup hsound'.bounds_nodup]
  have hbounds : Catalog.Alike ⟨read.bounds, []⟩ ⟨read'.bounds, []⟩ := by
    refine ⟨fun i => ?_, fun _ => rfl⟩
    have hbound := h.bound i
    rwa [hk.bound_eq hs, hk'.bound_eq hs'] at hbound
  refine hbounds.bindAll ?_
  rw [hk.collection, hk'.collection, ← Collection.axes_bare, h.rhs, Collection.axes_bare]

/-- What is reduced in one kernel is reduced in the other. -/
theorem reduction_eq_some {r' : Reduction} (hr' : k'.reduction = some r') :
    k.reduction = some k.analysis.reduction ∧ r' = k'.analysis.reduction := by
  rw [hk'.reduction_eq] at hr'
  split at hr'
  · cases hr'
  · rename_i hne
    refine ⟨?_, (Option.some.inj hr').symm⟩
    rw [hk.reduction_eq, if_neg fun e => hne ?_]
    have hperm := h.order_perm hk hk'
    rw [e] at hperm
    exact hperm.nil_eq.symm

theorem tame {scope : Scope} {w : World} {P : Look → Prop} {g : Look → Look → Except Error Look}
    (ht : k.Tame scope w P g) : k'.Tame scope w P g where
  element env := by
    rw [← h.element_eq hk hk']
    exact ht.element env
  value env := by
    rw [← h.element_eq hk hk']
    exact ht.value env
  initial r t hr := by
    obtain ⟨hr₁, rfl⟩ := h.reduction_eq_some hk hk' hr
    rw [← h.initial_eq hk hk']
    exact ht.initial _ t hr₁
  start r t env x l hr := by
    obtain ⟨hr₁, rfl⟩ := h.reduction_eq_some hk hk' hr
    rw [← h.initial_eq hk hk', ← h.element_eq hk hk']
    exact ht.start _ t env x l hr₁
  closed := ht.closed
  combine r f hr := by
    obtain ⟨hr₁, rfl⟩ := h.reduction_eq_some hk hk' hr
    rw [← h.op]
    exact ht.combine _ f hr₁

theorem still (hs : k.statement.allocates = true) (hs' : k'.statement.allocates = true) {scope : Scope}
    (hstill : k.Still scope) : k'.Still scope where
  catalog := by
    rw [← h.indexNames_eq hk hk']
    exact (h.catalog_alike hk hk' hs hs').still hk'.sound_catalog hstill.catalog
  element env := by
    rw [← h.element_eq hk hk']
    exact hstill.element env
  initial r t hr := by
    obtain ⟨hr₁, rfl⟩ := h.reduction_eq_some hk hk' hr
    rw [← h.initial_eq hk hk']
    exact hstill.initial _ t hr₁
  combine r f hr hf := by
    obtain ⟨hr₁, rfl⟩ := h.reduction_eq_some hk hk' hr
    rw [← h.op] at hf
    exact hstill.combine _ f hr₁ hf

variable (hs : k.statement.allocates = true) (hs' : k'.statement.allocates = true) {scope : Scope}
  (still : k.Still scope) {w : World}
  (hsteady : k.analysis.catalog.Steady scope k.analysis.indexNames w)

include hs hs' still hsteady

/-- Both kernels find the same ranges. -/
theorem exists_ranges {rs : Ranges} {w₁ : World}
    (hrs : exec (k.analysis.catalog.ranges scope k.analysis.indexNames) w = (.ok rs, w₁)) :
    ∃ rs' w₁', exec (k'.analysis.catalog.ranges scope k'.analysis.indexNames) w = (.ok rs', w₁') ∧
      ∀ i, rs'.get i = rs.get i := by
  rw [← h.indexNames_eq hk hk']
  exact (h.catalog_alike hk hk' hs hs').exists_ranges hk'.sound_catalog still.catalog hsteady hrs

omit still in
theorem steady : k'.analysis.catalog.Steady scope k'.analysis.indexNames w := by
  rw [← h.indexNames_eq hk hk']
  exact (h.catalog_alike hk hk' hs hs').steady hk'.sound_catalog hsteady

theorem exchangeable {P : Look → Prop} {g : Look → Look → Except Error Look}
    (hx : k.Exchangeable scope w P g) : k'.Exchangeable scope w P g := by
  refine ⟨h.tame hk hk' hx.toTame, fun rs' w₁' hrs' env henv => ?_, hx.total, hx.exchange⟩
  obtain ⟨rs, w₁, hrs, hget⟩ := h.symm.exists_ranges hk' hk hs' hs (h.still hk hk' hs hs' still)
    (h.steady hk hk' hs hs' hsteady) hrs'
  rw [← h.element_eq hk hk']
  refine hx.never rs w₁ hrs env ⟨fun i v hi => ?_, fun i hi => henv.bound i ?_⟩
  · rw [hget]
    exact henv.within i v hi
  · rw [← h.outputIndices_eq, List.mem_append, ← (h.order_perm hk hk').mem_iff]
    exact List.mem_append.1 hi

/-- What is foreseen of one kernel is foreseen of the other. -/
theorem forecast {rs : Ranges} {t : ElemType} {init : Look} (hf : k.Forecast scope w rs t init) :
    ∃ rs', (∀ i, rs'.get i = rs.get i) ∧ k'.Forecast scope w rs' t init := by
  obtain ⟨w₁, hrs⟩ := hf.ranges
  obtain ⟨rs', w₁', hrs', hget⟩ := h.exists_ranges hk hk' hs hs' still hsteady hrs
  obtain ⟨code, hcode⟩ := hf.code
  obtain ⟨env, l, henv, hl, htyped⟩ := hf.sample
  refine ⟨rs', hget, ⟨w₁', hrs'⟩, ⟨code, by rw [← h.resolve_eq hk hk', hcode]⟩, ?_, ?_⟩
  · obtain ⟨hne, rfl⟩ := hk.sample_eq_ok_iff.1 henv
    have hperm : (k.outputIndices ++ k.analysis.reduction.order).Perm
        (k'.outputIndices ++ k'.analysis.reduction.order) := by
      rw [h.outputIndices_eq]
      exact (h.order_perm hk hk').append_left _
    refine ⟨_, l, hk'.sample_eq_ok_iff.2 ⟨fun i hi => ?_, rfl⟩, ?_, htyped⟩
    · rw [hget]
      exact hne i (hperm.mem_iff.2 hi)
    · rw [← h.element_eq hk hk', ← hl, element, element]
      refine congrArg (outcome · w) (Expr.eval_congr (fun i => ?_) _)
      simp only [hget]
      refine lookup_eq_of_perm (hperm.symm.map _) ?_ i
      rw [List.map_map]
      exact (List.map_id _).symm ▸ hk'.lays.nodup
  · rw [← h.start_eq hk hk', hf.start]

variable {P : Look → Prop} {g : Look → Look → Except Error Look} (hx : k.Exchangeable scope w P g)

include hx

omit hs hs' still hsteady in
/-- What the cells of one kernel are given fills those of the other. -/
theorem fills {rs rs' : Ranges} (hget : ∀ i, rs'.get i = rs.get i) {t : ElemType} {init : Look}
    (hf : k.Forecast scope w rs t init) {cells : Cells}
    (hfills : (k.rule scope w g t init).Fills rs k.outputIndices k.analysis.reduction.order cells) :
    (k'.rule scope w g t init).Fills rs' k'.outputIndices k'.analysis.reduction.order cells := by
  have hrule : k'.rule scope w g t init = k.rule scope w g t init := by
    simp only [rule, h.element_eq hk hk']
  rw [hrule, ← h.outputIndices_eq]
  exact (hx.sure hk hf).fills_of_perm hk.nodup_order (h.order_perm hk hk') hget hfills

/-- If one kernel returns, the other does. -/
theorem exists_run {out : Value} {u : World} (hrun : exec (k.run scope) w = (.ok out, u)) :
    ∃ out' u', exec (k'.run scope) w = (.ok out', u') := by
  obtain ⟨rs, a, init, w', cells, hf, -, -, hfills, -⟩ := fills_of_run hk still hs hx.toTame (hx.served hk) hrun
  obtain ⟨rs', hget, hf'⟩ := h.forecast hk hk' hs hs' still hsteady hf
  have hx' := h.exchangeable hk hk' hs hs' still hsteady hx
  exact Kernel.exists_run hk' (h.still hk hk' hs hs' still) hs' hx'.toTame (hx'.served hk') hf' (h.fills hk hk' hx hget hf hfills)

/-- If both return, their arrays look the same. -/
theorem look_eq {out out' : Value} {u u' : World} (hrun : exec (k.run scope) w = (.ok out, u))
    (hrun' : exec (k'.run scope) w = (.ok out', u')) : out.look u.heap = out'.look u'.heap := by
  have hx' := h.exchangeable hk hk' hs hs' still hsteady hx
  obtain ⟨rs, a, init, w₁, cells, hf, rfl, hfresh, hfills, htracks⟩ := fills_of_run hk still hs hx.toTame (hx.served hk) hrun
  obtain ⟨rs', a', init', w₁', cells', hf', rfl, hfresh', hfills', htracks'⟩ :=
    fills_of_run hk' (h.still hk hk' hs hs' still) hs' hx'.toTame (hx'.served hk') hrun'
  obtain ⟨rs'', hget, hf''⟩ := h.forecast hk hk' hs hs' still hsteady hf
  obtain ⟨rfl, htype, rfl⟩ := hf''.unique hf'
  rw [← htype] at hfills'
  obtain rfl := (h.fills hk hk' hx hget hf hfills).unique hfills'
  rw [h.newShape_eq hget] at hfresh'
  refine htracks.look_eq htracks' hfresh hfresh' htype fun env => ⟨?_, h.positions_eq env, ?_⟩
  · rw [h.outputIndices_eq]
    exact ⟨fun henv => ⟨fun i v hi => by rw [hget]; exact henv.within i v hi, henv.bound⟩,
      fun henv => ⟨fun i v hi => by rw [← hget]; exact henv.within i v hi, henv.bound⟩⟩
  · rw [h.outputIndices_eq]

end SameTask

/-- For all directives of one task: suppose that evaluation, reducer and start value are pure, that
evaluation and reducer never fail, and that values may be taken in any order. Suppose also that the axes,
with the bounds that are written, change nothing when they are evaluated and come to the same range each
time. Then one kernel returns if and only if the other does, and both arrays look the same. -/
theorem run_schedule_independent {config config' : Config} {source source' : String} {k k' : Kernel}
    (hk : Compiles config source k) (hk' : Compiles config' source' k')
    (hs : k.statement.allocates = true) (hs' : k'.statement.allocates = true) (h : k.SameTask k')
    {scope : Scope} (still : k.Still scope) {w : World}
    (hsteady : k.analysis.catalog.Steady scope k.analysis.indexNames w) {P : Look → Prop}
    {g : Look → Look → Except Error Look} (hx : k.Exchangeable scope w P g) :
    ((∃ out u, exec (k.call scope) w = (.ok out, u)) ↔ ∃ out' u', exec (k'.call scope) w = (.ok out', u')) ∧
    ∀ out u out' u', exec (k.call scope) w = (.ok out, u) → exec (k'.call scope) w = (.ok out', u') →
      out.look u.heap = out'.look u'.heap := by
  obtain ⟨-, read, hp⟩ := hk.planned
  obtain ⟨-, read', hp'⟩ := hk'.planned
  unfold call
  cases scope.bindings.any (·.1 == ownName) with
  | true => simp
  | false =>
    have hsteady' := h.steady hp hp' hs hs' hsteady
    have still' := h.still hp hp' hs hs' still
    have hx' := h.exchangeable hp hp' hs hs' still hsteady hx
    rw [if_neg Bool.false_ne_true, if_neg Bool.false_ne_true]
    refine ⟨⟨fun ⟨out, u, hrun⟩ => ?_, fun ⟨out', u', hrun'⟩ => ?_⟩, fun out u out' u' hrun hrun' => ?_⟩
    · exact h.exists_run hp hp' hs hs' still hsteady hx hrun
    · exact h.symm.exists_run hp' hp hs' hs still' hsteady' hx' hrun'
    · exact h.look_eq hp hp' hs hs' still hsteady hx hrun hrun'

theorem map_bare_of_names {es : List Expr} {indices : List String}
    (h : es.map Expr.name? = indices.map some) : es.map Expr.bare = indices.map (.name · none) := by
  induction indices generalizing es with
  | nil => simpa using h
  | cons i indices ih =>
    obtain _ | ⟨e, es⟩ := es
    · simp at h
    · simp only [List.map_cons, List.cons.injEq] at h
      obtain ⟨pos, rfl⟩ := Expr.eq_name_of_name? h.1
      rw [List.map_cons, List.map_cons, ih h.2]
      rfl

theorem bare_of_reads {e : Expr} {name : String} {indices : List String} (h : e.Reads name indices) :
    e.bare = .index (.name name none) (indices.map (.name · none)) none := by
  obtain ⟨pos, keys, pos', rfl, hkeys⟩ := h
  rw [Expr.bare, Expr.bareAll_eq, map_bare_of_names hkeys, Expr.bare]

theorem bound_eq_none {k : Kernel} (h : k.analysis.catalog.axes.all (!·.2.isExplicit) = true) (i : String) :
    k.bound i = none := by
  rw [bound, Option.filter_eq_none_iff]
  intro axis haxis hexplicit
  simpa [hexplicit] using List.all_eq_true.1 h _ (Env.mem_of_lookup haxis)

/-- Sums of the same cells within the same bounds differ in their directives only. -/
theorem sameTask_of_addsUp {k k' : Kernel} {outputs indices : List String} {name : String}
    (h : k.addsUp outputs name indices = true) (h' : k'.addsUp outputs name indices = true)
    (hbound : ∀ i, (k.bound i).map Axis.bare = (k'.bound i).map Axis.bare) : k.SameTask k' := by
  simp only [addsUp, Bool.and_eq_true, beq_iff_eq, Option.isNone_iff_eq_none] at h h'
  obtain ⟨⟨⟨⟨⟨-, htarget⟩, hreads⟩, -⟩, hop⟩, hinit⟩ := h
  obtain ⟨⟨⟨⟨⟨-, htarget'⟩, hreads'⟩, -⟩, hop'⟩, hinit'⟩ := h'
  refine ⟨?_, ?_, by rw [hop, hop'], by rw [hinit, hinit'], hbound⟩
  · rw [map_bare_of_names htarget, map_bare_of_names htarget']
  · rw [bare_of_reads (Expr.reads_of_isReading hreads), bare_of_reads (Expr.reads_of_isReading hreads')]

theorem sameTask_of_isSumOf {k k' : Kernel} {outputs indices : List String} {name : String}
    (h : k.isSumOf outputs name indices = true) (h' : k'.isSumOf outputs name indices = true) :
    k.SameTask k' := by
  refine sameTask_of_addsUp (addsUp_of_isSumOf h) (addsUp_of_isSumOf h') fun i => ?_
  simp only [isSumOf, Bool.and_eq_true] at h h'
  rw [bound_eq_none h.2, bound_eq_none h'.2]

/-- Three rows of three columns of two numbers. -/
def cubes : Scope := { bindings := [("X", .array ⟨0, .int .int8, 0, [3, 3, 2], [6, 2, 1]⟩)] }

def cubesWorld : World :=
  { heap := #[(List.range 18).toArray.map fun n : Nat => .scalar (.int .int8 (7 * n))] }

theorem cells_cubes : ∀ v ∈ (cubesWorld.heap.block 0).toList, ∃ s, v = .scalar s := by
  simp [cubesWorld, Heap.block]

theorem sums_cubes {k : Kernel} {outputs : List String}
    (h : k.isSumOf outputs "X" ["i", "j", "l"] = true) :
    k.Sums cubes cubesWorld .int8 ⟨0, .int .int8, 0, [3, 3, 2], [6, 2, 1]⟩ := by
  refine sums_of_addsUp (addsUp_of_isSumOf h) rfl rfl ⟨by decide, by decide +kernel, by decide +kernel⟩ rfl fun v hv => ?_
  simp only [cubesWorld, Heap.block] at hv
  obtain ⟨n, -, rfl⟩ : ∃ n : Nat, n < 18 ∧ .scalar (.int .int8 (7 * n)) = v := by simpa using hv
  exact ⟨_, rfl⟩

theorem quiet_cubes : cubes.Quiet := fun _ _ => Run.keeps_fail _

/-- Kernels that add up the cubes return, because the one with plain loops does. -/
theorem exists_run_cubes {config : Config} {source : String} {k : Kernel} (hk : Compiles config source k)
    (hsum : k.isSumOf ["i"] "X" ["i", "j", "l"] = true) :
    ∃ out w', exec (k.run cubes) cubesWorld = (.ok out, w') := by
  obtain ⟨k', hk', hcheck⟩ := exists_compiles {} "Z[i] := X[i, j, l]"
    (fun k => k.isSumOf ["i"] "X" ["i", "j", "l"] && k.analysis.catalog.isPlain cubes k.analysis.indexNames &&
      (exec (k.run cubes) cubesWorld).1.isOk) (by decide +kernel)
  simp only [Bool.and_eq_true] at hcheck
  obtain ⟨⟨hsum', hplain⟩, hok⟩ := hcheck
  obtain ⟨out', u, hrun'⟩ := Run.exists_of_isOk hok
  obtain ⟨-, read, hp⟩ := hk.planned
  obtain ⟨-, read', hp'⟩ := hk'.planned
  have hsteady := Catalog.steady_of_isPlain hplain cubesWorld
  exact (sameTask_of_isSumOf hsum' hsum).exists_run hp' hp (allocates_of_isSumOf hsum')
    (allocates_of_isSumOf hsum) (still_of_quiet quiet_cubes k') hsteady
    ((sums_cubes hsum').exchangeable hp' (Catalog.still_of_quiet quiet_cubes _ _) hsteady) hrun'

/-- Blocks and unrolled steps in another order give the sums that plain loops give. -/
theorem run_schedule_independent_cubes : ∃ k k',
    Compiles {} "Z[i] := X[i, j, l]" k ∧
    Compiles ⟨true, some 2⟩ "Z[i] := X[i, j, l] (+, l, unroll(2), j) \x7btile(2), i, l\x7d" k' ∧
    k.SameTask k' ∧ ∃ out u out' u', exec (k.call cubes) cubesWorld = (.ok out, u) ∧
      exec (k'.call cubes) cubesWorld = (.ok out', u') ∧ out.look u.heap = out'.look u'.heap := by
  obtain ⟨k, hk, hcheck⟩ := exists_compiles {} "Z[i] := X[i, j, l]"
    (fun k => k.isSumOf ["i"] "X" ["i", "j", "l"] && k.analysis.catalog.isPlain cubes k.analysis.indexNames &&
      (exec (k.call cubes) cubesWorld).1.isOk) (by decide +kernel)
  obtain ⟨k', hk', hsum'⟩ := exists_compiles ⟨true, some 2⟩
    "Z[i] := X[i, j, l] (+, l, unroll(2), j) \x7btile(2), i, l\x7d"
    (fun k => k.isSumOf ["i"] "X" ["i", "j", "l"]) (by decide +kernel)
  simp only [Bool.and_eq_true] at hcheck
  obtain ⟨⟨hsum, hplain⟩, hok⟩ := hcheck
  obtain ⟨out, u, hcall⟩ := Run.exists_of_isOk hok
  have hsteady := Catalog.steady_of_isPlain hplain cubesWorld
  have hsame := sameTask_of_isSumOf hsum hsum'
  obtain ⟨-, read, hp⟩ := hk.planned
  obtain ⟨hreturns, hlooks⟩ := run_schedule_independent hk hk' (allocates_of_isSumOf hsum)
    (allocates_of_isSumOf hsum') hsame (still_of_quiet quiet_cubes k) hsteady
    ((sums_cubes hsum).exchangeable hp (Catalog.still_of_quiet quiet_cubes _ _) hsteady)
  obtain ⟨out', u', hcall'⟩ := hreturns.1 ⟨out, u, hcall⟩
  exact ⟨k, k', hk, hk', hsame, out, u, out', u', hcall, hcall', hlooks out u out' u' hcall hcall'⟩

/-- One row of three columns of four numbers, and a number that `add(N, 1, N)` makes larger by one. -/
def counting : Scope :=
  Scope.withPlacings { bindings := [("N", .array ⟨0, .int .int64, 0, [], []⟩),
    ("X", .array ⟨1, .int .int64, 0, [1, 3, 4], [12, 4, 1]⟩)] } [("add", .add)]

def countingWorld : World :=
  { heap := #[#[.scalar (.int .int64 (-1))], (List.range 12).toArray.map fun n : Nat => .scalar (.int .int64 (n + 1))] }

/-- Whether an axis ends at `add(N, 1, N)`. -/
def isCount : Axis → Bool
  | .between none (.call "add" [.name "N" _, .number (.int 1) _, .name "N" _] _) => true
  | _ => false

theorem bare_eq_of_isCount {a b : Axis} (ha : isCount a = true) (hb : isCount b = true) : a.bare = b.bare := by
  unfold isCount at ha hb
  split at ha
  · split at hb
    · rfl
    · cases hb
  · cases ha

/-- Whether the written bounds are counts, for `j` and `l`. -/
def isCounted (k : Kernel) : Bool :=
  k.analysis.catalog.axes.all (fun a => (a.1 == "j" || a.1 == "l") && isCount a.2 || !a.2.isExplicit) &&
    (k.bound "j").isSome && (k.bound "l").isSome

theorem bound_of_isCounted {k : Kernel} (h : k.isCounted = true) (i : String) :
    (i = "j" ∨ i = "l") ∧ (∃ a, k.bound i = some a ∧ isCount a = true) ∨
      ¬ (i = "j" ∨ i = "l") ∧ k.bound i = none := by
  simp only [isCounted, Bool.and_eq_true] at h
  obtain ⟨⟨haxes, hj⟩, hl⟩ := h
  have hbound (a : Axis) (ha : k.bound i = some a) : (i = "j" ∨ i = "l") ∧ isCount a = true := by
    obtain ⟨ha, hexplicit⟩ := Option.filter_eq_some_iff.1 ha
    simpa [hexplicit] using List.all_eq_true.1 haxes _ (Env.mem_of_lookup ha)
  cases hi : k.bound i with
  | none =>
    refine .inr ⟨?_, rfl⟩
    rintro (rfl | rfl)
    · simp [hi] at hj
    · simp [hi] at hl
  | some a => exact .inl ⟨(hbound a hi).1, a, rfl, (hbound a hi).2⟩

theorem map_bare_bound_of_isCounted {k k' : Kernel} (h : k.isCounted = true) (h' : k'.isCounted = true)
    (i : String) : (k.bound i).map Axis.bare = (k'.bound i).map Axis.bare := by
  rcases bound_of_isCounted h i with ⟨hi, a, ha, hcount⟩ | ⟨hi, ha⟩
  all_goals rcases bound_of_isCounted h' i with ⟨hi', a', ha', hcount'⟩ | ⟨hi', ha'⟩
  · rw [ha, ha', Option.map_some, Option.map_some, bare_eq_of_isCount hcount hcount']
  · exact absurd hi hi'
  · exact absurd hi' hi
  · rw [ha, ha']

theorem sums_counting {k : Kernel} (h : k.addsUp ["i"] "X" ["i", "j", "l"] = true) :
    k.Sums counting countingWorld .int64 ⟨1, .int .int64, 0, [1, 3, 4], [12, 4, 1]⟩ := by
  refine sums_of_addsUp h rfl rfl ⟨by decide, by decide +kernel, by decide +kernel⟩ rfl fun v hv => ?_
  simp only [countingWorld, Heap.block] at hv
  obtain ⟨n, -, rfl⟩ : ∃ n : Nat, n < 12 ∧ .scalar (.int .int64 (n + 1)) = v := by simpa using hv
  exact ⟨_, rfl⟩

/-- Whether a value is an integer of 64 bits, and which. -/
def isInt64 (n : Int) : Value → Bool
  | .scalar (.int .int64 m) => m == n
  | _ => false

theorem eq_of_isInt64 {n : Int} {v : Value} (h : isInt64 n v = true) : v = .scalar (.int .int64 n) := by
  unfold isInt64 at h
  split at h
  · rw [beq_iff_eq.1 h]
  · cases h

/-- Bounds that change what the others come to. In another order they give other ranges to the same
indices, all within the array, and the sums differ. -/
theorem call_with_counting_bounds : ∃ k k',
    Compiles {} "A[i] := X[i, j, l] (+, j <= add(N, 1, N), l <= add(N, 1, N))" k ∧
    Compiles {} "A[i] := X[i, j, l] (+, l <= add(N, 1, N), j <= add(N, 1, N))" k' ∧ k.SameTask k' ∧
    k.Exchangeable counting countingWorld (∃ n, · = IntType.int64.look n) IntType.int64.sum ∧
    (exec (k.call counting >>= (·.get [.int 0])) countingWorld).1 = .ok (.scalar (.int .int64 3)) ∧
    (exec (k'.call counting >>= (·.get [.int 0])) countingWorld).1 = .ok (.scalar (.int .int64 6)) := by
  obtain ⟨k, hk, hcheck⟩ := exists_compiles {} "A[i] := X[i, j, l] (+, j <= add(N, 1, N), l <= add(N, 1, N))"
    (fun k => k.addsUp ["i"] "X" ["i", "j", "l"] && k.isCounted &&
      ((exec (k.analysis.catalog.ranges counting k.analysis.indexNames) countingWorld).1.toOption.any fun rs =>
        ∀ p ∈ ["i", "j", "l"].zip ([1, 3, 4] : List Nat), ∀ v ∈ (rs.get p.1).toList, (0 : Int) ≤ v ∧ v < p.2) &&
      (exec (k.call counting >>= (·.get [.int 0])) countingWorld).1.toOption.any (isInt64 3)) (by decide +kernel)
  obtain ⟨k', hk', hcheck'⟩ := exists_compiles {} "A[i] := X[i, j, l] (+, l <= add(N, 1, N), j <= add(N, 1, N))"
    (fun k => k.addsUp ["i"] "X" ["i", "j", "l"] && k.isCounted &&
      (exec (k.call counting >>= (·.get [.int 0])) countingWorld).1.toOption.any (isInt64 6)) (by decide +kernel)
  simp only [Bool.and_eq_true] at hcheck hcheck'
  obtain ⟨⟨⟨hsum, hcounted⟩, hranges⟩, hcell⟩ := hcheck
  obtain ⟨⟨hsum', hcounted'⟩, hcell'⟩ := hcheck'
  obtain ⟨rs, w₁, hrs, hwithin⟩ := Run.exists_of_any hranges
  obtain ⟨v, u, hv, hthree⟩ := Run.exists_of_any hcell
  obtain ⟨v', u', hv', hsix⟩ := Run.exists_of_any hcell'
  obtain rfl := eq_of_isInt64 hthree
  obtain rfl := eq_of_isInt64 hsix
  obtain ⟨-, read, hp⟩ := hk.planned
  refine ⟨k, k', hk, hk', sameTask_of_addsUp hsum hsum' (map_bare_bound_of_isCounted hcounted hcounted'),
    (sums_counting hsum).exchangeable_of_safe hp fun rs' w' hrs' env henv => ?_, by rw [hv], by rw [hv']⟩
  cases hrs.symm.trans hrs'
  have hwithin := of_decide_eq_true hwithin
  simp only [addsUp, Bool.and_eq_true] at hsum
  exact hp.safe_of_reads (Expr.reads_of_isReading hsum.1.1.1.2) rfl rfl hwithin henv

end Kernel
end IndexNotation
