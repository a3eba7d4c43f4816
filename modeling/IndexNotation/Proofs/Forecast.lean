import IndexNotation.Proofs.Tracking
import IndexNotation.Proofs.Totals

/-!
# What a run comes to

A run that makes a new array and evaluates purely is foreseen by the looks of values: whether it
returns, of what type its array is, and what the cells look like. Nothing of that depends on where
in the heap its values are.
-/

namespace IndexNotation

open Run (exec outcome Keeps PureFrom)

namespace Kernel

/-- The start value of the reduction. -/
def start (k : Kernel) (scope : Scope) (t : ElemType) : Run Value :=
  Prod.snd <$> k.reducer scope t

/-- What setting up a run comes to: the ranges `rs`, an array of type `t`, and a start value that
looks like `init`. -/
structure Forecast (k : Kernel) (scope : Scope) (w : World) (rs : Ranges) (t : ElemType) (init : Look) :
    Prop where
  ranges : ∃ w', exec (k.analysis.catalog.ranges scope k.analysis.indexNames) w = (.ok rs, w')
  code : ∃ code, k.statement.rhs.resolve scope k.analysis.indexNames = .ok code
  sample : ∃ env l, k.sample rs = .ok env ∧ outcome (k.element scope env) w = .ok l ∧ l.Typed t
  start : outcome (k.start scope t) w = .ok init

variable {k : Kernel} {scope : Scope} {w w' : World} {P : Look → Prop}
  {g : Look → Look → Except Error Look}

theorem look_none (h h' : Heap) : Value.none.look h = Value.none.look h' :=
  Value.look_congr fun b hb => by cases hb

theorem outcome_start_of_reducer {t : ElemType} {f : Reducer} {init : Value}
    (h : exec (k.reducer scope t) w = (.ok (f, init), w')) :
    outcome (k.start scope t) w = .ok (init.look w'.heap) := by
  refine Run.outcome_ok ?_
  rw [start, Run.exec_map, h]
  rfl

theorem start_eq_ok {t : ElemType} {init : Value} (h : exec (k.start scope t) w = (.ok init, w')) :
    ∃ f, exec (k.reducer scope t) w = (.ok (f, init), w') := by
  rw [start, Run.exec_map] at h
  rcases hr : exec (k.reducer scope t) w with ⟨e | ⟨f, i⟩, u⟩ <;> rw [hr] at h <;> cases h
  exact ⟨f, rfl⟩

/-- The start value is what the reduction says. -/
theorem start_eq_initial {r : Reduction} (hr : k.reduction = some r) {f : Reducer}
    (hf : Reducer.ofName scope r.op = .ok f) (t : ElemType) :
    k.start scope t = r.initial t (Expr.eval scope k.analysis.indexNames []) := by
  simp only [start, reducer, hr, hf, map_bind]
  refine (pure_bind f _).trans ?_
  simp

theorem outcome_start_of_error {r : Reduction} (hr : k.reduction = some r) {e : Error}
    (he : Reducer.ofName scope r.op = .error e) (t : ElemType) (w : World) :
    outcome (k.start scope t) w = .error e := by
  simp only [start, reducer, hr, he]
  rfl

theorem outcome_start_of_none (h : k.reduction = none) (t : ElemType) (w : World) :
    outcome (k.start scope t) w = .ok (Value.none.look w.heap) := by
  simp only [start, reducer, h]
  rfl

/-- The start value is the same whenever it is found. -/
theorem Tame.outcome_start (tame : k.Tame scope w P g) {u : World} (hu : w.Keeps u) (t : ElemType) :
    outcome (k.start scope t) u = outcome (k.start scope t) w := by
  cases hr : k.reduction with
  | none => rw [outcome_start_of_none hr, outcome_start_of_none hr, look_none]
  | some r =>
    cases hf : Reducer.ofName scope r.op with
    | error e => rw [outcome_start_of_error hr hf, outcome_start_of_error hr hf]
    | ok f =>
      rw [start_eq_initial hr hf]
      exact (tame.initial r t hr u hu).1

/-! ## Setting up -/

/-- A new array is made, if the sample has a type. -/
theorem exec_newOutput (k : Kernel) (rs : Ranges) (element : Env → Run Value) {env : Env}
    (henv : k.sample rs = .ok env) {u : World} {v : Value} (hv : exec (element env) w = (.ok v, u))
    {d : Dense} (hd : Dense.ofValue u.heap v = .ok d) :
    exec (k.newOutput rs element) w =
      (.ok (.array ⟨u.heap.size, d.type, 0, k.newShape rs, rowMajor (k.newShape rs)⟩, d.type),
        { u with heap := u.heap.push (List.replicate (cellCount (k.newShape rs)) (blank d.type)).toArray }) := by
  have hread : exec (Dense.read v) u = (.ok d, u) := by
    rw [exec_read, hd]
    rfl
  rw [newOutput, Run.exec_bind_ok (by rw [Run.exec_lift, henv]), Run.exec_bind_ok hv, Run.exec_bind_ok hread]
  rfl

/-- A new array was made because the sample has a type. -/
theorem newOutput_eq_ok {rs : Ranges} {element : Env → Run Value} {r : Value × ElemType}
    (h : exec (k.newOutput rs element) w = (.ok r, w')) :
    ∃ env v u d, k.sample rs = .ok env ∧ exec (element env) w = (.ok v, u) ∧
      Dense.ofValue u.heap v = .ok d := by
  obtain ⟨env, u₁, henv, h⟩ := Run.exec_bind_eq_ok h
  obtain ⟨v, u₂, hv, h⟩ := Run.exec_bind_eq_ok h
  obtain ⟨d, u₃, hd, -⟩ := Run.exec_bind_eq_ok h
  simp only [Run.exec_lift, Prod.mk.injEq] at henv
  obtain ⟨henv, rfl⟩ := henv
  rw [exec_read, Prod.mk.injEq] at hd
  refine ⟨env, v, u₂, d, henv, hv, ?_⟩
  cases hof : Dense.ofValue u₂.heap v with
  | error f => simp [hof, Except.mapError] at hd
  | ok d' => simpa [hof, Except.mapError] using hd.1

/-- What a value of some type looks like has that type. -/
theorem typed_of_read {v : Value} {h : Heap} {d : Dense} (hd : Dense.ofValue h v = .ok d) {t : ElemType}
    (ht : d.type = t) : (v.look h).Typed t := by
  intro h' v' hlook
  rw [Dense.type_congr hlook, hd, ← ht]
  rfl

/-- A new array has the type of a value of the right-hand side. -/
theorem exists_sample_of_prepare (still : k.Still scope) (hs : k.statement.allocates = true) {s : Setup}
    (h : exec (k.prepare scope) w = (.ok s, w')) : ∃ a env v u u' d, s.out = .array a ∧
      k.sample s.ranges = .ok env ∧ w.Keeps u ∧ exec (k.element scope env) u = (.ok v, u') ∧
      Dense.ofValue u'.heap v = .ok d ∧ d.type = a.type := by
  obtain ⟨t, w₁, w₂, w₃, hranges, hcode, hout, -⟩ := prepare_eq_ok h
  rw [makeOutput, if_pos hs] at hout
  obtain ⟨env, v, u, d, henv, hv, hd⟩ := newOutput_eq_ok hout
  rw [exec_newOutput k s.ranges _ henv hv hd] at hout
  obtain ⟨hok, -⟩ := Prod.mk.inj hout
  obtain ⟨hview, -⟩ := Prod.mk.inj (Except.ok.inj hok)
  obtain ⟨hkeeps, -⟩ := still.catalog.resolved hranges
  exact ⟨_, env, v, w₁, u, d, hview.symm, henv, hkeeps, by rw [element_of_resolve hcode, hv], hd, rfl⟩

/-- A run can be set up if its ranges are found, its right-hand side comes to a value of some type at the
first point, and its reducer and start value are found. -/
theorem exists_prepare (still : k.Still scope) (hs : k.statement.allocates = true) {rs : Ranges} {w₁ : World}
    (hranges : exec (k.analysis.catalog.ranges scope k.analysis.indexNames) w = (.ok rs, w₁)) {env : Env}
    (henv : k.sample rs = .ok env) {v : Value} {u : World} (hv : exec (k.element scope env) w₁ = (.ok v, u))
    {d : Dense} (hd : Dense.ofValue u.heap v = .ok d)
    (hreducer : ∀ u, w.Keeps u → ∃ f init u', exec (k.reducer scope d.type) u = (.ok (f, init), u')) :
    ∃ s w', exec (k.prepare scope) w = (.ok s, w') := by
  obtain ⟨code, z, hcode, -⟩ := Run.exec_bind_eq_ok hv
  simp only [Run.exec_lift, Prod.mk.injEq] at hcode
  obtain ⟨hcode, -⟩ := hcode
  rw [element_of_resolve hcode] at hv
  have hmake : exec (k.makeOutput scope rs fun env => code.run scope env) w₁ = _ :=
    (by rw [makeOutput, if_pos hs] : _ = _).trans (exec_newOutput k rs (fun env => code.run scope env) henv hv hd)
  have hmade := k.keeps_makeOutput scope rs (still.code hcode) w₁
  rw [hmake] at hmade
  obtain ⟨hfound, -⟩ := still.catalog.resolved hranges
  obtain ⟨f, init, u', hf⟩ := hreducer _ (hfound.trans hmade)
  rw [prepare, Run.exec_bind_ok hranges, Run.exec_bind_ok (by rw [Run.exec_lift, hcode]),
    Run.exec_bind_ok hmake, Run.exec_bind_ok hf]
  exact ⟨_, _, rfl⟩

/-- A run that has been set up was foreseen. -/
theorem forecast_of_prepare (still : k.Still scope) (tame : k.Tame scope w P g)
    (hs : k.statement.allocates = true) {s : Setup} (h : exec (k.prepare scope) w = (.ok s, w')) :
    ∃ a, s.out = .array a ∧ k.Forecast scope w s.ranges a.type (s.init.look w'.heap) := by
  obtain ⟨a, env, v, u, u', d, hout, henv, hu, hv, hd, htype⟩ := exists_sample_of_prepare still hs h
  obtain ⟨t, w₁, w₂, w₃, hranges, hcode, hmake, hreducer, hheap⟩ := prepare_eq_ok h
  obtain ⟨hk₁, -⟩ := still.catalog.resolved hranges
  have hk₂ := k.keeps_makeOutput scope s.ranges (still.code hcode) w₁
  rw [hmake] at hk₂
  obtain rfl := (makeOutput_eq_ok (still.code hcode) hmake).1 a hout
  refine ⟨a, hout, ⟨w₁, hranges⟩, ⟨s.code, hcode⟩, ⟨env, v.look u'.heap, henv, ?_, typed_of_read hd htype⟩, ?_⟩
  · rw [← (tame.element env u hu).1, Run.outcome_ok hv]
  · rw [← tame.outcome_start (hk₁.trans hk₂)]
    rw [hheap]
    exact outcome_start_of_reducer hreducer

/-- One thing is foreseen. -/
theorem Forecast.unique {rs rs' : Ranges} {t t' : ElemType} {init init' : Look}
    (h : k.Forecast scope w rs t init) (h' : k.Forecast scope w rs' t' init') :
    rs = rs' ∧ t = t' ∧ init = init' := by
  obtain ⟨w₁, hranges⟩ := h.ranges
  obtain ⟨w₁', hranges'⟩ := h'.ranges
  rw [hranges] at hranges'
  cases hranges'
  obtain ⟨env, l, henv, hl, htyped⟩ := h.sample
  obtain ⟨env', l', henv', hl', htyped'⟩ := h'.sample
  cases henv.symm.trans henv'
  cases hl.symm.trans hl'
  obtain ⟨v, u, -, hlook⟩ := Run.outcome_eq_ok hl
  cases (htyped u.heap v hlook).symm.trans (htyped' u.heap v hlook)
  cases h.start.symm.trans h'.start
  exact ⟨rfl, rfl, rfl⟩

/-- What is foreseen can be set up. -/
theorem Forecast.exists_prepare (still : k.Still scope) (tame : k.Tame scope w P g)
    (hs : k.statement.allocates = true) {rs : Ranges} {t : ElemType} {init : Look}
    (h : k.Forecast scope w rs t init) :
    ∃ s w' a, exec (k.prepare scope) w = (.ok s, w') ∧ s.ranges = rs ∧ s.out = .array a ∧ a.type = t ∧
      s.init.look w'.heap = init := by
  obtain ⟨w₁, hranges⟩ := h.ranges
  obtain ⟨env, l, henv, hl, htyped⟩ := h.sample
  obtain ⟨hk₁, -⟩ := still.catalog.resolved hranges
  obtain ⟨v, u, hv, hlook⟩ := Run.outcome_eq_ok ((tame.element env w₁ hk₁).1.trans hl)
  obtain ⟨d, hd, htype⟩ := map_eq_ok (htyped u.heap v hlook)
  have hreducer (u : World) (hu : w.Keeps u) :
      ∃ f init u', exec (k.reducer scope d.type) u = (.ok (f, init), u') := by
    obtain ⟨init', u', hinit, -⟩ := Run.outcome_eq_ok ((tame.outcome_start hu t).trans h.start)
    obtain ⟨f, hf⟩ := start_eq_ok hinit
    exact ⟨f, init', u', by rw [← hf, ← htype]⟩
  obtain ⟨s, w', hprepare⟩ := Kernel.exists_prepare still hs hranges henv hv hd hreducer
  obtain ⟨a, hout, hforecast⟩ := forecast_of_prepare still tame hs hprepare
  obtain ⟨rfl, rfl, rfl⟩ := h.unique hforecast
  exact ⟨s, w', a, hprepare, rfl, hout, rfl, rfl⟩

/-! ## Running -/

theorem Planned.lays {read : Reduction.Partial} (h : k.Planned read) :
    k.plan.Lays k.outputIndices k.analysis.reduction.order where
  outer := h.outer_eq
  body := h.body_eq.imp_right fun ⟨horder, loops, hloops, hbody⟩ => ⟨horder, _, _, loops, hloops, hbody⟩
  nodup := k.nodup_outputIndices.append h.nodup_order fun _ hi hi' => h.notMem_outputs hi' hi
  group _ hg := h.group_sound hg

/-- A run that has been set up to fill a new array. -/
theorem exists_launched {read : Reduction.Partial} (hk : k.Planned read) (still : k.Still scope)
    (hs : k.statement.allocates = true) (helement : ∀ env, PureFrom w (k.element scope env)) {s : Setup}
    (h : exec (k.prepare scope) w = (.ok s, w')) : ∃ a, k.Launched scope w s w' a := by
  have hprepared := still.prepared h
  have hout := hprepared.output
  rw [if_pos hs] at hout
  obtain ⟨a, ha, hfresh⟩ := hout
  obtain ⟨a', env, v, u, u', d, ha', -, hu, hv, hd, htype⟩ := exists_sample_of_prepare still hs h
  cases ha.symm.trans ha'
  have hvalue : outcome (k.element scope env) w = .ok (v.look u'.heap) := by
    rw [← (helement env u hu).1, Run.outcome_ok hv]
  exact ⟨a, ⟨read, hk⟩, still, hprepared, hs, ha, hfresh, ⟨env, _, hvalue, typed_of_read hd htype⟩⟩

/-- The right-hand side and the reducer never fail, and the values of a cell may be taken in any
order: `g` says what comes of taking one more value into an accumulator. -/
structure Exchangeable (k : Kernel) (scope : Scope) (w : World) (P : Look → Prop)
    (g : Look → Look → Except Error Look) : Prop extends k.Tame scope w P g where
  never : ∀ rs w', exec (k.analysis.catalog.ranges scope k.analysis.indexNames) w = (.ok rs, w') →
    ∀ env : Env, env.Covers rs (k.outputIndices ++ k.analysis.reduction.order) →
      ∃ l, outcome (k.element scope env) w = .ok l
  total : ∀ a x, P a → P x → ∃ l, g a x = .ok l
  exchange : ∀ a x y, P a → P x → P y → (g a x >>= (g · y)) = (g a y >>= (g · x))

theorem Exchangeable.sure {read : Reduction.Partial} (hk : k.Planned read) (h : k.Exchangeable scope w P g)
    {rs : Ranges} {t : ElemType} {init : Look} (hf : k.Forecast scope w rs t init) :
    (k.rule scope w g t init).Sure P rs k.outputIndices k.analysis.reduction.order where
  element env henv := by
    obtain ⟨w', hranges⟩ := hf.ranges
    obtain ⟨l, hl⟩ := h.never rs w' hranges env henv
    exact ⟨l, hl, h.value env l hl⟩
  congr env env' henv := by
    change outcome (k.element scope env) w = outcome (k.element scope env') w
    rw [element, Expr.eval_congr henv, element]
  combine a x ha hx := by
    obtain ⟨l, hl⟩ := h.total a x ha hx
    exact ⟨l, hl, h.closed a x l ha hx hl⟩
  comm := h.exchange
  init horder := by
    obtain ⟨r, hr⟩ : ∃ r, k.reduction = some r := exists_reduction fun hstore => by
      rcases hk.body_eq with ⟨hnil, -⟩ | ⟨-, loops, -, hbody⟩
      · exact horder hnil
      · rw [hbody] at hstore
        cases hstore
    cases hop : Reducer.ofName scope r.op with
    | error e => simpa [outcome_start_of_error hr hop] using hf.start
    | ok f =>
      obtain ⟨env, x, -, hx, htyped⟩ := hf.sample
      exact h.start r t env x init hr hx htyped (by rw [← start_eq_initial hr hop, hf.start])

/-- An ideal run leaves every cell with what it has to take. -/
def Served (k : Kernel) (scope : Scope) (w : World) (g : Look → Look → Except Error Look) : Prop :=
  ∀ rs t init, k.Forecast scope w rs t init →
    (k.rule scope w g t init).Serves k.plan rs k.outputIndices k.analysis.reduction.order

theorem Forecast.gapless {rs : Ranges} {t : ElemType} {init : Look} (hf : k.Forecast scope w rs t init) :
    rs.Gapless := by
  obtain ⟨w', hranges⟩ := hf.ranges
  exact Catalog.gapless_of_ranges hranges

theorem Exchangeable.served {read : Reduction.Partial} (hk : k.Planned read) (h : k.Exchangeable scope w P g) :
    k.Served scope w g :=
  fun _ _ _ hf => (h.sure hk hf).serves hk.lays hf.gapless

theorem served_of_plain {read : Reduction.Partial} (hk : k.Planned read) (hplain : k.plan.body.resumes = false) :
    k.Served scope w g :=
  fun _ _ _ hf => Rule.serves_of_plain hk.lays hf.gapless hplain

section

variable {read : Reduction.Partial} (hk : k.Planned read) (still : k.Still scope)
  (hs : k.statement.allocates = true) (tame : k.Tame scope w P g) (hserved : k.Served scope w g)

include hk still hs tame hserved

/-- A run that returns was foreseen, and has filled the cells of its array. -/
theorem fills_of_run {out : Value} {u : World} (h : exec (k.run scope) w = (.ok out, u)) :
    ∃ rs a init w' cells, k.Forecast scope w rs a.type init ∧ out = .array a ∧
      Fresh a (k.newShape rs) w w' ∧
      (k.rule scope w g a.type init).Fills rs k.outputIndices k.analysis.reduction.order cells ∧
      k.Tracks rs a w' u cells := by
  rw [run_eq] at h
  obtain ⟨s, w', hprepare, hrest⟩ := Run.exec_bind_eq_ok h
  obtain ⟨_, u', hloops, hout⟩ := Run.exec_bind_eq_ok hrest
  cases hout
  obtain ⟨a, hl⟩ := exists_launched hk still hs tame.element hprepare
  obtain ⟨a', ha', hf⟩ := forecast_of_prepare still tame hs hprepare
  cases hl.out.symm.trans ha'
  obtain ⟨hran, htracks⟩ := hl.runPlan_tracks tame.loops k.config.workerCount
  rw [hloops] at hran htracks
  obtain ⟨slots, hslots, -⟩ := map_eq_ok hran.symm
  have hcells := congrArg (Except.map fun (s : Slots) c => (s c).1) hslots
  exact ⟨s.ranges, a, s.init.look w'.heap, w', fun c => (slots c).1, hf, hl.out, hl.fresh,
    (Rule.runVisits_eq_ok_iff_fills hk.lays (hserved _ _ _ hf) hl.prepared.resolved.gapless).1 hcells,
    htracks _ hcells⟩

/-- A run that is foreseen, with something for all cells, returns. -/
theorem exists_run {rs : Ranges} {t : ElemType} {init : Look} (hf : k.Forecast scope w rs t init)
    {cells : Cells}
    (hfills : (k.rule scope w g t init).Fills rs k.outputIndices k.analysis.reduction.order cells) :
    ∃ out u, exec (k.run scope) w = (.ok out, u) := by
  obtain ⟨s, w', a, hprepare, rfl, ha, rfl, rfl⟩ := hf.exists_prepare still tame hs
  obtain ⟨a', hl⟩ := exists_launched hk still hs tame.element hprepare
  cases ha.symm.trans hl.out
  obtain ⟨hran, -⟩ := hl.runPlan_tracks tame.loops k.config.workerCount
  have hcells := (Rule.runVisits_eq_ok_iff_fills hk.lays (hserved _ _ _ hf) hl.prepared.resolved.gapless).2 hfills
  obtain ⟨slots, hslots, -⟩ := map_eq_ok hcells
  rw [hslots] at hran
  obtain ⟨u, hloops⟩ : ∃ u, exec (runPlan (s.machine k scope) k.config.workerCount k.outputIndices k.plan
      s.ranges) w' = (.ok ⟨⟩, u) := ⟨_, Prod.ext hran rfl⟩
  refine ⟨s.out, u, ?_⟩
  rw [run_eq, Run.exec_bind_ok hprepare, Run.exec_bind_ok hloops]
  rfl

end


end Kernel
end IndexNotation
