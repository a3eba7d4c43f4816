import IndexNotation.Proofs.Ideal
import IndexNotation.Proofs.Targets

/-!
# Runs and ideal runs

A run that makes a new array goes the way of an ideal run, if the right-hand side and the reducer
are pure: it fails with the same error, or the cells of its array look like those of the ideal run.
The array is new, so nothing that is evaluated can lead to it, and what is stored changes nothing
that is evaluated.
-/

namespace IndexNotation

open Run (exec outcome Keeps PureFrom)

namespace Kernel

/-- The array `a` looks like `cells`: cells that have been given something look like that, and all
others are as they were in `w₀`. -/
structure Tracks (k : Kernel) (rs : Ranges) (a : View) (w₀ u : World) (cells : Cells) : Prop where
  keeps : World.KeepsBut a.block w₀ u
  size : (u.heap.block a.block).size = (w₀.heap.block a.block).size
  holds : ∀ env l, env.Covers rs k.outputIndices → cells (env.cell k.outputIndices) = some l →
    ∃ p v, a.place (k.positions env) = some p ∧ (u.heap.block a.block)[p]? = some v ∧
      v.Shows u a.block l
  blank : ∀ p, (∀ env : Env, env.Covers rs k.outputIndices → a.place (k.positions env) = some p →
    cells (env.cell k.outputIndices) = none) →
    (u.heap.block a.block)[p]? = (w₀.heap.block a.block)[p]?

/-- At first no cell has been given anything. -/
theorem Tracks.start (k : Kernel) (rs : Ranges) (a : View) (w : World) : k.Tracks rs a w w fun _ => none :=
  ⟨(World.Keeps.refl _).but _, rfl, fun _ _ _ hl => (nomatch hl), fun _ _ => rfl⟩

theorem Tracks.mono {k : Kernel} {rs : Ranges} {a : View} {w₀ u u' : World} {cells : Cells}
    (h : k.Tracks rs a w₀ u cells) (ha : a.block < w₀.heap.size) (hu : u.Keeps u') :
    k.Tracks rs a w₀ u' cells := by
  have hblock : u'.heap.block a.block = u.heap.block a.block :=
    hu.2 _ (Nat.lt_of_lt_of_le ha h.keeps.1)
  refine ⟨h.keeps.trans (hu.but _), by rw [hblock, h.size], fun env l henv hl => ?_, fun p hp => ?_⟩
  · obtain ⟨p, v, hplace, hv, hshows⟩ := h.holds env l henv hl
    exact ⟨p, v, hplace, by rw [hblock, hv], hshows.mono (hu.but _)⟩
  · rw [hblock, h.blank p hp]

/-- A run and an ideal run go the same way while the array of the run looks like the cells of the
ideal run. -/
def tracking (k : Kernel) (rs : Ranges) (a : View) (w₀ : World) : Simulation Run Ideal where
  Stage := World
  le := World.KeepsBut a.block
  refl u := (World.Keeps.refl u).but _
  trans := World.KeepsBut.trans
  Rel u Q x x' := ∀ cells, k.Tracks rs a w₀ u cells →
    World.KeepsBut a.block u (exec x u).2 ∧ k.Tracks rs a w₀ (exec x u).2 (exec x' cells).2 ∧
      Concur (Q (exec x u).2) (exec x u).1 (exec x' cells).1
  pure hQ cells h := ⟨(World.Keeps.refl _).but _, h, hQ⟩
  bind := by
    intro α α' β β' u Q Q' x x' f f' hx hf cells h
    obtain ⟨hkeeps, htracks, hboth⟩ := hx cells h
    rw [Run.exec_bind, Run.exec_bind]
    generalize exec x u = r, exec x' cells = r' at hkeeps htracks hboth
    obtain ⟨e | b, u'⟩ := r <;> obtain ⟨e' | b', cells'⟩ := r'
    · exact ⟨hkeeps, htracks, hboth⟩
    · exact hboth.elim
    · exact hboth.elim
    · obtain ⟨hkeeps', htracks', hboth'⟩ := hf u' b b' hkeeps hboth cells' htracks
      exact ⟨hkeeps.trans hkeeps', htracks', hboth'⟩
  throw e cells h := ⟨(World.Keeps.refl _).but _, h, rfl⟩
  attempt := by
    intro α α' u Q x x' hx cells h
    rw [Run.exec_attempt, Run.exec_attempt]
    exact hx cells h

/-- What keeps all that is there goes the way of what changes no cell. -/
theorem tracking_of_keeps {k : Kernel} {rs : Ranges} {a : View} {w₀ : World} (ha : a.block < w₀.heap.size)
    {α α' : Type} {Q : World → α → α' → Prop} {x : Run α} (hx : Keeps x) {o : Except Error α'}
    {u : World} (hboth : Concur (Q (exec x u).2) (exec x u).1 o) :
    (k.tracking rs a w₀).Rel u Q x (liftM o) := by
  intro cells h
  rw [Run.exec_lift]
  exact ⟨(hx u).but _, h.mono ha (hx u), hboth⟩

theorem look_blank (t : ElemType) (h h' : Heap) : (blank t).look h = (blank t).look h' := by
  refine Value.look_congr fun b hb => ?_
  unfold blank at hb
  split at hb <;> cases hb

/-- New arrays that look like the same cells look the same. -/
theorem Tracks.look_eq {k k' : Kernel} {rs rs' : Ranges} {a a' : View} {shape : List Nat}
    {w w' w₀ w₀' u u' : World} {cells : Cells} (h : k.Tracks rs a w₀ u cells)
    (h' : k'.Tracks rs' a' w₀' u' cells) (hf : Fresh a shape w w₀) (hf' : Fresh a' shape w' w₀')
    (htype : a.type = a'.type)
    (hsame : ∀ env : Env, (env.Covers rs k.outputIndices ↔ env.Covers rs' k'.outputIndices) ∧
      k.positions env = k'.positions env ∧ env.cell k.outputIndices = env.cell k'.outputIndices) :
    (Value.array a).look u.heap = (Value.array a').look u'.heap := by
  have hplace (env : Env) : a'.place (k'.positions env) = a.place (k.positions env) := by
    rw [View.place, View.place, hf.shape_eq, hf'.shape_eq, hf.strides, hf'.strides, hf.offset, hf'.offset,
      (hsame env).2.1]
  have hcell (p : Nat) : ((u.heap.block a.block).getD p .none).look u.heap =
      ((u'.heap.block a'.block).getD p .none).look u'.heap := by
    rw [Array.getD_eq_getD_getElem?, Array.getD_eq_getD_getElem?]
    by_cases hgiven : ∃ env : Env, env.Covers rs k.outputIndices ∧ a.place (k.positions env) = some p ∧
        cells (env.cell k.outputIndices) ≠ none
    · obtain ⟨env, henv, hp, hne⟩ := hgiven
      obtain ⟨l, hl⟩ := Option.ne_none_iff_exists'.1 hne
      obtain ⟨q, v, hq, hv, hshows⟩ := h.holds env l henv hl
      obtain ⟨q', v', hq', hv', hshows'⟩ :=
        h'.holds env l ((hsame env).1.1 henv) (by rw [← (hsame env).2.2, hl])
      rw [hplace] at hq'
      cases hp.symm.trans hq
      cases hp.symm.trans hq'
      rw [hv, hv']
      exact hshows.look_eq.trans hshows'.look_eq.symm
    · have hblank := h.blank p fun env henv hp => by
        by_contra hne
        exact hgiven ⟨env, henv, hp, hne⟩
      have hblank' := h'.blank p fun env henv hp => by
        by_contra hne
        exact hgiven ⟨env, (hsame env).1.2 henv, by rw [← hplace, hp], by rwa [(hsame env).2.2]⟩
      rw [hblank, hblank', hf.blank, hf'.blank, htype, List.getElem?_toArray, List.getElem?_replicate]
      split
      · exact look_blank _ _ _
      · exact Value.look_congr fun b hb => by cases hb
  have hplaces : a'.places = a.places := by
    rw [View.places, View.places, hf.shape_eq, hf'.shape_eq, hf.strides, hf'.strides, hf.offset, hf'.offset]
  funext d
  cases d with
  | zero => rfl
  | succ d =>
    simp only [Value.look, Value.snapshot, htype, hf.shape_eq, hf'.shape_eq, View.cells, hplaces,
      List.map_map]
    congr 1
    exact List.map_congr_left fun p _ => congrFun (hcell p) d

/-! ## Purity -/

/-- The right-hand side and the reducer of a kernel are pure, by the looks of values: `g` says what comes
of taking one more value into an accumulator. Nothing is asked of values that do not occur; `P` holds of
those that do. -/
structure TameSteps (k : Kernel) (scope : Scope) (w : World) (P : Look → Prop)
    (g : Look → Look → Except Error Look) : Prop where
  element : ∀ env, PureFrom w (k.element scope env)
  value : ∀ env l, outcome (k.element scope env) w = .ok l → P l
  closed : ∀ a x l, P a → P x → g a x = .ok l → P l
  combine : ∀ r f, k.reduction = some r → Reducer.ofName scope r.op = .ok f → ∀ u acc v, w.Keeps u →
    P (acc.look u.heap) → P (v.look u.heap) → (∀ b, acc.Reaches u.heap b → b < u.heap.size) →
    (∀ b, v.Reaches u.heap b → b < u.heap.size) →
    outcome (f.apply scope acc v) u = g (acc.look u.heap) (v.look u.heap) ∧
      ∀ x u', exec (f.apply scope acc v) u = (.ok x, u') → ∀ b, x.Reaches u'.heap b →
        (b < w.heap.size ∨ acc.Reaches u.heap b ∨ v.Reaches u.heap b ∨ u.heap.size ≤ b) ∧
          b < u'.heap.size

/-- The start value is pure as well. -/
structure Tame (k : Kernel) (scope : Scope) (w : World) (P : Look → Prop)
    (g : Look → Look → Except Error Look) : Prop extends k.TameSteps scope w P g where
  initial : ∀ r t, k.reduction = some r →
    PureFrom w (r.initial t (Expr.eval scope k.analysis.indexNames []))
  start : ∀ r t env x l, k.reduction = some r → outcome (k.element scope env) w = .ok x → x.Typed t →
    outcome (r.initial t (Expr.eval scope k.analysis.indexNames [])) w = .ok l → P l

/-- The start value is found once, before the loops, so for them it may be a new one each time; only the
array of the run is out of its reach. -/
structure TameLoops (k : Kernel) (scope : Scope) (w : World) (P : Look → Prop)
    (g : Look → Look → Except Error Look) : Prop extends k.TameSteps scope w P g where
  start : ∀ r t env x, k.reduction = some r → outcome (k.element scope env) w = .ok x → x.Typed t →
    ∀ u v u', w.Keeps u → exec (r.initial t (Expr.eval scope k.analysis.indexNames [])) u = (.ok v, u') →
      P (v.look u'.heap) ∧
        ∀ b, v.Reaches u'.heap b → b < w.heap.size ∨ u.heap.size ≤ b ∧ b < u'.heap.size

theorem Tame.loops {k : Kernel} {scope : Scope} {w : World} {P : Look → Prop}
    {g : Look → Look → Except Error Look} (h : k.Tame scope w P g) : k.TameLoops scope w P g where
  toTameSteps := h.toTameSteps
  start r t env x hr hx htyped u v u' hu hv := by
    obtain ⟨heq, hreach⟩ := h.initial r t hr u hu
    exact ⟨h.start r t env x _ hr hx htyped (by rw [← heq, Run.outcome_ok hv]), hreach v u' hv⟩

/-- What an ideal run goes by, for an array of type `t` and a start value that looks like `init`. -/
noncomputable def rule (k : Kernel) (scope : Scope) (w : World) (g : Look → Look → Except Error Look)
    (t : ElemType) (init : Look) : Rule where
  element env := outcome (k.element scope env) w
  combine := g
  accept l := (t.acceptLook l).mapError .fault
  init := init

/-- A run that has been set up to fill a new array. -/
structure Launched (k : Kernel) (scope : Scope) (w : World) (s : Setup) (w' : World) (a : View) : Prop where
  planned : ∃ read, k.Planned read
  still : k.Still scope
  prepared : k.Prepared scope w s w'
  allocates : k.statement.allocates = true
  out : s.out = .array a
  fresh : Fresh a (k.newShape s.ranges) w w'
  sample : ∃ env x, outcome (k.element scope env) w = .ok x ∧ x.Typed a.type

theorem exists_reduction {k : Kernel} (h : k.plan.body ≠ .store) : ∃ r, k.reduction = some r := by
  unfold reduction
  cases hbody : k.plan.body with
  | store => exact absurd hbody h
  | reduce op resume loops => exact ⟨_, rfl⟩

theorem eq_of_reduction {k : Kernel} {r : Reduction} (h : k.reduction = some r) :
    r = k.analysis.reduction := by
  unfold reduction at h
  cases hbody : k.plan.body with
  | store => simp [hbody] at h
  | reduce op resume loops => simpa [hbody] using h.symm

namespace Launched

variable {k : Kernel} {scope : Scope} {w w' : World} {s : Setup} {a : View}
  (h : k.Launched scope w s w' a) {P : Look → Prop} {g : Look → Look → Except Error Look}
  (tame : k.TameLoops scope w P g)

include h

theorem keeps_of_le {u : World} (hu : World.KeepsBut a.block w' u) : w.Keeps u :=
  h.fresh.keeps_of_but h.prepared.keeps hu

/-- What is pure leads to no new array. -/
theorem shows_of_pure {x : Run Value} (hx : PureFrom w x) {u u' : World}
    (hu : World.KeepsBut a.block w' u) (hkeeps : u.Keeps u') {v : Value}
    (hv : exec x u = (.ok v, u')) : v.Shows u' a.block (v.look u'.heap) := by
  refine ⟨rfl, fun b hb => ?_⟩
  have hblock : a.block < u.heap.size := Nat.lt_of_lt_of_le h.fresh.exists_block hu.1
  rcases (hx u (h.keeps_of_le hu)).2 v u' hv b hb with hold | hnew
  · refine ⟨Nat.lt_of_lt_of_le hold (Nat.le_trans (h.keeps_of_le hu).1 hkeeps.1), ?_⟩
    exact Nat.ne_of_lt (Nat.lt_of_lt_of_le hold h.fresh.new)
  · exact ⟨hnew.2, Nat.ne_of_gt (Nat.lt_of_lt_of_le hblock hnew.1)⟩

/-- A store goes the way of an ideal store. -/
theorem rel_store {env : Env} (henv : env.Covers s.ranges k.outputIndices) {u : World}
    (hu : World.KeepsBut a.block w' u) {v : Value} {l : Look} (hv : v.Shows u a.block l) :
    (k.tracking s.ranges a w').Rel u (fun _ _ _ => True) ((s.machine k scope).store env v)
      (((k.rule scope w g a.type (s.init.look w'.heap)).machine k.outputIndices).store env l) := by
  obtain ⟨read, hk⟩ := h.planned
  obtain ⟨p, hplace⟩ := hk.exists_place h.prepared.resolved h.allocates h.fresh henv
  have hsolid := h.fresh.solid
  have hrank : (k.positions env).length = a.shape.length := by
    rw [positions, List.length_map, h.fresh.shape_eq, newShape, List.length_map]
  have hset := Value.exec_set_ints hrank v u
  rw [hplace, ← hk.keys_eq, ← h.out] at hset
  change exec ((s.machine k scope).store env v) u = _ at hset
  dsimp only at hset
  have hlook := a.type.look_accept u.heap v
  rw [hv.look_eq] at hlook
  intro cells hcells
  simp only [Rule.machine, rule, ← hlook]
  rw [hset]
  cases hcell : a.type.accept u.heap v with
  | error f => exact ⟨(World.Keeps.refl u).but _, hcells, rfl⟩
  | ok cell =>
    have hkeeps : World.KeepsBut a.block u { u with heap := u.heap.modify a.block (·.setIfInBounds p cell) } :=
      .of_modify (·.setIfInBounds p cell) rfl
    have hblock := Heap.block_modify (Nat.lt_of_lt_of_le hsolid.exists_block hu.1) (·.setIfInBounds p cell)
    have hlt : p < (u.heap.block a.block).size := by
      rw [hcells.size]
      exact hsolid.place_lt hplace
    have hshows : cell.Shows u a.block (cell.look u.heap) :=
      ⟨rfl, fun b hb => hv.apart b (ElemType.reaches_of_accept hcell hb)⟩
    refine ⟨hkeeps, ⟨hcells.keeps.trans hkeeps, ?_, fun env' l' henv' hl' => ?_, fun q hq => ?_⟩, trivial⟩
    · dsimp only
      rw [hblock, Array.size_setIfInBounds, hcells.size]
    · change Function.update cells (env.cell k.outputIndices) (some (cell.look u.heap)) _ = _ at hl'
      dsimp only
      rw [hblock]
      by_cases heq : env'.cell k.outputIndices = env.cell k.outputIndices
      · rw [heq, Function.update_self] at hl'
        cases hl'
        exact ⟨p, cell, by rw [positions_congr heq, hplace],
          Array.getElem?_setIfInBounds_self_of_lt hlt, hshows.mono hkeeps⟩
      · rw [Function.update_of_ne heq] at hl'
        obtain ⟨p', v', hplace', hv', hshows'⟩ := hcells.holds env' l' henv' hl'
        have hne : p ≠ p' := fun e => heq (cell_eq_of_positions_eq
          (hsolid.place_inj hplace' (e ▸ hplace) (hk.comparable h.prepared.resolved henv' henv)))
        exact ⟨p', v', hplace', by rw [Array.getElem?_setIfInBounds_ne hne, hv'], hshows'.mono hkeeps⟩
    · change ∀ env' : Env, _ → _ → Function.update cells (env.cell k.outputIndices)
        (some (cell.look u.heap)) (env'.cell k.outputIndices) = none at hq
      have hne : p ≠ q := fun e => by simpa using hq env henv (e ▸ hplace)
      dsimp only
      rw [hblock, Array.getElem?_setIfInBounds_ne hne, hcells.blank q fun env' henv' hp' => ?_]
      have hnone := hq env' henv' hp'
      by_cases heq : env'.cell k.outputIndices = env.cell k.outputIndices
      · simp [heq] at hnone
      · rwa [Function.update_of_ne heq] at hnone

include tame

theorem shows_init {r : Reduction} (hr : k.reduction = some r) :
    s.init.Shows w' a.block (s.init.look w'.heap) ∧ P (s.init.look w'.heap) ∧
      Reducer.ofName scope r.op = .ok s.reducer := by
  obtain ⟨t, u, u', htype, hblock, hu, hu', hreducer⟩ := h.prepared.reducer
  obtain rfl := htype a h.out
  obtain ⟨env, x, hx, htyped⟩ := h.sample
  simp only [reducer, hr] at hreducer
  obtain ⟨f, u₁, hf, hrest⟩ := Run.exec_bind_eq_ok hreducer
  obtain ⟨init, u₂, hinit, hpair⟩ := Run.exec_bind_eq_ok hrest
  simp only [Run.exec_lift, Prod.mk.injEq] at hf
  obtain ⟨hf, rfl⟩ := hf
  cases hpair
  obtain ⟨hP, hreach⟩ := tame.start r a.type env x hr hx htyped u s.init u' hu hinit
  have hkeeps := h.still.initial r a.type hr u
  rw [hinit] at hkeeps
  have hapart (b : Nat) (hb : s.init.Reaches u'.heap b) : b < u'.heap.size ∧ b ≠ a.block := by
    rcases hreach b hb with hold | hnew
    · exact ⟨Nat.lt_of_lt_of_le hold (Nat.le_trans hu.1 hkeeps.1),
        Nat.ne_of_lt (Nat.lt_of_lt_of_le hold h.fresh.new)⟩
    · exact ⟨hnew.2, Nat.ne_of_gt (Nat.lt_of_lt_of_le (hblock a h.out h.allocates) hnew.1)⟩
  have hshows : s.init.Shows u' a.block (s.init.look u'.heap) := ⟨rfl, hapart⟩
  have hlater := hshows.mono (hu'.but _)
  have hlook : s.init.look w'.heap = s.init.look u'.heap := hlater.look_eq
  exact ⟨⟨rfl, hlater.apart⟩, hlook ▸ hP, hf⟩

/-- The machine of the loops does what the ideal machine does. -/
theorem follows :
    (s.machine k scope).Follows (k.tracking s.ranges a w') w' (fun u v l => v.Shows u a.block l ∧ P l)
      k.plan s.ranges ((k.rule scope w g a.type (s.init.look w'.heap)).machine k.outputIndices) where
  mono u u' v l hu hv := ⟨hv.1.mono hu, hv.2⟩
  element u env hu _ := by
    have hcode : (s.machine k scope).element env = k.element scope env := h.prepared.element_eq env
    rw [hcode]
    have hkeeps : Keeps (k.element scope env) := h.still.element env
    refine tracking_of_keeps h.fresh.exists_block hkeeps ?_
    have hout : outcome (k.element scope env) w = _ := ((tame.element env u (h.keeps_of_le hu)).1).symm
    simp only [rule, hout]
    have hk := hkeeps u
    rcases hx : exec (k.element scope env) u with ⟨e | v, u'⟩
    · rw [Run.outcome_error hx]
      rfl
    · rw [hx] at hk
      rw [Run.outcome_ok hx] at hout ⊢
      exact ⟨h.shows_of_pure (tame.element env) hu hk hx, tame.value env _ hout⟩
  init hbody := by
    obtain ⟨r, hr⟩ := exists_reduction hbody
    obtain ⟨hshows, hP, -⟩ := h.shows_init tame hr
    exact ⟨hshows, hP⟩
  combine hbody u acc acc' v v' hu hacc hv := by
    obtain ⟨r, hr⟩ := exists_reduction hbody
    obtain ⟨-, -, hf⟩ := h.shows_init tame hr
    obtain ⟨⟨rfl, hreachacc⟩, hPacc⟩ := hacc
    obtain ⟨⟨rfl, hreachv⟩, hPv⟩ := hv
    have hkeeps := h.still.combine r s.reducer hr hf acc v
    refine tracking_of_keeps h.fresh.exists_block hkeeps ?_
    obtain ⟨hout, hreach⟩ := tame.combine r s.reducer hr hf u acc v (h.keeps_of_le hu) hPacc hPv
      (fun b hb => (hreachacc b hb).1) (fun b hb => (hreachv b hb).1)
    simp only [rule, ← hout]
    have hblock : a.block < u.heap.size := Nat.lt_of_lt_of_le h.fresh.exists_block hu.1
    change Concur _ (exec (s.reducer.apply scope acc v) u).1 _
    rcases hx : exec (s.reducer.apply scope acc v) u with ⟨e | x, u'⟩
    · rw [Run.outcome_error hx]
      rfl
    · rw [Run.outcome_ok hx] at hout ⊢
      refine ⟨⟨rfl, fun b hb => ?_⟩, tame.closed _ _ _ hPacc hPv hout.symm⟩
      obtain ⟨hsource, hlt⟩ := hreach x u' hx b hb
      refine ⟨hlt, ?_⟩
      rcases hsource with hold | hb | hb | hnew
      · exact Nat.ne_of_lt (Nat.lt_of_lt_of_le hold h.fresh.new)
      · exact (hreachacc b hb).2
      · exact (hreachv b hb).2
      · exact Nat.ne_of_gt (Nat.lt_of_lt_of_le hblock hnew)
  store u env v l hu henv hv := by
    obtain ⟨read, hk⟩ := h.planned
    rw [hk.outer_eq] at henv
    exact h.rel_store (henv.mono (by simp)) hu hv.1

/-- The loops of a run do to its array what the visits of an ideal run do to the cells. -/
theorem runPlan_tracks (workers : Nat) :
    (exec (runPlan (s.machine k scope) workers k.outputIndices k.plan s.ranges) w').1 =
      (runVisits ((k.rule scope w g a.type (s.init.look w'.heap)).visits k.outputIndices k.plan s.ranges)
        Rule.blankSlots).map (fun _ => ⟨⟩) ∧
    ∀ cells, (runVisits ((k.rule scope w g a.type (s.init.look w'.heap)).visits k.outputIndices k.plan s.ranges)
        Rule.blankSlots).map (fun s c => (s c).1) = .ok cells →
      k.Tracks s.ranges a w'
        (exec (runPlan (s.machine k scope) workers k.outputIndices k.plan s.ranges) w').2 cells := by
  obtain ⟨read, hk⟩ := h.planned
  have hw : ∀ g, k.plan.tiles = some g → 0 < g.width := fun g hg => (hk.group_sound hg).2.1
  obtain ⟨-, htracks, hboth⟩ := runPlan_rel k.outputIndices (h.follows tame) workers
    h.prepared.resolved.gapless hw (by simp [hk.outer_eq]) _ (Tracks.start k s.ranges a w')
  have hideal := (k.rule scope w g a.type (s.init.look w'.heap)).exec_runPlan k.outputIndices k.plan s.ranges workers hw
  generalize runVisits _ _ = visited at hideal ⊢
  generalize exec (runPlan ((k.rule scope w g a.type (s.init.look w'.heap)).machine k.outputIndices) workers
    k.outputIndices k.plan s.ranges) (fun _ => none) = ideal at htracks hboth hideal
  obtain ⟨e | _, cells⟩ := ideal <;> rcases visited with e' | slots
  · cases hideal
    rcases hx : (exec (runPlan (s.machine k scope) workers k.outputIndices k.plan s.ranges) w').1 with e'' | _
    · rw [hx] at hboth
      exact ⟨congrArg Except.error hboth, fun cells hcells => by cases hcells⟩
    · rw [hx] at hboth
      exact hboth.elim
  · cases hideal
  · cases hideal
  · obtain rfl : cells = fun c => (slots c).1 := Except.ok.inj hideal
    rcases hx : (exec (runPlan (s.machine k scope) workers k.outputIndices k.plan s.ranges) w').1 with e'' | _
    · rw [hx] at hboth
      exact hboth.elim
    · exact ⟨rfl, fun cells hcells => by cases hcells; exact htracks⟩

end Launched

end Kernel
end IndexNotation
