import IndexNotation.Proofs.Turns

/-!
# New arrays

A statement that makes a new array fills each of its cells with what the right-hand side comes to at
the points of the cell, whatever the order of the loops, the blocks and the steps of the workers: the
array is not there when the call starts, so nothing that is evaluated depends on it. If no step can
fail, the call returns.
-/

namespace IndexNotation

open Run (exec Keeps)

/-! ## Runs without failures -/

namespace Rule

/-- The rule of an ideal run whose steps all succeed. -/
def idle : Rule where
  element _ := .ok (Value.none.look #[])
  combine _ _ := .ok (Value.none.look #[])
  accept := .ok
  init := Value.none.look #[]

theorem exec_runPlan_idle {p : Plan} {outputs inner : List String} (hp : p.Lays outputs inner)
    (hnodup : outputs.Nodup) {rs : Ranges} (hrs : rs.Gapless) (hw : ∀ g, p.tiles = some g → 0 < g.width)
    (workers : Nat) :
    ∃ cells, exec (runPlan (idle.machine outputs) workers outputs p rs) (fun _ => none) = (.ok ⟨⟩, cells) := by
  have hsure : idle.Sure (fun _ => True) rs outputs inner :=
    ⟨fun _ _ => ⟨_, rfl, trivial⟩, fun _ _ _ => rfl, fun _ _ _ _ => ⟨_, rfl, trivial⟩, fun _ _ _ _ _ _ => rfl,
      fun _ => trivial⟩
  have hgiven (c : Env) : ∃ l, idle.given rs inner c = .ok l := by
    unfold given value
    split
    · exact ⟨_, rfl⟩
    · have htake : idle.take c = fun _ _ => pure (Value.none.look #[]) := rfl
      rw [htake, List.foldlM_pure]
      exact ⟨_, rfl⟩
  obtain ⟨cells, hfills⟩ := exists_fills hnodup fun c _ => hgiven c
  have hvisits := (runVisits_eq_ok_iff_fills hp (hsure.serves hp hrs) hrs).2 hfills
  rw [← idle.exec_runPlan outputs p rs workers hw] at hvisits
  obtain ⟨_, hok, -⟩ := map_eq_ok hvisits
  exact ⟨_, Prod.ext hok rfl⟩

end Rule

/-- A run goes the way of an ideal run, whatever the cells of that are, and changes nothing that is there
except one block. -/
def alongside (b : Nat) : Simulation Run Ideal where
  Stage := World
  le := World.KeepsBut b
  refl u := (World.Keeps.refl u).but _
  trans := World.KeepsBut.trans
  Rel u Q x x' := ∀ cells, World.KeepsBut b u (exec x u).2 ∧
    Concur (Q (exec x u).2) (exec x u).1 (exec x' cells).1
  pure hQ _ := ⟨(World.Keeps.refl _).but _, hQ⟩
  bind := by
    intro α α' β β' u Q Q' x x' f f' hx hf cells
    obtain ⟨hkeeps, hboth⟩ := hx cells
    rw [Run.exec_bind, Run.exec_bind]
    generalize exec x u = r, exec x' cells = r' at hkeeps hboth
    obtain ⟨e | b, u'⟩ := r <;> obtain ⟨e' | b', cells'⟩ := r'
    · exact ⟨hkeeps, hboth⟩
    · exact hboth.elim
    · exact hboth.elim
    · obtain ⟨hkeeps', hboth'⟩ := hf u' b b' hkeeps hboth cells'
      exact ⟨hkeeps.trans hkeeps', hboth'⟩
  throw e _ := ⟨(World.Keeps.refl _).but _, rfl⟩
  attempt := by
    intro α α' u Q x x' hx cells
    rw [Run.exec_attempt, Run.exec_attempt]
    exact hx cells

/-! ## Cells of new arrays -/

namespace Kernel

/-- The right-hand side comes to `v`, in a world that has all that there was in `w`. -/
def Evaluates (k : Kernel) (scope : Scope) (w : World) (env : Env) (z : World) (v : Value) (z' : World) : Prop :=
  w.Keeps z ∧ exec (k.element scope env) z = (.ok v, z')

section

variable {k : Kernel} {read : Reduction.Partial} (hk : k.Planned read) {scope : Scope} (quiet : scope.Quiet)
  (hs : k.statement.allocates = true) {w w' : World} {s : Setup} (h : k.Prepared scope w s w') {a : View}
  (ha : s.out = .array a)

include hs h ha

theorem Prepared.fresh : Fresh a (k.newShape s.ranges) w w' := by
  have houtput := h.output
  rw [if_pos hs] at houtput
  obtain ⟨a', ha', hfresh⟩ := houtput
  cases ha.symm.trans ha'
  exact hfresh

theorem Prepared.rank : k.statement.target.indices.length = a.shape.length := by
  rw [(h.fresh hs ha).shape_eq, newShape, List.length_map]

include hk quiet

/-- A call that makes a new array fills it like one that is there, from the time when it is. -/
theorem Prepared.revising : k.Revising scope w' s w' a fun _ => k.Evaluates scope w := by
  have hfresh := h.fresh hs ha
  refine ⟨⟨read, hk⟩, quiet, ⟨w, h⟩, .refl w', ha, h.rank hs ha, hfresh.solid,
    fun c hc env z v z' hcell hz _ hv => ?_⟩
  obtain ⟨p, hplace⟩ := hk.exists_place h.resolved hs hfresh (Ranges.covers_of_mem_points hc)
  have hlt := hfresh.solid.place_lt hplace
  refine ⟨(w'.heap.block a.block)[p], ?_, hfresh.keeps_of_but h.keeps hz, hv⟩
  rw [cellAt_congr hcell, cellAt, hplace]
  exact Array.getElem?_eq_getElem hlt

end

/-- A call that returns a new array was set up, and each cell took what the right-hand side comes to. -/
theorem exists_takes {k : Kernel} {read : Reduction.Partial} (hk : k.Planned read) {scope : Scope}
    (quiet : scope.Quiet) (hs : k.statement.allocates = true) {w w' : World} {out : Value}
    (hcall : exec (k.call scope) w = (.ok out, w') ∨ k.Interleaves scope w (.ok out) w') :
    ∃ a s w₁, exec (k.prepare scope) w = (.ok s, w₁) ∧ s.out = .array a ∧ out = .array a ∧
      ∀ c ∈ s.ranges.points k.outputIndices, ∃ cell, (exec (out.get (k.keys c)) w').1 = .ok cell ∧
        k.Takes a s.ranges (k.Evaluates scope w) (s.reducer.apply scope) s.init w₁ c cell := by
  obtain ⟨s, w₁, t, hlaunch, rfl, hends, rfl⟩ := exists_endsInTurn hk hcall
  have hprepared := (still_of_quiet quiet k).prepared (launch_eq_ok hlaunch)
  obtain ⟨a, -, -, -, -, -, ha, -⟩ := exists_sample_of_prepare (still_of_quiet quiet k) hs (launch_eq_ok hlaunch)
  obtain ⟨hrevised, -⟩ := (hprepared.revising hk quiet hs ha).revised hends
  refine ⟨a, s, w₁, launch_eq_ok hlaunch, ha, ha, fun c hc => ?_⟩
  obtain ⟨-, old, cell, -, hcell, htakes⟩ := hrevised c hc
  exact ⟨cell, hk.get_eq_of_cellAt ha (hprepared.rank hs ha) hcell, htakes⟩

/-! ## Calls that cannot fail -/

/-- A call is a run, unless an argument has the name of the kernel itself. -/
theorem call_eq_run {k : Kernel} {scope : Scope} (hself : ∀ b ∈ scope.bindings, b.1 ≠ ownName) :
    k.call scope = k.run scope := by
  rw [call, if_neg]
  simpa using fun v hv => hself (ownName, v) hv rfl

/-- The loops of a call come to an end if `P` holds of all values of the right-hand side, of the start
value and of what the reducer makes of such values, and a cell of the array accepts them. -/
theorem Prepared.exists_runPlan {k : Kernel} {read : Reduction.Partial} (hk : k.Planned read) {scope : Scope}
    (quiet : scope.Quiet) (hs : k.statement.allocates = true) {w w' : World} {s : Setup}
    (h : k.Prepared scope w s w') {a : View} (ha : s.out = .array a) {P : Value → Prop}
    (helement : ∀ env, env.Covers s.ranges (k.outputIndices ++ k.reductionIndices) → ∀ u, w.Keeps u →
      ∃ v u', exec (k.element scope env) u = (.ok v, u') ∧ P v)
    (hinit : k.plan.body ≠ .store → P s.init)
    (hcombine : k.plan.body ≠ .store → ∀ acc v u, P acc → P v →
      ∃ x u', exec (s.reducer.apply scope acc v) u = (.ok x, u') ∧ P x)
    (haccept : ∀ v heap, P v → ∃ cell, a.type.accept heap v = .ok cell) (workers : Nat) :
    ∃ u, exec (runPlan (s.machine k scope) workers k.outputIndices k.plan s.ranges) w' = (.ok ⟨⟩, u) := by
  have hfresh := h.fresh hs ha
  have hw : ∀ g, k.plan.tiles = some g → 0 < g.width := fun g hg => (hk.group_sound hg).2.1
  have hfollows : (s.machine k scope).Follows (alongside a.block) w' (fun _ v _ => P v) k.plan s.ranges
      (Rule.idle.machine k.outputIndices) := by
    refine ⟨fun _ _ _ _ _ hv => hv, fun u env hu henv cells => ?_, hinit,
      fun hbody u acc _ v _ hu hacc hv cells => ?_, fun u env v l hu henv hv cells => ?_⟩
    · have hcode : (s.machine k scope).element env = k.element scope env := h.element_eq env
      have hkeeps : Keeps (k.element scope env) := Expr.keeps_eval quiet _ _ _
      rw [hk.outer_eq, hk.inner_eq, ← hk.reductionIndices_eq] at henv
      obtain ⟨v, u', hv, hP⟩ := helement env (henv.mono (by simp)) u (hfresh.keeps_of_but h.keeps hu)
      have hu' := hkeeps u
      rw [hcode, hv] at *
      exact ⟨hu'.but _, hP⟩
    · obtain ⟨x, u', hx, hP⟩ := hcombine hbody acc v u hacc hv
      have hu' := Reducer.keeps_apply quiet s.reducer acc v u
      change World.KeepsBut _ _ (exec (s.reducer.apply scope acc v) u).2 ∧
        Concur _ (exec (s.reducer.apply scope acc v) u).1 _
      rw [hx] at hu' ⊢
      exact ⟨hu'.but _, hP⟩
    · rw [hk.outer_eq] at henv
      obtain ⟨p, hplace⟩ := hk.exists_place h.resolved hs hfresh (henv.mono (by simp))
      obtain ⟨cell, hcell⟩ := haccept v u.heap hv
      have hrank : (k.positions env).length = a.shape.length := by
        rw [positions, List.length_map, h.rank hs ha]
      have hset := Value.exec_set_ints hrank v u
      rw [hplace, hcell, ← hk.keys_eq, ← ha] at hset
      change World.KeepsBut _ _ (exec (s.out.set (k.keys env) v) u).2 ∧
        Concur _ (exec (s.out.set (k.keys env) v) u).1 _
      rw [hset]
      exact ⟨.of_modify (·.setIfInBounds p cell) rfl, trivial⟩
  obtain ⟨-, hboth⟩ := runPlan_rel k.outputIndices hfollows workers h.resolved.gapless hw
    (by simp [hk.outer_eq]) fun _ => none
  obtain ⟨cells, hidle⟩ := Rule.exec_runPlan_idle hk.lays k.nodup_outputIndices h.resolved.gapless hw workers
  rw [hidle] at hboth
  rcases hrun : exec (runPlan (s.machine k scope) workers k.outputIndices k.plan s.ranges) w' with ⟨e | _, u⟩
  · rw [hrun] at hboth
    exact hboth.elim
  · exact ⟨u, rfl⟩

end Kernel

end IndexNotation
