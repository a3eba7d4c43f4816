import IndexNotation.Proofs.Independence
import IndexNotation.Proofs.Workers

/-!
# Workers that take turns

A call with workers divides the outermost loop of its plan into chunks, and the workers take their
steps in any order. If the right-hand side and the reducer are pure, all orders come to the outcome of
the call without workers: the same error, or an array that looks the same.

The workers are compared with those of an ideal run, step by step. Those keep to cells of their own, so
that they might as well work one after the other, and then they do what the loops do.
-/

namespace IndexNotation

open Run (exec outcome)
open Process (own fetch put)

namespace Kernel

/-! ## Workers and ideal workers -/

theorem keepsBut_refl (a : View) (u : World) : World.KeepsBut a.block u u :=
  (World.Keeps.refl u).but _

theorem keepsBut_trans (a : View) {u u' u'' : World} (h : World.KeepsBut a.block u u')
    (h' : World.KeepsBut a.block u' u'') : World.KeepsBut a.block u u'' :=
  h.trans h'

/-- Worlds and accumulators that workers share, compared with those of ideal workers. -/
def sharing (k : Kernel) (rs : Ranges) (a : View) (w₀ : World) (P : Look → Prop) :
    Comparison (World × Table Value) (Cells × Table Look) where
  Stage := World
  le := World.KeepsBut a.block
  refl := keepsBut_refl a
  trans := @keepsBut_trans a
  stage := Prod.fst
  Both s s' := k.Tracks rs a w₀ s.1 s'.1 ∧ s.2.Agrees (fun v l => v.Shows s.1 a.block l ∧ P l) s'.2

section

variable {k : Kernel} {rs : Ranges} {a : View} {w₀ : World} {P : Look → Prop}

theorem goes_own {α α' : Type} {Q : World → α → α' → Prop} {x : Run α} {x' : Ideal α'} {i : World}
    (h : ∀ u, World.KeepsBut a.block i u → (k.tracking rs a w₀).Rel u Q x x') :
    (k.sharing rs a w₀ P).Goes Q i (own x) (own x') := by
  intro s s' hi ⟨htracks, hagrees⟩
  obtain ⟨hkeeps, htracks', hconcur⟩ := h s.1 hi s'.1 htracks
  exact ⟨hkeeps, ⟨htracks', hagrees.mono fun v l hv => ⟨hv.1.mono hkeeps, hv.2⟩⟩, hconcur⟩

theorem carries : (k.sharing rs a w₀ P).Carries fun u v l => v.Shows u a.block l ∧ P l where
  fetch i cell init init' hinit s s' hi hboth := by
    refine ⟨keepsBut_refl a _, hboth, ?_⟩
    exact hboth.2.get ⟨hinit.1.mono hi, hinit.2⟩ cell
  put i cell v l hv s s' hi hboth := by
    refine ⟨keepsBut_refl a _, ⟨hboth.1, ?_⟩, trivial⟩
    exact hboth.2.set ⟨hv.1.mono hi, hv.2⟩ cell

end

namespace Launched

variable {k : Kernel} {scope : Scope} {w w' : World} {s : Setup} {a : View}
  (h : k.Launched scope w s w' a) {P : Look → Prop} {g : Look → Look → Except Error Look}
  (tame : k.TameLoops scope w P g)

include h tame

/-- Step by step, the machine of the loops does what the ideal machine does. -/
theorem stepwise_follows :
    (s.machine k scope).stepwise.Follows (k.sharing s.ranges a w' P).simulation w'
      (fun u v l => v.Shows u a.block l ∧ P l) k.plan s.ranges
      ((k.rule scope w g a.type (s.init.look w'.heap)).machine k.outputIndices).stepwise where
  mono _ _ _ _ hu hv := ⟨hv.1.mono hu, hv.2⟩
  element _ env hu henv := goes_own fun u' hu' =>
    (h.follows tame).element u' env (hu.trans hu') henv
  init := (h.follows tame).init
  combine hbody _ acc acc' v v' hu hacc hv := goes_own fun u' hu' =>
    (h.follows tame).combine hbody u' acc acc' v v' (hu.trans hu') ⟨hacc.1.mono hu', hacc.2⟩
      ⟨hv.1.mono hu', hv.2⟩
  store _ env v l hu henv hv := goes_own fun u' hu' =>
    (h.follows tame).store u' env v l (hu.trans hu') henv ⟨hv.1.mono hu', hv.2⟩

/-- Workers that take turns do to the array what the visits of an ideal run do to the cells. -/
theorem workers_tracks {c : Crew (World × Table Value)} (hreach : Crew.Reaches (k.workers scope s w') c)
    {r : Except Error Unit} (hr : c.result = some r) :
    r = (runVisits ((k.rule scope w g a.type (s.init.look w'.heap)).visits k.outputIndices k.plan s.ranges)
        Rule.blankSlots).map (fun _ => ⟨⟩) ∧
    ∀ cells, (runVisits ((k.rule scope w g a.type (s.init.look w'.heap)).visits k.outputIndices k.plan s.ranges)
        Rule.blankSlots).map (fun s c => (s c).1) = .ok cells →
      k.Tracks s.ranges a w' c.state.1 cells := by
  obtain ⟨read, hk⟩ := h.planned
  have hw : ∀ g, k.plan.tiles = some g → 0 < g.width := fun g hg => (hk.group_sound hg).2.1
  have hpairs := pairs_crew k.outputIndices (h.stepwise_follows tame) carries k.config.workerCount
    h.prepared.resolved.gapless (by simp [hk.outer_eq]) w' (fun _ => none) rfl ⟨.start k s.ranges a w', .nil⟩
  obtain ⟨c', hreach', hpairs'⟩ := hpairs.reaches hreach
  obtain ⟨hresult, hcells⟩ := Rule.crew_result _ k.outputIndices hw
    (by simp [hk.outer_eq, k.nodup_outputIndices]) (by simp [hk.outer_eq]) hreach'
    (hpairs'.result_eq.symm.trans hr)
  refine ⟨hresult, fun cells h => ?_⟩
  rw [← hcells cells h]
  exact hpairs'.both.1

end Launched

/-! ## Modes -/

/-- Without their configurations, kernels that are compiled from one statement are the same. -/
theorem Planned.eq_of_statement {k k' : Kernel} {read read' : Reduction.Partial} (h : k.Planned read)
    (h' : k'.Planned read') (hs : k'.statement = k.statement) :
    k'.analysis = k.analysis ∧ k'.symbols = k.symbols := by
  have hclause := h'.clause
  rw [hs, h.clause] at hclause
  cases hclause
  have hcollection : k'.analysis.collection = k.analysis.collection := by
    rw [h'.collection, hs, h.collection]
  have hcatalog : k'.analysis.catalog = k.analysis.catalog := by
    rw [h'.catalog, hs, hcollection, h.catalog]
  have htiling : k'.analysis.tiling = k.analysis.tiling := by
    have ht := h.tiling
    have ht' := h'.tiling
    rw [hs] at ht'
    cases hclause : k.statement.tiling with
    | none =>
      rw [hclause] at ht ht'
      exact ht'.trans ht.symm
    | some clause =>
      rw [hclause] at ht ht'
      obtain ⟨t, hread, ht⟩ := ht
      obtain ⟨t', hread', ht'⟩ := ht'
      cases hread.symm.trans hread'
      exact ht'.trans ht.symm
  have hreduction : k'.analysis.reduction = k.analysis.reduction := by
    have hread : Analysis.mk k'.statement k'.analysis.collection k'.analysis.catalog read.reduction
        k'.analysis.tiling = { k.analysis with reduction := read.reduction } := by
      rw [hs, hcollection, hcatalog, htiling]
      rfl
    have hsettled := (congrArg Analysis.settleReduction hread).symm.trans h'.settled
    exact Except.ok.inj (hsettled.symm.trans h.settled)
  have hanalysis : k'.analysis = k.analysis := by
    change Analysis.mk k'.statement _ _ _ _ = Analysis.mk k.statement _ _ _ _
    rw [hs, hcollection, hcatalog, hreduction, htiling]
  refine ⟨hanalysis, ?_⟩
  have hsymbols := h'.symbols
  rw [hanalysis, h.symbols] at hsymbols
  exact (Except.ok.inj hsymbols).symm

/-- A computation does what another does, up to what is in the log. -/
def UpToLog {α : Type} (x' x : Run α) : Prop :=
  ∀ w, ∃ log, exec x' w = ((exec x w).1, { (exec x w).2 with log := log })

theorem UpToLog.bind {α β : Type} (x : Run α) {f' f : α → Run β} (h : ∀ a, UpToLog (f' a) (f a)) :
    UpToLog (x >>= f') (x >>= f) := by
  intro w
  rw [Run.exec_bind, Run.exec_bind]
  rcases exec x w with ⟨e | a, w'⟩
  · exact ⟨w'.log, rfl⟩
  · exact h a w'

/-- The mode of a call shows in the log only. -/
theorem upToLog_prepare {k k' : Kernel} (hanalysis : k'.analysis = k.analysis)
    (hsymbols : k'.symbols = k.symbols) (hreduction : k'.reduction = k.reduction) (scope : Scope) :
    UpToLog (k'.prepare scope) (k.prepare scope) := by
  have hstatement : k'.statement = k.statement := congrArg Analysis.statement hanalysis
  have houtput (rs : Ranges) (element : Env → Run Value) :
      k'.makeOutput scope rs element = k.makeOutput scope rs element := by
    simp only [makeOutput, newOutput, sample, newShape, hstatement, hsymbols]
  have hreducer (t : ElemType) : k'.reducer scope t = k.reducer scope t := by
    simp only [reducer, hreduction, hanalysis]
  simp only [prepare, houtput, hreducer, hanalysis, hstatement]
  refine .bind _ fun rs => .bind _ fun code => .bind _ fun out => .bind _ fun start => .bind _ fun text => ?_
  exact fun w => ⟨_, rfl⟩

/-- Kernels that differ in their configurations at most: one of them may be for workers. -/
structure SameButMode (k k₀ : Kernel) : Prop where
  analysis : k.analysis = k₀.analysis
  symbols : k.symbols = k₀.symbols
  body : k.plan.body = k₀.plan.body
  tiles : k.plan.tiles = k₀.plan.tiles
  outer : k.plan.outer = k₀.plan.outer

theorem Planned.sameButMode {k k₀ : Kernel} {read read₀ : Reduction.Partial} (hk : k.Planned read)
    (hk₀ : k₀.Planned read₀) (hs : k.statement = k₀.statement) : k.SameButMode k₀ := by
  obtain ⟨hanalysis, hsymbols⟩ := hk₀.eq_of_statement hk hs
  refine ⟨hanalysis, hsymbols, ?_, ?_, ?_⟩
  · rw [hk.plan, hk₀.plan, hanalysis, hsymbols]
    rfl
  · rw [hk.plan, hk₀.plan, hanalysis, hsymbols]
    rfl
  · rw [hk.outer_eq, hk₀.outer_eq, outputIndices, hanalysis, outputIndices]

namespace SameButMode

variable {k k₀ : Kernel} (h : k.SameButMode k₀)

include h

theorem statement_eq : k.statement = k₀.statement := congrArg Analysis.statement h.analysis

theorem reduction_eq : k.reduction = k₀.reduction := by
  rw [reduction, h.body, h.analysis, reduction]

theorem element_eq (scope : Scope) (env : Env) : k.element scope env = k₀.element scope env := by
  rw [element, h.analysis, h.statement_eq, element]

theorem sameTask : k.SameTask k₀ where
  target := by rw [h.statement_eq]
  rhs := by rw [h.statement_eq]
  op := by rw [h.analysis]
  init := by rw [h.analysis]
  bound i := by rw [bound, h.analysis, bound]

theorem upToLog_launch (scope : Scope) : UpToLog (k.launch scope) (k₀.launch scope) := by
  unfold launch
  split
  · exact fun w => ⟨w.log, rfl⟩
  · exact upToLog_prepare h.analysis h.symbols h.reduction_eq scope

theorem visits_eq (scope : Scope) (w : World) (g : Look → Look → Except Error Look) (t : ElemType)
    (init : Look) (rs : Ranges) : (k.rule scope w g t init).visits k.outputIndices k.plan rs =
      (k₀.rule scope w g t init).visits k₀.outputIndices k₀.plan rs := by
  have hrule : k.rule scope w g t init = k₀.rule scope w g t init := by
    simp only [rule, h.element_eq]
  rw [hrule]
  simp only [Rule.visits, Plan.blocks, Plan.cells, outputIndices, h.analysis, h.body, h.tiles, h.outer]

theorem tameLoops {scope : Scope} {w : World} {P : Look → Prop} {g : Look → Look → Except Error Look}
    (tame : k.TameLoops scope w P g) : k₀.TameLoops scope w P g where
  element env := h.element_eq scope env ▸ tame.element env
  value env := h.element_eq scope env ▸ tame.value env
  start r t env := h.element_eq scope env ▸ h.analysis ▸ h.reduction_eq ▸ tame.start r t env
  closed := tame.closed
  combine := h.reduction_eq ▸ tame.combine

theorem still {scope : Scope} (still : k.Still scope) : k₀.Still scope where
  catalog := h.analysis ▸ still.catalog
  element env := h.element_eq scope env ▸ still.element env
  initial := h.analysis ▸ h.reduction_eq ▸ still.initial
  combine := h.reduction_eq ▸ still.combine

/-- However the workers of one kernel take turns, they come to what the loops of the other come to. -/
theorem workers_eq_runPlan {scope : Scope} {w w' w₀ : World} {s : Setup} {a : View}
    (hl : k.Launched scope w s w' a) (hl₀ : k₀.Launched scope w s w₀ a) (hheap : w'.heap = w₀.heap)
    {P : Look → Prop} {g : Look → Look → Except Error Look} (tame : k.TameLoops scope w P g)
    {c : Crew (World × Table Value)} (hreach : Crew.Reaches (k.workers scope s w') c)
    {r : Except Error Unit} (hr : c.result = some r) {r₀ : Except Error PUnit} {u₀ : World}
    (hloops : exec (runPlan (s.machine k₀ scope) k₀.config.workerCount k₀.outputIndices k₀.plan s.ranges) w₀ =
      (r₀, u₀)) :
    r = r₀ ∧ (r = .ok ⟨⟩ → s.out.look c.state.1.heap = s.out.look u₀.heap) := by
  obtain ⟨read, hk⟩ := hl.planned
  obtain ⟨read₀, hk₀⟩ := hl₀.planned
  obtain ⟨hresult, htracks⟩ := hl.workers_tracks tame hreach hr
  obtain ⟨hresult₀, htracks₀⟩ := hl₀.runPlan_tracks (h.tameLoops tame) k₀.config.workerCount
  rw [hloops] at hresult₀ htracks₀
  rw [hheap, h.visits_eq] at hresult htracks
  refine ⟨hresult.trans hresult₀.symm, fun hok => ?_⟩
  obtain ⟨slots, hslots, -⟩ := map_eq_ok (hresult.symm.trans hok)
  rw [hslots] at htracks htracks₀
  have hfresh := hl.fresh
  rw [newShape, h.statement_eq] at hfresh
  rw [hl.out]
  refine (htracks _ rfl).look_eq (htracks₀ _ rfl) hfresh hl₀.fresh rfl fun env => ?_
  rw [h.sameTask.outputIndices_eq]
  exact ⟨.rfl, h.sameTask.positions_eq env, rfl⟩

end SameButMode

/-- **The order in which workers take turns does not show.** A statement is compiled for workers and
to be run in turn; nothing that a call evaluates changes what is there, and evaluating and reducing are
pure. The start value may be another one each time it is found, since a call finds it once. Then no order
of steps goes on for ever or gets stuck. If the call without workers fails, every order comes to the same
error. If it returns, every order comes to an array that looks the same. -/
theorem call_interleaved {config config₀ : Config} {source : String} {k k₀ : Kernel}
    (hk : Compiles config source k) (hk₀ : Compiles config₀ source k₀)
    (hs : k.statement.allocates = true) {scope : Scope} (still : k.Still scope) {w : World} {P : Look → Prop}
    {g : Look → Look → Except Error Look} (tame : k.TameLoops scope w P g) :
    (∀ s w' c, exec (k.launch scope) w = (.ok s, w') → Crew.Reaches (k.workers scope s w') c →
      Acc (fun c'' c' => Crew.Step c' c'') c ∧ (c.result = none → ∃ c', Crew.Step c c')) ∧
    (∀ e, (exec (k₀.call scope) w).1 = .error e → ∀ r u, k.Interleaves scope w r u → r = .error e) ∧
    ∀ out u₀, exec (k₀.call scope) w = (.ok out, u₀) → ∀ r u, k.Interleaves scope w r u →
      ∃ out', r = .ok out' ∧ out'.look u.heap = out.look u₀.heap := by
  obtain ⟨-, read, hp⟩ := hk.planned
  obtain ⟨-, read₀, hp₀⟩ := hk₀.planned
  have hstatement : k.statement = k₀.statement :=
    Except.ok.inj (hk.readStatement_eq.1.symm.trans hk₀.readStatement_eq.1)
  have hsame := hp.sameButMode hp₀ hstatement
  refine ⟨fun s w' c _ _ => ⟨c.acc_step, Crew.exists_step⟩, ?_⟩
  obtain ⟨log, hlaunch⟩ := hsame.upToLog_launch scope w
  rcases hlaunch₀ : exec (k₀.launch scope) w with ⟨e | s, w₀⟩
  · rw [hlaunch₀] at hlaunch
    rw [call_eq, Run.exec_bind_error hlaunch₀]
    refine ⟨fun e' he r u hr => ?_, fun out u₀ hcall => by cases hcall⟩
    cases he
    exact (hr.of_launch_error hlaunch).1
  · rw [hlaunch₀] at hlaunch
    have hs₀ : k₀.statement.allocates = true := hstatement ▸ hs
    obtain ⟨a, hl⟩ := exists_launched hp still hs tame.element (launch_eq_ok hlaunch)
    obtain ⟨a₀, hl₀⟩ := exists_launched hp₀ (hsame.still still) hs₀ (hsame.tameLoops tame).element
      (launch_eq_ok hlaunch₀)
    cases hl.out.symm.trans hl₀.out
    rw [call_eq, Run.exec_bind_ok hlaunch₀, Run.exec_bind]
    rcases hloops : exec (runPlan (s.machine k₀ scope) k₀.config.workerCount k₀.outputIndices k₀.plan
      s.ranges) w₀ with ⟨e | _, u₀⟩
    · refine ⟨fun e' he r u hr => ?_, fun out u₀ hcall => by cases hcall⟩
      cases he
      obtain ⟨c, o, hreach, hresult, rfl, -⟩ := hr.of_launch_ok hlaunch
      rw [(hsame.workers_eq_runPlan hl hl₀ rfl tame hreach hresult hloops).1]
      rfl
    · refine ⟨fun e he => (by cases he), fun out u₀ hcall r u hr => ?_⟩
      cases hcall
      obtain ⟨c, o, hreach, hresult, rfl, rfl⟩ := hr.of_launch_ok hlaunch
      obtain ⟨rfl, hlook⟩ := hsame.workers_eq_runPlan hl hl₀ rfl tame hreach hresult hloops
      exact ⟨s.out, rfl, hlook rfl⟩

/-- Kernels that add up the cubes with two workers, in blocks and unrolled steps, come to the sums that
are found without workers. -/
theorem call_interleaved_cubes : ∃ k k₀,
    Compiles ⟨true, some 2⟩ "Z[i] := X[i, j, l] (+, l, unroll(2), j) \x7btile(2), i, l\x7d" k ∧
    Compiles {} "Z[i] := X[i, j, l] (+, l, unroll(2), j) \x7btile(2), i, l\x7d" k₀ ∧
    ∃ out u₀, exec (k₀.call cubes) cubesWorld = (.ok out, u₀) ∧ (∃ r u, k.Interleaves cubes cubesWorld r u) ∧
      ∀ r u, k.Interleaves cubes cubesWorld r u → ∃ out', r = .ok out' ∧ out'.look u.heap = out.look u₀.heap := by
  let source := "Z[i] := X[i, j, l] (+, l, unroll(2), j) \x7btile(2), i, l\x7d"
  obtain ⟨k, hk, hcheck⟩ := exists_compiles ⟨true, some 2⟩ source
    (fun k => k.isSumOf ["i"] "X" ["i", "j", "l"] && k.analysis.catalog.isPlain cubes k.analysis.indexNames)
    (by decide +kernel)
  obtain ⟨k₀, hk₀, hsum₀⟩ := exists_compiles {} source (fun k => k.isSumOf ["i"] "X" ["i", "j", "l"])
    (by decide +kernel)
  simp only [Bool.and_eq_true] at hcheck
  obtain ⟨hsum, hplain⟩ := hcheck
  obtain ⟨out, u₀, hrun⟩ := exists_run_cubes hk₀ hsum₀
  obtain ⟨-, read, hp⟩ := hk.planned
  have hexchangeable := (sums_cubes hsum).exchangeable hp (Catalog.still_of_quiet quiet_cubes _ _)
    (Catalog.steady_of_isPlain hplain cubesWorld)
  have hcall : exec (k₀.call cubes) cubesWorld = (.ok out, u₀) := hrun
  exact ⟨k, k₀, hk, hk₀, out, u₀, hcall, k.exists_interleaves cubes cubesWorld,
    (call_interleaved hk hk₀ (allocates_of_isSumOf hsum) (still_of_quiet quiet_cubes k)
      hexchangeable.toTame.loops).2.2 out u₀ hcall⟩

end Kernel
end IndexNotation
