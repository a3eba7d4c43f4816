import IndexNotation.Proofs.Preparation
import IndexNotation.Proofs.Processes

/-!
# The workers of a call

The loops of a plan as processes. Each chunk of the outermost loop is one process. Evaluating the
right-hand side, taking a value into an accumulator and storing a value are atomic steps, and so are
reading and writing the accumulators that wait for more, which all processes share. The blocks of a
tiled group are done in turn, and then the accumulators are stored.

Machines that do the same at the points of a plan make workers that match, step by step. If the machines
agree there, the workers are the same.
-/

namespace IndexNotation

open Run (exec)

variable {σ τ V α : Type}

/-! ## Loops as processes -/

namespace Process

/-- A computation on the first part of the state, as one step. -/
def own (x : ExceptT Error (StateM σ) α) : Process (σ × τ) α :=
  step (fun s => ((exec x s.1).2, s.2)) fun s => done (exec x s.1).1

/-- Reads the accumulator of a cell. -/
def fetch (cell : List Int) (init : V) : Process (σ × Table V) V :=
  step id fun s => done (.ok (s.2.get cell init))

/-- Writes the accumulator of a cell. -/
def put (cell : List Int) (v : V) : Process (σ × Table V) PUnit :=
  step (fun s => (s.1, s.2.set cell v)) fun _ => done (.ok ⟨⟩)

end Process

open Process (own fetch put runAll)

/-- A machine that does everything as one step of a process. -/
def Machine.stepwise (k : Machine (ExceptT Error (StateM σ)) V) : Machine (Process (σ × Table V)) V where
  element env := own (k.element env)
  combine acc v := own (k.combine acc v)
  store env v := own (k.store env v)
  init := k.init

section

variable (k : Machine (ExceptT Error (StateM σ)) V) (outputs : List String)

/-- What a worker does for one output cell. -/
def workCell (rs : Ranges) (body : Body) (env : Env) : Process (σ × Table V) PUnit :=
  match body with
  | .store => do k.stepwise.store env (← k.stepwise.element env)
  | .reduce _ false loops => do k.stepwise.store env (← reduceCell k.stepwise rs loops env k.init)
  | .reduce _ true loops => do
    let acc ← fetch (env.cell outputs) k.init
    put (env.cell outputs) (← reduceCell k.stepwise rs loops env acc)

/-- The processes of a block: one for each chunk, if the outermost loop is parallel and there is more
than one worker, and otherwise one for the whole loop. Each does the work for its cells in order. -/
def share (workers : Nat) (p : Plan) (rs : Ranges) (cell : Env → Process σ PUnit) : List (Process σ PUnit) :=
  match p.outputs with
  | [] => [cell []]
  | outermost :: rest =>
    let r := rs.get outermost.index
    let loops := rest.map fun l => (l.index, (rs.get l.index).toList)
    (if outermost.parallel && 1 < workers then r.partition workers else [r]).map fun chunk =>
      foldLoops ((outermost.index, chunk.toList) :: loops) (fun env _ => cell env) [] ⟨⟩

def blockWork (workers : Nat) (p : Plan) (rs : Ranges) : List (Process (σ × Table V) PUnit) :=
  share workers p rs (workCell k outputs rs p.body)

/-- Stores the accumulators of all output cells. -/
def flushWork (rs : Ranges) : Process (σ × Table V) PUnit :=
  foldLoops (outputs.map fun i => (i, (rs.get i).toList))
    (fun env _ => do k.stepwise.store env (← fetch (env.cell outputs) k.init)) [] ⟨⟩

/-- All processes of a plan, before they start. -/
def crew (workers : Nat) (p : Plan) (rs : Ranges) (s : σ) : Crew (σ × Table V) where
  state := (s, [])
  active := []
  waiting := (p.blocks rs).map (blockWork k outputs workers p) ++
    if p.body.resumes then [[flushWork k outputs rs]] else []

end

/-! ## Compared with others -/

/-- Processes match if what they do for cells does. -/
theorem goes_share {σ σ' : Type} {C : Comparison σ σ'} {i : C.Stage} {p : Plan} {rs rs' : Ranges}
    {cell : Env → Process σ PUnit} {cell' : Env → Process σ' PUnit} (workers : Nat) (hr : rs'.Refines rs)
    (h : ∀ env : Env, env.Covers rs p.outer → ∀ j, C.le i j →
      C.Goes (fun _ _ _ => True) j (cell env) (cell' env)) :
    List.Forall₂ (C.Goes (fun _ _ _ => True) i) (share workers p rs' cell) (share workers p rs' cell') := by
  unfold share
  cases ho : p.outputs with
  | nil => exact .cons (h [] (by simpa [Plan.outer, ho] using Env.Covers.nil) i (C.refl i)) .nil
  | cons outermost rest =>
    dsimp only
    rw [List.forall₂_map_left_iff, List.forall₂_map_right_iff, List.forall₂_same]
    intro chunk hchunk
    have hvalues : ∀ v ∈ chunk.toList, v ∈ (rs.get outermost.index).toList := by
      refine fun v hv => (hr _).2 v ?_
      split at hchunk
      · exact Range.mem_of_mem_pieces hchunk hv
      · rwa [List.mem_singleton.1 hchunk] at hv
    refine C.simulation.foldLoops rs [] _ (fun l hl v hv => ?_) (fun env henv j _ _ hij _ => ?_) .nil trivial
    · rcases List.mem_cons.1 hl with rfl | hl
      · exact hvalues v hv
      · obtain ⟨l, -, rfl⟩ := List.mem_map.1 hl
        exact (hr _).2 v hv
    · refine h env (henv.mono fun x hx => ?_) j hij
      simpa [Plan.outer, ho, or_comm, eq_comm] using hx

section

variable {σ' V' : Type} {C : Comparison (σ × Table V) (σ' × Table V')} {R : C.Stage → V → V' → Prop}

/-- Accumulators that are read and written match. -/
structure Comparison.Carries (C : Comparison (σ × Table V) (σ' × Table V')) (R : C.Stage → V → V' → Prop) :
    Prop where
  fetch : ∀ i cell init init', R i init init' → C.Goes R i (fetch cell init) (fetch cell init')
  put : ∀ i cell v v', R i v v' → C.Goes (fun _ _ _ => True) i (put cell v) (put cell v')

variable (outputs : List String) {i : C.Stage} {p : Plan} {rs rs' : Ranges}
  {k : Machine (ExceptT Error (StateM σ)) V} {k' : Machine (ExceptT Error (StateM σ')) V'}
  (h : k.stepwise.Follows C.simulation i R p rs k'.stepwise) (hc : C.Carries R)

include h hc

theorem goes_workCell (hr : rs'.Refines rs) {env : Env} (henv : env.Covers rs p.outer) {j : C.Stage}
    (hij : C.le i j) : C.Goes (fun _ _ _ => True) j (workCell k outputs rs' p.body env)
      (workCell k' outputs rs' p.body env) := by
  have hinit (hbody : p.body ≠ .store) : R j k.init k'.init := h.mono i j _ _ hij (h.init hbody)
  have hreduce (hbody : p.body ≠ .store) {l : C.Stage} (hjl : C.le j l) {acc : V} {acc' : V'}
      (hacc : R l acc acc') := reduceCell_rel h hbody hr henv (C.trans hij hjl) hacc
  have hstore (l : C.Stage) (v : V) (v' : V') (hjl : C.le j l) (hv : R l v v') :=
    h.store l env v v' (C.trans hij hjl) henv hv
  have helement := h.element j env hij
  generalize hb : p.body = b at hinit hreduce helement
  cases b with
  | store =>
    refine C.simulation.bind (helement ?_) hstore
    simpa [Plan.inner, hb, Body.loops] using henv
  | reduce op resume loops =>
    have hbody : Body.reduce op resume loops ≠ .store := Body.noConfusion
    cases resume with
    | false => exact C.simulation.bind (hreduce hbody (C.refl j) (hinit hbody)) hstore
    | true =>
      have hfetch : C.simulation.Rel j R (fetch (env.cell outputs) k.init) (fetch (env.cell outputs) k'.init) :=
        hc.fetch j _ _ _ (hinit hbody)
      refine C.simulation.bind hfetch fun l acc acc' hjl hacc => ?_
      exact C.simulation.bind (hreduce hbody hjl hacc) fun n v v' _ hv => hc.put n _ v v' hv

theorem goes_blockWork (workers : Nat) (hr : rs'.Refines rs) :
    List.Forall₂ (C.Goes (fun _ _ _ => True) i) (blockWork k outputs workers p rs')
      (blockWork k' outputs workers p rs') :=
  goes_share workers hr fun _ henv _ hij => goes_workCell outputs h hc hr henv hij

theorem goes_flushWork (hbody : p.body ≠ .store) (hout : ∀ x, x ∈ outputs ↔ x ∈ p.outer) :
    C.Goes (fun _ _ _ => True) i (flushWork k outputs rs) (flushWork k' outputs rs) := by
  refine C.simulation.foldLoops rs [] _ (fun l hl v hv => ?_) (fun env henv j _ _ hij _ => ?_) .nil trivial
  · obtain ⟨x, -, rfl⟩ := List.mem_map.1 hl
    exact hv
  · refine C.simulation.bind (hc.fetch j _ _ _ (h.mono i j _ _ hij (h.init hbody))) fun l v v' hjl hv => ?_
    refine h.store l env v v' (C.trans hij hjl) (henv.mono fun x hx => ?_) hv
    simpa using (hout x).2 hx

/-- Machines that do the same at the points of a plan have crews that match. -/
theorem pairs_crew (workers : Nat) (hrs : rs.Gapless)
    (hout : ∀ x, x ∈ outputs ↔ x ∈ p.outer) (s : σ) (s' : σ') (hi : C.stage (s, []) = i)
    (hboth : C.Both (s, []) (s', [])) :
    C.Pairs (crew k outputs workers p rs s) (crew k' outputs workers p rs s') := by
  subst hi
  refine ⟨hboth, .cons .nil (List.rel_append ?_ ?_)⟩
  · rw [List.forall₂_map_left_iff, List.forall₂_map_right_iff, List.forall₂_same]
    exact fun rs' hrs' => goes_blockWork outputs h hc workers (Plan.refines_of_mem_blocks hrs hrs')
  · split
    · rename_i hresumes
      have hbody : p.body ≠ .store := fun e => by simp [e, Body.resumes] at hresumes
      exact .cons (.cons (goes_flushWork outputs h hc hbody hout) .nil) .nil
    · exact .nil

end

/-! ## Machines that agree -/

/-- Two machines do the same at all points that a plan can come to. -/
structure Machine.Agrees {m : Type → Type} (k k' : Machine m V) (p : Plan) (rs : Ranges) : Prop where
  element : ∀ env : Env, env.Covers rs (p.outer ++ p.inner) → k.element env = k'.element env
  combine : ∀ acc v, k.combine acc v = k'.combine acc v
  store : ∀ env : Env, env.Covers rs p.outer → ∀ v, k.store env v = k'.store env v
  init : k.init = k'.init

theorem Machine.Agrees.follows {m : Type → Type} [Monad m] [MonadExceptOf Error m] {S : Simulation m m}
    (hS : ∀ {α : Type} {Q : α → α → Prop} (i : S.Stage) (x : m α), (∀ a, Q a a) → S.Rel i (fun _ => Q) x x)
    {k k' : Machine m V} {p : Plan} {rs : Ranges} (h : k.Agrees k' p rs) (i : S.Stage) :
    k.Follows S i (fun _ => Eq) p rs k' where
  mono _ _ _ _ _ := id
  element j env _ henv := h.element env henv ▸ hS j _ fun _ => rfl
  init _ := h.init
  combine _ j acc _ v _ _ hacc hv := by
    cases hacc
    cases hv
    exact h.combine acc v ▸ hS j _ fun _ => rfl
  store j env v _ _ henv hv := by
    cases hv
    exact h.store env henv v ▸ hS j _ fun _ => trivial

/-- Runs that leave the same world behind, whatever the world they start in. -/
def Simulation.exact : Simulation Run Run where
  Stage := Unit
  le _ _ := True
  refl _ := trivial
  trans _ _ := trivial
  Rel _ Q x x' := ∀ w, (exec x w).2 = (exec x' w).2 ∧ Concur (Q ()) (exec x w).1 (exec x' w).1
  pure hQ w := ⟨rfl, hQ⟩
  bind := by
    intro α α' β β' i Q Q' x x' f f' hx hf w
    obtain ⟨hworld, hQ⟩ := hx w
    rw [Run.exec_bind, Run.exec_bind]
    generalize exec x w = r, exec x' w = r' at hworld hQ
    obtain ⟨e | a, w₁⟩ := r <;> obtain ⟨e' | a', w₂⟩ := r' <;> cases hworld
    · exact ⟨rfl, hQ⟩
    · exact hQ.elim
    · exact hQ.elim
    · exact hf () a a' trivial hQ w₁
  throw e w := ⟨rfl, rfl⟩
  attempt := by
    intro α α' i Q x x' hx w
    rw [Run.exec_attempt, Run.exec_attempt]
    exact hx w

theorem Simulation.exact_self {Q : α → α → Prop} (i : Unit) (x : Run α) (hQ : ∀ a, Q a a) :
    exact.Rel i (fun _ => Q) x x := by
  intro w
  refine ⟨rfl, ?_⟩
  rcases exec x w with ⟨e | a, _⟩
  · rfl
  · exact hQ a

theorem Simulation.exec_eq_of_exact {Q : Unit → PUnit → PUnit → Prop} {x x' : Run PUnit}
    (h : Simulation.exact.Rel () Q x x') (w : World) : exec x w = exec x' w := by
  obtain ⟨hworld, hQ⟩ := h w
  generalize exec x w = r, exec x' w = r' at hworld hQ
  obtain ⟨e | a, w₁⟩ := r <;> obtain ⟨e' | a', w₂⟩ := r' <;> cases hworld
  · rw [show e = e' from hQ]
  · exact hQ.elim
  · exact hQ.elim
  · rfl

/-- Machines that agree run a plan in the same way. -/
theorem Machine.Agrees.exec_runPlan {k k' : Machine Run V} {p : Plan} {rs : Ranges} (h : k.Agrees k' p rs)
    {outputs : List String} (workers : Nat) (hrs : rs.Gapless) (hw : ∀ g, p.tiles = some g → 0 < g.width)
    (hout : ∀ x, x ∈ outputs ↔ x ∈ p.outer) (w : World) :
    exec (runPlan k workers outputs p rs) w = exec (runPlan k' workers outputs p rs) w :=
  Simulation.exec_eq_of_exact
    (runPlan_rel outputs (h.follows (S := .exact) Simulation.exact_self ()) workers hrs hw hout) w

/-- Processes that take the same steps. -/
def Comparison.same (σ : Type) : Comparison σ σ where
  Stage := Unit
  le _ _ := True
  refl _ := trivial
  trans _ _ := trivial
  stage _ := ()
  Both := Eq

namespace Comparison

theorem same_self {Q : α → α → Prop} (i : Unit) (p : Process σ α) (hQ : ∀ a, Q a a) :
    (same σ).Goes (fun _ => Q) i p p := by
  induction p with
  | done r =>
    cases r with
    | error e => exact (rfl : e = e)
    | ok a => exact hQ a
  | step w n ih =>
    rintro s s' - rfl
    exact ⟨trivial, rfl, ih s⟩

theorem eq_of_same {Q : α → α → Prop} (hQ : ∀ a a', Q a a' → a = a') {i : Unit} {p p' : Process σ α}
    (h : (same σ).Goes (fun _ => Q) i p p') : p = p' := by
  induction p generalizing p' with
  | done r =>
    cases p' with
    | step => exact h.elim
    | done r' =>
      cases r <;> cases r'
      · rw [show _ = _ from h]
      · exact h.elim
      · exact h.elim
      · rw [hQ _ _ h]
  | step w n ih =>
    cases p' with
    | done => exact h.elim
    | step w' n' =>
      have hstep (s : σ) := h s s trivial rfl
      obtain rfl : w = w' := funext fun s => (hstep s).2.1
      obtain rfl : n = n' := funext fun s => ih s (hstep s).2.2
      rfl

theorem eq_of_forall_same {ps ps' : List (Process σ PUnit)}
    (h : List.Forall₂ ((same σ).Goes (fun _ _ _ => True) ()) ps ps') : ps = ps' :=
  List.forall₂_eq_eq_eq ▸ h.imp fun _ _ => eq_of_same fun _ _ _ => rfl

theorem Pairs.eq {c c' : Crew σ} (h : (same σ).Pairs c c') : c = c' := by
  obtain ⟨s, ps, waiting⟩ := c
  obtain ⟨s', ps', waiting'⟩ := c'
  obtain ⟨rfl, hgroups⟩ := h
  have heq : ps :: waiting = ps' :: waiting' :=
    List.forall₂_eq_eq_eq ▸ hgroups.imp fun _ _ => eq_of_forall_same
  cases heq
  rfl

end Comparison

/-- Machines that agree make the same workers. -/
theorem Machine.Agrees.crew_eq {k k' : Machine (ExceptT Error (StateM σ)) V} {p : Plan} {rs : Ranges}
    (h : k.Agrees k' p rs) {outputs : List String} (workers : Nat) (hrs : rs.Gapless)
    (hout : ∀ x, x ∈ outputs ↔ x ∈ p.outer) (s : σ) :
    crew k outputs workers p rs s = crew k' outputs workers p rs s := by
  have hsteps : k.stepwise.Agrees k'.stepwise p rs :=
    ⟨fun env henv => congrArg own (h.element env henv), fun acc v => congrArg own (h.combine acc v),
      fun env henv v => congrArg own (h.store env henv v), h.init⟩
  have hcarries : (Comparison.same (σ × Table V)).Carries fun _ => Eq :=
    ⟨fun i _ _ _ hinit => hinit ▸ Comparison.same_self i _ fun _ => rfl,
      fun i _ _ _ hv => hv ▸ Comparison.same_self i _ fun _ => trivial⟩
  exact (pairs_crew outputs (hsteps.follows (S := (Comparison.same _).simulation) Comparison.same_self ())
    hcarries workers hrs hout s s rfl rfl).eq

namespace Kernel

/-! ## Calls with workers that take turns -/

/-- Everything that a call does before its loops. -/
def launch (k : Kernel) (scope : Scope) : Run Setup :=
  if scope.bindings.any (·.1 == ownName) then Run.fail .wrongKind else k.prepare scope

theorem call_eq (k : Kernel) (scope : Scope) : k.call scope = (do
    let s ← k.launch scope
    runPlan (s.machine k scope) k.config.workerCount k.outputIndices k.plan s.ranges
    return s.out) := by
  unfold call launch
  split
  · rfl
  · exact k.run_eq scope

/-- The workers of a call that has been set up. -/
def workers (k : Kernel) (scope : Scope) (s : Setup) (w : World) : Crew (World × Table Value) :=
  crew (s.machine k scope) k.outputIndices k.config.workerCount k.plan s.ranges w

/-- What a call comes to if its workers take their steps in some order. -/
inductive Interleaves (k : Kernel) (scope : Scope) (w : World) : Except Error Value → World → Prop
  | failed {e w'} : exec (k.launch scope) w = (.error e, w') → k.Interleaves scope w (.error e) w'
  | ended {s w' c r} : exec (k.launch scope) w = (.ok s, w') → Crew.Reaches (k.workers scope s w') c →
    c.result = some r → k.Interleaves scope w (r.map fun _ => s.out) c.state.1

namespace Interleaves

variable {k : Kernel} {scope : Scope} {w w' u : World} {r : Except Error Value}

theorem of_launch_error (h : k.Interleaves scope w r u) {e : Error}
    (hlaunch : exec (k.launch scope) w = (.error e, w')) : r = .error e ∧ u = w' := by
  cases h with
  | failed hfailed =>
    cases hlaunch.symm.trans hfailed
    exact ⟨rfl, rfl⟩
  | ended hended => cases hlaunch.symm.trans hended

theorem of_launch_ok (h : k.Interleaves scope w r u) {s : Setup}
    (hlaunch : exec (k.launch scope) w = (.ok s, w')) : ∃ c o, Crew.Reaches (k.workers scope s w') c ∧
      c.result = some o ∧ r = o.map (fun _ => s.out) ∧ u = c.state.1 := by
  cases h with
  | failed hfailed => cases hlaunch.symm.trans hfailed
  | ended hended hreach hresult =>
    cases hlaunch.symm.trans hended
    exact ⟨_, _, hreach, hresult, rfl, rfl⟩

end Interleaves

/-- There is an order of steps. -/
theorem exists_interleaves (k : Kernel) (scope : Scope) (w : World) : ∃ r u, k.Interleaves scope w r u := by
  rcases hlaunch : exec (k.launch scope) w with ⟨e | s, w'⟩
  · exact ⟨_, _, .failed hlaunch⟩
  · obtain ⟨c, r, hreach, hresult⟩ := (k.workers scope s w').exists_result
    exact ⟨_, _, .ended hlaunch hreach hresult⟩

theorem launch_eq_ok {k : Kernel} {scope : Scope} {w w' : World} {s : Setup}
    (h : exec (k.launch scope) w = (.ok s, w')) : exec (k.prepare scope) w = (.ok s, w') := by
  unfold launch at h
  split at h
  · cases h
  · exact h

theorem gapless_of_launch {k : Kernel} {scope : Scope} {w w' : World} {s : Setup}
    (h : exec (k.launch scope) w = (.ok s, w')) : s.ranges.Gapless :=
  gapless_of_prepare (launch_eq_ok h)

end Kernel

end IndexNotation
