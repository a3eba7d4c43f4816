import IndexNotation.Proofs.Crews
import IndexNotation.Proofs.Totals

/-!
# Workers in turn

One after the other, the workers of a call do what its loops do. In an ideal run each of them keeps to the
cells with its own values of the outermost index, so that the order of their steps does not matter.
-/

namespace IndexNotation

open Run (exec SameOutcome)
open Process (own fetch put runAll)

variable {σ τ V α β : Type}

/-! ## One after the other -/

/-- A process that leaves the second part of the state alone, and does what `x` does to the first. -/
def Process.Lifts (p : Process (σ × τ) α) (x : ExceptT Error (StateM σ) α) : Prop :=
  ∀ s t, exec p.run (s, t) = ((exec x s).1, ((exec x s).2, t))

theorem Process.lifts_own (x : ExceptT Error (StateM σ) α) : Lifts (own x : Process (σ × τ) α) x :=
  fun _ _ => rfl

theorem Process.Lifts.bind {p : Process (σ × τ) α} {x : ExceptT Error (StateM σ) α}
    {f : α → Process (σ × τ) β} {g : α → ExceptT Error (StateM σ) β} (h : p.Lifts x)
    (hf : ∀ a, (f a).Lifts (g a)) : (p >>= f).Lifts (x >>= g) := by
  intro s t
  have hp := h s t
  rw [run_bind, Run.exec_bind, Run.exec_bind, hp]
  rcases exec x s with ⟨e | a, s'⟩
  · rfl
  · exact hf a s' t

theorem Process.Lifts.foldlM {f : α → β → Process (σ × τ) α} {g : α → β → ExceptT Error (StateM σ) α}
    (bs : List β) (h : ∀ a, ∀ b ∈ bs, (f a b).Lifts (g a b)) (a : α) :
    Lifts (bs.foldlM f a) (bs.foldlM g a) := by
  induction bs generalizing a with
  | nil => exact fun _ _ => rfl
  | cons b bs ih =>
    rw [List.foldlM_cons, List.foldlM_cons]
    exact (h a b (.head _)).bind fun a' => ih (fun a b hb => h a b (.tail _ hb)) a'

/-- `x` does to the state and the accumulators what `f` does, or both fail with the same error. -/
def Mirrors (x : ExceptT Error (StateM (σ × Table V)) PUnit)
    (f : Table V → ExceptT Error (StateM σ) (Table V)) : Prop :=
  ∀ s t, (∃ s' t', exec (f t) s = (.ok t', s') ∧ exec x (s, t) = (.ok ⟨⟩, (s', t'))) ∨
    ∃ e, (exec (f t) s).1 = .error e ∧ (exec x (s, t)).1 = .error e

namespace Mirrors

variable {x y : ExceptT Error (StateM (σ × Table V)) PUnit}
  {f g : Table V → ExceptT Error (StateM σ) (Table V)}

theorem pure : Mirrors (σ := σ) (V := V) (Pure.pure ⟨⟩) Pure.pure := fun s t => .inl ⟨s, t, rfl, rfl⟩

theorem bind (h : Mirrors x f) (h' : Mirrors y g) : Mirrors (x >>= fun _ => y) (fun t => f t >>= g) := by
  intro s t
  rcases h s t with ⟨s', t', hf, hx⟩ | ⟨e, hf, hx⟩
  · rw [Run.exec_bind_ok hf, Run.exec_bind_ok hx]
    exact h' s' t'
  · refine .inr ⟨e, ?_, ?_⟩
    · rw [Run.exec_bind_error (Prod.ext hf rfl)]
    · rw [Run.exec_bind_error (Prod.ext hx rfl)]

theorem forM (as : List α) {x : α → ExceptT Error (StateM (σ × Table V)) PUnit}
    {f : α → Table V → ExceptT Error (StateM σ) (Table V)} (h : ∀ a ∈ as, Mirrors (x a) (f a)) :
    Mirrors (as.forM x) (fun t => as.foldlM (fun t a => f a t) t) := by
  induction as with
  | nil => exact pure
  | cons a as ih =>
    simp only [List.foldlM_cons]
    exact (h a (.head _)).bind (ih fun b hb => h b (.tail _ hb))

end Mirrors

section

variable (k : Machine (ExceptT Error (StateM σ)) V) (outputs : List String)

theorem lifts_reduceCell (rs : Ranges) (loops : List InnerLoop) (env : Env) (acc : V) :
    (reduceCell k.stepwise rs loops env acc).Lifts (reduceCell k rs loops env acc) := by
  rw [reduceCell, foldLoops_eq, reduceCell, foldLoops_eq]
  refine Process.Lifts.foldlM _ (fun acc p _ => ?_) acc
  exact (Process.lifts_own _).bind fun v => Process.lifts_own (k.combine acc v)

theorem Mirrors.of_lifts {p : Process (σ × Table V) PUnit} {x : ExceptT Error (StateM σ) PUnit}
    (h : p.Lifts x) : Mirrors p.run (fun t => do x; return t) := by
  intro s t
  have hp := h s t
  rcases hx : exec x s with ⟨e | _, s'⟩
  · rw [hx] at hp
    exact .inr ⟨e, by rw [Run.exec_bind_error hx], by rw [hp]⟩
  · rw [hx] at hp
    exact .inl ⟨s', t, Run.exec_bind_ok hx, hp⟩

/-- One process after the other, as one process. -/
theorem Mirrors.foldlM {as : List α} {p : α → Process (σ × Table V) PUnit}
    {f : α → Table V → ExceptT Error (StateM σ) (Table V)} (h : ∀ a ∈ as, Mirrors (p a).run (f a)) :
    Mirrors (as.foldlM (fun _ a => p a) ⟨⟩).run (fun t => as.foldlM (fun t a => f a t) t) := by
  induction as with
  | nil => exact .pure
  | cons a as ih =>
    simp only [List.foldlM_cons, Process.run_bind]
    exact (h a (.head _)).bind (ih fun b hb => h b (.tail _ hb))

theorem mirrors_store {p : Process (σ × Table V) V} {x : ExceptT Error (StateM σ) V} (h : p.Lifts x)
    (env : Env) : Mirrors (p >>= k.stepwise.store env).run (fun t => do k.store env (← x); return t) := by
  have hstore := Mirrors.of_lifts (h.bind fun v => Process.lifts_own (k.store env v))
  simp only [bind_assoc] at hstore
  exact hstore

theorem Process.exec_fetch_bind (cell : List Int) (init : V) (f : V → Process (σ × Table V) α) (s : σ)
    (t : Table V) : exec (fetch cell init >>= f).run (s, t) = exec (f (t.get cell init)).run (s, t) := rfl

theorem mirrors_workCell (rs : Ranges) (body : Body) (env : Env) :
    Mirrors (workCell k outputs rs body env).run (runCell k rs outputs body env) := by
  cases body with
  | store => exact mirrors_store k (Process.lifts_own (k.element env)) env
  | reduce op resume loops =>
    cases resume with
    | false => exact mirrors_store k (lifts_reduceCell k rs loops env k.init) env
    | true =>
      intro s t
      have hreduce := lifts_reduceCell k rs loops env (t.get (env.cell outputs) k.init) s t
      rw [workCell, Process.exec_fetch_bind, Process.run_bind]
      rcases hx : exec (reduceCell k rs loops env (t.get (env.cell outputs) k.init)) s with ⟨e | acc, s'⟩
      · rw [hx] at hreduce
        refine .inr ⟨e, by rw [runCell, Run.exec_bind_error hx], ?_⟩
        rw [Run.exec_bind_error hreduce]
      · rw [hx] at hreduce
        exact .inl ⟨s', t.set (env.cell outputs) acc, Run.exec_bind_ok hx, Run.exec_bind_ok hreduce⟩

theorem mirrors_foldLoops (rs : Ranges) (body : Body) (loops : List (String × List Int)) :
    Mirrors (foldLoops loops (fun env _ => workCell k outputs rs body env) [] ⟨⟩).run
      (fun t => foldLoops loops (runCell k rs outputs body) [] t) := by
  simp only [foldLoops_eq]
  exact Mirrors.foldlM fun p _ => mirrors_workCell k outputs rs body (p.reverse ++ [])

/-- One after the other, the processes of a block visit its cells in order. -/
theorem mirrors_blockWork (workers : Nat) (p : Plan) (rs : Ranges) :
    Mirrors (runAll (blockWork k outputs workers p rs))
      (fun t => (p.cells rs).foldlM (fun t c => runCell k rs outputs p.body c t) t) := by
  have hseq (t : Table V) : runOutputs k 1 outputs p rs t = _ := runOutputs_eq k outputs rs t (by simp)
  simp only [← hseq]
  unfold blockWork share runOutputs
  cases p.outputs with
  | nil =>
    have hcell := (mirrors_workCell k outputs rs p.body []).bind Mirrors.pure
    simp only [bind_pure] at hcell
    exact hcell
  | cons outermost rest =>
    dsimp only
    simp only [Nat.lt_irrefl, decide_false, Bool.and_false, Bool.false_eq_true, if_false]
    have hchunks (chunks : List Range) := Mirrors.forM chunks fun chunk _ =>
      mirrors_foldLoops k outputs rs p.body ((outermost.index, chunk.toList) ::
        rest.map fun l => (l.index, (rs.get l.index).toList))
    rw [runAll, List.forM_eq_forM, List.forM_map]
    split
    · have hpartition := hchunks ((rs.get outermost.index).partition workers)
      simp only [foldLoops, ← foldlM_flatMap, Range.flatMap_partition] at hpartition ⊢
      exact hpartition
    · have hwhole := hchunks [rs.get outermost.index]
      simp only [List.foldlM_cons, List.foldlM_nil, bind_pure] at hwhole
      exact hwhole

theorem mirrors_flushWork (rs : Ranges) :
    Mirrors (flushWork k outputs rs).run (fun t => do flush k outputs rs t; return t) := by
  have hpass (ps : List Env) (t : Table V) : (do
      ps.foldlM (fun _ p => k.store (p.reverse ++ []) (t.get (Env.cell (p.reverse ++ []) outputs) k.init)) ⟨⟩
      return t) = ps.foldlM (fun t p => do
        k.store (p.reverse ++ []) (t.get (Env.cell (p.reverse ++ []) outputs) k.init)
        return t) t := by
    induction ps with
    | nil => rfl
    | cons p ps ih => simp only [List.foldlM_cons, bind_assoc, pure_bind, ih]
  simp only [flushWork, flush, foldLoops_eq, hpass]
  refine Mirrors.foldlM fun p _ s t => ?_
  rw [Process.exec_fetch_bind]
  exact Mirrors.of_lifts (Process.lifts_own _) s t

/-- One after the other, all processes of a plan do what the loops do. -/
theorem exec_rest_crew (workers : Nat) {p : Plan} {rs : Ranges} (hw : ∀ g, p.tiles = some g → 0 < g.width)
    {c : Crew (σ × Table V)} {s : σ} (hc : c = crew k outputs workers p rs s) :
    (∃ s' t, exec (runPlan k workers outputs p rs) s = (.ok ⟨⟩, s') ∧
        exec c.rest c.state = (.ok ⟨⟩, (s', t))) ∨
      ∃ e, (exec (runPlan k workers outputs p rs) s).1 = .error e ∧ (exec c.rest c.state).1 = .error e := by
  have hblocks := Mirrors.forM (p.blocks rs) fun rs' _ => mirrors_blockWork k outputs workers p rs'
  have hflush : Mirrors ((if p.body.resumes then [[flushWork k outputs rs]] else []).forM runAll)
      (fun t => do
        if p.body.resumes then flush k outputs rs t
        return t) := by
    cases p.body.resumes with
    | false => exact .pure
    | true =>
      have hone := ((mirrors_flushWork k outputs rs).bind Mirrors.pure).bind Mirrors.pure
      simp only [bind_pure] at hone
      exact hone
  have hrest : c.rest = (do
      (p.blocks rs).forM fun rs' => runAll (blockWork k outputs workers p rs')
      (if p.body.resumes then [[flushWork k outputs rs]] else []).forM runAll) := by
    simp [hc, Crew.rest, crew, runAll]
  have hplan : SameOutcome ((fun _ => ⟨⟩) <$> do
      let t ← (p.blocks rs).foldlM (fun t rs' =>
        (p.cells rs').foldlM (fun t c => runCell k rs' outputs p.body c t) t) []
      if p.body.resumes then flush k outputs rs t
      return t) (runPlan k workers outputs p rs) := by
    rw [map_bind]
    refine (runTiles_sameOutcome k workers outputs hw).symm.bind fun t => .of_eq ?_
    cases p.body.resumes <;> simp
  rw [hrest, show c.state = (s, []) by rw [hc]; rfl]
  rcases hblocks.bind hflush s [] with ⟨s', t, hloops, hwork⟩ | ⟨e, hloops, hwork⟩
  · refine .inl ⟨s', t, hplan.eq_of_ok ?_, hwork⟩
    rw [Run.exec_map, hloops]
    rfl
  · refine .inr ⟨e, (hplan.fst_eq s).symm.trans ?_, hwork⟩
    rw [Run.exec_map, hloops]
    rfl

end

/-! ## Ideal workers -/

/-- The slots of an ideal run with the accumulators that its processes share. -/
def shared (s : Cells × Table Look) : Slots := slots s.1 s.2

section

open Process (Within)

variable {A : Set (List Int)} {cell : List Int}

/-- A step that changes the slot of one cell, by what is there. -/
theorem within_step {w : Cells × Table Look → Cells × Table Look}
    {n : Cells × Table Look → Process (Cells × Table Look) α} (h : cell ∈ A) (f : Slot → Slot)
    (hw : ∀ s, shared (w s) = Function.update (shared s) cell (f (shared s cell)))
    (hn : ∀ s t, shared s cell = shared t cell → n s = n t) (hnext : ∀ s, (n s).Within shared A) :
    (Process.step w n).Within shared A := by
  refine ⟨fun s c hc => ?_, fun s t hst => ⟨hn s t (hst cell h), fun c hc => ?_⟩, hnext⟩
  · have hne : c ≠ cell := fun e => hc (e ▸ h)
    rw [hw, Function.update_of_ne hne]
  · rw [hw, hw, hst cell h]
    by_cases hne : c = cell
    · rw [hne, Function.update_self, Function.update_self]
    · rw [Function.update_of_ne hne, Function.update_of_ne hne, hst c hc]

theorem within_fetch (h : cell ∈ A) (init : Look) :
    (fetch cell init : Process (Cells × Table Look) Look).Within shared A := by
  refine within_step h id (fun s => (Function.update_eq_self cell _).symm) (fun s t hst => ?_) fun _ => trivial
  exact congrArg (fun slot : Slot => Process.done (.ok (slot.2.getD init))) hst

theorem within_put (h : cell ∈ A) (l : Look) :
    (put cell l : Process (Cells × Table Look) PUnit).Within shared A :=
  within_step h (fun slot => (slot.1, some l)) (fun s => Rule.slots_set s.1 s.2 cell l) (fun _ _ _ => rfl)
    fun _ => trivial

/-- What does not depend on the cells can be done anywhere. -/
theorem within_own_lift (o : Except Error α) :
    (own (liftM o : Ideal α) : Process (Cells × Table Look) α).Within shared A := by
  refine ⟨fun _ _ _ => ?_, fun s t hst => ⟨?_, ?_⟩, fun _ => trivial⟩
  all_goals simp only [Run.exec_lift]
  exact hst

end

namespace Rule

open Process (Within)

variable (r : Rule) (outputs : List String) {A : Set (List Int)}

theorem within_store {env : Env} (h : env.cell outputs ∈ A) (l : Look) :
    ((r.machine outputs).stepwise.store env l).Within shared A := by
  simp only [Machine.stepwise, machine]
  cases r.accept l with
  | error e => exact within_own_lift (.error e)
  | ok v =>
    exact within_step h (fun slot => (some v, slot.2)) (fun s => slots_update s.1 s.2 _ v)
      (fun _ _ _ => rfl) fun _ => trivial

theorem within_reduceCell (rs : Ranges) (loops : List InnerLoop) (env : Env) (acc : Look) :
    (reduceCell (r.machine outputs).stepwise rs loops env acc).Within shared A := by
  rw [reduceCell, foldLoops_eq]
  refine Within.foldlM (fun p _ acc => ?_) acc
  exact (within_own_lift _).bind fun v => within_own_lift (r.combine acc v)

/-- What is done for a cell is done at the cell. -/
theorem within_workCell (rs : Ranges) (body : Body) {env : Env} (h : env.cell outputs ∈ A) :
    (workCell (r.machine outputs) outputs rs body env).Within shared A := by
  cases body with
  | store => exact (within_own_lift _).bind fun l => r.within_store outputs h l
  | reduce op resume loops =>
    cases resume with
    | false => exact (r.within_reduceCell outputs rs loops env _).bind fun l => r.within_store outputs h l
    | true =>
      exact (within_fetch h _).bind fun acc =>
        (r.within_reduceCell outputs rs loops env acc).bind fun l => within_put h l

/-- The cells with values of an index that are in a chunk. -/
def stripe (index : String) (chunk : Range) : Set (List Int) :=
  {cell | ∃ env : Env, ∃ v ∈ chunk.toList, env.lookup index = some v ∧ env.cell outputs = cell}

theorem disjoint_stripe {index : String} (hindex : index ∈ outputs) {chunk chunk' : Range}
    (h : chunk.toList.Disjoint chunk'.toList) :
    ∀ cell ∈ stripe outputs index chunk, cell ∉ stripe outputs index chunk' := by
  rintro cell ⟨env, v, hv, hlookup, hcell⟩ ⟨env', v', hv', hlookup', hcell'⟩
  have hvalue := List.map_inj_left.1 (hcell.trans hcell'.symm) index hindex
  rw [hlookup, hlookup'] at hvalue
  obtain rfl : v = v' := hvalue
  exact h hv hv'

/-- A worker keeps to the cells of its chunk. -/
theorem within_chunk (rs : Ranges) (body : Body) {index : String} (chunk : Range)
    {loops : List (String × List Int)} (hindex : index ∉ loops.map Prod.fst) :
    (foldLoops ((index, chunk.toList) :: loops)
      (fun env _ => workCell (r.machine outputs) outputs rs body env) [] ⟨⟩).Within shared
      (stripe outputs index chunk) := by
  rw [foldLoops_eq]
  refine Within.foldlM (fun p hp _ => r.within_workCell outputs rs body ?_) ⟨⟩
  obtain ⟨v, hv, hp⟩ := List.mem_flatMap.1 hp
  obtain ⟨q, hq, rfl⟩ := List.mem_map.1 hp
  refine ⟨_, v, hv, ?_, rfl⟩
  have hnone : q.reverse.lookup index = none := by
    rw [← Option.not_isSome_iff_eq_none, Env.lookup_isSome, List.map_reverse, List.mem_reverse,
      map_fst_of_mem_points hq]
    exact hindex
  rw [List.append_nil, List.reverse_cons, List.lookup_append, hnone]
  simp

/-- The processes of a block have cells of their own. -/
theorem apart_blockWork (workers : Nat) {p : Plan} (hnodup : p.outer.Nodup) (hout : p.outer ⊆ outputs)
    (rs : Ranges) : ∃ As, Process.Apart shared As (blockWork (r.machine outputs) outputs workers p rs) := by
  unfold blockWork share
  rw [Plan.outer] at hnodup hout
  cases ho : p.outputs with
  | nil =>
    refine ⟨[Set.univ], .cons (r.within_workCell outputs rs p.body (Set.mem_univ _)) .nil, ?_⟩
    exact List.pairwise_singleton _ _
  | cons outermost rest =>
    rw [ho, List.map_cons] at hnodup hout
    dsimp only
    have hchunks {chunks : List Range} (h : chunks.Pairwise fun c c' => c.toList.Disjoint c'.toList) :
        Process.Apart shared (chunks.map (stripe outputs outermost.index)) (chunks.map fun chunk =>
          foldLoops ((outermost.index, chunk.toList) :: rest.map fun l => (l.index, (rs.get l.index).toList))
            (fun env _ => workCell (r.machine outputs) outputs rs p.body env) [] ⟨⟩) := by
      constructor
      · rw [List.forall₂_map_left_iff, List.forall₂_map_right_iff, List.forall₂_same]
        refine fun chunk _ => r.within_chunk outputs rs p.body chunk ?_
        simpa using (List.nodup_cons.1 hnodup).1
      · refine List.pairwise_map.2 (h.imp fun hdisjoint => ?_)
        exact disjoint_stripe outputs (hout (.head _)) hdisjoint
    split
    · have hvalues : (((rs.get outermost.index).partition workers).flatMap Range.toList).Nodup := by
        rw [Range.flatMap_partition]
        exact Range.nodup_toList _
      exact ⟨_, hchunks (List.nodup_flatMap.1 hvalues).2⟩
    · exact ⟨_, hchunks (List.pairwise_singleton _ _)⟩

theorem apart_crew (workers : Nat) {p : Plan} (hnodup : p.outer.Nodup) (hout : p.outer ⊆ outputs)
    (rs : Ranges) (cells : Cells) :
    (crew (r.machine outputs) outputs workers p rs cells).Apart shared := by
  intro ps hps
  rcases List.mem_cons.1 hps with rfl | hps
  · exact ⟨[], .nil, .nil⟩
  rcases List.mem_append.1 hps with hps | hps
  · obtain ⟨rs', -, rfl⟩ := List.mem_map.1 hps
    exact r.apart_blockWork outputs workers hnodup hout rs'
  · split at hps
    · obtain rfl := List.mem_singleton.1 hps
      refine ⟨[Set.univ], .cons ?_ .nil, List.pairwise_singleton _ _⟩
      rw [flushWork, foldLoops_eq]
      refine Within.foldlM (fun p _ _ => ?_) PUnit.unit
      exact (within_fetch (Set.mem_univ _) _).bind fun l => r.within_store outputs (Set.mem_univ _) l
    · cases hps

/-- **However ideal workers take turns, they do the visits of the loops.** -/
theorem crew_result {workers : Nat} {p : Plan} {rs : Ranges} (hw : ∀ g, p.tiles = some g → 0 < g.width)
    (hnodup : p.outer.Nodup) (hout : p.outer ⊆ outputs) {c : Crew (Cells × Table Look)}
    (hreach : Crew.Reaches (crew (r.machine outputs) outputs workers p rs fun _ => none) c)
    {o : Except Error Unit} (ho : c.result = some o) :
    o = (runVisits (r.visits outputs p rs) blankSlots).map (fun _ => ⟨⟩) ∧
    ∀ cells, (runVisits (r.visits outputs p rs) blankSlots).map (fun s c => (s c).1) = .ok cells →
      c.state.1 = cells := by
  obtain ⟨hresult, hshared⟩ := (r.apart_crew outputs workers hnodup hout rs fun _ => none).result_eq hreach ho
  have hvisits := r.exec_runPlan outputs p rs workers hw
  generalize runVisits (r.visits outputs p rs) blankSlots = visited at hvisits ⊢
  rcases exec_rest_crew (r.machine outputs) outputs workers hw rfl
    with ⟨cells, table, hplan, hrest⟩ | ⟨e, hplan, hrest⟩
  · have hstate := hshared (hresult.trans (congrArg Prod.fst hrest))
    rw [hrest] at hresult hstate
    rw [hplan] at hvisits
    obtain ⟨slots, rfl, hcells⟩ := map_eq_ok hvisits.symm
    refine ⟨hresult, fun cells' hcells' => ?_⟩
    refine Eq.trans ?_ (hcells.symm.trans (Except.ok.inj hcells'))
    exact funext fun cell => congrArg Prod.fst (congrFun hstate cell)
  · rw [hplan] at hvisits
    rw [hrest] at hresult
    cases visited with
    | error e' =>
      cases hvisits
      exact ⟨hresult, fun cells hcells => by cases hcells⟩
    | ok slots => cases hvisits

end Rule

end IndexNotation
