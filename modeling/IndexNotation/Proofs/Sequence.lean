import IndexNotation.Proofs.Simulation

/-!
# Chunks and blocks as one sequence

Workers take the chunks of a loop, and tiling cuts loops into blocks. As far as values and errors go,
chunks that are done one after the other are the whole loop; only the state that a failed run leaves
can differ, since the chunks after the one that failed are done all the same. So a plan that does not
resume its reductions is one sequence of cells.
-/

namespace IndexNotation

namespace Run

variable {σ α β : Type}

/-- In every state, two computations give the same and leave the same state, or fail with the same
error. -/
def SameOutcome (x y : ExceptT Error (StateM σ) α) : Prop :=
  ∀ s, (∃ a s', exec x s = (.ok a, s') ∧ exec y s = (.ok a, s')) ∨
    ∃ e, (exec x s).1 = .error e ∧ (exec y s).1 = .error e

namespace SameOutcome

variable {x y z : ExceptT Error (StateM σ) α}

theorem refl (x : ExceptT Error (StateM σ) α) : SameOutcome x x := by
  intro s
  rcases hx : exec x s with ⟨e | a, s'⟩
  · exact .inr ⟨e, rfl, rfl⟩
  · exact .inl ⟨a, s', rfl, rfl⟩

theorem of_eq (h : x = y) : SameOutcome x y := h ▸ refl x

theorem fst_eq (h : SameOutcome x y) (s : σ) : (exec x s).1 = (exec y s).1 := by
  rcases h s with ⟨a, s', hx, hy⟩ | ⟨e, hx, hy⟩
  · rw [hx, hy]
  · rw [hx, hy]

theorem eq_of_ok (h : SameOutcome x y) {s s' : σ} {a : α} (hx : exec x s = (.ok a, s')) :
    exec y s = (.ok a, s') := by
  rcases h s with ⟨b, t, hx', hy⟩ | ⟨e, hx', -⟩
  · rw [hy, ← hx', hx]
  · rw [hx] at hx'
    cases hx'

theorem symm (h : SameOutcome x y) : SameOutcome y x := by
  intro s
  rcases h s with ⟨a, s', hx, hy⟩ | ⟨e, hx, hy⟩
  · exact .inl ⟨a, s', hy, hx⟩
  · exact .inr ⟨e, hy, hx⟩

theorem trans (h : SameOutcome x y) (h' : SameOutcome y z) : SameOutcome x z := by
  intro s
  rcases h s with ⟨a, s', hx, hy⟩ | ⟨e, hx, hy⟩
  · exact .inl ⟨a, s', hx, h'.eq_of_ok hy⟩
  · exact .inr ⟨e, hx, (h'.fst_eq s).symm.trans hy⟩

theorem bind {f g : α → ExceptT Error (StateM σ) β} (h : SameOutcome x y)
    (hf : ∀ a, SameOutcome (f a) (g a)) : SameOutcome (x >>= f) (y >>= g) := by
  intro s
  rcases h s with ⟨a, s', hx, hy⟩ | ⟨e, hx, hy⟩
  · rw [exec_bind_ok hx, exec_bind_ok hy]
    exact hf a s'
  · refine .inr ⟨e, ?_, ?_⟩
    · rw [exec_bind_error (Prod.ext hx rfl)]
    · rw [exec_bind_error (Prod.ext hy rfl)]

theorem foldlM {f g : β → α → ExceptT Error (StateM σ) β} {as : List α}
    (h : ∀ a ∈ as, ∀ b, SameOutcome (f b a) (g b a)) (b : β) :
    SameOutcome (as.foldlM f b) (as.foldlM g b) := by
  induction as generalizing b with
  | nil => exact refl _
  | cons a as ih =>
    rw [List.foldlM_cons, List.foldlM_cons]
    exact (h a (.head _) b).bind fun b' => ih (fun a ha => h a (.tail _ ha)) b'

end SameOutcome

/-- Once a chunk has failed, its error is the error of all. -/
theorem exec_runChunks_some (work : Range → α → ExceptT Error (StateM σ) α) (chunks : List Range)
    (e : Error) (a : α) (s : σ) : (exec (runChunks work chunks (some e) a) s).1 = .error e := by
  induction chunks generalizing a s with
  | nil => rfl
  | cons c chunks ih =>
    rw [runChunks, exec_bind_ok (exec_attempt _ _)]
    rcases exec (work c a) s with ⟨e' | a', s'⟩
    · exact ih a s'
    · exact ih a' s'

/-- The first chunk that fails is where the loop fails. -/
theorem runChunks_sameOutcome (work : Range → α → ExceptT Error (StateM σ) α) (chunks : List Range)
    (a : α) : SameOutcome (runChunks work chunks none a) (chunks.foldlM (fun a c => work c a) a) := by
  induction chunks generalizing a with
  | nil => exact .refl _
  | cons c chunks ih =>
    intro s
    rw [runChunks, exec_bind_ok (exec_attempt _ _), List.foldlM_cons]
    rcases hwork : exec (work c a) s with ⟨e | a', s'⟩
    · refine .inr ⟨e, exec_runChunks_some work chunks e a s', ?_⟩
      rw [exec_bind_error hwork]
    · rw [exec_bind_ok hwork]
      exact ih a' s'

end Run

section

open Run

variable {σ V : Type} (k : Machine (ExceptT Error (StateM σ)) V) (workers : Nat) (outputs : List String)
  {p : Plan} {rs : Ranges}

/-- The loops over the output visit one cell after the other. -/
theorem runOutputs_sameOutcome (p : Plan) (rs : Ranges) (table : Table V) :
    SameOutcome (runOutputs k workers outputs p rs table)
      ((p.cells rs).foldlM (fun table c => runCell k rs outputs p.body c table) table) := by
  have hseq : runOutputs k 1 outputs p rs table = _ := runOutputs_eq k outputs rs table (by simp)
  rw [← hseq]
  unfold runOutputs
  cases p.outputs with
  | nil => exact .refl _
  | cons outermost rest =>
    dsimp only
    rw [if_neg (by simp : ¬ (outermost.parallel && decide (1 < 1)) = true)]
    split
    · refine (runChunks_sameOutcome _ _ table).trans (.of_eq ?_)
      simp only [foldLoops, ← foldlM_flatMap, Range.flatMap_partition]
    · exact .refl _

/-- The blocks are done one after the other. -/
theorem runTiles_sameOutcome (hw : ∀ g, p.tiles = some g → 0 < g.width) :
    SameOutcome (runTiles k workers outputs p rs)
      ((p.blocks rs).foldlM (fun table rs' =>
        (p.cells rs').foldlM (fun table c => runCell k rs' outputs p.body c table) table) []) := by
  unfold runTiles Plan.blocks
  cases hg : p.tiles with
  | none =>
    simp only [List.foldlM_cons, List.foldlM_nil, bind_pure]
    exact runOutputs_sameOutcome k workers outputs p rs []
  | some g =>
    simp only [tileBlocks_eq rs g.indices (hw g hg), List.foldlM_map]
    exact SameOutcome.foldlM (fun block _ table => runOutputs_sameOutcome k workers outputs p _ table) []

/-- What is done for a cell depends on the ranges of the loops over its values only. -/
theorem runCell_congr {m : Type → Type} [Monad m] (k : Machine m V) {rs rs' : Ranges} {body : Body}
    (h : ∀ l ∈ body.loops, rs'.get l.index = rs.get l.index) (env : Env) (table : Table V) :
    runCell k rs' outputs body env table = runCell k rs outputs body env table := by
  have hreduce {loops : List InnerLoop} (h : ∀ l ∈ loops, rs'.get l.index = rs.get l.index) (acc : V) :
      reduceCell k rs' loops env acc = reduceCell k rs loops env acc := by
    have hvalues : loops.map (fun l => (l.index, l.values rs')) =
        loops.map fun l => (l.index, l.values rs) :=
      List.map_congr_left fun l hl => by simp only [InnerLoop.values, h l hl]
    rw [reduceCell, hvalues, reduceCell]
  cases body with
  | store => rfl
  | reduce op resume loops =>
    have hloops : ∀ l ∈ loops, rs'.get l.index = rs.get l.index := h
    cases resume <;> simp only [runCell, hreduce hloops]

/-- A plan that cuts only loops over the output into blocks is a sequence of cells, each done with
the full ranges of its own loops. -/
theorem runPlan_sameOutcome (hw : ∀ g, p.tiles = some g → 0 < g.width) (hplain : p.body.resumes = false)
    (hinner : ∀ rs' ∈ p.blocks rs, ∀ i ∈ p.inner, rs'.get i = rs.get i) :
    SameOutcome (runPlan k workers outputs p rs) (do
      let _ ← ((p.blocks rs).flatMap p.cells).foldlM
        (fun table c => runCell k rs outputs p.body c table) []
      return ⟨⟩) := by
  have hcells : (p.blocks rs).foldlM (fun table rs' =>
      (p.cells rs').foldlM (fun table c => runCell k rs' outputs p.body c table) table) [] =
      ((p.blocks rs).flatMap p.cells).foldlM (fun table c => runCell k rs outputs p.body c table) [] := by
    rw [foldlM_flatMap]
    refine foldlM_congr_mem (fun rs' hrs' table => foldlM_congr_mem (fun c _ table => ?_) table) []
    refine runCell_congr outputs k (fun l hl => hinner rs' hrs' l.index ?_) c table
    exact List.mem_map.2 ⟨l, hl, rfl⟩
  rw [← hcells]
  refine (runTiles_sameOutcome k workers outputs hw).bind fun table => ?_
  rw [hplain]
  exact .refl _

end

end IndexNotation
