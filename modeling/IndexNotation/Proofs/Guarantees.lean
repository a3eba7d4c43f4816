import IndexNotation.Proofs.Workers

/-!
# What processes rely on and guarantee

A process relies on the others to change the state in certain ways only, and guarantees to do so itself.
Processes that grant each other what they rely on can take their steps in any order: what each of them
brings about while the others do what it relies on, all of them bring about together.

The processes of a block share out the cells of the block. A group starts when the one before has ended,
so the states that groups can end in are those that they can end in one by one.
-/

namespace IndexNotation

open Run (exec)

variable {σ α β : Type}

namespace Process

/-! ## One process -/

/-- From a state on, whatever others do within `R` before each of its steps, a process changes the
state within `G` only, and if it ends well, `Q` holds of the value and of the states from then on. -/
def Upholds (R G : σ → σ → Prop) (Q : α → σ → Prop) : Process σ α → σ → Prop
  | done (.ok a), s => ∀ t, R s t → Q a t
  | done (.error _), _ => True
  | step w n, s => ∀ t, R s t → G t (w t) ∧ (n t).Upholds R G Q (w t)

section

variable {R G : σ → σ → Prop} {Q : α → σ → Prop} {Q' : β → σ → Prop} {s t : σ}

theorem Upholds.later (htrans : ∀ s t u, R s t → R t u → R s u) {p : Process σ α}
    (h : p.Upholds R G Q s) (hst : R s t) : p.Upholds R G Q t := by
  cases p with
  | done r =>
    cases r with
    | error e => trivial
    | ok a => exact fun u hu => h u (htrans s t u hst hu)
  | step w n => exact fun u hu => h u (htrans s t u hst hu)

theorem Upholds.imp {Q' : α → σ → Prop} (hQ : ∀ a t, Q a t → Q' a t) {p : Process σ α}
    (h : p.Upholds R G Q s) : p.Upholds R G Q' s := by
  induction p generalizing s with
  | done r =>
    cases r with
    | error e => trivial
    | ok a => exact fun t ht => hQ a t (h t ht)
  | step w n ih => exact fun t ht => ⟨(h t ht).1, ih t (h t ht).2⟩

theorem Upholds.bind (hrefl : ∀ s, R s s) {p : Process σ α} {f : α → Process σ β} (h : p.Upholds R G Q s)
    (hf : ∀ a t, Q a t → (f a).Upholds R G Q' t) : (p >>= f).Upholds R G Q' s := by
  induction p generalizing s with
  | done r =>
    cases r with
    | error e => trivial
    | ok a => exact hf a s (h s (hrefl s))
  | step w n ih => exact fun t ht => ⟨(h t ht).1, ih t (h t ht).2⟩

/-- What neither the process nor the others change stays true. -/
theorem Upholds.frame {R' G' : σ → σ → Prop} {F : σ → Prop} (hR : ∀ s t, R' s t → R s t)
    (hG : ∀ s t, G s t → G' s t) (hFR : ∀ s t, F s → R' s t → F t) (hFG : ∀ s t, F s → G s t → F t)
    {p : Process σ α} (h : p.Upholds R G Q s) (hF : F s) : p.Upholds R' G' (fun a t => Q a t ∧ F t) s := by
  induction p generalizing s with
  | done r =>
    cases r with
    | error e => trivial
    | ok a => exact fun t ht => ⟨h t (hR s t ht), hFR s t hF ht⟩
  | step w n ih =>
    intro t ht
    obtain ⟨hstep, hnext⟩ := h t (hR s t ht)
    exact ⟨hG t (w t) hstep, ih t hnext (hFG t (w t) (hFR s t hF ht) hstep)⟩

/-- A loop keeps what its body keeps from one element to the next. -/
theorem Upholds.foldlM (hrefl : ∀ s, R s s) {f : α → β → Process σ α} {bs : List β}
    {J : List β → α → σ → Prop} (hJ : ∀ bs a s t, J bs a s → R s t → J bs a t)
    (hstep : ∀ bs₀ b bs₁, bs = bs₀ ++ b :: bs₁ → ∀ a s, J bs₀ a s →
      (f a b).Upholds R G (J (bs₀ ++ [b])) s) {a : α} (h : J [] a s) :
    (bs.foldlM f a).Upholds R G (J bs) s := by
  suffices hrest : ∀ bs₁ bs₀, bs = bs₀ ++ bs₁ → ∀ a s, J bs₀ a s →
      (bs₁.foldlM f a).Upholds R G (J bs) s from hrest bs [] rfl a s h
  intro bs₁
  induction bs₁ with
  | nil =>
    rintro bs₀ rfl a s h t ht
    rw [List.append_nil]
    exact hJ bs₀ a s t h ht
  | cons b bs₁ ih =>
    intro bs₀ hbs a s h
    rw [List.foldlM_cons]
    exact (hstep bs₀ b bs₁ hbs a s h).bind hrefl (ih (bs₀ ++ [b]) (by simp [hbs]))

end

/-- A computation on the first part of the state, as one step. -/
theorem upholds_own {τ : Type} {R G : σ × τ → σ × τ → Prop} {Q : α → σ × τ → Prop} {s : σ × τ}
    {x : ExceptT Error (StateM σ) α} (hQ : ∀ a s t, Q a s → R s t → Q a t)
    (h : ∀ t, R s t → G t ((exec x t.1).2, t.2) ∧ ∀ a u, exec x t.1 = (.ok a, u) → Q a (u, t.2)) :
    (own x).Upholds R G Q s := by
  refine fun t ht => ⟨(h t ht).1, ?_⟩
  have hend := (h t ht).2
  dsimp only
  generalize exec x t.1 = r at hend
  obtain ⟨e | a, u⟩ := r
  · trivial
  · exact fun t' ht' => hQ a _ _ (hend a u rfl) ht'

/-! ## Several processes -/

/-- Processes come to a state by steps in some order. -/
abbrev Proceeds : σ × List (Process σ PUnit) → σ × List (Process σ PUnit) → Prop :=
  Relation.ReflTransGen fun x y => Advances x.1 x.2 y.1 y.2

/-- Processes that start in `s` can all have ended well in `s'`. -/
def Ends (s : σ) (ps : List (Process σ PUnit)) (s' : σ) : Prop :=
  ∃ ps', Proceeds (s, ps) (s', ps') ∧ await ps' = some (.ok ⟨⟩)

/-- Groups of processes, each started when the one before has ended well, can all have ended well. -/
def EndsInTurn : List (List (Process σ PUnit)) → σ → σ → Prop
  | [], s, s' => s = s'
  | ps :: groups, s, s' => ∃ t, Ends s ps t ∧ EndsInTurn groups t s'

theorem Ends.eq_of_nil {s s' : σ} (h : Ends s [] s') : s = s' := by
  obtain ⟨ps', hsteps, -⟩ := h
  obtain hsame | ⟨y, hstep, -⟩ := Relation.ReflTransGen.cases_head hsteps
  · exact congrArg Prod.fst hsame
  · cases hstep

theorem EndsInTurn.append {groups groups' : List (List (Process σ PUnit))} {s s' : σ}
    (h : EndsInTurn (groups ++ groups') s s') : ∃ t, EndsInTurn groups s t ∧ EndsInTurn groups' t s' := by
  induction groups generalizing s with
  | nil => exact ⟨s, rfl, h⟩
  | cons ps groups ih =>
    obtain ⟨u, hps, h⟩ := h
    obtain ⟨t, hgroups, hgroups'⟩ := ih h
    exact ⟨t, ⟨u, hps, hgroups⟩, hgroups'⟩

section

variable {ι : Type} {R G : ι → σ → σ → Prop} {Q : ι → σ → Prop} {is : List ι}
  {ps ps' : List (Process σ PUnit)} {s s' : σ}

theorem upholds_later (htrans : ∀ i s t u, R i s t → R i t u → R i s u)
    (h : List.Forall₂ (fun i p => p.Upholds (R i) (G i) (fun _ => Q i) s) is ps) (hst : ∀ i ∈ is, R i s s') :
    List.Forall₂ (fun i p => p.Upholds (R i) (G i) (fun _ => Q i) s') is ps := by
  induction h with
  | nil => exact .nil
  | @cons i p is ps hp _ ih =>
    obtain ⟨hi, his⟩ := List.forall_mem_cons.1 hst
    exact .cons (hp.later (htrans i) hi) (ih his)

/-- A step of one process keeps what all of them rely on. -/
theorem upholds_of_advances (hrefl : ∀ i s, R i s s) (htrans : ∀ i s t u, R i s t → R i t u → R i s u)
    (hgrant : is.Pairwise fun i j => (∀ s t, G i s t → R j s t) ∧ ∀ s t, G j s t → R i s t)
    (h : List.Forall₂ (fun i p => p.Upholds (R i) (G i) (fun _ => Q i) s) is ps)
    (hstep : Advances s ps s' ps') :
    List.Forall₂ (fun i p => p.Upholds (R i) (G i) (fun _ => Q i) s') is ps' ∧ ∃ i ∈ is, G i s s' := by
  induction hstep generalizing is with
  | here =>
    obtain _ | @⟨i, _, is, _, hp, hps⟩ := h
    obtain ⟨hothers, -⟩ := List.pairwise_cons.1 hgrant
    obtain ⟨hG, hnext⟩ := hp s (hrefl i s)
    exact ⟨.cons hnext (upholds_later htrans hps fun j hj => (hothers j hj).1 _ _ hG), i, .head _, hG⟩
  | there hstep ih =>
    obtain _ | @⟨i, _, is, _, hp, hps⟩ := h
    obtain ⟨hothers, hgrant⟩ := List.pairwise_cons.1 hgrant
    obtain ⟨hps', j, hj, hG⟩ := ih hgrant hps
    exact ⟨.cons (hp.later (htrans i) ((hothers j hj).2 _ _ hG)) hps', j, .tail _ hj, hG⟩

theorem forall_of_await (hrefl : ∀ i s, R i s s)
    (h : List.Forall₂ (fun i p => p.Upholds (R i) (G i) (fun _ => Q i) s) is ps)
    (hawait : await ps = some (.ok ⟨⟩)) : ∀ i ∈ is, Q i s := by
  induction h with
  | nil => simp
  | @cons i p is ps hp hps ih =>
    cases p with
    | step w n => cases hawait
    | done r =>
      cases r with
      | error e => cases hawait
      | ok a => exact List.forall_mem_cons.2 ⟨hp s (hrefl i s), ih hawait⟩

/-- **Together they do what each does alone.** Processes that grant each other what they rely on end in
states that all of them allow, by steps that one of them guarantees. -/
theorem Ends.upheld (hrefl : ∀ i s, R i s s) (htrans : ∀ i s t u, R i s t → R i t u → R i s u)
    (hgrant : is.Pairwise fun i j => (∀ s t, G i s t → R j s t) ∧ ∀ s t, G j s t → R i s t)
    (h : List.Forall₂ (fun i p => p.Upholds (R i) (G i) (fun _ => Q i) s) is ps) (hends : Ends s ps s') :
    (∀ i ∈ is, Q i s') ∧ Relation.ReflTransGen (fun s t => ∃ i ∈ is, G i s t) s s' := by
  obtain ⟨ps', hsteps, hawait⟩ := hends
  suffices hinv : List.Forall₂ (fun i p => p.Upholds (R i) (G i) (fun _ => Q i) s') is ps' ∧
      Relation.ReflTransGen (fun s t => ∃ i ∈ is, G i s t) s s' from
    ⟨forall_of_await hrefl hinv.1 hawait, hinv.2⟩
  clear hawait
  generalize hx : (s, ps) = x at hsteps
  generalize hy : (s', ps') = y at hsteps
  induction hsteps generalizing s' ps' with
  | refl =>
    cases hx.trans hy.symm
    exact ⟨h, .refl⟩
  | @tail y z _ hstep ih =>
    subst hy
    obtain ⟨hps, hpath⟩ := ih y.2 rfl
    obtain ⟨hps', hG⟩ := upholds_of_advances hrefl htrans hgrant hps hstep
    exact ⟨hps', hpath.tail hG⟩

end

/-! ## One after the other -/

theorem proceeds_of_run {p : Process σ PUnit} {ps : List (Process σ PUnit)} {s s' : σ} {a : PUnit}
    (h : exec p.run s = (.ok a, s')) :
    Proceeds (s, p :: ps) (s', done (.ok a) :: ps) := by
  induction p generalizing s with
  | done r =>
    cases h
    exact .refl
  | step w n ih => exact .head .here (ih s h)

/-- Processes that run one after the other are in one of the orders. -/
theorem ends_of_runAll {ps : List (Process σ PUnit)} {s s' : σ} (h : exec (runAll ps) s = (.ok ⟨⟩, s')) :
    Ends s ps s' := by
  induction ps generalizing s with
  | nil =>
    cases h
    exact ⟨[], .refl, rfl⟩
  | cons p ps ih =>
    obtain ⟨a, t, hp, h⟩ := Run.exec_bind_eq_ok h
    obtain ⟨ps', hsteps, hawait⟩ := ih h
    have hothers : Proceeds (t, done (.ok a) :: ps) (s', done (.ok a) :: ps') :=
      hsteps.lift (fun x => (x.1, done (.ok a) :: x.2)) fun _ _ hstep => .there hstep
    exact ⟨done (.ok a) :: ps', (proceeds_of_run hp).trans hothers, hawait⟩

theorem endsInTurn_of_runAll {groups : List (List (Process σ PUnit))} {s s' : σ}
    (h : exec (groups.forM runAll) s = (.ok ⟨⟩, s')) : EndsInTurn groups s s' := by
  induction groups generalizing s with
  | nil =>
    cases h
    rfl
  | cons ps groups ih =>
    obtain ⟨_, t, hps, h⟩ := Run.exec_bind_eq_ok h
    exact ⟨t, ends_of_runAll hps, ih h⟩

end Process

open Process (Ends EndsInTurn)

/-- A crew whose groups have all ended well. -/
theorem Crew.Reaches.endsInTurn {c c' : Crew σ} (h : Reaches c c') (hr : c'.result = some (.ok ⟨⟩)) :
    EndsInTurn (c.active :: c.waiting) c.state c'.state := by
  induction h using Relation.ReflTransGen.head_induction_on with
  | refl =>
    obtain ⟨s, ps, waiting⟩ := c'
    cases hawait : Process.await ps with
    | none => simp [result, hawait] at hr
    | some r =>
      cases r with
      | error e => simp [result, hawait] at hr
      | ok =>
        cases waiting with
        | cons qs waiting => simp [result, hawait] at hr
        | nil => exact ⟨s, ⟨ps, .refl, hawait⟩, rfl⟩
  | head hstep _ ih =>
    cases hstep with
    | advance hstep =>
      obtain ⟨t, ⟨ps', hsteps, hawait⟩, hrest⟩ := ih
      exact ⟨t, ⟨ps', .head hstep hsteps, hawait⟩, hrest⟩
    | @start s ps qs waiting hawait => exact ⟨s, ⟨ps, .refl, hawait⟩, ih⟩

/-! ## The processes of a block -/

variable {V : Type}

/-- Chunks of the outermost loop go together through all cells. -/
theorem Plan.flatten_chunks {p : Plan} {outermost : OutputLoop} {rest : List OutputLoop}
    (ho : p.outputs = outermost :: rest) {rs : Ranges} {chunks : List Range}
    (h : chunks.flatMap Range.toList = (rs.get outermost.index).toList) :
    (chunks.map fun chunk => (points ((outermost.index, chunk.toList) ::
      rest.map fun l => (l.index, (rs.get l.index).toList))).map List.reverse).flatten = p.cells rs := by
  simp only [Plan.cells, Plan.outer, ho, Ranges.points, List.map_cons, points, ← h,
    List.flatMap_assoc, List.map_flatMap, List.flatten_eq_flatMap, List.flatMap_map]
  simp [Function.comp_def]

/-- At every cell the points of the cell: these are the points of all loops. -/
theorem Plan.flatMap_cells (p : Plan) (rs : Ranges) :
    ((p.cells rs).flatMap fun c => (rs.points p.inner).map fun q => q.reverse ++ c) =
      (rs.points (p.outer ++ p.inner)).map List.reverse := by
  simp [Plan.cells, Ranges.points_append, List.map_flatMap, List.flatMap_map, Function.comp_def]

/-- The processes of a block share out its cells. -/
theorem exists_parts (k : Machine (ExceptT Error (StateM σ)) V) (outputs : List String) (workers : Nat)
    (p : Plan) (rs : Ranges) : ∃ parts : List (List Env), parts.flatten = p.cells rs ∧
      blockWork k outputs workers p rs =
        parts.map fun cs => cs.foldlM (fun _ c => workCell k outputs rs p.body c) ⟨⟩ := by
  unfold blockWork share
  cases ho : p.outputs with
  | nil =>
    refine ⟨[[[]]], by simp [Plan.cells, Plan.outer, ho, Ranges.points, points], ?_⟩
    simp
  | cons outermost rest =>
    dsimp only
    generalize hchunks : (if outermost.parallel && 1 < workers then
      (rs.get outermost.index).partition workers else [rs.get outermost.index]) = chunks
    have hvalues : chunks.flatMap Range.toList = (rs.get outermost.index).toList := by
      rw [← hchunks]
      split
      · exact Range.flatMap_partition _ _
      · simp
    refine ⟨chunks.map fun chunk => (points ((outermost.index, chunk.toList) ::
      rest.map fun l => (l.index, (rs.get l.index).toList))).map List.reverse, Plan.flatten_chunks ho hvalues, ?_⟩
    rw [List.map_map]
    refine List.map_congr_left fun chunk _ => ?_
    simp [foldLoops_eq, List.foldlM_map]

end IndexNotation
