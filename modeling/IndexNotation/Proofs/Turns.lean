import IndexNotation.Proofs.Guarantees
import IndexNotation.Proofs.Interleaving
import IndexNotation.Proofs.Meaning

/-!
# Cells that are filled in turns

What a call does to an array that is there already, and that its right-hand side may read at the cell
that is to be filled. The loops can be in any order, unrolled and tiled, and the workers can take their
steps in any order. Every cell is filled by what was there at the start: a worker finds its own cells as
they were, since the others leave them alone and it has done with a cell when it writes to it. If the
values of a cell are spread over blocks, nothing is written before the last block.
-/

namespace IndexNotation

open Run (exec Keeps)
open Process (Upholds Ends EndsInTurn own fetch put upholds_own)

/-! ## Folds with others in between -/

/-- A left fold of `f` over points, with values that `value` allows at them. From one step of the fold
to the next, nothing that is there has changed except the block `b`. -/
inductive Gathers (b : Nat) (value : Env → World → Value → World → Prop) (f : Value → Value → Run Value) :
    World → Value → List Env → Value → World → Prop where
  | nil {w w' : World} {init : Value} : World.KeepsBut b w w' → Gathers b value f w init [] init w'
  | snoc {w z z' u u' w' : World} {init acc acc' v : Value} {ps : List Env} {p : Env} :
      Gathers b value f w init ps acc z → value p z v z' → World.KeepsBut b z' u →
      exec (f acc v) u = (.ok acc', u') → World.KeepsBut b u' w' →
      Gathers b value f w init (ps ++ [p]) acc' w'

namespace Gathers

variable {b : Nat} {value value' : Env → World → Value → World → Prop} {f : Value → Value → Run Value}
  {w w' u : World} {init acc : Value} {ps : List Env}

theorem later (h : Gathers b value f w init ps acc w') (hu : World.KeepsBut b w' u) :
    Gathers b value f w init ps acc u := by
  cases h with
  | nil hw => exact .nil (hw.trans hu)
  | snoc hps hv hz hf hw => exact .snoc hps hv hz hf (hw.trans hu)

theorem imp (hvalue : ∀ p z v z', value p z v z' → value' p z v z') (h : Gathers b value f w init ps acc w') :
    Gathers b value' f w init ps acc w' := by
  induction h with
  | nil hw => exact .nil hw
  | snoc _ hv hz hf hw ih => exact .snoc ih (hvalue _ _ _ _ hv) hz hf hw

end Gathers

namespace Kernel

/-- What the cell of an array for values of the output indices holds, if there is one. -/
def cellAt (k : Kernel) (a : View) (w : World) (c : Env) : Option Value :=
  (a.place (k.positions c)).bind fun p => (w.heap.block a.block)[p]?

theorem cellAt_of_keeps {k : Kernel} {a : View} {w w' : World} (h : w.Keeps w') (ha : a.block < w.heap.size)
    (c : Env) : k.cellAt a w' c = k.cellAt a w c := by
  rw [cellAt, cellAt, h.2 _ ha]

theorem cellAt_congr {k : Kernel} {c c' : Env} (h : c.cell k.outputIndices = c'.cell k.outputIndices)
    (a : View) (w : World) : k.cellAt a w c = k.cellAt a w c' := by
  rw [cellAt, positions_congr h, cellAt]

/-- Reading an array at the keys of a cell. -/
theorem Planned.get_eq_of_cellAt {k : Kernel} {read : Reduction.Partial} (hk : k.Planned read) {out : Value}
    {a : View} (hout : out = .array a) (hrank : k.statement.target.indices.length = a.shape.length) {c : Env}
    {w : World} {v : Value} (h : k.cellAt a w c = some v) : (exec (out.get (k.keys c)) w).1 = .ok v := by
  obtain ⟨p, hplace, hp⟩ := Option.bind_eq_some_iff.1 h
  rw [hout, hk.keys_eq, Value.exec_get_ints (by simp [positions, hrank]), hplace]
  simp [Array.getD_eq_getD_getElem?, hp]

/-- What the cell for the values `c` of the output indices takes, in the type of the array: a value that
`value` allows at `c`, or the fold of values that it allows at `c` and the points of the reduction
indices, each of them once. All of this is done later than `u`. -/
def Takes (k : Kernel) (a : View) (rs : Ranges) (value : Env → World → Value → World → Prop)
    (f : Value → Value → Run Value) (init : Value) (u : World) (c : Env) (cell : Value) : Prop :=
  if k.reductionIndices = [] then
    ∃ v z z' z'', World.KeepsBut a.block u z ∧ value c z v z' ∧ World.KeepsBut a.block z' z'' ∧
      a.type.accept z''.heap v = .ok cell
  else
    ∃ ps acc z, ps.Perm (rs.points k.reductionIndices) ∧
      Gathers a.block (fun r => value (c ++ r)) f u init ps acc z ∧ a.type.accept z.heap acc = .ok cell

/-- Others leave some cells and their accumulators alone. -/
def Spares (k : Kernel) (a : View) (cs : List Env) (s t : World × Table Value) : Prop :=
  World.KeepsBut a.block s.1 t.1 ∧ ∀ c ∈ cs, k.cellAt a t.1 c = k.cellAt a s.1 c ∧
    t.2.lookup (c.cell k.outputIndices) = s.2.lookup (c.cell k.outputIndices)

/-- At most some cells and their accumulators change. -/
structure Touches (k : Kernel) (a : View) (cs : List Env) (s t : World × Table Value) : Prop where
  keeps : World.KeepsBut a.block s.1 t.1
  cells : ∀ p, (∀ c ∈ cs, a.place (k.positions c) ≠ some p) →
    (t.1.heap.block a.block)[p]? = (s.1.heap.block a.block)[p]?
  table : ∀ d, (∀ c ∈ cs, c.cell k.outputIndices ≠ d) → t.2.lookup d = s.2.lookup d

section

variable {k : Kernel} {a : View} {c : Env} {cs cs' : List Env} {s t u : World × Table Value}

theorem Spares.refl (s : World × Table Value) : k.Spares a cs s s :=
  ⟨keepsBut_refl a s.1, fun _ _ => ⟨rfl, rfl⟩⟩

theorem Spares.trans (h : k.Spares a cs s t) (h' : k.Spares a cs t u) : k.Spares a cs s u :=
  ⟨h.1.trans h'.1, fun c hc => ⟨(h'.2 c hc).1.trans (h.2 c hc).1, (h'.2 c hc).2.trans (h.2 c hc).2⟩⟩

theorem Spares.mono (h : k.Spares a cs' s t) (hcs : cs ⊆ cs') : k.Spares a cs s t :=
  ⟨h.1, fun c hc => h.2 c (hcs hc)⟩

theorem Touches.refl (s : World × Table Value) : k.Touches a cs s s :=
  ⟨keepsBut_refl a s.1, fun _ _ => rfl, fun _ _ => rfl⟩

theorem Touches.trans (h : k.Touches a cs s t) (h' : k.Touches a cs t u) : k.Touches a cs s u where
  keeps := h.keeps.trans h'.keeps
  cells p hp := (h'.cells p hp).trans (h.cells p hp)
  table d hd := (h'.table d hd).trans (h.table d hd)

theorem Touches.mono (h : k.Touches a cs s t) (hcs : cs ⊆ cs') : k.Touches a cs' s t where
  keeps := h.keeps
  cells p hp := h.cells p fun c hc => hp c (hcs hc)
  table d hd := h.table d fun c hc => hd c (hcs hc)

theorem Touches.of_steps {parts : List (List Env)}
    (h : Relation.ReflTransGen (fun s t => ∃ cs ∈ parts, k.Touches a cs s t) s t) :
    k.Touches a parts.flatten s t := by
  induction h with
  | refl => exact .refl s
  | tail _ hstep ih =>
    obtain ⟨cs, hcs, htouches⟩ := hstep
    exact ih.trans (htouches.mono fun c hc => List.mem_flatten.2 ⟨cs, hcs, hc⟩)

/-- What changes nothing that is there touches no cell. -/
theorem Touches.of_keeps {w : World} (h : s.1.Keeps w) (ha : a.block < s.1.heap.size) :
    k.Touches a cs s (w, s.2) where
  keeps := h.but _
  cells p _ := by rw [h.2 _ ha]
  table _ _ := rfl

/-- Who touches some cells spares the others. -/
theorem Touches.spares {scope : Scope} {read : Reduction.Partial} (hk : k.Planned read) {w : World}
    {rs : Ranges} (hrs : k.analysis.catalog.Resolved scope k.analysis.indexNames w rs) {heap : Heap}
    (ha : a.Solid heap) (hcs : cs ⊆ rs.points k.outputIndices) (hcs' : cs' ⊆ rs.points k.outputIndices)
    (hdisjoint : cs.Disjoint cs') (h : k.Touches a cs s t) : k.Spares a cs' s t := by
  refine ⟨h.keeps, fun c' hc' => ?_⟩
  have hne {c : Env} (hc : c ∈ cs) : c ≠ c' := fun e => hdisjoint hc (e ▸ hc')
  constructor
  · unfold cellAt
    cases hplace : a.place (k.positions c') with
    | none => rfl
    | some p =>
      refine h.cells p fun c hc hp => ?_
      exact hk.place_ne hrs ha (hcs hc) (hcs' hc') (hne hc) p hp hplace
  · refine h.table _ fun c hc hcell => hne hc ?_
    exact Ranges.eq_of_cell_eq k.nodup_outputIndices (hcs hc) (hcs' hc') hcell

end

/-! ## One cell -/

/-- A call that has been set up to fill an array that is there in `w`. Its right-hand side can only be
evaluated for a cell that is there, and as long as the cell is as it was, what comes of it is what
`value` allows by what the cell holds. -/
structure Revising (k : Kernel) (scope : Scope) (w : World) (s : Setup) (w' : World) (a : View)
    (value : Value → Env → World → Value → World → Prop) : Prop where
  planned : ∃ read, k.Planned read
  quiet : scope.Quiet
  prepared : ∃ w₀, k.Prepared scope w₀ s w'
  keeps : w.Keeps w'
  out : s.out = .array a
  rank : k.statement.target.indices.length = a.shape.length
  solid : a.Solid w.heap
  element : ∀ c ∈ s.ranges.points k.outputIndices, ∀ env z v z',
    env.cell k.outputIndices = c.cell k.outputIndices → World.KeepsBut a.block w z →
    k.cellAt a z env = k.cellAt a w env → exec (k.element scope env) z = (.ok v, z') →
    ∃ old, k.cellAt a w env = some old ∧ value old env z v z'

section

variable (k : Kernel) (a : View) (w w' : World) (s : Setup) (scope : Scope)
  (value : Value → Env → World → Value → World → Prop) (c : Env)

/-- The cell holds what it held at the start. -/
def Intact (t : World × Table Value) : Prop :=
  World.KeepsBut a.block w' t.1 ∧ k.cellAt a t.1 c = k.cellAt a w c

/-- A value at a point of the reduction indices, by what the cell held at the start. -/
def OldValue (r : Env) (z : World) (v : Value) (z' : World) : Prop :=
  ∃ old, k.cellAt a w c = some old ∧ value old (c ++ r) z v z'

/-- The cell holds what it held at the start, and `acc` is the fold of its values at some points. -/
def Holds (ps : List Env) (acc : Value) (t : World × Table Value) : Prop :=
  k.Intact a w w' c t ∧ Gathers a.block (k.OldValue a w value c) (s.reducer.apply scope) w' s.init ps acc t.1

/-- The accumulator of the cell is the fold of its values at some points. -/
def Waits (ps : List Env) (t : World × Table Value) : Prop :=
  k.Holds a w w' s scope value c ps (t.2.get (c.cell k.outputIndices) s.init) t

/-- The cell has taken its value. -/
def Revised (t : World × Table Value) : Prop :=
  World.KeepsBut a.block w' t.1 ∧ ∃ old cell, k.cellAt a w c = some old ∧ k.cellAt a t.1 c = some cell ∧
    k.Takes a s.ranges (value old) (s.reducer.apply scope) s.init w' c cell

end

section

variable {k : Kernel} {a : View} {w w' : World} {s : Setup} {scope : Scope}
  {value : Value → Env → World → Value → World → Prop} {c : Env} {t u : World × Table Value} {ps : List Env}
  {acc : Value}

theorem Intact.mono (h : k.Intact a w w' c t) (hu : k.Spares a [c] t u) : k.Intact a w w' c u :=
  ⟨h.1.trans hu.1, (hu.2 c (.head _)).1.trans h.2⟩

theorem Holds.mono (h : k.Holds a w w' s scope value c ps acc t) (hu : k.Spares a [c] t u) :
    k.Holds a w w' s scope value c ps acc u :=
  ⟨h.1.mono hu, h.2.later hu.1⟩

theorem Waits.mono (h : k.Waits a w w' s scope value c ps t) (hu : k.Spares a [c] t u) :
    k.Waits a w w' s scope value c ps u := by
  unfold Waits Table.get
  rw [(hu.2 c (.head _)).2]
  exact Holds.mono h hu

theorem Revised.mono (h : k.Revised a w w' s scope value c t) (hu : k.Spares a [c] t u) :
    k.Revised a w w' s scope value c u := by
  obtain ⟨hkeeps, old, cell, hold, hcell, htakes⟩ := h
  exact ⟨hkeeps.trans hu.1, old, cell, hold, (hu.2 c (.head _)).1.trans hcell, htakes⟩

/-- The fold of the values at all points of the reduction indices is what a cell takes. -/
theorem Holds.takes (ht : k.Holds a w w' s scope value c ps acc t) (hne : k.reductionIndices ≠ [])
    (hps : ps.Perm (s.ranges.points k.reductionIndices)) {z : World} {old cell : Value}
    (hz : World.KeepsBut a.block t.1 z) (hold : k.cellAt a w c = some old)
    (haccept : a.type.accept z.heap acc = .ok cell) :
    k.Takes a s.ranges (value old) (s.reducer.apply scope) s.init w' c cell := by
  rw [Takes, if_neg hne]
  refine ⟨ps, acc, z, hps, (ht.2.later hz).imp fun r z v z' hvalue => ?_, haccept⟩
  obtain ⟨old', hold', hv⟩ := hvalue
  cases hold.symm.trans hold'
  exact hv

/-- Reading the accumulator of a cell. -/
theorem Waits.upholds_fetch (ht : k.Waits a w w' s scope value c ps t) {d : List Int}
    (hd : d = c.cell k.outputIndices) : (fetch d s.init).Upholds (k.Spares a [c]) (k.Touches a [c])
      (k.Holds a w w' s scope value c ps) t := by
  subst hd
  refine fun t' ht' => ⟨.refl _, fun u hu => ?_⟩
  have hwaits : k.Holds a w w' s scope value c ps _ t' := ht.mono ht'
  exact hwaits.mono hu

/-- Writing the accumulator of a cell. -/
theorem Holds.upholds_put (ht : k.Holds a w w' s scope value c ps acc t) :
    (put (c.cell k.outputIndices) acc).Upholds (k.Spares a [c]) (k.Touches a [c])
      (fun _ => k.Waits a w w' s scope value c ps) t := by
  intro t' ht'
  refine ⟨⟨keepsBut_refl a _, fun _ _ => rfl, fun d hd => ?_⟩, fun u hu => Waits.mono ?_ hu⟩
  · exact (Table.lookup_set t'.2 _ d acc).trans (if_neg fun e => hd c (.head _) e.symm)
  · have hholds := ht.mono ht'
    have hget : (t'.2.set (c.cell k.outputIndices) acc).get (c.cell k.outputIndices) s.init = acc := by
      rw [Table.get, Table.lookup_set, if_pos rfl]
      rfl
    unfold Waits
    dsimp only
    rw [hget]
    exact hholds

end

namespace Revising

variable {k : Kernel} {scope : Scope} {w w' : World} {s : Setup} {a : View}
  {value : Value → Env → World → Value → World → Prop} (h : k.Revising scope w s w' a value)
  {c : Env} {t : World × Table Value}

include h

theorem exists_block (ht : World.KeepsBut a.block w' t.1) : a.block < t.1.heap.size :=
  Nat.lt_of_lt_of_le (Nat.lt_of_lt_of_le h.solid.exists_block h.keeps.1) ht.1

theorem exists_resolved : ∃ w₀, k.analysis.catalog.Resolved scope k.analysis.indexNames w₀ s.ranges := by
  obtain ⟨w₀, hprepared⟩ := h.prepared
  exact ⟨w₀, hprepared.resolved⟩

theorem gapless : s.ranges.Gapless := by
  obtain ⟨w₀, hresolved⟩ := h.exists_resolved
  exact hresolved.gapless

/-- A computation that changes nothing that is there leaves a cell as it was at the start. -/
theorem intact_of_keeps {α : Type} {x : Run α} (hx : Keeps x) (ht : k.Intact a w w' c t) :
    k.Touches a [c] t ((exec x t.1).2, t.2) ∧ k.Intact a w w' c ((exec x t.1).2, t.2) := by
  have hblock := h.exists_block ht.1
  exact ⟨.of_keeps (hx t.1) hblock, ht.1.trans ((hx t.1).but _), (cellAt_of_keeps (hx t.1) hblock c).trans ht.2⟩

/-- Evaluating the right-hand side for a cell that is as it was gives a value by what it held. -/
theorem upholds_element (hpoint : c ∈ s.ranges.points k.outputIndices) {env r : Env}
    (henv : ∀ i, env.lookup i = (c ++ r).lookup i)
    (hcell : (c ++ r).cell k.outputIndices = c.cell k.outputIndices) (ht : k.Intact a w w' c t) :
    ((s.machine k scope).stepwise.element env).Upholds (k.Spares a [c]) (k.Touches a [c])
      (fun v t' => k.Intact a w w' c t' ∧ ∃ z z', World.KeepsBut a.block t.1 z ∧
        k.OldValue a w value c r z v z' ∧ World.KeepsBut a.block z' t'.1) t := by
  obtain ⟨w₀, hprepared⟩ := h.prepared
  have helement : (s.machine k scope).element env = k.element scope (c ++ r) := by
    change s.code.run scope env = _
    rw [hprepared.element_eq, Kernel.element, Kernel.element, Expr.eval_congr henv]
  change (own ((s.machine k scope).element env)).Upholds _ _ _ _
  rw [helement]
  refine upholds_own (fun v t' u hnow hu => ?_) fun t' ht' => ?_
  · obtain ⟨hintact, z, z', hz, hv, hz'⟩ := hnow
    exact ⟨hintact.mono hu, z, z', hz, hv, hz'.trans hu.1⟩
  · have hintact := ht.mono ht'
    obtain ⟨htouches, hintact'⟩ := h.intact_of_keeps (Expr.keeps_eval h.quiet _ (c ++ r) _) hintact
    refine ⟨htouches, fun v z' hv => ?_⟩
    have hw : World.KeepsBut a.block w t'.1 := (h.keeps.but _).trans hintact.1
    have hsame : k.cellAt a t'.1 (c ++ r) = k.cellAt a w (c ++ r) := by
      rw [cellAt_congr hcell, cellAt_congr hcell, hintact.2]
    obtain ⟨old, hold, hvalue⟩ := h.element c hpoint _ _ v z' hcell hw hsame hv
    rw [cellAt_congr hcell] at hold
    change k.Intact a w w' c ((exec (k.element scope (c ++ r)) t'.1).2, t'.2) at hintact'
    rw [hv] at hintact'
    exact ⟨hintact', t'.1, z', ht'.1, ⟨old, hold, hvalue⟩, keepsBut_refl a z'⟩

/-- Each point of a loop over reduction indices adds a value to the fold. -/
theorem upholds_reduceCell {rs : Ranges} (hrs : rs.Gapless)
    (hpoint : c ∈ s.ranges.points k.outputIndices) {loops : List InnerLoop}
    (hloops : loops.map (·.index) = k.reductionIndices) {ps : List Env} {acc : Value}
    (ht : k.Holds a w w' s scope value c ps acc t) :
    (reduceCell (s.machine k scope).stepwise rs loops c acc).Upholds (k.Spares a [c]) (k.Touches a [c])
      (k.Holds a w w' s scope value c (ps ++ rs.points k.reductionIndices)) t := by
  obtain ⟨read, hk⟩ := h.planned
  rw [reduceCell, foldLoops_eq, hrs.points_values, hloops]
  refine Upholds.foldlM (J := fun done acc => k.Holds a w w' s scope value c (ps ++ done) acc)
    Spares.refl (fun done acc t u hholds hu => hholds.mono hu)
    (fun done r rest hsplit acc t hholds => ?_) (by rwa [List.append_nil])
  have hr : r ∈ rs.points k.reductionIndices := by
    rw [hsplit]
    simp
  have hnodup : (c.map Prod.fst ++ r.map Prod.fst).Nodup := by
    rw [Ranges.map_fst_of_mem_points hpoint, Ranges.map_fst_of_mem_points hr, hk.reductionIndices_eq]
    exact hk.lays.nodup
  have hcell : (c ++ r).cell k.outputIndices = c.cell k.outputIndices := by
    refine List.map_congr_left fun i hi => ?_
    obtain ⟨v, hv, -⟩ := (Ranges.covers_of_mem_points hpoint).lookup hi
    rw [List.lookup_append, hv]
    rfl
  refine (h.upholds_element hpoint (Env.lookup_append_reverse hnodup) hcell hholds.1).bind Spares.refl
    fun v t₁ hvalue => ?_
  obtain ⟨hintact, z, z', hz, hv, hz'⟩ := hvalue
  refine upholds_own (fun acc' t u hholds hu => hholds.mono hu) fun t₂ ht₂ => ?_
  obtain ⟨htouches, hintact'⟩ := h.intact_of_keeps (Reducer.keeps_apply h.quiet s.reducer acc v)
    (hintact.mono ht₂)
  refine ⟨htouches, fun acc' u hu => ⟨?_, ?_⟩⟩
  · change exec (s.reducer.apply scope acc v) t₂.1 = _ at hu
    rwa [hu] at hintact'
  · rw [← List.append_assoc]
    exact .snoc (hholds.2.later hz) hv (hz'.trans ht₂.1) hu (keepsBut_refl a u)

/-- Storing a value for a cell that is as it was. -/
theorem upholds_store {env : Env} (henv : env.cell k.outputIndices = c.cell k.outputIndices)
    {v : Value} (ht : k.Intact a w w' c t)
    (htakes : ∀ z old cell, World.KeepsBut a.block t.1 z → k.cellAt a w c = some old →
      a.type.accept z.heap v = .ok cell →
      k.Takes a s.ranges (value old) (s.reducer.apply scope) s.init w' c cell) :
    ((s.machine k scope).stepwise.store env v).Upholds (k.Spares a [c]) (k.Touches a [c])
      (fun _ => k.Revised a w w' s scope value c) t := by
  obtain ⟨read, hk⟩ := h.planned
  refine upholds_own (fun _ t u hrevised hu => hrevised.mono hu) fun t' ht' => ?_
  have hintact := ht.mono ht'
  rcases hstore : exec ((s.machine k scope).store env v) t'.1 with ⟨e | _, u⟩
  · cases hk.store_eq_error h.out h.rank hstore
    exact ⟨.refl _, fun _ u' hu' => by cases hu'⟩
  · obtain ⟨p, cell, hplace, haccept, hheap⟩ := hk.store_eq_ok h.out h.rank hstore
    rw [positions_congr henv] at hplace
    have hnew : u.heap.block a.block = (t'.1.heap.block a.block).setIfInBounds p cell := by
      rw [hheap, Heap.block_modify (h.exists_block hintact.1)]
    have hkeeps : World.KeepsBut a.block t'.1 u := .of_modify _ hheap
    refine ⟨⟨hkeeps, fun q hq => ?_, fun _ _ => rfl⟩, fun _ u' hu' => ?_⟩
    · have hne : p ≠ q := fun e => hq c (.head _) (e ▸ hplace)
      rw [hnew, Array.getElem?_setIfInBounds_ne hne]
    · cases hu'
      obtain ⟨old, hold⟩ : ∃ old, k.cellAt a w c = some old := by
        rw [cellAt, hplace]
        exact ⟨_, Array.getElem?_eq_getElem (h.solid.place_lt hplace)⟩
      have hlt : p < (t'.1.heap.block a.block).size := by
        have hnow := hintact.2.trans hold
        rw [cellAt, hplace] at hnow
        exact (Array.getElem?_eq_some_iff.1 hnow).1
      refine ⟨hintact.1.trans hkeeps, old, cell, hold, ?_, htakes t'.1 old cell ht'.1 hold haccept⟩
      rw [cellAt, hplace]
      change (u.heap.block a.block)[p]? = some cell
      rw [hnew, Array.getElem?_setIfInBounds_self_of_lt hlt]

/-- Without resuming, what is done for a cell gives it its value. -/
theorem upholds_workCell {rs : Ranges} (hrs : rs ∈ k.plan.blocks s.ranges)
    (hplain : k.plan.body.resumes = false) (hpoint : c ∈ s.ranges.points k.outputIndices)
    (ht : k.Intact a w w' c t) :
    (workCell (s.machine k scope) k.outputIndices rs k.plan.body c).Upholds (k.Spares a [c])
      (k.Touches a [c]) (fun _ => k.Revised a w w' s scope value c) t := by
  obtain ⟨read, hk⟩ := h.planned
  have hinner := hk.lays.points_inner hplain hrs
  have hrefines := Plan.refines_of_mem_blocks h.gapless hrs
  rcases hk.lays.body with ⟨hnone, hbody⟩ | ⟨hsome, op, resume, loops, hloops, hbody⟩
  · rw [hbody]
    have hself (i : String) : List.lookup i c = (c ++ []).lookup i := by rw [List.append_nil]
    refine (h.upholds_element hpoint hself (by rw [List.append_nil]) ht).bind Spares.refl
      fun v t' hvalue => ?_
    obtain ⟨hintact, z, z', hz, ⟨old, hold, hv⟩, hz'⟩ := hvalue
    refine h.upholds_store rfl hintact fun u old' cell hu hold' haccept => ?_
    cases hold.symm.trans hold'
    rw [Takes, if_pos (hk.reductionIndices_eq.trans hnone)]
    rw [List.append_nil] at hv
    exact ⟨v, z, z', u, ht.1.trans hz, hv, hz'.trans hu, haccept⟩
  · rw [hbody] at hplain ⊢
    cases resume with
    | true => cases hplain
    | false =>
      have hstart : k.Holds a w w' s scope value c [] s.init t := ⟨ht, .nil ht.1⟩
      rw [← hk.reductionIndices_eq] at hloops hsome hinner
      refine (h.upholds_reduceCell (fun i => (hrefines i).1) hpoint hloops hstart).bind Spares.refl
        fun acc t' hholds => ?_
      refine h.upholds_store rfl hholds.1 fun z old cell hz hold haccept => ?_
      exact hholds.takes hsome (by rw [hinner]; rfl) hz hold haccept

/-- With resuming, what is done for a cell adds the values of a block to its accumulator. -/
theorem upholds_workCell_resumes {rs : Ranges} (hrs : rs ∈ k.plan.blocks s.ranges)
    (hresumes : k.plan.body.resumes = true) (hpoint : c ∈ s.ranges.points k.outputIndices) {ps : List Env}
    (ht : k.Waits a w w' s scope value c ps t) :
    (workCell (s.machine k scope) k.outputIndices rs k.plan.body c).Upholds (k.Spares a [c])
      (k.Touches a [c]) (fun _ => k.Waits a w w' s scope value c (ps ++ rs.points k.reductionIndices)) t := by
  obtain ⟨read, hk⟩ := h.planned
  have hrefines := Plan.refines_of_mem_blocks h.gapless hrs
  rcases hk.lays.body with ⟨-, hbody⟩ | ⟨-, op, resume, loops, hloops, hbody⟩
  · rw [hbody] at hresumes
    cases hresumes
  · rw [hbody] at hresumes ⊢
    cases resume with
    | false => cases hresumes
    | true =>
      rw [← hk.reductionIndices_eq] at hloops
      refine (ht.upholds_fetch rfl).bind Spares.refl fun acc t₁ hholds => ?_
      refine (h.upholds_reduceCell (fun i => (hrefines i).1) hpoint hloops hholds).bind Spares.refl
        fun acc t₂ hholds => ?_
      exact hholds.upholds_put

/-! ## All cells -/

/-- Who touches one cell spares any other. -/
theorem spares_of_touches {c' : Env} (hc : c ∈ s.ranges.points k.outputIndices)
    (hc' : c' ∈ s.ranges.points k.outputIndices) (hne : c ≠ c') {u : World × Table Value}
    (hu : k.Touches a [c] t u) : k.Spares a [c'] t u := by
  obtain ⟨read, hk⟩ := h.planned
  obtain ⟨w₀, hresolved⟩ := h.exists_resolved
  refine hu.spares hk hresolved h.solid (by simpa) (by simpa) ?_
  simpa using hne.symm

/-- A process that does its work for one cell after the other. -/
theorem upholds_cells {cs : List Env} (hcs : cs ⊆ s.ranges.points k.outputIndices) (hnodup : cs.Nodup)
    {P Q : Env → World × Table Value → Prop} (hP : ∀ c t u, P c t → k.Spares a [c] t u → P c u)
    (hQ : ∀ c t u, Q c t → k.Spares a [c] t u → Q c u) {work : Env → Process (World × Table Value) PUnit}
    (hwork : ∀ c ∈ cs, ∀ t, P c t →
      (work c).Upholds (k.Spares a [c]) (k.Touches a [c]) (fun _ => Q c) t)
    (ht : ∀ c ∈ cs, P c t) : (cs.foldlM (fun _ c => work c) ⟨⟩).Upholds (k.Spares a cs) (k.Touches a cs)
      (fun _ t => ∀ c ∈ cs, Q c t) t := by
  -- The cells up to some point have been dealt with, and the others have not.
  have hstage (done : List Env) (c : Env) (t u : World × Table Value)
      (hc : if c ∈ done then Q c t else P c t) (hu : k.Spares a [c] t u) :
      if c ∈ done then Q c u else P c u := by
    split
    · rw [if_pos ‹_›] at hc
      exact hQ c t u hc hu
    · rw [if_neg ‹_›] at hc
      exact hP c t u hc hu
  have hspares {c : Env} (hc : c ∈ cs) {t u : World × Table Value} (hu : k.Spares a cs t u) :
      k.Spares a [c] t u := hu.mono (by simpa using hc)
  refine Upholds.imp (fun _ t hall c hc => ?_) (Upholds.foldlM
    (J := fun done _ t => ∀ c ∈ cs, if c ∈ done then Q c t else P c t) Spares.refl
    (fun done _ t u hall hu c hc => hstage done c t u (hall c hc) (hspares hc hu))
    (fun done c rest hsplit _ t hall => ?_) (fun c hc => by simpa using ht c hc))
  · have hdone := hall c hc
    rwa [if_pos hc] at hdone
  · have hc : c ∈ cs := by simp [hsplit]
    have hnew : c ∉ done := fun hmem => by
      rw [hsplit] at hnodup
      exact (List.nodup_append.1 hnodup).2.2 c hmem c (.head _) rfl
    have hnow := hall c hc
    rw [if_neg hnew] at hnow
    refine Upholds.imp (fun _ u hu c' hc' => ?_) ((hwork c hc t hnow).frame
      (F := fun t => ∀ c' ∈ cs, c' ≠ c → if c' ∈ done then Q c' t else P c' t)
      (fun _ _ hu => hspares hc hu) (fun _ _ hu => hu.mono (by simpa using hc))
      (fun t u hF hu c' hc' hne => hstage done c' t u (hF c' hc' hne) (hspares hc' hu))
      (fun t u hF hu c' hc' hne => hstage done c' t u (hF c' hc' hne)
        (h.spares_of_touches (hcs hc) (hcs hc') (Ne.symm hne) hu)) fun c' hc' _ => hall c' hc')
    by_cases hne : c' = c
    · subst hne
      rw [if_pos (by simp)]
      exact hu.1
    · have hother := hu.2 c' hc' hne
      simpa [hne] using hother

theorem mem_points_of_mem_cells {rs : Ranges} (hrs : rs ∈ k.plan.blocks s.ranges)
    (hc : c ∈ k.plan.cells rs) : c ∈ s.ranges.points k.outputIndices := by
  obtain ⟨read, hk⟩ := h.planned
  exact Ranges.mem_points_of_refines (Plan.refines_of_mem_blocks h.gapless hrs)
    (hk.lays.mem_cells.1 hc)

theorem intact_start (c : Env) : k.Intact a w w' c (w', []) :=
  ⟨keepsBut_refl a w', cellAt_of_keeps h.keeps h.solid.exists_block c⟩

/-- The processes of a block do their work for the cells of the block. -/
theorem ends_blockWork {workers : Nat} {rs : Ranges} (hrs : rs ∈ k.plan.blocks s.ranges)
    {P Q : Env → World × Table Value → Prop} (hP : ∀ c t u, P c t → k.Spares a [c] t u → P c u)
    (hQ : ∀ c t u, Q c t → k.Spares a [c] t u → Q c u)
    (hwork : ∀ c ∈ k.plan.cells rs, ∀ t, P c t →
      (workCell (s.machine k scope) k.outputIndices rs k.plan.body c).Upholds (k.Spares a [c])
        (k.Touches a [c]) (fun _ => Q c) t)
    (ht : ∀ c ∈ k.plan.cells rs, P c t) {t' : World × Table Value}
    (hends : Ends t (blockWork (s.machine k scope) k.outputIndices workers k.plan rs) t') :
    (∀ c ∈ k.plan.cells rs, Q c t') ∧ k.Touches a (k.plan.cells rs) t t' := by
  obtain ⟨read, hk⟩ := h.planned
  obtain ⟨w₀, hresolved⟩ := h.exists_resolved
  obtain ⟨parts, hparts, hprocesses⟩ := exists_parts (s.machine k scope) k.outputIndices workers k.plan rs
  have hmem {part : List Env} (hpart : part ∈ parts) : part ⊆ k.plan.cells rs := fun c hc => by
    rw [← hparts]
    exact List.mem_flatten.2 ⟨part, hpart, hc⟩
  have hpoints {part : List Env} (hpart : part ∈ parts) : part ⊆ s.ranges.points k.outputIndices :=
    fun c hc => h.mem_points_of_mem_cells hrs (hmem hpart hc)
  have hnodup : parts.flatten.Nodup := hparts ▸ k.plan.nodup_cells rs
  obtain ⟨hnodup, hdisjoint⟩ := List.nodup_flatten.1 hnodup
  rw [hprocesses] at hends
  obtain ⟨hQ', hsteps⟩ := hends.upheld (R := k.Spares a) (G := k.Touches a)
    (Q := fun part t => ∀ c ∈ part, Q c t) (fun _ => Spares.refl) (fun _ _ _ _ => Spares.trans)
    (hdisjoint.imp_of_mem fun hpart hpart' hdisjoint =>
      ⟨fun _ _ => Touches.spares hk hresolved h.solid (hpoints hpart) (hpoints hpart') hdisjoint,
        fun _ _ => Touches.spares hk hresolved h.solid (hpoints hpart') (hpoints hpart)
          hdisjoint.symm⟩)
    (List.forall₂_map_right_iff.2 (List.forall₂_same.2 fun part hpart =>
      h.upholds_cells (hpoints hpart) (hnodup part hpart) hP hQ (fun c hc => hwork c (hmem hpart hc))
        fun c hc => ht c (hmem hpart hc)))
  rw [← hparts]
  refine ⟨fun c hc => ?_, .of_steps hsteps⟩
  obtain ⟨part, hpart, hc⟩ := List.mem_flatten.1 hc
  exact hQ' part hpart c hc

/-- Blocks that are done in turn take each cell from one stage to the next. `I` says what holds of a cell
when some blocks have been done. -/
theorem endsInTurn_blocks {workers : Nat} {I : List Ranges → Env → World × Table Value → Prop}
    (hI : ∀ done c t u, I done c t → k.Spares a [c] t u → I done c u)
    (hwork : ∀ done rs rest, k.plan.blocks s.ranges = done ++ rs :: rest → ∀ c ∈ k.plan.cells rs, ∀ t,
      I done c t → (workCell (s.machine k scope) k.outputIndices rs k.plan.body c).Upholds (k.Spares a [c])
        (k.Touches a [c]) (fun _ => I (done ++ [rs]) c) t)
    (hskip : ∀ done rs c t, c ∉ k.plan.cells rs → I done c t → I (done ++ [rs]) c t)
    (ht : ∀ c ∈ s.ranges.points k.outputIndices, I [] c t) {t' : World × Table Value}
    (hends : EndsInTurn ((k.plan.blocks s.ranges).map
      (blockWork (s.machine k scope) k.outputIndices workers k.plan)) t t') :
    (∀ c ∈ s.ranges.points k.outputIndices, I (k.plan.blocks s.ranges) c t') ∧
      k.Touches a (s.ranges.points k.outputIndices) t t' := by
  obtain ⟨read, hk⟩ := h.planned
  obtain ⟨w₀, hresolved⟩ := h.exists_resolved
  suffices hrest : ∀ rest done, k.plan.blocks s.ranges = done ++ rest → ∀ t,
      (∀ c ∈ s.ranges.points k.outputIndices, I done c t) →
      EndsInTurn (rest.map (blockWork (s.machine k scope) k.outputIndices workers k.plan)) t t' →
      (∀ c ∈ s.ranges.points k.outputIndices, I (k.plan.blocks s.ranges) c t') ∧
        k.Touches a (s.ranges.points k.outputIndices) t t' from hrest _ [] rfl t ht hends
  intro rest
  induction rest with
  | nil =>
    rintro done hdone t ht rfl
    rw [hdone, List.append_nil]
    exact ⟨ht, .refl t⟩
  | cons rs rest ih =>
    rintro done hdone t ht ⟨u, hblock, hends⟩
    have hrs : rs ∈ k.plan.blocks s.ranges := by simp [hdone]
    have hpoints : k.plan.cells rs ⊆ s.ranges.points k.outputIndices := fun c hc =>
      h.mem_points_of_mem_cells hrs hc
    obtain ⟨hcells, htouches⟩ := h.ends_blockWork hrs (hI done) (hI (done ++ [rs]))
      (hwork done rs rest hdone) (fun c hc => ht c (hpoints hc)) hblock
    have hall : ∀ c ∈ s.ranges.points k.outputIndices, I (done ++ [rs]) c u := fun c hc => by
      by_cases hmem : c ∈ k.plan.cells rs
      · exact hcells c hmem
      · refine hskip done rs c u hmem (hI done c t u (ht c hc) ?_)
        refine htouches.spares hk hresolved h.solid hpoints (by simpa) ?_
        simpa using hmem
    obtain ⟨hI', htouches'⟩ := ih (done ++ [rs]) (by simp [hdone]) u hall hends
    exact ⟨hI', (htouches.mono hpoints).trans htouches'⟩

/-- Without resuming, all cells have taken their values when all blocks have been done. -/
theorem revised_of_blocks {workers : Nat} (hplain : k.plan.body.resumes = false) {t' : World × Table Value}
    (hends : EndsInTurn ((k.plan.blocks s.ranges).map
      (blockWork (s.machine k scope) k.outputIndices workers k.plan)) (w', []) t') :
    (∀ c ∈ s.ranges.points k.outputIndices, k.Revised a w w' s scope value c t') ∧
      k.Touches a (s.ranges.points k.outputIndices) (w', []) t' := by
  obtain ⟨read, hk⟩ := h.planned
  have hnodup : ((k.plan.blocks s.ranges).flatMap k.plan.cells).Nodup :=
    (hk.lays.cells_blocks_perm s.ranges hplain).nodup_iff.2 (k.plan.nodup_cells s.ranges)
  let I (done : List Ranges) (c : Env) (t : World × Table Value) : Prop :=
    if c ∈ done.flatMap k.plan.cells then k.Revised a w w' s scope value c t else k.Intact a w w' c t
  have hI (done : List Ranges) (c : Env) (t u : World × Table Value) (hc : I done c t)
      (hu : k.Spares a [c] t u) : I done c u := by
    by_cases hmem : c ∈ done.flatMap k.plan.cells
    · simp only [I, if_pos hmem] at hc ⊢
      exact hc.mono hu
    · simp only [I, if_neg hmem] at hc ⊢
      exact hc.mono hu
  have hwork (done : List Ranges) (rs : Ranges) (rest : List Ranges)
      (hdone : k.plan.blocks s.ranges = done ++ rs :: rest) (c : Env) (hc : c ∈ k.plan.cells rs)
      (t : World × Table Value) (hnow : I done c t) :
      (workCell (s.machine k scope) k.outputIndices rs k.plan.body c).Upholds (k.Spares a [c])
        (k.Touches a [c]) (fun _ => I (done ++ [rs]) c) t := by
    have hrs : rs ∈ k.plan.blocks s.ranges := by simp [hdone]
    have hnew : c ∉ done.flatMap k.plan.cells := fun hmem => by
      rw [hdone, List.flatMap_append, List.flatMap_cons] at hnodup
      exact (List.nodup_append.1 hnodup).2.2 c hmem c (List.mem_append_left _ hc) rfl
    simp only [I, if_neg hnew] at hnow
    refine (h.upholds_workCell hrs hplain (h.mem_points_of_mem_cells hrs hc) hnow).imp fun _ u hu => ?_
    simp only [I, List.flatMap_append, List.flatMap_singleton, List.mem_append, hc, or_true, if_true]
    exact hu
  have hskip (done : List Ranges) (rs : Ranges) (c : Env) (t : World × Table Value)
      (hc : c ∉ k.plan.cells rs) (hnow : I done c t) : I (done ++ [rs]) c t := by
    simpa [I, hc] using hnow
  obtain ⟨hall, htouches⟩ := h.endsInTurn_blocks hI hwork hskip (fun c _ => h.intact_start c) hends
  refine ⟨fun c hc => ?_, htouches⟩
  have hmem := (hk.lays.cells_blocks_perm s.ranges hplain).mem_iff.2 (hk.lays.mem_cells.2 hc)
  have hdone := hall c hc
  simp only [I, if_pos hmem] at hdone
  exact hdone

/-- With resuming, all values of a cell are in its accumulator when all blocks have been done. -/
theorem waits_of_blocks {workers : Nat} (hresumes : k.plan.body.resumes = true) {t' : World × Table Value}
    (hends : EndsInTurn ((k.plan.blocks s.ranges).map
      (blockWork (s.machine k scope) k.outputIndices workers k.plan)) (w', []) t') :
    (∀ c ∈ s.ranges.points k.outputIndices, ∃ ps, ps.Perm (s.ranges.points k.reductionIndices) ∧
      k.Waits a w w' s scope value c ps t') ∧ k.Touches a (s.ranges.points k.outputIndices) (w', []) t' := by
  obtain ⟨read, hk⟩ := h.planned
  let visited (done : List Ranges) (c : Env) : List Env := done.flatMap fun rs =>
    if c ∈ rs.points k.outputIndices then rs.points k.reductionIndices else []
  have hwork (done : List Ranges) (rs : Ranges) (rest : List Ranges)
      (hdone : k.plan.blocks s.ranges = done ++ rs :: rest) (c : Env) (hc : c ∈ k.plan.cells rs)
      (t : World × Table Value) (hnow : k.Waits a w w' s scope value c (visited done c) t) :
      (workCell (s.machine k scope) k.outputIndices rs k.plan.body c).Upholds (k.Spares a [c])
        (k.Touches a [c]) (fun _ => k.Waits a w w' s scope value c (visited (done ++ [rs]) c)) t := by
    have hrs : rs ∈ k.plan.blocks s.ranges := by simp [hdone]
    have hnext : visited (done ++ [rs]) c = visited done c ++ rs.points k.reductionIndices := by
      simp [visited, hk.lays.mem_cells.1 hc]
    rw [hnext]
    exact h.upholds_workCell_resumes hrs hresumes (h.mem_points_of_mem_cells hrs hc) hnow
  have hskip (done : List Ranges) (rs : Ranges) (c : Env) (t : World × Table Value)
      (hc : c ∉ k.plan.cells rs) (hnow : k.Waits a w w' s scope value c (visited done c) t) :
      k.Waits a w w' s scope value c (visited (done ++ [rs]) c) t := by
    have hnext : visited (done ++ [rs]) c = visited done c := by
      simp [visited, mt hk.lays.mem_cells.2 hc]
    rwa [hnext]
  obtain ⟨hall, htouches⟩ := h.endsInTurn_blocks
    (I := fun done c => k.Waits a w w' s scope value c (visited done c)) (fun _ _ _ _ => Waits.mono)
    hwork hskip (fun c _ => ⟨h.intact_start c, .nil (keepsBut_refl a w')⟩) hends
  refine ⟨fun c hc => ⟨_, ?_, hall c hc⟩, htouches⟩
  have hperm := k.plan.flatMap_blocks_perm s.ranges k.outputIndices k.reductionIndices
    (by rw [hk.reductionIndices_eq]; exact hk.lays.nodup)
    (fun g hg => by
      rw [hk.reductionIndices_eq]
      exact ⟨(hk.lays.group g hg).1, (hk.lays.group g hg).2.1, (hk.lays.group g hg).2.2.1⟩) c
  rwa [if_pos hc] at hperm

/-- With resuming, all cells take their values in the end. -/
theorem revised_of_flush (hresumes : k.plan.body.resumes = true)
    (ht : ∀ c ∈ s.ranges.points k.outputIndices, ∃ ps, ps.Perm (s.ranges.points k.reductionIndices) ∧
      k.Waits a w w' s scope value c ps t) {t' : World × Table Value}
    (hends : Ends t [flushWork (s.machine k scope) k.outputIndices s.ranges] t') :
    (∀ c ∈ s.ranges.points k.outputIndices, k.Revised a w w' s scope value c t') ∧
      k.Touches a (s.ranges.points k.outputIndices) t t' := by
  obtain ⟨read, hk⟩ := h.planned
  have hne : k.reductionIndices ≠ [] := by
    rcases hk.lays.body with ⟨-, hbody⟩ | ⟨hsome, -⟩
    · rw [hbody] at hresumes
      cases hresumes
    · rwa [hk.reductionIndices_eq]
  have hwork (c : Env) (hc : c ∈ s.ranges.points k.outputIndices) (t : World × Table Value)
      (hnow : ∃ ps, ps.Perm (s.ranges.points k.reductionIndices) ∧ k.Waits a w w' s scope value c ps t) :
      (do (s.machine k scope).stepwise.store (c.reverse ++ [])
            (← fetch (Env.cell (c.reverse ++ []) k.outputIndices) s.init)).Upholds (k.Spares a [c])
        (k.Touches a [c]) (fun _ => k.Revised a w w' s scope value c) t := by
    obtain ⟨ps, hps, hwaits⟩ := hnow
    have hcell : Env.cell (c.reverse ++ []) k.outputIndices = c.cell k.outputIndices := by
      rw [List.append_nil]
      exact Ranges.cell_reverse_of_mem_points k.nodup_outputIndices hc
    refine (hwaits.upholds_fetch hcell).bind Spares.refl fun acc t₁ hholds => ?_
    refine h.upholds_store hcell hholds.1 fun z old cell hz hold haccept => ?_
    exact hholds.takes hne hps hz hold haccept
  have hprocess := h.upholds_cells (fun c hc => hc) (s.ranges.nodup_points k.outputIndices)
    (fun c t u hnow hu => hnow.imp fun _ h => ⟨h.1, h.2.mono hu⟩) (fun _ _ _ => Revised.mono) hwork ht
  rw [flushWork, foldLoops_eq] at hends
  obtain ⟨hall, hsteps⟩ := hends.upheld (R := k.Spares a) (G := k.Touches a)
    (Q := fun cs t => ∀ c ∈ cs, k.Revised a w w' s scope value c t) (fun _ => Spares.refl)
    (fun _ _ _ _ => Spares.trans) (List.pairwise_singleton _ _) (.cons hprocess .nil)
  exact ⟨hall _ (.head _), by simpa using Touches.of_steps hsteps⟩

/-- However the workers take turns, when all of them have ended well each cell has taken its value, and
nothing else has changed. -/
theorem revised {workers : Nat} {t' : World × Table Value}
    (hends : EndsInTurn (crew (s.machine k scope) k.outputIndices workers k.plan s.ranges w').waiting
      (w', []) t') :
    (∀ c ∈ s.ranges.points k.outputIndices, k.Revised a w w' s scope value c t') ∧
      k.Touches a (s.ranges.points k.outputIndices) (w', []) t' := by
  obtain ⟨t, hblocks, hflush⟩ := EndsInTurn.append hends
  cases hresumes : k.plan.body.resumes with
  | false =>
    rw [hresumes] at hflush
    obtain rfl : t = t' := hflush
    exact h.revised_of_blocks hresumes hblocks
  | true =>
    rw [hresumes] at hflush
    obtain ⟨u, hflush, rfl⟩ := hflush
    obtain ⟨hwaits, htouches⟩ := h.waits_of_blocks hresumes hblocks
    obtain ⟨hrevised, htouches'⟩ := h.revised_of_flush hresumes hwaits hflush
    exact ⟨hrevised, htouches.trans htouches'⟩

end Revising

/-! ## Calls that return -/

/-- A call that returns, or whose workers have all ended well after steps in some order. -/
theorem exists_endsInTurn {k : Kernel} {read : Reduction.Partial} (hk : k.Planned read) {scope : Scope}
    {w w'' : World} {out : Value}
    (h : exec (k.call scope) w = (.ok out, w'') ∨ k.Interleaves scope w (.ok out) w'') :
    ∃ s w' t, exec (k.launch scope) w = (.ok s, w') ∧ out = s.out ∧
      EndsInTurn (k.workers scope s w').waiting (w', []) t ∧ w'' = t.1 := by
  have hstart {s : Setup} {w' : World} {t : World × Table Value}
      (hends : EndsInTurn ([] :: (k.workers scope s w').waiting) (w', []) t) :
      EndsInTurn (k.workers scope s w').waiting (w', []) t := by
    obtain ⟨u, hnil, hends⟩ := hends
    rwa [← hnil.eq_of_nil] at hends
  rcases h with hcall | hinterleaves
  · rw [call_eq] at hcall
    obtain ⟨s, w', hlaunch, hcall⟩ := Run.exec_bind_eq_ok hcall
    obtain ⟨_, u, hplan, hcall⟩ := Run.exec_bind_eq_ok hcall
    cases hcall
    rcases exec_rest_crew (s.machine k scope) k.outputIndices k.config.workerCount
      (fun g hg => (hk.lays.group g hg).2.1) (c := k.workers scope s w') rfl
      with ⟨u', t, hplan', hrest⟩ | ⟨e, hplan', -⟩
    · cases hplan.symm.trans hplan'
      exact ⟨s, w', _, hlaunch, rfl, hstart (Process.endsInTurn_of_runAll hrest), rfl⟩
    · rw [hplan] at hplan'
      cases hplan'
  · generalize hr : Except.ok out = r at hinterleaves
    cases hinterleaves with
    | failed => cases hr
    | @ended s w' c o hlaunch hreach hresult =>
      cases o with
      | error e => cases hr
      | ok =>
        cases hr
        exact ⟨s, w', c.state, hlaunch, rfl, hstart (Crew.Reaches.endsInTurn hreach hresult), rfl⟩

end Kernel
end IndexNotation
