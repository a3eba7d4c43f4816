import IndexNotation.Proofs.Ranges

/-!
# The points of nested loops

Nested loops pass a state along a list of points, and a point gives a value to every index. Whatever
is done about the loops (blocks of a tiled group, chunks for workers, unrolling), the values that an
index takes are values of its range.
-/

namespace IndexNotation

/-- The points of nested loops, in the order in which the loops run through them: the outermost
loop varies slowest. -/
def points : List (String × List Int) → List Env
  | [] => [[]]
  | (index, values) :: loops => values.flatMap fun v => (points loops).map ((index, v) :: ·)

theorem mem_points {loops : List (String × List Int)} {p : Env} :
    p ∈ points loops ↔ List.Forall₂ (fun l q => q.1 = l.1 ∧ q.2 ∈ l.2) loops p := by
  induction loops generalizing p with
  | nil => simp [points]
  | cons l loops ih =>
    obtain ⟨index, values⟩ := l
    simp only [points, List.mem_flatMap, List.mem_map, ih]
    constructor
    · rintro ⟨v, hv, q, hq, rfl⟩
      exact .cons ⟨rfl, hv⟩ hq
    · rintro (_ | @⟨_, ⟨i, v⟩, _, q, ⟨rfl, hv⟩, hq⟩)
      exact ⟨v, hv, q, hq, rfl⟩

theorem map_fst_of_mem_points {loops : List (String × List Int)} {p : Env} (h : p ∈ points loops) :
    p.map Prod.fst = loops.map Prod.fst := by
  induction mem_points.1 h with
  | nil => rfl
  | cons hq _ ih => simp [hq.1, ih (mem_points.2 ‹_›)]

theorem nodup_points {loops : List (String × List Int)} (h : ∀ l ∈ loops, l.2.Nodup) :
    (points loops).Nodup := by
  induction loops with
  | nil => simp [points]
  | cons l loops ih =>
    obtain ⟨index, values⟩ := l
    refine List.nodup_flatMap.2 ⟨fun v _ => ?_, ?_⟩
    · exact (ih fun l hl => h l (.tail _ hl)).map fun _ _ e => (List.cons.inj e).2
    · refine (h _ (.head _)).imp fun {v v'} hne => ?_
      intro p hp hp'
      obtain ⟨q, -, rfl⟩ := List.mem_map.1 hp
      obtain ⟨q', -, e⟩ := List.mem_map.1 hp'
      exact hne (by simpa using (List.cons.inj e).1.symm)

theorem reverse_mem_points {loops : List (String × List Int)} {p : Env} :
    p.reverse ∈ points loops ↔ p ∈ points loops.reverse := by
  rw [mem_points, mem_points, ← List.forall₂_reverse_iff, List.reverse_reverse]

section

variable {m : Type → Type} [Monad m] {σ : Type}

theorem foldlM_congr_mem {α : Type} {f g : σ → α → m σ} {as : List α}
    (h : ∀ a ∈ as, ∀ s, f s a = g s a) (s : σ) : as.foldlM f s = as.foldlM g s := by
  induction as generalizing s with
  | nil => rfl
  | cons a as ih =>
    rw [List.foldlM_cons, List.foldlM_cons, h a (.head _)]
    exact bind_congr fun s => ih (fun a ha => h a (.tail _ ha)) s

variable [LawfulMonad m]

theorem foldlM_flatMap {α β : Type} (f : α → List β) (g : σ → β → m σ) (as : List α) (s : σ) :
    (as.flatMap f).foldlM g s = as.foldlM (fun s a => (f a).foldlM g s) s := by
  induction as generalizing s with
  | nil => rfl
  | cons a as ih => simp [List.flatMap_cons, List.foldlM_append, ih]

/-- Nested loops pass the state along their points. -/
theorem foldLoops_eq (loops : List (String × List Int)) (body : Env → σ → m σ) (env : Env) (s : σ) :
    foldLoops loops body env s = (points loops).foldlM (fun s p => body (p.reverse ++ env) s) s := by
  induction loops generalizing env s with
  | nil => simp [foldLoops, points]
  | cons l loops ih =>
    obtain ⟨index, values⟩ := l
    simp only [foldLoops, points, foldlM_flatMap, ih, List.foldlM_map]
    simp

end

/-! ## Values within ranges -/

namespace Ranges

/-- The points of some indices, in the order of their ranges; the first index varies slowest. -/
def points (rs : Ranges) (indices : List String) : List Env :=
  IndexNotation.points (indices.map fun i => (i, (rs.get i).toList))

theorem nodup_points (rs : Ranges) (indices : List String) : (rs.points indices).Nodup := by
  refine IndexNotation.nodup_points fun l hl => ?_
  obtain ⟨i, -, rfl⟩ := List.mem_map.1 hl
  exact Range.nodup_toList _

/-- There are points if no range is empty. -/
theorem points_ne_nil {rs : Ranges} {indices : List String} (h : ∀ i ∈ indices, (rs.get i).isEmpty = false) :
    rs.points indices ≠ [] := by
  refine List.ne_nil_of_mem (a := indices.map fun i => (i, (rs.get i).element 0)) (mem_points.2 ?_)
  refine List.forall₂_map_left_iff.2 (List.forall₂_map_right_iff.2 (List.forall₂_same.2 fun i hi => ⟨rfl, ?_⟩))
  have hne := h i hi
  exact List.mem_map.2 ⟨0, by simpa [Range.isEmpty, Nat.pos_iff_ne_zero] using hne, rfl⟩

theorem map_fst_of_mem_points {rs : Ranges} {indices : List String} {p : Env}
    (h : p ∈ rs.points indices) : p.map Prod.fst = indices := by
  rw [IndexNotation.map_fst_of_mem_points h, List.map_map]
  exact List.map_id _

theorem reverse_mem_points {rs : Ranges} {indices : List String} {p : Env} :
    p.reverse ∈ rs.points indices ↔ p ∈ rs.points indices.reverse := by
  rw [points, points, IndexNotation.reverse_mem_points, List.map_reverse]

/-- No range has gaps. -/
def Gapless (rs : Ranges) : Prop := ∀ i, (rs.get i).step = 1

/-- The ranges of `rs'` are parts of those of `rs`. -/
def Refines (rs' rs : Ranges) : Prop :=
  ∀ i, (rs'.get i).step = 1 ∧ ∀ v ∈ (rs'.get i).toList, v ∈ (rs.get i).toList

theorem mem_points_of_refines {rs rs' : Ranges} (h : rs'.Refines rs) {indices : List String} {p : Env}
    (hp : p ∈ rs'.points indices) : p ∈ rs.points indices := by
  rw [points, mem_points, List.forall₂_map_left_iff] at hp ⊢
  exact hp.imp fun i q hq => ⟨hq.1, (h i).2 q.2 hq.2⟩

theorem Gapless.refines {rs : Ranges} (h : rs.Gapless) : rs.Refines rs := fun i => ⟨h i, fun _ => id⟩

/-- The loops over the values of a cell have the points of their indices. -/
theorem Gapless.points_values {rs : Ranges} (h : rs.Gapless) (loops : List InnerLoop) :
    IndexNotation.points (loops.map fun l => (l.index, l.values rs)) = rs.points (loops.map (·.index)) := by
  rw [points, List.map_map]
  exact congrArg IndexNotation.points (List.map_congr_left fun l _ =>
    congrArg (l.index, ·) (InnerLoop.values_eq (h l.index)))

theorem get_cons (rs : Ranges) (j : String) (r : Range) (i : String) :
    get ((j, r) :: rs) i = if i == j then r else rs.get i := by
  cases h : i == j <;> simp [get, List.lookup_cons, h]

theorem rebind_cons (rs : Ranges) (i : String) (indices : List String) (r : Range)
    (block : List Range) :
    rs.rebind (i :: indices) (r :: block) = (i, r) :: rs.rebind indices block := rfl

end Ranges

/-- An environment gives values to `indices`, and all its values are within the ranges. -/
structure Env.Covers (env : Env) (rs : Ranges) (indices : List String) : Prop where
  within : ∀ i v, (i, v) ∈ env → v ∈ (rs.get i).toList
  bound : ∀ i ∈ indices, i ∈ env.map Prod.fst

namespace Env

theorem mem_of_lookup {α : Type} {env : List (String × α)} {i : String} {v : α}
    (h : env.lookup i = some v) : (i, v) ∈ env := by
  obtain ⟨l₁, l₂, rfl, -⟩ := List.lookup_eq_some_iff.1 h
  simp

theorem lookup_isSome {α : Type} {env : List (String × α)} {i : String} :
    (env.lookup i).isSome ↔ i ∈ env.map Prod.fst := by
  rw [← not_iff_not, Option.not_isSome_iff_eq_none, List.lookup_eq_none_iff, List.mem_map]
  simp only [bne_iff_ne, ne_eq, not_exists, not_and]
  exact ⟨fun h q hq e => h q hq e.symm, fun h q hq e => h q hq e.symm⟩

namespace Covers

variable {env : Env} {rs rs' : Ranges} {indices indices' : List String}

theorem nil : Covers [] rs [] := ⟨by simp, by simp⟩

theorem cons {i : String} {v : Int} (h : env.Covers rs indices) (hv : v ∈ (rs.get i).toList) :
    Covers ((i, v) :: env) rs (i :: indices) where
  within j u hj := by
    rcases List.mem_cons.1 hj with e | hj
    · cases e
      exact hv
    · exact h.within j u hj
  bound j hj := by
    rcases List.mem_cons.1 hj with rfl | hj
    · exact .head _
    · exact .tail _ (h.bound j hj)

theorem append {env' : Env} (h : env.Covers rs indices) (h' : env'.Covers rs indices') :
    (env ++ env').Covers rs (indices ++ indices') where
  within i v hi := (List.mem_append.1 hi).elim (h.within i v) (h'.within i v)
  bound i hi := by
    rw [List.map_append, List.mem_append]
    exact (List.mem_append.1 hi).imp (h.bound i) (h'.bound i)

theorem mono (h : env.Covers rs indices) (hs : indices' ⊆ indices) : env.Covers rs indices' :=
  ⟨h.within, fun i hi => h.bound i (hs hi)⟩

/-- An index that is covered has a value, and the value is in its range. -/
theorem lookup (h : env.Covers rs indices) {i : String} (hi : i ∈ indices) :
    ∃ v, env.lookup i = some v ∧ v ∈ (rs.get i).toList := by
  obtain ⟨v, hv⟩ := Option.isSome_iff_exists.1 (lookup_isSome.2 (h.bound i hi))
  exact ⟨v, hv, h.within i v (mem_of_lookup hv)⟩

end Covers
end Env

theorem Ranges.covers_of_mem_points {rs : Ranges} {indices : List String} {p : Env}
    (h : p ∈ rs.points indices) : p.Covers rs indices := by
  refine ⟨fun i v hi => ?_, fun i hi => by rwa [Ranges.map_fst_of_mem_points h]⟩
  have hall := List.forall₂_map_left_iff.1 (mem_points.1 h)
  induction hall with
  | nil => simp at hi
  | @cons j q is p hq hall ih =>
    rcases List.mem_cons.1 hi with rfl | hi
    · obtain rfl := hq.1
      exact hq.2
    · exact ih (mem_points.2 (List.forall₂_map_left_iff.2 hall)) hi

/-- The value of an index that is listed once. -/
theorem Env.lookup_eq_some_iff {α : Type} {env : List (String × α)} (hnodup : (env.map Prod.fst).Nodup)
    {i : String} {v : α} : env.lookup i = some v ↔ (i, v) ∈ env := by
  refine ⟨mem_of_lookup, fun hmem => ?_⟩
  induction env with
  | nil => simp at hmem
  | cons q env ih =>
    obtain ⟨hnew, hnodup⟩ := List.nodup_cons.1 hnodup
    rcases List.mem_cons.1 hmem with rfl | hmem
    · simp
    · have hne : i ≠ q.1 := fun he => hnew (he ▸ List.mem_map.2 ⟨_, hmem, rfl⟩)
      rw [List.lookup_cons, beq_false_of_ne hne]
      exact ih hnodup hmem

/-- Values of different indices can be listed in any order. -/
theorem lookup_eq_of_perm {α : Type} {env env' : List (String × α)} (h : env.Perm env')
    (hnodup : (env.map Prod.fst).Nodup) (i : String) : env.lookup i = env'.lookup i := by
  refine Option.ext fun v => ?_
  rw [Env.lookup_eq_some_iff hnodup, Env.lookup_eq_some_iff ((h.map _).nodup_iff.1 hnodup), h.mem_iff]

theorem Env.cell_congr {env env' : Env} (h : ∀ i, env.lookup i = env'.lookup i) (indices : List String) :
    env.cell indices = env'.cell indices :=
  List.map_congr_left fun i _ => by rw [h i]

/-- The cell of different indices is the list of their values. -/
theorem Env.cell_map_fst {env : Env} (h : (env.map Prod.fst).Nodup) :
    env.cell (env.map Prod.fst) = env.map Prod.snd := by
  induction env with
  | nil => rfl
  | cons q env ih =>
    obtain ⟨i, v⟩ := q
    obtain ⟨hnew, h⟩ := List.nodup_cons.1 h
    rw [List.map_cons, List.map_cons, ← ih h, cell, List.map_cons, List.lookup_cons_self]
    refine congrArg _ (List.map_congr_left fun j hj => ?_)
    have hne : j ≠ i := fun e => hnew (e ▸ hj)
    rw [List.lookup_cons, beq_false_of_ne hne]

theorem Ranges.cell_reverse_of_mem_points {rs : Ranges} {indices : List String} (hnodup : indices.Nodup)
    {p : Env} (hp : p ∈ rs.points indices) : Env.cell p.reverse indices = p.cell indices := by
  refine Env.cell_congr (lookup_eq_of_perm (List.reverse_perm p) ?_) indices
  rwa [List.map_reverse, List.nodup_reverse, map_fst_of_mem_points hp]

/-- A point is known by its cell. -/
theorem Ranges.eq_of_cell_eq {rs rs' : Ranges} {indices : List String} (hnodup : indices.Nodup)
    {p p' : Env} (hp : p ∈ rs.points indices) (hp' : p' ∈ rs'.points indices)
    (h : p.cell indices = p'.cell indices) : p = p' := by
  have hfst := Ranges.map_fst_of_mem_points hp
  have hfst' := Ranges.map_fst_of_mem_points hp'
  have hsnd : p.map Prod.snd = p'.map Prod.snd := by
    rw [← Env.cell_map_fst (by rwa [hfst]), ← Env.cell_map_fst (by rwa [hfst']), hfst, hfst', h]
  rw [← List.zip_unzip p, ← List.zip_unzip p', List.unzip_eq_map, List.unzip_eq_map, hsnd, hfst, hfst']

/-! ## Blocks -/

theorem mem_combinations {α : Type} {lists : List (List α)} {xs : List α} :
    xs ∈ combinations lists ↔ List.Forall₂ (· ∈ ·) xs lists := by
  induction lists generalizing xs with
  | nil => simp [combinations]
  | cons l lists ih =>
    simp only [combinations, List.mem_flatMap, List.mem_map, ih]
    constructor
    · rintro ⟨tail, ht, x, hx, rfl⟩
      exact .cons hx ht
    · rintro (_ | ⟨hx, ht⟩)
      exact ⟨_, ht, _, hx, rfl⟩

/-- The blocks of a group are made of one piece for each of its indices. -/
theorem tileBlocks_eq (rs : Ranges) (indices : List String) {width : Int} (h : 0 < width) :
    tileBlocks (indices.map rs.get) (indices.map fun _ => width) =
      .ok (combinations (indices.map fun i => (rs.get i).pieces width.toNat)) := by
  have hblocks (r : Range) : blocksOf r width = .ok (r.pieces width.toNat) := by
    simp [blocksOf, Int.ne_of_gt h, Int.not_lt.2 (Int.le_of_lt h)]
  have hmap : ((indices.map rs.get).zip (indices.map fun _ => width)).mapM
      (fun p => blocksOf p.1 p.2) = .ok (indices.map fun i => (rs.get i).pieces width.toNat) := by
    induction indices with
    | nil => rfl
    | cons i indices ih =>
      simp only [List.map_cons, List.zip_cons_cons, List.mapM_cons, hblocks, ih]
      rfl
  simp only [tileBlocks, hmap]
  rfl

namespace Ranges

/-- Within a block of a tiled group, every range is a part of what it was. -/
theorem refines_rebind {rs : Ranges} (hrs : rs.Gapless) {indices : List String} {width : Nat}
    {block : List Range}
    (h : block ∈ combinations (indices.map fun i => (rs.get i).pieces width)) :
    (rs.rebind indices block).Refines rs := by
  rw [mem_combinations] at h
  induction indices generalizing block with
  | nil => exact hrs.refines
  | cons i indices ih =>
    rcases h with _ | @⟨r, _, block, _, hr, ht⟩
    intro j
    rw [rebind_cons, get_cons]
    cases hij : j == i with
    | false => simpa using ih ht j
    | true =>
      obtain rfl := eq_of_beq hij
      exact ⟨(Range.step_of_mem_pieces hr).trans (hrs j), fun v hv => Range.mem_of_mem_pieces hr hv⟩

end Ranges

/-! ## The cells of a plan -/

namespace Plan

/-- The indices of the loops of a plan over the output. -/
def outer (p : Plan) : List String := p.outputs.map (·.index)

/-- The indices of the loops of a plan over the values of a cell. -/
def inner (p : Plan) : List String := p.body.loops.map (·.index)

/-- The values of the output indices for all cells, in the order of the loops. -/
def cells (p : Plan) (rs : Ranges) : List Env := (rs.points p.outer).map List.reverse

/-- The ranges in the blocks of the tiled group, one block after the other. -/
def blocks (p : Plan) (rs : Ranges) : List Ranges :=
  match p.tiles with
  | none => [rs]
  | some g => (combinations (g.indices.map fun i => (rs.get i).pieces g.width.toNat)).map
      (rs.rebind g.indices)

theorem mem_cells {p : Plan} {rs : Ranges} {c : Env} :
    c ∈ p.cells rs ↔ c ∈ rs.points p.outer.reverse := by
  rw [← Ranges.reverse_mem_points, cells, List.mem_map]
  constructor
  · rintro ⟨q, hq, rfl⟩
    rwa [List.reverse_reverse]
  · exact fun h => ⟨_, h, List.reverse_reverse c⟩

theorem nodup_cells (p : Plan) (rs : Ranges) : (p.cells rs).Nodup :=
  (rs.nodup_points p.outer).map List.reverse_injective

theorem refines_of_mem_blocks {p : Plan} {rs rs' : Ranges} (hgapless : rs.Gapless)
    (hrs : rs' ∈ p.blocks rs) : rs'.Refines rs := by
  unfold blocks at hrs
  split at hrs
  · obtain rfl := List.mem_singleton.1 hrs
    exact hgapless.refines
  · obtain ⟨block, hblock, rfl⟩ := List.mem_map.1 hrs
    exact Ranges.refines_rebind hgapless hblock

end Plan

/-- Without workers the loops over the output visit one cell after the other. -/
theorem runOutputs_eq {m : Type → Type} {V : Type} [Monad m] [LawfulMonad m] [MonadExceptOf Error m]
    (k : Machine m V) {workers : Nat} (outputs : List String) {p : Plan} (rs : Ranges)
    (table : Table V) (h : ∀ l ∈ p.outputs, (l.parallel && 1 < workers) = false) :
    runOutputs k workers outputs p rs table =
      (p.cells rs).foldlM (fun table c => runCell k rs outputs p.body c table) table := by
  unfold runOutputs
  cases ho : p.outputs with
  | nil => simp [Plan.cells, Plan.outer, ho, Ranges.points, points]
  | cons outermost rest =>
    dsimp only
    rw [h outermost (by simp [ho]), if_neg Bool.false_ne_true, foldLoops_eq, Plan.cells, List.foldlM_map]
    simp [Plan.outer, ho, Ranges.points, Function.comp_def]

end IndexNotation
