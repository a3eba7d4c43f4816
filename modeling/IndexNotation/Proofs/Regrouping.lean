import IndexNotation.Proofs.Points
import Mathlib.Data.List.Perm.Basic

/-!
# Regrouping points

Blocks of a tiled group go through the same points as the ranges that they are cut from, each point
once, in another order. The same holds of loops that are nested in another order. So a fold whose
steps may be exchanged comes to the same in all of them.
-/

namespace IndexNotation

/-- A fold that never fails does not depend on the order of what is folded, if steps from values in
`P` may be exchanged. -/
theorem foldlM_eq_of_perm {ε α β : Type} {P : β → Prop} {f : β → α → Except ε β} {l l' : List α}
    (hl : l.Perm l') (hclosed : ∀ b, P b → ∀ a ∈ l, ∃ b', f b a = .ok b' ∧ P b')
    (hcomm : ∀ b, P b → ∀ x ∈ l, ∀ y ∈ l, (f b x >>= (f · y)) = (f b y >>= (f · x))) {b : β}
    (hb : P b) : l.foldlM f b = l'.foldlM f b := by
  induction hl generalizing b with
  | nil => rfl
  | cons a hl ih =>
    obtain ⟨b', hb', hP⟩ := hclosed b hb a (.head _)
    rw [List.foldlM_cons, List.foldlM_cons, hb']
    exact ih (fun b hb x hx => hclosed b hb x (.tail _ hx))
      (fun b hb x hx y hy => hcomm b hb x (.tail _ hx) y (.tail _ hy)) hP
  | swap x y l =>
    simp only [List.foldlM_cons, ← bind_assoc]
    rw [hcomm b hb y (.head _) x (.tail _ (.head _))]
  | trans hl₁ _ ih₁ ih₂ =>
    rw [ih₁ hclosed hcomm hb]
    exact ih₂ (fun b hb x hx => hclosed b hb x (hl₁.mem_iff.2 hx))
      (fun b hb x hx y hy => hcomm b hb x (hl₁.mem_iff.2 hx) y (hl₁.mem_iff.2 hy)) hb

theorem flatMap_comm_perm {α β γ : Type} (as : List α) (bs : List β) (f : α → β → List γ) :
    (as.flatMap fun a => bs.flatMap (f a)).Perm (bs.flatMap fun b => as.flatMap fun a => f a b) := by
  induction as with
  | nil => simp
  | cons a as ih =>
    simp only [List.flatMap_cons]
    exact (ih.append_left _).trans (List.flatMap_append_perm bs (f a) _)

namespace Ranges

variable {rs rs' : Ranges}

theorem points_cons (rs : Ranges) (i : String) (indices : List String) : rs.points (i :: indices) =
    (rs.get i).toList.flatMap fun v => (rs.points indices).map ((i, v) :: ·) := rfl

theorem points_congr {indices : List String} (h : ∀ i ∈ indices, (rs.get i).toList = (rs'.get i).toList) :
    rs.points indices = rs'.points indices := by
  rw [points, points, List.map_congr_left fun i hi => by rw [h i hi]]

theorem points_append (rs : Ranges) (indices indices' : List String) :
    rs.points (indices ++ indices') =
      (rs.points indices).flatMap fun c => (rs.points indices').map (c ++ ·) := by
  induction indices with
  | nil => simp [points, IndexNotation.points]
  | cons i indices ih =>
    rw [List.cons_append, points_cons, points_cons, ih]
    simp only [List.flatMap_assoc, List.map_flatMap, List.flatMap_map, List.map_map]
    rfl

theorem get_rebind_of_notMem {i : String} {indices : List String} (hi : i ∉ indices)
    (block : List Range) : (rs.rebind indices block).get i = rs.get i := by
  induction indices generalizing block with
  | nil => rfl
  | cons j indices ih =>
    cases block with
    | nil => rfl
    | cons r block =>
      have hne : i ≠ j := fun e => hi (e ▸ .head _)
      rw [rebind_cons, get_cons, beq_false_of_ne hne, if_neg Bool.false_ne_true]
      exact ih (fun h => hi (.tail _ h)) block

/-- The pieces of the range of one index go through all points. -/
theorem flatMap_points_pieces {i : String} {indices : List String} (hi : i ∈ indices)
    (hnodup : indices.Nodup) {width : Nat} (hwidth : 0 < width) :
    (((rs.get i).pieces width).flatMap fun r => points ((i, r) :: rs) indices).Perm (rs.points indices) := by
  induction indices with
  | nil => simp at hi
  | cons j indices ih =>
    obtain ⟨hnew, hnodup⟩ := List.nodup_cons.1 hnodup
    simp only [points_cons, get_cons]
    by_cases hij : j = i
    · subst hij
      have hrest (r : Range) : points ((j, r) :: rs) indices = rs.points indices :=
        points_congr fun x hx => by
          have hne : x ≠ j := fun e => hnew (e ▸ hx)
          rw [get_cons, beq_false_of_ne hne, if_neg Bool.false_ne_true]
      simp only [beq_self_eq_true, if_true, hrest]
      rw [← List.flatMap_assoc, Range.flatMap_pieces _ hwidth]
    · have hi : i ∈ indices := (List.mem_cons.1 hi).resolve_left fun e => hij e.symm
      simp only [beq_false_of_ne hij, if_neg Bool.false_ne_true]
      refine (flatMap_comm_perm _ _ _).trans (List.Perm.flatMap_left _ fun v _ => ?_)
      rw [← List.map_flatMap]
      exact (ih hi hnodup).map _

/-- The blocks of a tiled group go through all points. -/
theorem flatMap_points_blocks {indices : List String} (hnodup : indices.Nodup) {group : List String}
    (hgroup : group.Nodup) (hsub : ∀ i ∈ group, i ∈ indices) {width : Nat} (hwidth : 0 < width) :
    (((combinations (group.map fun i => (rs.get i).pieces width)).map (rs.rebind group)).flatMap
      fun rs' => rs'.points indices).Perm (rs.points indices) := by
  induction group with
  | nil => simp [combinations, rebind]
  | cons i group ih =>
    obtain ⟨hnew, hgroup⟩ := List.nodup_cons.1 hgroup
    have ih := ih hgroup fun j hj => hsub j (.tail _ hj)
    refine List.Perm.trans ?_ ih
    simp only [List.map_cons, combinations, List.map_flatMap, List.flatMap_assoc, List.flatMap_map,
      List.map_map, Function.comp_def, rebind_cons]
    refine List.Perm.flatMap_left _ fun tail htail => ?_
    rw [← get_rebind_of_notMem hnew tail]
    exact flatMap_points_pieces (hsub i (.head _)) hnodup hwidth

/-- The points of the other indices, at one point of some. -/
theorem filterMap_points_append (indices indices' : List String) (c : Env) :
    ((rs.points (indices ++ indices')).filterMap fun p =>
        if p.take indices.length = c then some (p.drop indices.length) else none) =
      if c ∈ rs.points indices then rs.points indices' else [] := by
  have hlength {p : Env} (hp : p ∈ rs.points indices) : p.length = indices.length := by
    rw [← map_fst_of_mem_points hp, List.length_map]
  have hpart {p : Env} (hp : p ∈ rs.points indices) :
      (((rs.points indices').map (p ++ ·)).filterMap fun q =>
        if q.take indices.length = c then some (q.drop indices.length) else none) =
      if p = c then rs.points indices' else [] := by
    rw [List.filterMap_map, ← hlength hp]
    by_cases h : p = c
    · simp [h]
    · simp [h]
  rw [points_append, List.filterMap_flatMap, List.flatMap_congr fun p hp => hpart hp]
  have hnodup := rs.nodup_points indices
  generalize rs.points indices = ps at hnodup
  induction ps with
  | nil => simp
  | cons p ps ih =>
    obtain ⟨hnew, hnodup⟩ := List.nodup_cons.1 hnodup
    rw [List.flatMap_cons, ih hnodup]
    by_cases h : p = c
    · subst h
      simp [hnew]
    · simp [h, Ne.symm h]

/-- The values of a function of points do not depend on the order of the indices, up to their own
order, if the function does not depend on how the values of the indices are listed. -/
theorem map_points_perm {β : Type} {indices indices' : List String} (h : indices.Perm indices')
    (hnodup : indices.Nodup) {F : Env → β}
    (hF : ∀ p p' : Env, (∀ i, p.lookup i = p'.lookup i) → F p = F p') :
    ((rs.points indices).map F).Perm ((rs.points indices').map F) := by
  have hcons {F : Env → β} (hF : ∀ p p' : Env, (∀ i, p.lookup i = p'.lookup i) → F p = F p')
      (q : String × Int) (p p' : Env) (hp : ∀ i, p.lookup i = p'.lookup i) : F (q :: p) = F (q :: p') := by
    refine hF _ _ fun i => ?_
    rw [List.lookup_cons, List.lookup_cons, hp]
  induction h generalizing F with
  | nil => exact .refl _
  | @cons i indices indices' h ih =>
    simp only [points_cons, List.map_flatMap, List.map_map]
    exact List.Perm.flatMap_left _ fun v _ =>
      ih (List.nodup_cons.1 hnodup).2 fun p p' hp => hcons hF (i, v) p p' hp
  | swap i j indices =>
    have hne : i ≠ j := fun e => (List.nodup_cons.1 hnodup).1 (by simp [e])
    simp only [points_cons, List.map_flatMap, List.map_map, Function.comp_def]
    refine (flatMap_comm_perm _ _ _).trans (List.Perm.flatMap_left _ fun v _ => ?_)
    refine List.Perm.flatMap_left _ fun v' _ => .of_eq (List.map_congr_left fun p _ => hF _ _ fun x => ?_)
    simp only [List.lookup_cons]
    by_cases hi : x = i
    · subst hi
      simp [beq_false_of_ne hne]
    · simp [beq_false_of_ne hi]
  | trans h₁ _ ih₁ ih₂ => exact (ih₁ hnodup hF).trans (ih₂ (h₁.nodup_iff.1 hnodup) hF)

end Ranges

namespace Plan

/-- The blocks of a plan go together through all points of its loops. -/
theorem points_blocks_perm (p : Plan) (rs : Ranges) {indices : List String} (hnodup : indices.Nodup)
    (hgroup : ∀ g, p.tiles = some g → g.indices.Nodup ∧ 0 < g.width ∧ ∀ i ∈ g.indices, i ∈ indices) :
    ((p.blocks rs).flatMap fun rs' => rs'.points indices).Perm (rs.points indices) := by
  unfold blocks
  cases hg : p.tiles with
  | none => simp
  | some g =>
    obtain ⟨hg, hwidth, hsub⟩ := hgroup g hg
    exact Ranges.flatMap_points_blocks hnodup hg hsub (by omega)

/-- The blocks of a plan that have a cell go together through all points of its values. -/
theorem flatMap_blocks_perm (p : Plan) (rs : Ranges) (outputs inner : List String)
    (hnodup : (outputs ++ inner).Nodup)
    (hgroup : ∀ g, p.tiles = some g → g.indices.Nodup ∧ 0 < g.width ∧
      ∀ i ∈ g.indices, i ∈ outputs ++ inner) (c : Env) :
    ((p.blocks rs).flatMap fun rs' => if c ∈ rs'.points outputs then rs'.points inner else []).Perm
      (if c ∈ rs.points outputs then rs.points inner else []) := by
  have hfilter := (p.points_blocks_perm rs hnodup hgroup).filterMap fun q =>
    if q.take outputs.length = c then some (q.drop outputs.length) else none
  simpa only [List.filterMap_flatMap, Ranges.filterMap_points_append] using hfilter

end Plan

end IndexNotation
