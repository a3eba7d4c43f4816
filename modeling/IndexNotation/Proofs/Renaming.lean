import IndexNotation.Proofs.References
import Mathlib.Logic.Function.Basic

/-!
# Renaming

Other names can be put in the place of the names of an expression. If different names stay different,
what is collected from the expression and bound to axes is the same up to the renaming. What is read
from it may fail with an error that tells of names; then the two errors are of one kind.
-/

namespace IndexNotation

/-! ## Names of expressions -/

namespace Expr

/-- An expression with other names in the place of its names. Functions, fields and keywords are not
named by these. -/
def rename (ρ : String → String) : Expr → Expr
  | name id p => name (ρ id) p
  | number v p => number v p
  | index b is p => index (rename ρ b) (renameAll is) p
  | field b n p => field (rename ρ b) n p
  | call f xs p => call f (renameAll xs) p
  | binary l o r p => binary (rename ρ l) o (rename ρ r) p
  | unary o x p => unary o (rename ρ x) p
  | first x p => first (rename ρ x) p
  | compare xs p => compare (renameAll xs) p
  | keyword n x p => keyword n (rename ρ x) p
  | target n is p => target n (renameAll is) p
  | hole => hole
where
  renameAll : List Expr → List Expr
    | [] => []
    | e :: es => rename ρ e :: renameAll es

/-- The names that stand in an expression. -/
def names : Expr → List String
  | name id _ => [id]
  | number _ _ => []
  | index b is _ => names b ++ allNames is
  | field b _ _ => names b
  | call _ xs _ => allNames xs
  | binary l _ r _ => names l ++ names r
  | unary _ x _ => names x
  | first x _ => names x
  | compare xs _ => allNames xs
  | keyword _ x _ => names x
  | target _ is _ => allNames is
  | hole => []
where
  allNames : List Expr → List String
    | [] => []
    | e :: es => names e ++ allNames es

theorem allNames_eq (es : List Expr) : names.allNames es = es.flatMap names := by
  induction es with
  | nil => rfl
  | cons e es ih => rw [names.allNames, ih, List.flatMap_cons]

section

variable {ρ ρ' : String → String}

theorem renameAll_eq (es : List Expr) : rename.renameAll ρ es = es.map (rename ρ) := by
  induction es with
  | nil => rfl
  | cons e es ih => rw [rename.renameAll, ih, List.map_cons]

mutual

/-- Only what happens to the names of an expression matters. -/
theorem rename_congr {e : Expr} (h : ∀ n ∈ e.names, ρ n = ρ' n) : e.rename ρ = e.rename ρ' := by
  cases e with
  | name id p => rw [rename, rename, h id (.head _)]
  | number _ _ | hole => rfl
  | index b is p =>
    rw [names, List.forall_mem_append] at h
    rw [rename, rename, rename_congr h.1, renameAll_congr h.2]
  | field b n p => rw [rename, rename, rename_congr (e := b) h]
  | call f xs p => rw [rename, rename, renameAll_congr h]
  | binary l o r p =>
    rw [names, List.forall_mem_append] at h
    rw [rename, rename, rename_congr h.1, rename_congr h.2]
  | unary o x p => rw [rename, rename, rename_congr (e := x) h]
  | first x p => rw [rename, rename, rename_congr (e := x) h]
  | compare xs p => rw [rename, rename, renameAll_congr h]
  | keyword n x p => rw [rename, rename, rename_congr (e := x) h]
  | target n is p => rw [rename, rename, renameAll_congr h]

theorem renameAll_congr {es : List Expr} (h : ∀ n ∈ names.allNames es, ρ n = ρ' n) :
    rename.renameAll ρ es = rename.renameAll ρ' es := by
  cases es with
  | nil => rfl
  | cons e es =>
    rw [names.allNames, List.forall_mem_append] at h
    rw [rename.renameAll, rename.renameAll, rename_congr h.1, renameAll_congr h.2]

end

/-! ## Walks -/

@[simp] theorem name?_rename (e : Expr) : (e.rename ρ).name? = e.name?.map ρ := by
  cases e <;> rfl

theorem symbolNames_rename (es : List Expr) : symbolNames (es.map (rename ρ)) = (symbolNames es).map ρ := by
  rw [symbolNames, List.filterMap_map, symbolNames, List.map_filterMap]
  exact List.filterMap_congr fun e _ => name?_rename e

mutual

theorem walk_rename (e : Expr) : (e.rename ρ).walk = e.walk.map (rename ρ) := by
  cases e with
  | name _ _ | number _ _ | compare _ _ | keyword _ _ _ | target _ _ _ | hole => simp [rename, walk]
  | index b is p => simp [rename, walk, walk_rename b, walkAll_rename is]
  | field b n p => simp [rename, walk, walk_rename b]
  | call f xs p => simp [rename, walk, walkAll_rename xs]
  | binary l o r p => simp [rename, walk, walk_rename l, walk_rename r]
  | unary o x p => simp [rename, walk, walk_rename x]
  | first x p => simp [rename, walk, walk_rename x]

theorem walkAll_rename (es : List Expr) :
    walk.walkAll (rename.renameAll ρ es) = (walk.walkAll es).map (rename ρ) := by
  cases es with
  | nil => rfl
  | cons e es => simp [rename.renameAll, walk.walkAll, walk_rename e, walkAll_rename es]

end

theorem any_mentionsName_rename (es : List Expr) :
    (rename.renameAll ρ es).any mentionsName = es.any mentionsName := by
  rw [renameAll_eq, List.any_map]
  refine congrArg es.any (funext fun e => ?_)
  rw [Function.comp, mentionsName, walk_rename, List.any_map, mentionsName]
  refine congrArg e.walk.any (funext fun x => ?_)
  rw [Function.comp, isName, name?_rename, Option.isSome_map, isName]

mutual

theorem axisSource_rename (e : Expr) : (e.rename ρ).axisSource = e.axisSource.rename ρ := by
  cases e with
  | index b is p =>
    simp only [rename, axisSource, axisSource_rename b, any_mentionsName_rename is]
    split <;> rfl
  | field b n p => simp only [rename, axisSource, axisSource_rename b]
  | call f xs p => simp only [rename, axisSource, axisSources_rename xs]
  | _ => rfl

theorem axisSources_rename (es : List Expr) :
    axisSource.axisSources (rename.renameAll ρ es) = rename.renameAll ρ (axisSource.axisSources es) := by
  cases es with
  | nil => rfl
  | cons e es => simp only [rename.renameAll, axisSource.axisSources, axisSource_rename e, axisSources_rename es]

end

mutual

theorem names_axisSource (e : Expr) : e.axisSource.names ⊆ e.names := by
  cases e with
  | index b is p =>
    rw [axisSource]
    split
    · exact List.subset_append_of_subset_left _ (names_axisSource b)
    · exact List.append_subset.2 ⟨List.subset_append_of_subset_left _ (names_axisSource b),
        List.subset_append_right _ _⟩
  | field b n p => exact names_axisSource b
  | call f xs p => exact names_axisSources xs
  | _ => exact List.Subset.refl _

theorem names_axisSources (es : List Expr) : names.allNames (axisSource.axisSources es) ⊆ names.allNames es := by
  cases es with
  | nil => exact List.Subset.refl _
  | cons e es =>
    exact List.append_subset.2 ⟨List.subset_append_of_subset_left _ (names_axisSource e),
      List.subset_append_of_subset_right _ (names_axisSources es)⟩

end

end

end Expr

/-! ## Lists of names -/

section

variable {ρ : String → String} (hρ : Function.Injective ρ)

/-- What is known of names, for other names. -/
def renameKeys {α : Type} (ρ : String → String) (l : List (String × α)) : List (String × α) :=
  l.map fun p => (ρ p.1, p.2)

theorem renameKeys_map {α β : Type} (f : β → String × α) (l : List β) :
    renameKeys ρ (l.map f) = l.map fun x => (ρ (f x).1, (f x).2) :=
  List.map_map

include hρ

theorem beq_rename (a b : String) : (ρ a == ρ b) = (a == b) := by
  rw [Bool.eq_iff_iff, beq_iff_eq, beq_iff_eq, hρ.eq_iff]

theorem contains_rename (l : List String) (a : String) : (l.map ρ).contains (ρ a) = l.contains a := by
  rw [List.contains_map, List.contains_eq_any_beq]
  exact congrArg l.any (funext fun b => beq_rename hρ a b)

theorem eraseDups_rename : (l : List String) → (l.map ρ).eraseDups = l.eraseDups.map ρ
  | [] => rfl
  | a :: l => by
    rw [List.map_cons, List.eraseDups_cons, List.eraseDups_cons, List.map_cons, List.filter_map,
      ← eraseDups_rename (l.filter fun b => !b == a)]
    refine congrArg (fun l => ρ a :: (List.map ρ l).eraseDups) (List.filter_congr fun b _ => ?_)
    rw [Function.comp, beq_rename hρ]
termination_by l => l.length
decreasing_by
  exact Nat.lt_succ_of_le (List.length_filter_le _ _)

theorem lookup_renameKeys {α : Type} (l : List (String × α)) (i : String) :
    (renameKeys ρ l).lookup (ρ i) = l.lookup i := by
  induction l with
  | nil => rfl
  | cons p l ih =>
    change List.lookup (ρ i) ((ρ p.1, p.2) :: renameKeys ρ l) = List.lookup i ((p.1, p.2) :: l)
    rw [List.lookup_cons, List.lookup_cons, beq_rename hρ, ih]

end

/-! ## Sameness -/

namespace Expr

section

variable {ρ : String → String}

mutual

theorem same_rename (hρ : Function.Injective ρ) (a b : Expr) : (a.rename ρ).same (b.rename ρ) = a.same b := by
  cases a with
  | name _ _ =>
    cases b with
    | name _ _ => exact beq_rename hρ _ _
    | _ => rfl
  | number _ _ | hole => cases b <;> rfl
  | index a is _ =>
    cases b with
    | index b js _ => simp only [rename, same, same_rename hρ a b, sameAll_rename hρ is js]
    | _ => rfl
  | field a _ _ =>
    cases b with
    | field b _ _ => simp only [rename, same, same_rename hρ a b]
    | _ => rfl
  | call _ xs _ =>
    cases b with
    | call _ ys _ => simp only [rename, same, sameAll_rename hρ xs ys]
    | _ => rfl
  | binary a _ c _ =>
    cases b with
    | binary b _ d _ => simp only [rename, same, same_rename hρ a b, same_rename hρ c d]
    | _ => rfl
  | unary _ a _ =>
    cases b with
    | unary _ b _ => simp only [rename, same, same_rename hρ a b]
    | _ => rfl
  | first a _ =>
    cases b with
    | first b _ => simp only [rename, same, same_rename hρ a b]
    | _ => rfl
  | compare xs _ =>
    cases b with
    | compare ys _ => simp only [rename, same, sameAll_rename hρ xs ys]
    | _ => rfl
  | keyword _ a _ =>
    cases b with
    | keyword _ b _ => simp only [rename, same, same_rename hρ a b]
    | _ => rfl
  | target _ is _ =>
    cases b with
    | target _ js _ => simp only [rename, same, sameAll_rename hρ is js]
    | _ => rfl

theorem sameAll_rename (hρ : Function.Injective ρ) (as bs : List Expr) :
    same.sameAll (rename.renameAll ρ as) (rename.renameAll ρ bs) = same.sameAll as bs := by
  cases as with
  | nil => cases bs <;> rfl
  | cons a as =>
    cases bs with
    | nil => rfl
    | cons b bs => simp only [rename.renameAll, same.sameAll, same_rename hρ a b, sameAll_rename hρ as bs]

end

mutual

theorem baseNames_rename (hρ : Function.Injective ρ) (e : Expr) : (e.rename ρ).baseNames = e.baseNames.map ρ := by
  cases e with
  | index b is p => simp only [rename, baseNames, baseNames_rename hρ b]
  | field b n p => simp only [rename, baseNames, baseNames_rename hρ b]
  | call f xs p => simp only [rename, baseNames, allBaseNames_rename hρ xs, eraseDups_rename hρ]
  | _ => rfl

theorem allBaseNames_rename (hρ : Function.Injective ρ) (es : List Expr) :
    baseNames.allBaseNames (rename.renameAll ρ es) = (baseNames.allBaseNames es).map ρ := by
  cases es with
  | nil => rfl
  | cons e es =>
    simp only [rename.renameAll, baseNames.allBaseNames, baseNames_rename hρ e, allBaseNames_rename hρ es,
      List.map_append]

end

end

end Expr

/-! ## Axes and references -/

section

variable (ρ : String → String)

def Axis.rename : Axis → Axis
  | array source dim => array (source.rename ρ) dim
  | between lower upper => between (lower.map (Expr.rename ρ)) (upper.rename ρ)

def AxisCheck.rename (d : AxisCheck) : AxisCheck :=
  ⟨ρ d.index, d.expected.rename ρ, d.actual.rename ρ⟩

/-- Axes of indices with other names. -/
def renameAxes (axes : List (String × Axis)) : List (String × Axis) :=
  axes.map fun a => (ρ a.1, a.2.rename ρ)

def Catalog.rename (c : Catalog) : Catalog :=
  ⟨renameAxes ρ c.axes, c.checks.map (AxisCheck.rename ρ)⟩

def Reference.rename (r : Reference) : Reference :=
  ⟨r.bases.map ρ, r.indices.map (Expr.rename ρ), r.source.rename ρ⟩

end

section

variable {ρ : String → String}

theorem Reference.axesFrom_rename (source : Expr) (dim : Nat) (es : List Expr) :
    axesFrom (source.rename ρ) dim (es.map (Expr.rename ρ)) = renameAxes ρ (axesFrom source dim es) := by
  induction es generalizing dim with
  | nil => rfl
  | cons e es ih =>
    cases e with
    | name id p => exact congrArg ((ρ id, .array (source.rename ρ) dim) :: ·) (ih (dim + 1))
    | _ => exact ih (dim + 1)

mutual

theorem Expr.references_rename (hρ : Function.Injective ρ) (e : Expr) :
    (e.rename ρ).references = e.references.map (Reference.rename ρ) := by
  cases e with
  | index b is p =>
    have hindex : Reference.ofIndex (b.rename ρ) (rename.renameAll ρ is) = (Reference.ofIndex b is).rename ρ := by
      simp only [Reference.ofIndex, Reference.rename, baseNames_rename hρ, axisSource_rename, renameAll_eq]
    simp [rename, references, references_rename hρ b, allReferences_rename hρ is, hindex]
  | field b n p => simp [rename, references, references_rename hρ b]
  | call f xs p => simp [rename, references, allReferences_rename hρ xs]
  | binary l o r p => simp [rename, references, references_rename hρ l, references_rename hρ r]
  | unary o x p => simp [rename, references, references_rename hρ x]
  | _ => rfl

theorem Expr.allReferences_rename (hρ : Function.Injective ρ) (es : List Expr) :
    references.allReferences (rename.renameAll ρ es) = (references.allReferences es).map (Reference.rename ρ) := by
  cases es with
  | nil => rfl
  | cons e es => simp [rename.renameAll, references.allReferences, references_rename hρ e, allReferences_rename hρ es]

end

variable (hρ : Function.Injective ρ)

include hρ

theorem Collection.indices_rename (e : Expr) : (ofExpr (e.rename ρ)).indices = (ofExpr e).indices.map ρ := by
  rw [indices, ofExpr, Expr.references_rename hρ, List.flatMap_map, indices, ofExpr, List.map_flatMap]
  exact List.flatMap_congr fun r _ => Expr.symbolNames_rename r.indices

theorem Collection.axes_rename (e : Expr) : (ofExpr (e.rename ρ)).axes = renameAxes ρ (ofExpr e).axes := by
  rw [axes, ofExpr, Expr.references_rename hρ, List.flatMap_map, axes, ofExpr, renameAxes, List.map_flatMap]
  exact List.flatMap_congr fun r _ => Reference.axesFrom_rename r.source 0 r.indices

theorem Axis.same_rename (a b : Axis) : (a.rename ρ).same (b.rename ρ) = a.same b := by
  rcases a with ⟨s, d⟩ | ⟨_ | l, u⟩ <;> rcases b with ⟨t, e⟩ | ⟨_ | k, v⟩ <;>
    simp [rename, same, Expr.same_rename hρ]

namespace Catalog

theorem get?_rename (c : Catalog) (i : String) : (c.rename ρ).get? (ρ i) = (c.get? i).map (Axis.rename ρ) := by
  unfold get? rename renameAxes
  induction c.axes with
  | nil => rfl
  | cons a axes ih =>
    rw [List.map_cons, List.lookup_cons, List.lookup_cons, beq_rename hρ, ih]
    cases i == a.1 <;> rfl

theorem bind_rename (c : Catalog) (i : String) (a : Axis) :
    (c.rename ρ).bind (ρ i) (a.rename ρ) = (c.bind i a).rename ρ := by
  unfold bind
  rw [get?_rename hρ]
  cases c.get? i with
  | none => simp [rename, renameAxes]
  | some known =>
    have hcheck : ((c.rename ρ).checks.any fun d => d.same ⟨ρ i, known.rename ρ, a.rename ρ⟩) =
        c.checks.any fun d => d.same ⟨i, known, a⟩ := by
      rw [rename, List.any_map]
      refine congrArg c.checks.any (funext fun d => ?_)
      simp only [Function.comp, AxisCheck.rename, AxisCheck.same, beq_rename hρ, Axis.same_rename hρ]
    simp only [Option.map_some, Axis.same_rename hρ, hcheck]
    split
    · rfl
    · split
      · rfl
      · simp [rename, AxisCheck.rename]

theorem bindAll_rename (c : Catalog) (axes : List (String × Axis)) :
    (c.rename ρ).bindAll (renameAxes ρ axes) = (c.bindAll axes).rename ρ := by
  unfold bindAll
  induction axes generalizing c with
  | nil => rfl
  | cons a axes ih => exact (congrArg (List.foldl _ · _) (bind_rename hρ c a.1 a.2)).trans (ih _)

end Catalog

end

/-! ## Errors of one kind -/

/-- The kinds of errors: what an error tells of names and texts does not matter. -/
inductive ErrorKind where
  | parse | shape | axisMismatch | incomplete | ambiguous | binding
  | fault (cause : Fault)

def Error.kind : Error → ErrorKind
  | parse _ _ => .parse
  | shape _ => .shape
  | axisMismatch _ _ _ => .axisMismatch
  | incomplete _ _ _ _ => .incomplete
  | ambiguous _ _ => .ambiguous
  | binding _ => .binding
  | fault (.notEvaluable kind _) => .fault (.notEvaluable kind "")
  | fault cause => .fault cause

/-- Two outcomes are both values that `Q` relates, or both errors of one kind. -/
inductive Likewise {α α' : Type} (Q : α → α' → Prop) : Except Error α → Except Error α' → Prop
  | ok {a : α} {a' : α'} : Q a a' → Likewise Q (.ok a) (.ok a')
  | error {e e' : Error} : e.kind = e'.kind → Likewise Q (.error e) (.error e')

namespace Likewise

variable {α α' β β' : Type} {Q : α → α' → Prop} {Q' : β → β' → Prop} {x : Except Error α} {x' : Except Error α'}

theorem refl (x : Except Error α) : Likewise Eq x x := by
  cases x with
  | error e => exact .error rfl
  | ok a => exact .ok rfl

/-- A value that is related comes from the first of the two. -/
theorem attach (hx : Likewise Q x x') : Likewise (fun a a' => Q a a' ∧ x = .ok a) x x' := by
  cases hx with
  | ok ha => exact .ok ⟨ha, rfl⟩
  | error he => exact .error he

theorem bind {f : α → Except Error β} {f' : α' → Except Error β'} (hx : Likewise Q x x')
    (hf : ∀ a a', Q a a' → Likewise Q' (f a) (f' a')) : Likewise Q' (x >>= f) (x' >>= f') := by
  cases hx with
  | ok ha => exact hf _ _ ha
  | error he => exact .error he

theorem map {f : α → β} {f' : α' → β'} (hx : Likewise Q x x') (hf : ∀ a a', Q a a' → Q' (f a) (f' a')) :
    Likewise Q' (x.map f) (x'.map f') := by
  cases hx with
  | ok ha => exact .ok (hf _ _ ha)
  | error he => exact .error he

theorem mapM {g : α → α'} {h : β → β'} {f : α → Except Error β} {f' : α' → Except Error β'} {as : List α}
    (hf : ∀ a ∈ as, Likewise (fun b b' => b' = h b) (f a) (f' (g a))) :
    Likewise (fun bs bs' => bs' = bs.map h) (as.mapM f) ((as.map g).mapM f') := by
  induction as with
  | nil => exact .ok rfl
  | cons a as ih =>
    rw [List.map_cons, List.mapM_cons, List.mapM_cons]
    refine (hf a (.head _)).bind fun b b' hb => (ih fun c hc => hf c (.tail _ hc)).bind fun bs bs' hbs => .ok ?_
    rw [hb, hbs, List.map_cons]

theorem forM {g : α → α'} {f : α → Except Error PUnit.{1}} {f' : α' → Except Error PUnit.{1}} {as : List α}
    (hf : ∀ a ∈ as, Likewise (fun _ _ => True) (f a) (f' (g a))) :
    Likewise (fun _ _ => True) (as.forM f) ((as.map g).forM f') := by
  induction as with
  | nil => exact .ok trivial
  | cons a as ih => exact (hf a (.head _)).bind fun _ _ _ => ih fun b hb => hf b (.tail _ hb)

end Likewise

end IndexNotation
