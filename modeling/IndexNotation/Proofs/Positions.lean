import IndexNotation.Kernel.Run

/-!
# Positions do not matter

Expressions carry the places where they are written. A tree without its places is read, refers to
arrays and evaluates like the tree itself.
-/

namespace IndexNotation

namespace Expr

/-- An expression without the places where it is written. Items of clauses stay as they are; they
have no value. -/
def bare : Expr → Expr
  | name id _ => name id none
  | number v _ => number v none
  | index b is _ => index (bare b) (bareAll is) none
  | field b n _ => field (bare b) n none
  | call f xs _ => call f (bareAll xs) none
  | binary l o r _ => binary (bare l) o (bare r) none
  | unary o x _ => unary o (bare x) none
  | first x _ => first (bare x) none
  | e => e
where
  bareAll : List Expr → List Expr
    | [] => []
    | e :: es => bare e :: bareAll es

theorem bareAll_eq (es : List Expr) : bare.bareAll es = es.map bare := by
  induction es with
  | nil => rfl
  | cons e es ih => rw [bare.bareAll, ih, List.map_cons]

theorem name?_bare (e : Expr) : e.bare.name? = e.name? := by
  cases e <;> rfl

theorem symbolNames_bare (es : List Expr) : symbolNames (es.map bare) = symbolNames es := by
  rw [symbolNames, List.filterMap_map, symbolNames]
  exact congrArg (es.filterMap ·) (funext name?_bare)

/-! ## Evaluation -/

mutual

theorem resolve_bare (scope : Scope) (indices : List String) (e : Expr) :
    e.bare.resolve scope indices = e.resolve scope indices := by
  match e with
  | name .. | number .. | compare .. | keyword .. | target .. | hole => rfl
  | index b is _ =>
    simp only [bare, resolve, resolve_bare scope indices b, resolveAll_bare scope indices is]
  | field b _ _ => simp only [bare, resolve, resolve_bare scope indices b]
  | call _ xs _ => simp only [bare, resolve, resolveAll_bare scope indices xs]
  | binary l o r _ =>
    cases o <;> simp only [bare, resolve, resolve_bare scope indices l, resolve_bare scope indices r]
  | unary o x _ => cases o <;> simp only [bare, resolve, resolve_bare scope indices x]
  | first x _ => simp only [bare, resolve, resolve_bare scope indices x]

theorem resolveAll_bare (scope : Scope) (indices : List String) (es : List Expr) :
    resolve.resolveAll scope indices (bare.bareAll es) = resolve.resolveAll scope indices es := by
  match es with
  | [] => rfl
  | e :: es =>
    simp only [bare.bareAll, resolve.resolveAll, resolve_bare scope indices e,
      resolveAll_bare scope indices es]

end

theorem eval_bare (scope : Scope) (indices : List String) (env : Env) (e : Expr) :
    e.bare.eval scope indices env = e.eval scope indices env := by
  rw [eval, eval, resolve_bare]

/-! ## References -/

theorem self_mem_walk (e : Expr) : e ∈ e.walk := by
  cases e <;> simp [walk]

theorem mem_walkAll {x : Expr} {es : List Expr} (h : x ∈ es) : x ∈ walk.walkAll es := by
  induction es with
  | nil => cases h
  | cons e es ih =>
    rw [walk.walkAll, List.mem_append]
    rcases List.mem_cons.1 h with rfl | h
    · exact .inl (self_mem_walk x)
    · exact .inr (ih h)

mutual

theorem walk_bare (e : Expr) : e.bare.walk = e.walk.map bare := by
  match e with
  | name .. | number .. | compare .. | keyword .. | target .. | hole => rfl
  | index b is _ => simp [bare, walk, walk_bare b, walkAll_bare is]
  | field b _ _ => simp [bare, walk, walk_bare b]
  | call _ xs _ => simp [bare, walk, walkAll_bare xs]
  | binary l _ r _ => simp [bare, walk, walk_bare l, walk_bare r]
  | unary _ x _ => simp [bare, walk, walk_bare x]
  | first x _ => simp [bare, walk, walk_bare x]

theorem walkAll_bare (es : List Expr) : walk.walkAll (bare.bareAll es) = (walk.walkAll es).map bare := by
  match es with
  | [] => rfl
  | e :: es => simp [bare.bareAll, walk.walkAll, walk_bare e, walkAll_bare es]

end

theorem mentionsName_bare (e : Expr) : e.bare.mentionsName = e.mentionsName := by
  rw [mentionsName, walk_bare, List.any_map, mentionsName]
  refine congrArg e.walk.any (funext fun x => ?_)
  rw [Function.comp, isName, name?_bare, isName]

theorem any_mentionsName_bare (es : List Expr) :
    (bare.bareAll es).any mentionsName = es.any mentionsName := by
  rw [bareAll_eq, List.any_map]
  exact congrArg es.any (funext mentionsName_bare)

mutual

theorem baseNames_bare (e : Expr) : e.bare.baseNames = e.baseNames := by
  match e with
  | name .. | number .. | binary .. | unary .. | first .. | compare .. | keyword .. | target .. | hole => rfl
  | index b _ _ => simp only [bare, baseNames, baseNames_bare b]
  | field b _ _ => simp only [bare, baseNames, baseNames_bare b]
  | call _ xs _ => simp only [bare, baseNames, allBaseNames_bare xs]

theorem allBaseNames_bare (es : List Expr) :
    baseNames.allBaseNames (bare.bareAll es) = baseNames.allBaseNames es := by
  match es with
  | [] => rfl
  | e :: es => simp only [bare.bareAll, baseNames.allBaseNames, baseNames_bare e, allBaseNames_bare es]

end

mutual

theorem axisSource_bare (e : Expr) : e.bare.axisSource = e.axisSource.bare := by
  match e with
  | name .. | number .. | binary .. | unary .. | first .. | compare .. | keyword .. | target .. | hole => rfl
  | index b is _ =>
    simp only [bare, axisSource, axisSource_bare b, any_mentionsName_bare is]
    split <;> rfl
  | field b _ _ => simp only [bare, axisSource, axisSource_bare b]
  | call _ xs _ => simp only [bare, axisSource, axisSources_bare xs]

theorem axisSources_bare (es : List Expr) :
    axisSource.axisSources (bare.bareAll es) = bare.bareAll (axisSource.axisSources es) := by
  match es with
  | [] => rfl
  | e :: es => simp only [bare.bareAll, axisSource.axisSources, axisSource_bare e, axisSources_bare es]

end

mutual

theorem same_bare (a b : Expr) : a.bare.same b.bare = a.same b := by
  match a with
  | name .. | number .. | compare .. | keyword .. | target .. | hole => cases b <;> rfl
  | index a is _ =>
    cases b with
    | index b js _ => simp only [bare, same, same_bare a b, sameAll_bare is js]
    | _ => rfl
  | field a _ _ =>
    cases b with
    | field b _ _ => simp only [bare, same, same_bare a b]
    | _ => rfl
  | call _ xs _ =>
    cases b with
    | call _ ys _ => simp only [bare, same, sameAll_bare xs ys]
    | _ => rfl
  | binary a _ c _ =>
    cases b with
    | binary b _ d _ => simp only [bare, same, same_bare a b, same_bare c d]
    | _ => rfl
  | unary _ a _ =>
    cases b with
    | unary _ b _ => simp only [bare, same, same_bare a b]
    | _ => rfl
  | first a _ =>
    cases b with
    | first b _ => simp only [bare, same, same_bare a b]
    | _ => rfl

theorem sameAll_bare (as bs : List Expr) :
    same.sameAll (bare.bareAll as) (bare.bareAll bs) = same.sameAll as bs := by
  match as with
  | [] => cases bs <;> rfl
  | a :: as =>
    cases bs with
    | nil => rfl
    | cons b bs => simp only [bare.bareAll, same.sameAll, same_bare a b, sameAll_bare as bs]

end

end Expr

/-! ## Axes and references -/

/-- An axis without the places where it is written. -/
def Axis.bare : Axis → Axis
  | array source dim => array source.bare dim
  | between lower upper => between (lower.map Expr.bare) upper.bare

theorem Axis.same_bare (a b : Axis) : a.bare.same b.bare = a.same b := by
  rcases a with ⟨s, d⟩ | ⟨_ | l, u⟩ <;> rcases b with ⟨t, e⟩ | ⟨_ | k, v⟩ <;>
    simp [bare, same, Expr.same_bare]

theorem Axis.resolve_bare (scope : Scope) (indices : List String) (a : Axis) :
    a.bare.resolve scope indices = a.resolve scope indices := by
  rcases a with ⟨s, d⟩ | ⟨_ | l, u⟩ <;> simp only [bare, resolve, Expr.eval_bare, Option.map]

/-- Axes of indices without the places where they are written. -/
def bareAxes (axes : List (String × Axis)) : List (String × Axis) :=
  axes.map fun a => (a.1, a.2.bare)

namespace Reference

def bare (r : Reference) : Reference :=
  ⟨r.bases, r.indices.map Expr.bare, r.source.bare⟩

theorem axesFrom_bare (source : Expr) (dim : Nat) (es : List Expr) :
    axesFrom source.bare dim (es.map Expr.bare) = bareAxes (axesFrom source dim es) := by
  induction es generalizing dim with
  | nil => rfl
  | cons e es ih =>
    cases e <;> simp only [List.map_cons, Expr.bare, axesFrom, ih]
    rfl

theorem axes_bare (r : Reference) : r.bare.axes = bareAxes r.axes :=
  axesFrom_bare r.source 0 r.indices

theorem symbols_bare (r : Reference) : r.bare.symbols = r.symbols :=
  Expr.symbolNames_bare r.indices

theorem ofIndex_bare (b : Expr) (is : List Expr) :
    ofIndex b.bare (Expr.bare.bareAll is) = (ofIndex b is).bare := by
  simp only [ofIndex, bare, Expr.baseNames_bare, Expr.axisSource_bare, Expr.bareAll_eq]

end Reference

mutual

theorem Expr.references_bare (e : Expr) : e.bare.references = e.references.map Reference.bare := by
  match e with
  | name .. | number .. | first .. | compare .. | keyword .. | target .. | hole => rfl
  | index b is _ =>
    simp [bare, references, references_bare b, allReferences_bare is, Reference.ofIndex_bare]
  | field b _ _ => simp [bare, references, references_bare b]
  | call _ xs _ => simp [bare, references, allReferences_bare xs]
  | binary l _ r _ => simp [bare, references, references_bare l, references_bare r]
  | unary _ x _ => simp [bare, references, references_bare x]

theorem Expr.allReferences_bare (es : List Expr) :
    references.allReferences (bare.bareAll es) = (references.allReferences es).map Reference.bare := by
  match es with
  | [] => rfl
  | e :: es => simp [bare.bareAll, references.allReferences, references_bare e, allReferences_bare es]

end

namespace Collection

theorem indices_bare (e : Expr) : (ofExpr e.bare).indices = (ofExpr e).indices := by
  simp only [indices, ofExpr, Expr.references_bare, List.flatMap_map, Reference.symbols_bare]

theorem axes_bare (e : Expr) : (ofExpr e.bare).axes = bareAxes (ofExpr e).axes := by
  simp only [axes, ofExpr, Expr.references_bare, List.flatMap_map, Reference.axes_bare, bareAxes,
    List.map_flatMap]

end Collection

end IndexNotation
