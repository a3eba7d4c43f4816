import IndexNotation.Proofs.Clauses
import IndexNotation.Proofs.Renaming
import IndexNotation.Proofs.Verdicts

/-!
# Renamed statements

If different names stay different and the clauses are renamed along, a statement is compiled in the
same way: what is listed, bound and laid out is the same up to the renaming, and what fails fails with
an error of the same kind. What a clause lists is compared in its canonical spelling, so it is renamed
apart from all other names.
-/

namespace IndexNotation

/-! ## Clauses -/

namespace Reduction

variable (ρ : String → String)

def rename (r : Reduction) : Reduction :=
  { r with
    init := r.init.map (Expr.rename ρ)
    loops := r.loops.map ρ
    unrolled := renameKeys ρ r.unrolled }

def Partial.rename (p : Partial) : Partial :=
  { reduction := p.reduction.rename ρ, bounds := renameAxes ρ p.bounds, unrolling := p.unrolling }

/-- What was read, or why reading stopped. -/
def Outcome.result (o : Outcome) : Except Error Partial :=
  o.2.elim (.ok o.1) .error

variable {ρ}

theorem order_rename (r : Reduction) : (r.rename ρ).order = r.order.map ρ := by
  simp [order, rename, renameKeys]

end Reduction

namespace Expr

variable (ρ φ : String → String)

/-- An item of a clause that lists an index if it is a name. -/
def relabel : Expr → Expr
  | name id p => name (φ id) p
  | e => e.rename ρ

/-- An item of a reduction clause, where `φ` renames the index that the item lists, and `ρ` all other
names. -/
def renameItem : Expr → Expr
  | compare [e, upper] p => compare [e.relabel ρ φ, upper.rename ρ] p
  | compare [lower, e, upper] p => compare [lower.rename ρ, e.relabel ρ φ, upper.rename ρ] p
  | e => e.relabel ρ φ

/-- The name that an item of a reduction clause lists. -/
def listed? : Expr → Option String
  | compare [e, _] _ => e.name?
  | compare [_, e, _] _ => e.name?
  | e => e.name?

end Expr

/-- Where the name of an index is listed, it may be spelled in several ways; `φ` renames each of them
as `ρ` renames the index, and no index is taken for a word of the clauses. -/
structure Relabels (ρ φ : String → String) (id : String) : Prop where
  canonical : canonicalIndex (φ id) = ρ (canonicalIndex id)
  unroll : φ id = "unroll" ↔ id = "unroll"
  tile : φ id = "tile" ↔ id = "tile"

section

variable {ρ φ : String → String} (hρ : Function.Injective ρ)

namespace Reduction

include hρ in
theorem push_likewise (p : Partial) (site site' : Site) (index : String) (pos pos' : Option Pos) :
    Likewise (fun q q' => q' = q.rename ρ) (p.push site index pos).result
      ((p.rename ρ).push site' (ρ index) pos').result := by
  unfold Partial.push
  simp only [Partial.rename, order_rename, contains_rename hρ]
  split
  · exact .error rfl
  · cases p.unrolling with
    | none => exact .ok (by simp [rename])
    | some width => exact .ok (by simp [rename, renameKeys])

include hρ in
theorem pushBound_likewise (p : Partial) (site site' : Site) (index : String) (axis : Axis) (pos pos' : Option Pos) :
    Likewise (fun q q' => q' = q.rename ρ)
      (Partial.push site { p with bounds := p.bounds ++ [(index, axis)] } index pos).result
      (Partial.push site' { p.rename ρ with bounds := (p.rename ρ).bounds ++ [(ρ index, axis.rename ρ)] } (ρ index)
        pos').result := by
  have h := push_likewise hρ { p with bounds := p.bounds ++ [(index, axis)] } site site' index pos pos'
  simpa [Partial.rename, renameAxes] using h

theorem intLiteral?_rename (e : Expr) : intLiteral? (e.rename ρ) = intLiteral? e := by
  cases e <;> rfl

theorem unrollWidth?_rename (es : List Expr) : unrollWidth? (Expr.rename.renameAll ρ es) = unrollWidth? es := by
  rcases es with _ | ⟨e, _ | ⟨e', es⟩⟩
  · rfl
  · simp only [Expr.rename.renameAll, unrollWidth?, intLiteral?_rename]
  · rfl

theorem bound?_pair {e : Expr} (h : e.name? = none) (upper : Expr) : bound? [e, upper] = none := by
  unfold bound?
  split
  · cases ‹[e, upper] = _›
    cases h
  · cases ‹[e, upper] = _›
  · rfl

theorem bound?_triple {e : Expr} (h : e.name? = none) (lower upper : Expr) : bound? [lower, e, upper] = none := by
  unfold bound?
  split
  · cases ‹[lower, e, upper] = _›
  · cases ‹[lower, e, upper] = _›
    cases h
  · rfl

theorem bound?_of_length {operands : List Expr} (h : operands.length ≠ 2 ∧ operands.length ≠ 3) :
    bound? operands = none := by
  unfold bound?
  split
  · simp at h
  · simp at h
  · rfl

/-- No bound before and after. -/
theorem stray_likewise (p : Partial) (site site' : Site) {operands operands' : List Expr} (h : bound? operands = none)
    (h' : bound? operands' = none) (pos pos' : Option Pos) :
    Likewise (fun q q' => q' = q.rename ρ) (p.item site (.compare operands pos)).result
      ((p.rename ρ).item site' (.compare operands' pos')).result := by
  simp only [Partial.item, h, h']
  exact .error rfl

include hρ in
theorem item_likewise (p : Partial) (site site' : Site) {e : Expr} (h : ∀ id ∈ e.listed?, Relabels ρ φ id) :
    Likewise (fun q q' => q' = q.rename ρ) (p.item site e).result
      ((p.rename ρ).item site' (e.renameItem ρ φ)).result := by
  cases e with
  | name id pos =>
    have hid := h id rfl
    simp only [Expr.renameItem, Expr.relabel, Partial.item, beq_iff_eq, hid.unroll, hid.canonical]
    split
    · exact .ok rfl
    · exact push_likewise hρ p site site' _ pos pos
  | call f args pos =>
    simp only [Expr.renameItem, Expr.relabel, Expr.rename, Partial.item, unrollWidth?_rename]
    split
    · cases unrollWidth? args with
      | none => exact .error rfl
      | some width => exact .ok rfl
    · exact .error rfl
  | keyword n value pos =>
    simp only [Expr.renameItem, Expr.relabel, Expr.rename, Partial.item]
    split
    · exact .ok rfl
    · exact .error rfl
  | compare operands pos =>
    rcases operands with _ | ⟨a, _ | ⟨b, _ | ⟨c, _ | ⟨d, rest⟩⟩⟩⟩
    · exact stray_likewise p site site' rfl rfl pos pos
    · exact stray_likewise p site site' (bound?_of_length (by simp))
        (bound?_of_length (by simp [Expr.rename.renameAll])) pos pos
    · cases a with
      | name id q =>
        simp only [Expr.renameItem, Expr.relabel, Partial.item, bound?, (h id rfl).canonical]
        exact pushBound_likewise hρ p site site' _ (.between none b) pos pos
      | _ => exact stray_likewise p site site' (bound?_pair rfl _) (bound?_pair rfl _) pos pos
    · cases b with
      | name id q =>
        simp only [Expr.renameItem, Expr.relabel, Partial.item, bound?, (h id rfl).canonical]
        exact pushBound_likewise hρ p site site' _ (.between (some a) c) pos pos
      | _ => exact stray_likewise p site site' (bound?_triple rfl _ _) (bound?_triple rfl _ _) pos pos
    · exact stray_likewise p site site' (bound?_of_length (by simp))
        (bound?_of_length (by simp [Expr.rename.renameAll])) pos pos
  | _ => exact .error rfl

theorem items_cons (p : Partial) (site : Site) (e : Expr) (es : List Expr) :
    (p.items site (e :: es)).result = (p.item site e).result >>= fun q => (q.items site es).result := by
  rw [Partial.items]
  rcases p.item site e with ⟨q, _ | stopped⟩ <;> rfl

include hρ in
theorem items_likewise (p : Partial) (site site' : Site) {es : List Expr}
    (h : ∀ e ∈ es, ∀ id ∈ e.listed?, Relabels ρ φ id) :
    Likewise (fun q q' => q' = q.rename ρ) (p.items site es).result
      ((p.rename ρ).items site' (es.map (Expr.renameItem ρ φ))).result := by
  induction es generalizing p with
  | nil => exact .ok rfl
  | cons e es ih =>
    rw [List.map_cons, items_cons, items_cons]
    refine (item_likewise hρ p site site' (h e (.head _))).bind fun q q' hq => ?_
    rw [hq]
    exact ih q fun e' he' => h e' (.tail _ he')

end Reduction

/-- A clause, where `φ` renames the indices that it lists, and `ρ` all other names. -/
def ReductionClause.rename (ρ φ : String → String) (c : ReductionClause) : ReductionClause :=
  { c with items := c.items.map (Expr.renameItem ρ φ) }

theorem Reduction.outcome_some (source : String) (c : ReductionClause) :
    outcome source (some c) =
      if rejected.contains c.op then
        .error (Site.error ⟨source, c.source⟩ c.pos (.rejectedOperator c.op c.source))
      else (Partial.items ⟨source, c.source⟩ { reduction := { op := c.op } } c.items).result.map fun p =>
        { p with reduction := { p.reduction with explicit := !p.reduction.order.isEmpty } } := by
  unfold outcome read
  dsimp only
  split
  · rfl
  · rcases Partial.items ⟨source, c.source⟩ { reduction := { op := c.op } } c.items with ⟨p, _ | stopped⟩ <;> rfl

include hρ in
/-- A reduction clause is read in the same way. -/
theorem Reduction.outcome_likewise (source source' : String) {clause : Option ReductionClause}
    (h : ∀ c ∈ clause, ∀ e ∈ c.items, ∀ id ∈ e.listed?, Relabels ρ φ id) :
    Likewise (fun q q' => q' = q.rename ρ) (outcome source clause)
      (outcome source' (clause.map (ReductionClause.rename ρ φ))) := by
  cases clause with
  | none => exact .ok rfl
  | some c =>
    rw [Option.map_some, outcome_some, outcome_some, show (c.rename ρ φ).op = c.op from rfl]
    by_cases hop : rejected.contains c.op = true
    · rw [if_pos hop, if_pos hop]
      exact .error rfl
    · rw [if_neg hop, if_neg hop]
      refine (items_likewise hρ { reduction := { op := c.op } } _ _ (h c rfl)).map fun q q' hq => ?_
      simp only [hq, Partial.rename, order_rename, List.isEmpty_map]
      rfl

/-- A clause, where `φ` renames the indices that it lists, and `ρ` all other names. -/
def TilingClause.rename (ρ φ : String → String) (c : TilingClause) : TilingClause :=
  { c with items := c.items.map (Expr.relabel ρ φ) }

namespace Tiling

def rename (ρ : String → String) (t : Tiling) : Tiling :=
  { t with indices := t.indices.map ρ }

theorem size?_relabel {e : Expr} (h : ∀ id ∈ e.name?, Relabels ρ φ id) : size? (e.relabel ρ φ) = size? e := by
  cases e with
  | name id p => simp only [Expr.relabel, size?, beq_iff_eq, (h id rfl).tile]
  | call f xs p =>
    rcases xs with _ | ⟨x, _ | ⟨y, xs⟩⟩
    · rfl
    · simp only [Expr.relabel, Expr.rename, Expr.rename.renameAll, size?, Reduction.intLiteral?_rename]
    · rfl
  | _ => rfl

include hρ in
theorem group_likewise (site site' : Reduction.Site) (seen : List String) {es : List Expr}
    (h : ∀ e ∈ es, ∀ id ∈ e.name?, Relabels ρ φ id) :
    Likewise (fun is is' => is' = is.map ρ) (group site seen es)
      (group site' (seen.map ρ) (es.map (Expr.relabel ρ φ))) := by
  induction es generalizing seen with
  | nil => exact .ok rfl
  | cons e es ih =>
    cases e with
    | name id p =>
      have hid := (h _ (.head _) id rfl).canonical
      simp only [List.map_cons, Expr.relabel, group, hid, contains_rename hρ]
      split
      · exact .error rfl
      · have hrest := ih (seen ++ [canonicalIndex id]) fun e' he' => h e' (.tail _ he')
        rwa [List.map_append] at hrest
    | _ => exact .error rfl

include hρ in
/-- A tiling clause is read in the same way. -/
theorem read_likewise (source source' : String) {c : TilingClause}
    (h : ∀ e ∈ c.items, ∀ id ∈ e.name?, Relabels ρ φ id) :
    Likewise (fun t t' => t' = t.rename ρ) (read source c) (read source' (c.rename ρ φ)) := by
  unfold read TilingClause.rename
  dsimp only
  cases hitems : c.items with
  | nil => exact .error rfl
  | cons head rest =>
    rw [hitems] at h
    rw [List.map_cons]
    dsimp only
    rw [size?_relabel (h head (.head _))]
    cases size? head with
    | none => exact .error rfl
    | some size =>
      dsimp only
      split
      · exact .error rfl
      · have hgroup := group_likewise hρ ⟨source, c.source⟩ ⟨source', c.source⟩ [] fun e he => h e (.tail _ he)
        rw [List.map_nil] at hgroup
        generalize group ⟨source, c.source⟩ [] rest = g,
          group ⟨source', c.source⟩ [] (rest.map (Expr.relabel ρ φ)) = g' at hgroup
        cases hgroup with
        | error he => exact .error he
        | @ok is _ his =>
          subst his
          cases is with
          | nil => exact .error rfl
          | cons i is =>
            simp only [List.map_cons, List.length_cons, List.length_map]
            cases tileWidth size ((is.length + 1 : Nat) : Int) with
            | error f => exact .error rfl
            | ok width => exact .ok rfl

end Tiling

end

/-! ## Plans -/

section

variable (ρ : String → String)

def IndexSymbol.rename (s : IndexSymbol) : IndexSymbol :=
  { s with name := ρ s.name, axis := s.axis.rename ρ }

def OutputLoop.rename (l : OutputLoop) : OutputLoop :=
  { l with index := ρ l.index, axis := l.axis.rename ρ }

def InnerLoop.rename (l : InnerLoop) : InnerLoop :=
  { l with index := ρ l.index, axis := l.axis.rename ρ }

def Body.rename : Body → Body
  | store => store
  | reduce op resume loops => reduce op resume (loops.map (InnerLoop.rename ρ))

def TileGroup.rename (g : TileGroup) : TileGroup :=
  { g with indices := g.indices.map ρ }

def Plan.rename (p : Plan) : Plan :=
  ⟨p.tiles.map (TileGroup.rename ρ), p.outputs.map (OutputLoop.rename ρ), p.body.rename ρ⟩

/-- All that the loops depend on is the same up to a renaming. -/
structure Analysis.Renames (a a' : Analysis) : Prop where
  outputs : a'.outputIndices = a.outputIndices.map ρ
  indices : a'.collection.indices = a.collection.indices.map ρ
  catalog : a'.catalog = a.catalog.rename ρ
  reduction : a'.reduction = a.reduction.rename ρ
  tiling : a'.tiling = a.tiling.map (Tiling.rename ρ)

end

namespace Analysis.Renames

variable {ρ : String → String} {a a' : Analysis} (h : Renames ρ a a') (hρ : Function.Injective ρ)

include h hρ

theorem indexNames_eq : a'.indexNames = a.indexNames.map ρ := by
  rw [indexNames, h.outputs, h.indices, ← List.map_append, eraseDups_rename hρ, indexNames]

theorem impliedReduction_eq : a'.impliedReduction = a.impliedReduction.map ρ := by
  rw [impliedReduction, h.outputs, h.indices, eraseDups_rename hρ, List.filter_map, impliedReduction]
  refine congrArg (List.map ρ) (List.filter_congr fun i _ => ?_)
  rw [Function.comp, contains_rename hρ]

theorem settleReduction_likewise : Likewise (fun r r' => r' = r.rename ρ) a.settleReduction a'.settleReduction := by
  have hperm : (a.reduction.order.map ρ).isPerm (a.impliedReduction.map ρ) =
      a.reduction.order.isPerm a.impliedReduction := by
    rw [Bool.eq_iff_iff, List.isPerm_iff, List.isPerm_iff, List.map_perm_map_iff hρ]
  unfold settleReduction
  dsimp only
  rw [h.impliedReduction_eq hρ, h.reduction, Reduction.order_rename, hperm,
    show (a.reduction.rename ρ).explicit = a.reduction.explicit from rfl]
  by_cases hexplicit : (!a.reduction.explicit) = true
  · rw [if_pos hexplicit, if_pos hexplicit]
    exact .ok rfl
  · rw [if_neg hexplicit, if_neg hexplicit]
    cases a.reduction.order.isPerm a.impliedReduction with
    | true => exact .ok rfl
    | false => exact .error rfl

theorem symbol_likewise (r : Reduction) (i : String) :
    Likewise (fun s s' => s' = s.rename ρ) (a.symbol r i) (a'.symbol (r.rename ρ) (ρ i)) := by
  have htiled : (a.tiling.map (Tiling.rename ρ)).any (·.indices.contains (ρ i)) =
      a.tiling.any (·.indices.contains i) := by
    cases a.tiling with
    | none => rfl
    | some t => exact contains_rename hρ t.indices i
  unfold symbol
  rw [h.catalog, Catalog.get?_rename hρ, h.outputs, h.tiling, contains_rename hρ, htiled,
    show (r.rename ρ).unrolled = renameKeys ρ r.unrolled from rfl, lookup_renameKeys hρ]
  cases a.catalog.get? i with
  | none => exact .error rfl
  | some axis => exact .ok rfl

theorem symbols_likewise (r : Reduction) :
    Likewise (fun ss ss' => ss' = ss.map (IndexSymbol.rename ρ)) (a.symbols r) (a'.symbols (r.rename ρ)) := by
  rw [symbols, symbols, h.outputs, Reduction.order_rename, ← List.map_append]
  exact Likewise.mapM fun i _ => h.symbol_likewise hρ r i

theorem checkTiling_likewise (r : Reduction) (symbols : List IndexSymbol) :
    Likewise (fun _ _ => True) (a.checkTiling r symbols)
      (a'.checkTiling (r.rename ρ) (symbols.map (IndexSymbol.rename ρ))) := by
  have hnames : (symbols.map (IndexSymbol.rename ρ)).map (·.name) = (symbols.map (·.name)).map ρ := by
    rw [List.map_map, List.map_map]
    rfl
  have hunrolled : (r.rename ρ).unrolled.map (·.1) = (r.unrolled.map (·.1)).map ρ := by
    simp [Reduction.rename, renameKeys]
  unfold checkTiling
  rw [h.tiling, hnames, hunrolled]
  cases a.tiling with
  | none => exact .ok trivial
  | some t =>
    simp only [Option.map_some, Tiling.rename, List.filter_map, List.isEmpty_map, Function.comp_def, contains_rename hρ]
    cases (t.indices.filter fun i => (r.unrolled.map (·.1)).contains i).isEmpty with
    | false => exact .error rfl
    | true =>
      cases (t.indices.filter fun i => !(symbols.map (·.name)).contains i).isEmpty with
      | false => exact .error rfl
      | true => exact .ok trivial

theorem layout_eq (r : Reduction) (parallel : Bool) (symbols : List IndexSymbol) :
    a'.layout (r.rename ρ) parallel (symbols.map (IndexSymbol.rename ρ)) = (a.layout r parallel symbols).rename ρ := by
  have houtputs : outputLoops parallel (symbols.map (IndexSymbol.rename ρ)) =
      (outputLoops parallel symbols).map (OutputLoop.rename ρ) := by
    have hfilter : (symbols.map (IndexSymbol.rename ρ)).filter (·.output) =
        (symbols.filter (·.output)).map (IndexSymbol.rename ρ) := List.filter_map
    unfold outputLoops
    rw [hfilter, ← List.map_reverse]
    cases (symbols.filter (·.output)).reverse with
    | nil => rfl
    | cons s rest =>
      simp only [List.map_cons, List.map_map]
      rfl
  have hbody : a'.body (r.rename ρ) (symbols.map (IndexSymbol.rename ρ)) = (a.body r symbols).rename ρ := by
    have hfilter : (symbols.map (IndexSymbol.rename ρ)).filter (!·.output) =
        (symbols.filter (!·.output)).map (IndexSymbol.rename ρ) := List.filter_map
    have hresume : (a'.tiling.any (·.indices.any ((r.rename ρ).order.contains ·))) =
        a.tiling.any (·.indices.any (r.order.contains ·)) := by
      rw [h.tiling, Reduction.order_rename]
      cases a.tiling with
      | none => rfl
      | some t =>
        simp only [Option.map_some, Option.any_some, Tiling.rename, List.any_map, Function.comp_def, contains_rename hρ]
    unfold body
    rw [hfilter, hresume]
    cases symbols.filter (!·.output) with
    | nil => rfl
    | cons s rest =>
      simp only [List.map_cons, List.map_map, Body.rename]
      rfl
  unfold layout Plan.rename
  rw [houtputs, hbody, h.tiling, Option.map_map, Option.map_map]
  rfl

/-- The loops are laid out in the same way. -/
theorem plan_likewise (parallel : Bool) :
    Likewise (fun p p' => p' = (p.1.rename ρ, p.2.1.map (IndexSymbol.rename ρ), p.2.2.rename ρ))
      (a.plan parallel) (a'.plan parallel) := by
  refine (h.settleReduction_likewise hρ).bind fun r r' hr => ?_
  subst hr
  refine (h.symbols_likewise hρ r).bind fun symbols symbols' hsymbols => ?_
  subst hsymbols
  refine (h.checkTiling_likewise hρ r symbols).bind fun _ _ _ => .ok ?_
  rw [h.layout_eq hρ]

end Analysis.Renames

/-! ## Statements -/

namespace Statement

/-- A statement, where `φ` renames the indices that clauses list, and `ρ` all other names. Only the name
of the output and the text stay as they are. -/
def rename (ρ φ : String → String) (s : Statement) : Statement :=
  { s with
    target := { s.target with indices := s.target.indices.map (Expr.rename ρ) }
    rhs := s.rhs.rename ρ
    reduction := s.reduction.map (ReductionClause.rename ρ φ)
    tiling := s.tiling.map (TilingClause.rename ρ φ) }

/-- The names that the clauses list, spelled as they are. -/
def listed (s : Statement) : List String :=
  s.reduction.toList.flatMap (fun c => c.items.filterMap Expr.listed?) ++
    s.tiling.toList.flatMap fun c => c.items.filterMap Expr.name?

/-- What a renaming of a statement has to respect. -/
structure Renamable (ρ φ : String → String) (s : Statement) : Prop where
  injective : Function.Injective ρ
  output : ∀ n ∈ s.target.name, ρ n = n
  listed : ∀ id ∈ s.listed, Relabels ρ φ id

variable {ρ φ : String → String} {s : Statement}

theorem axes_rename (h : s.Renamable ρ φ) (bounds : List (String × Axis)) :
    (s.rename ρ φ).axes (renameAxes ρ bounds) = renameAxes ρ (s.axes bounds) := by
  have htarget : (s.rename ρ φ).target.axes = renameAxes ρ s.target.axes := by
    unfold Target.axes
    cases hname : s.target.name with
    | none => simp only [rename, hname]; rfl
    | some n =>
      have hn : Expr.name n none = (Expr.name n none).rename ρ := by rw [Expr.rename, h.output n hname]
      simp only [rename, hname]
      rw [hn, Reference.axesFrom_rename, ← hn]
  unfold axes
  rw [show (s.rename ρ φ).rhs = s.rhs.rename ρ from rfl, Collection.axes_rename h.injective, htarget,
    show (s.rename ρ φ).allocates = s.allocates from rfl]
  cases s.allocates <;> simp [renameAxes]

theorem checkTarget_likewise (s : Statement) :
    Likewise (fun _ _ => True) (Kernel.checkTarget s) (Kernel.checkTarget (s.rename ρ φ)) := by
  refine Likewise.forM fun e _ => ?_
  cases e with
  | name id p => exact .ok trivial
  | number v p =>
    cases v with
    | int n =>
      simp only [Expr.rename, Kernel.checkEntry, show (s.rename ρ φ).allocates = s.allocates from rfl]
      cases s.allocates && n != 0 with
      | true => exact .error rfl
      | false => exact .ok trivial
    | _ => exact .error rfl
  | _ => exact .error rfl

theorem outcome_likewise (h : s.Renamable ρ φ) :
    Likewise (fun q q' => q' = q.rename ρ) (Reduction.outcome s.source s.reduction)
      (Reduction.outcome (s.rename ρ φ).source (s.rename ρ φ).reduction) := by
  refine Reduction.outcome_likewise h.injective _ _ fun c hc e he id hid => h.listed id ?_
  refine List.mem_append_left _ (List.mem_flatMap.2 ⟨c, Option.mem_toList.2 hc, ?_⟩)
  exact List.mem_filterMap.2 ⟨e, he, hid⟩

theorem tiling_likewise (h : s.Renamable ρ φ) :
    Likewise (fun t t' => t' = t.map (Tiling.rename ρ)) (s.tiling.mapM (Tiling.read s.source))
      ((s.rename ρ φ).tiling.mapM (Tiling.read (s.rename ρ φ).source)) := by
  have hlisted (c : TilingClause) (hc : c ∈ s.tiling) (e : Expr) (he : e ∈ c.items) (id : String) (hid : id ∈ e.name?) :
      Relabels ρ φ id := by
    refine h.listed id (List.mem_append_right _ (List.mem_flatMap.2 ⟨c, Option.mem_toList.2 hc, ?_⟩))
    exact List.mem_filterMap.2 ⟨e, he, hid⟩
  rw [show (s.rename ρ φ).tiling = s.tiling.map (TilingClause.rename ρ φ) from rfl]
  cases ht : s.tiling with
  | none => exact .ok rfl
  | some c =>
    have hread := Tiling.read_likewise h.injective s.source (s.rename ρ φ).source (hlisted c ht)
    rw [Option.map_some, Option.mapM_some, Option.mapM_some]
    exact hread.map fun t t' htt => by rw [htt, Option.map_some]

theorem analysed_renames (h : s.Renamable ρ φ) (read : Reduction.Partial) (tiling : Option Tiling) :
    (s.analysed read tiling).Renames ρ
      ((s.rename ρ φ).analysed (read.rename ρ) (tiling.map (Tiling.rename ρ))) where
  outputs := by
    change (symbolNames (s.target.indices.map (Expr.rename ρ))).eraseDups = _
    rw [Expr.symbolNames_rename, eraseDups_rename h.injective]
    rfl
  indices := Collection.indices_rename h.injective s.rhs
  catalog := by
    change Catalog.empty.bindAll ((s.rename ρ φ).axes (renameAxes ρ read.bounds)) = _
    rw [axes_rename h]
    exact Catalog.bindAll_rename h.injective Catalog.empty _
  reduction := rfl
  tiling := rfl

end Statement

/-- Two kernels that are the same up to a renaming, the first one of the statement `s`. -/
structure Kernel.Renames (ρ φ : String → String) (s : Statement) (k k' : Kernel) : Prop where
  config : k'.config = k.config
  analysis : k.analysis.Renames ρ k'.analysis
  symbols : k'.symbols = k.symbols.map (IndexSymbol.rename ρ)
  plan : k'.plan = k.plan.rename ρ
  statement : k.statement = s
  renamed : k'.statement = s.rename ρ φ
  collection : k.analysis.collection = .ofExpr s.rhs
  /-- The axes and the start value are those that the statement gives. -/
  read : ∃ read, Reduction.outcome s.source s.reduction = .ok read ∧
    k.analysis.catalog = Catalog.empty.bindAll (s.axes read.bounds) ∧ k.analysis.reduction.init = read.reduction.init

theorem Analysis.init_of_settle {a : Analysis} {r : Reduction} (h : a.settleReduction = .ok r) :
    r.init = a.reduction.init := by
  rcases settleReduction_eq_ok h with ⟨-, rfl⟩ | ⟨-, -, rfl⟩
  · rfl
  · rfl

/-- A statement and its renamed form compile to kernels that are the same up to the renaming, or fail
with errors of one kind. -/
theorem Kernel.compile_likewise {ρ φ : String → String} {s : Statement} (h : s.Renamable ρ φ) (config : Config)
    (source source' : String) :
    Likewise (Kernel.Renames ρ φ s) (s.analyse >>= ofAnalysis config source)
      ((s.rename ρ φ).analyse >>= ofAnalysis config source') := by
  unfold Statement.analyse
  simp only [bind_assoc, pure_bind]
  refine (Statement.checkTarget_likewise s).bind fun _ _ _ => ?_
  refine (Statement.outcome_likewise h).attach.bind fun read read' hread => ?_
  refine (Statement.tiling_likewise h).bind fun tiling tiling' htiling => ?_
  obtain ⟨rfl, houtcome⟩ := hread
  subst htiling
  have hrenames := Statement.analysed_renames h read tiling
  refine (hrenames.plan_likewise h.injective config.parallel).attach.map fun p p' hp => ?_
  obtain ⟨r, symbols, plan⟩ := p
  obtain ⟨rfl, hplan⟩ := hp
  obtain ⟨hsettle, -, -, -⟩ := plan_eq_ok hplan
  exact ⟨rfl, ⟨hrenames.outputs, hrenames.indices, hrenames.catalog, rfl, rfl⟩, rfl, rfl, rfl, rfl, rfl,
    read, houtcome, rfl, Analysis.init_of_settle hsettle⟩

end IndexNotation
