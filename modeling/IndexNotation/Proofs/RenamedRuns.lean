import IndexNotation.Proofs.Bounds
import IndexNotation.Proofs.RenamedStatements

/-!
# Renamed runs

The loops of a renamed plan go through renamed points, and code that is resolved for renamed indices
finds the same values there, if the renaming keeps all names that are not indices. So kernels that are
the same up to such a renaming run in the same way, whatever is supplied.
-/

namespace IndexNotation

open Run (exec)

/-! ## Loops -/

section

variable {ρ : String → String} (hρ : Function.Injective ρ)

namespace Ranges

include hρ in
theorem get_renameKeys (rs : Ranges) (i : String) : Ranges.get (renameKeys ρ rs) (ρ i) = rs.get i := by
  rw [get, lookup_renameKeys hρ, get]

theorem rebind_renameKeys (rs : Ranges) (indices : List String) (block : List Range) :
    Ranges.rebind (renameKeys ρ rs) (indices.map ρ) block = renameKeys ρ (rs.rebind indices block) := by
  rw [rebind, rebind, renameKeys, renameKeys, List.map_append, List.zip_map_left]
  rfl

end Ranges

include hρ in
theorem Env.cell_renameKeys (env : Env) (indices : List String) :
    Env.cell (renameKeys ρ env) (indices.map ρ) = env.cell indices := by
  rw [cell, List.map_map, cell]
  exact List.map_congr_left fun i _ => by rw [Function.comp, lookup_renameKeys hρ]

/-- A machine that is told the values of other indices. -/
def Machine.pull {m : Type → Type} {V : Type} (ρ : String → String) (k : Machine m V) : Machine m V :=
  { k with
    element := fun env => k.element (renameKeys ρ env)
    store := fun env v => k.store (renameKeys ρ env) v }

variable {m : Type → Type} {V σ : Type} [Monad m]

/-- Loops over renamed indices pass through renamed points. -/
theorem foldLoops_renameKeys (loops : List (String × List Int)) (body : Env → σ → m σ) (env : Env) (s : σ) :
    foldLoops (renameKeys ρ loops) body (renameKeys ρ env) s =
      foldLoops loops (fun env s => body (renameKeys ρ env) s) env s := by
  induction loops generalizing env s with
  | nil => rfl
  | cons l loops ih =>
    obtain ⟨index, values⟩ := l
    exact foldlM_congr_mem (fun v _ s => ih ((index, v) :: env) s) s

variable (k : Machine m V) (rs : Ranges) (outputs : List String)

include hρ

theorem reduceCell_rename (loops : List InnerLoop) (env : Env) (acc : V) :
    reduceCell k (renameKeys ρ rs) (loops.map (InnerLoop.rename ρ)) (renameKeys ρ env) acc =
      reduceCell (k.pull ρ) rs loops env acc := by
  have hloops : (loops.map (InnerLoop.rename ρ)).map (fun l => (l.index, l.values (renameKeys ρ rs))) =
      renameKeys ρ (loops.map fun l => (l.index, l.values rs)) := by
    rw [renameKeys_map, List.map_map]
    refine List.map_congr_left fun l _ => ?_
    simp only [Function.comp, InnerLoop.rename, InnerLoop.values, Ranges.get_renameKeys hρ]
  rw [reduceCell, hloops, foldLoops_renameKeys]
  rfl

theorem runCell_rename (body : Body) (env : Env) (table : Table V) :
    runCell k (renameKeys ρ rs) (outputs.map ρ) (body.rename ρ) (renameKeys ρ env) table =
      runCell (k.pull ρ) rs outputs body env table := by
  cases body with
  | store => rfl
  | reduce op resume loops =>
    cases resume <;> simp only [Body.rename, runCell, reduceCell_rename hρ, Env.cell_renameKeys hρ] <;> rfl

theorem flush_rename (table : Table V) :
    flush k (outputs.map ρ) (renameKeys ρ rs) table = flush (k.pull ρ) outputs rs table := by
  have hloops : (outputs.map ρ).map (fun i => (i, (Ranges.get (renameKeys ρ rs) i).toList)) =
      renameKeys ρ (outputs.map fun i => (i, (rs.get i).toList)) := by
    rw [renameKeys_map, List.map_map]
    refine List.map_congr_left fun i _ => ?_
    simp only [Function.comp, Ranges.get_renameKeys hρ]
  rw [flush, hloops]
  refine (foldLoops_renameKeys _ _ [] _).trans ?_
  simp only [Env.cell_renameKeys hρ]
  rfl

variable [MonadExceptOf Error m]

theorem runOutputs_rename (workers : Nat) (p : Plan) (table : Table V) :
    runOutputs k workers (outputs.map ρ) (p.rename ρ) (renameKeys ρ rs) table =
      runOutputs (k.pull ρ) workers outputs p rs table := by
  have hcell : (fun env table =>
        runCell k (renameKeys ρ rs) (outputs.map ρ) (p.body.rename ρ) (renameKeys ρ env) table) =
      runCell (k.pull ρ) rs outputs p.body :=
    funext fun env => funext fun table => runCell_rename hρ k rs outputs p.body env table
  unfold runOutputs
  rw [show (p.rename ρ).outputs = p.outputs.map (OutputLoop.rename ρ) from rfl,
    show (p.rename ρ).body = p.body.rename ρ from rfl]
  cases p.outputs with
  | nil => exact congrFun (congrFun hcell []) table
  | cons outermost rest =>
    have hloops : (rest.map (OutputLoop.rename ρ)).map
          (fun l => (l.index, (Ranges.get (renameKeys ρ rs) l.index).toList)) =
        renameKeys ρ (rest.map fun l => (l.index, (rs.get l.index).toList)) := by
      rw [renameKeys_map, List.map_map]
      refine List.map_congr_left fun l _ => ?_
      simp only [Function.comp, OutputLoop.rename, Ranges.get_renameKeys hρ]
    have hwork (chunk : Range) (table : Table V) :
        foldLoops ((ρ outermost.index, chunk.toList) ::
            renameKeys ρ (rest.map fun l => (l.index, (rs.get l.index).toList)))
          (runCell k (renameKeys ρ rs) (outputs.map ρ) (p.body.rename ρ)) [] table =
        foldLoops ((outermost.index, chunk.toList) :: rest.map fun l => (l.index, (rs.get l.index).toList))
          (runCell (k.pull ρ) rs outputs p.body) [] table := by
      rw [← hcell]
      exact foldLoops_renameKeys ((outermost.index, chunk.toList) :: _) _ [] table
    simp only [List.map_cons, hloops, OutputLoop.rename, hwork, Ranges.get_renameKeys hρ]

theorem runTiles_rename (workers : Nat) (p : Plan) :
    runTiles k workers (outputs.map ρ) (p.rename ρ) (renameKeys ρ rs) = runTiles (k.pull ρ) workers outputs p rs := by
  unfold runTiles
  rw [show (p.rename ρ).tiles = p.tiles.map (TileGroup.rename ρ) from rfl]
  cases p.tiles with
  | none => exact runOutputs_rename hρ k rs outputs workers p []
  | some g =>
    have hget : (g.indices.map ρ).map (Ranges.get (renameKeys ρ rs)) = g.indices.map rs.get := by
      rw [List.map_map]
      exact List.map_congr_left fun i _ => Ranges.get_renameKeys hρ rs i
    have hwidth : (g.indices.map ρ).map (fun _ => g.width) = g.indices.map fun _ => g.width := by
      rw [List.map_map]
      rfl
    simp only [Option.map_some, TileGroup.rename, hget, hwidth, Ranges.rebind_renameKeys, runOutputs_rename hρ]

/-- A renamed plan does the same as the plan on a machine that is told the renamed indices. -/
theorem runPlan_rename (workers : Nat) (p : Plan) :
    runPlan k workers (outputs.map ρ) (p.rename ρ) (renameKeys ρ rs) = runPlan (k.pull ρ) workers outputs p rs := by
  have hresumes : (p.rename ρ).body.resumes = p.body.resumes := by
    rw [show (p.rename ρ).body = p.body.rename ρ from rfl]
    cases p.body <;> rfl
  unfold runPlan
  simp only [runTiles_rename hρ, flush_rename hρ, hresumes]

end

/-! ## Evaluation -/

namespace Code

def rename (ρ : String → String) : Code → Code
  | index name => index (ρ name)
  | value v => value v
  | get base keys => get (rename ρ base) (renameAll keys)
  | field base name => field (rename ρ base) name
  | first source => first (rename ρ source)
  | call f args => call f (renameAll args)
  | binary op l r => binary op (rename ρ l) (rename ρ r)
  | unary op e => unary op (rename ρ e)
where
  renameAll : List Code → List Code
    | [] => []
    | c :: cs => rename ρ c :: renameAll cs

variable {ρ : String → String} (scope : Scope) (env : Env)

mutual

theorem run_rename (hρ : Function.Injective ρ) (c : Code) :
    (c.rename ρ).run scope (renameKeys ρ env) = c.run scope env := by
  cases c with
  | index name => rw [rename, run, lookup_renameKeys hρ, run]
  | value v => rfl
  | get base keys => rw [rename, run, run, run_rename hρ base, runAll_rename hρ keys]
  | field base name => rw [rename, run, run, run_rename hρ base]
  | first source => rw [rename, run, run, run_rename hρ source]
  | call f args => rw [rename, run, run, runAll_rename hρ args]
  | binary op l r => rw [rename, run, run, run_rename hρ l, run_rename hρ r]
  | unary op e => rw [rename, run, run, run_rename hρ e]

theorem runAll_rename (hρ : Function.Injective ρ) (cs : List Code) :
    run.runAll scope (renameKeys ρ env) (rename.renameAll ρ cs) = run.runAll scope env cs := by
  cases cs with
  | nil => rfl
  | cons c cs => rw [rename.renameAll, run.runAll, run.runAll, run_rename hρ c, runAll_rename hρ cs]

end

end Code

/-- A renaming keeps all names but those of indices. -/
def KeepsFree (ρ : String → String) (indices names : List String) : Prop :=
  ∀ n ∈ names, n ∉ indices → ρ n = n

theorem KeepsFree.mono {ρ : String → String} {indices names names' : List String} (h : KeepsFree ρ indices names)
    (hsub : names' ⊆ names) : KeepsFree ρ indices names' :=
  fun n hn => h n (hsub hn)

namespace Expr

variable {ρ : String → String} {scope : Scope} {indices : List String}

mutual

/-- Names are resolved in the same way: an index to the renamed index, another name to its value. -/
theorem resolve_likewise (hρ : Function.Injective ρ) {e : Expr} (h : KeepsFree ρ indices e.names) :
    Likewise (fun c c' => c' = c.rename ρ) (e.resolve scope indices) ((e.rename ρ).resolve scope (indices.map ρ)) := by
  cases e with
  | name id p =>
    rw [rename, resolve, resolve, contains_rename hρ]
    by_cases hid : indices.contains id = true
    · rw [if_pos hid, if_pos hid]
      exact .ok rfl
    · rw [if_neg hid, if_neg hid, h id (.head _) (by simpa using hid)]
      exact (Likewise.refl _).bind fun v v' hv => .ok (by rw [hv]; rfl)
  | number v p => exact .ok rfl
  | index b is p =>
    rw [rename, resolve, resolve]
    refine (resolve_likewise hρ (h.mono (List.subset_append_left _ _))).bind fun c c' hc => ?_
    refine (resolveAll_likewise hρ (h.mono (List.subset_append_right _ _))).bind fun cs cs' hcs => .ok ?_
    rw [hc, hcs]
    rfl
  | field b n p =>
    rw [rename, resolve, resolve]
    exact (resolve_likewise hρ (e := b) h).bind fun c c' hc => .ok (by rw [hc]; rfl)
  | first x p =>
    rw [rename, resolve, resolve]
    exact (resolve_likewise hρ (e := x) h).bind fun c c' hc => .ok (by rw [hc]; rfl)
  | call f xs p =>
    rw [rename, resolve, resolve]
    refine (Likewise.refl _).bind fun v v' hv => ?_
    subst hv
    split
    · exact (resolveAll_likewise hρ h).bind fun cs cs' hcs => .ok (by rw [hcs]; rfl)
    · exact .error rfl
  | binary l op r p =>
    have hl := resolve_likewise hρ (e := l) (h.mono (List.subset_append_left _ _))
    have hr := resolve_likewise hρ (e := r) (h.mono (List.subset_append_right _ _))
    cases op with
    | other o => exact .error rfl
    | _ =>
      simp only [rename, resolve]
      exact hl.bind fun c c' hc => hr.bind fun d d' hd => .ok (by rw [hc, hd]; rfl)
  | unary op x p =>
    have hx := resolve_likewise hρ (e := x) h
    cases op with
    | other o => exact .error rfl
    | _ =>
      simp only [rename, resolve]
      exact hx.bind fun c c' hc => .ok (by rw [hc]; rfl)
  | compare _ _ | keyword _ _ _ | target _ _ _ | hole => exact .error rfl

theorem resolveAll_likewise (hρ : Function.Injective ρ) {es : List Expr} (h : KeepsFree ρ indices (names.allNames es)) :
    Likewise (fun cs cs' => cs' = Code.rename.renameAll ρ cs) (resolve.resolveAll scope indices es)
      (resolve.resolveAll scope (indices.map ρ) (rename.renameAll ρ es)) := by
  cases es with
  | nil => exact .ok rfl
  | cons e es =>
    rw [rename.renameAll, resolve.resolveAll, resolve.resolveAll]
    refine (resolve_likewise hρ (h.mono (List.subset_append_left _ _))).bind fun c c' hc => ?_
    refine (resolveAll_likewise hρ (h.mono (List.subset_append_right _ _))).bind fun cs cs' hcs => .ok ?_
    rw [hc, hcs]
    rfl

end

end Expr

/-! ## Runs that differ in names only -/

namespace Run

variable {α α' β β' : Type} {Q : α → α' → Prop} {Q' : β → β' → Prop}

/-- Two computations leave the same world, and their outcomes are alike. -/
def Akin (Q : α → α' → Prop) (x : Run α) (x' : Run α') : Prop :=
  ∀ w, (exec x w).2 = (exec x' w).2 ∧ Likewise Q (exec x w).1 (exec x' w).1

theorem akin_pure {a : α} {a' : α'} (h : Q a a') : Akin Q (pure a) (pure a') :=
  fun _ => ⟨rfl, .ok h⟩

theorem akin_refl (x : Run α) : Akin Eq x x :=
  fun _ => ⟨rfl, .refl _⟩

theorem akin_lift {x : Except Error α} {x' : Except Error α'} (h : Likewise Q x x') : Akin Q (liftM x) (liftM x') := by
  intro w
  rw [exec_lift, exec_lift]
  exact ⟨rfl, h⟩

theorem Akin.bind {x : Run α} {x' : Run α'} {f : α → Run β} {f' : α' → Run β'} (hx : Akin Q x x')
    (hf : ∀ a a', Q a a' → Akin Q' (f a) (f' a')) : Akin Q' (x >>= f) (x' >>= f') := by
  intro w
  obtain ⟨hworld, hQ⟩ := hx w
  rw [exec_bind, exec_bind]
  generalize exec x w = r, exec x' w = r' at hworld hQ
  obtain ⟨r, u⟩ := r
  obtain ⟨r', u'⟩ := r'
  cases hworld
  cases hQ with
  | error he => exact ⟨rfl, .error he⟩
  | ok ha => exact hf _ _ ha u

/-- What follows the same computation. -/
theorem akin_bind_of_eq {x : Run α} {f : α → Run β} {f' : α → Run β'} (hf : ∀ a, Akin Q' (f a) (f' a)) :
    Akin Q' (x >>= f) (x >>= f') :=
  (akin_refl x).bind fun a _ ha => ha ▸ hf a

theorem akin_mapM {g : α → α'} {h : β → β'} {f : α → Run β} {f' : α' → Run β'} {as : List α}
    (hf : ∀ a ∈ as, Akin (fun b b' => b' = h b) (f a) (f' (g a))) :
    Akin (fun bs bs' => bs' = bs.map h) (as.mapM f) ((as.map g).mapM f') := by
  induction as with
  | nil => exact akin_pure rfl
  | cons a as ih =>
    rw [List.map_cons, List.mapM_cons, List.mapM_cons]
    refine (hf a (.head _)).bind fun b b' hb => (ih fun c hc => hf c (.tail _ hc)).bind fun bs bs' hbs => akin_pure ?_
    rw [hb, hbs, List.map_cons]

theorem akin_forM {g : α → α'} {f : α → Run PUnit} {f' : α' → Run PUnit} {as : List α}
    (hf : ∀ a ∈ as, Akin Eq (f a) (f' (g a))) : Akin Eq (as.forM f) ((as.map g).forM f') := by
  induction as with
  | nil => exact akin_pure rfl
  | cons a as ih => exact (hf a (.head _)).bind fun _ _ _ => ih fun b hb => hf b (.tail _ hb)

end Run

/-! ## Ranges -/

/-- The names that stand in an axis. -/
def Axis.names : Axis → List String
  | array source _ => source.names
  | between lower upper => (lower.map Expr.names).getD [] ++ upper.names

section

variable {ρ : String → String} (hρ : Function.Injective ρ) {scope : Scope} {indices : List String}

include hρ

theorem Expr.eval_akin {e : Expr} (h : KeepsFree ρ indices e.names) (env : Env) :
    Run.Akin Eq (e.eval scope indices env) ((e.rename ρ).eval scope (indices.map ρ) (renameKeys ρ env)) := by
  refine (Run.akin_lift (resolve_likewise hρ h)).bind fun c c' hc => ?_
  rw [hc, Code.run_rename scope env hρ]
  exact Run.akin_refl _

theorem Axis.resolve_akin {a : Axis} (h : KeepsFree ρ indices a.names) :
    Run.Akin Eq (a.resolve scope indices) ((a.rename ρ).resolve scope (indices.map ρ)) := by
  cases a with
  | array source dim =>
    refine (Expr.eval_akin hρ h []).bind fun v v' hv => ?_
    rw [hv]
    exact Run.akin_refl _
  | between lower upper =>
    have hupper : Run.Akin Eq (upper.eval scope indices []) ((upper.rename ρ).eval scope (indices.map ρ) []) :=
      Expr.eval_akin hρ (h.mono (List.subset_append_right _ _)) []
    have hrest (n : Int) : Run.Akin Eq (do return ⟨n, (← (← upper.eval scope indices []).toInt) + 1, 1⟩)
        (do return ⟨n, (← (← (upper.rename ρ).eval scope (indices.map ρ) []).toInt) + 1, 1⟩ : Run Range) := by
      refine hupper.bind fun v v' hv => ?_
      rw [hv]
      exact Run.akin_refl _
    cases lower with
    | none => exact hrest 0
    | some e =>
      simp only [resolve, rename, Option.map_some]
      refine (Expr.eval_akin hρ (h.mono (List.subset_append_left _ _)) []).bind fun v v' hv => ?_
      rw [hv]
      exact Run.akin_bind_of_eq hrest

end

namespace Catalog

/-- Finding the ranges is resolving the axes one after the other, and then comparing. -/
theorem rangesBy_eq_mapM (c : Catalog) (resolver : Axis → Run Range) (w : World) :
    exec (c.rangesBy resolver) w = exec (do
      let rs ← c.axes.mapM fun a => do return (a.1, ← resolver a.2)
      runChecks resolver c.checks
      return rs) w := by
  have haxes (axes : List (String × Axis)) (w : World) :
      exec (axes.mapM fun a => do return (a.1, ← resolver a.2)) w =
        (((resolveAxes resolver axes).run w).1.2.elim (.ok ((resolveAxes resolver axes).run w).1.1) .error,
          ((resolveAxes resolver axes).run w).2) := by
    induction axes generalizing w with
    | nil => rfl
    | cons a axes ih =>
      obtain ⟨i, axis⟩ := a
      rw [List.mapM_cons]
      rcases hr : exec (resolver axis) w with ⟨e | r, u⟩
      · rw [resolveAxes_of_error hr]
        exact Run.exec_bind_error (Run.exec_bind_error hr)
      · have hhead : exec (do return (i, ← resolver axis)) w = (.ok (i, r), u) := Run.exec_bind_ok hr
        rw [resolveAxes_of_ok hr, Run.exec_bind_ok hhead, Run.exec_bind, ih u, StateT.run_map]
        rcases (resolveAxes resolver axes).run u with ⟨⟨rs, _ | e⟩, u'⟩ <;> rfl
  rw [exec_rangesBy, Run.exec_bind, haxes c.axes w]
  rcases (resolveAxes resolver c.axes).run w with ⟨⟨rs, _ | e⟩, u⟩
  · exact congrArg (exec · u) (map_eq_pure_bind _ _)
  · rfl

variable {ρ : String → String} {scope : Scope} {indices : List String}

/-- The ranges are found for the renamed indices. -/
theorem ranges_akin (hρ : Function.Injective ρ) {c : Catalog} (haxes : ∀ a ∈ c.axes, KeepsFree ρ indices a.2.names)
    (hchecks : ∀ d ∈ c.checks, KeepsFree ρ indices d.expected.names ∧ KeepsFree ρ indices d.actual.names) :
    Run.Akin (fun rs rs' => rs' = renameKeys ρ rs) (c.ranges scope indices)
      ((c.rename ρ).ranges scope (indices.map ρ)) := by
  have hchecked : Run.Akin Eq (runChecks (Axis.resolve scope indices) c.checks)
      (runChecks (Axis.resolve scope (indices.map ρ)) (c.rename ρ).checks) := by
    refine Run.akin_forM fun d hd => ?_
    obtain ⟨hexpected, hactual⟩ := hchecks d hd
    refine (Axis.resolve_akin hρ hexpected).bind fun r r' hr => (Axis.resolve_akin hρ hactual).bind fun s s' hs => ?_
    rw [hr, hs]
    split
    · exact fun _ => ⟨rfl, .error rfl⟩
    · exact Run.akin_refl _
  have hfound : Run.Akin (fun rs rs' => rs' = renameKeys ρ rs)
      (c.axes.mapM fun a => do return (a.1, ← Axis.resolve scope indices a.2))
      ((c.rename ρ).axes.mapM fun a => do return (a.1, ← Axis.resolve scope (indices.map ρ) a.2)) :=
    Run.akin_mapM fun a ha => (Axis.resolve_akin hρ (haxes a ha)).bind fun r r' hr => Run.akin_pure (by rw [hr])
  intro w
  rw [ranges, ranges, rangesBy_eq_mapM, rangesBy_eq_mapM]
  refine (hfound.bind fun rs rs' hrs => hchecked.bind fun _ _ _ => Run.akin_pure ?_) w
  exact hrs

end Catalog

/-! ## Names that are not indices -/

theorem Expr.names_of_mem {e : Expr} {es : List Expr} (h : e ∈ es) : e.names ⊆ names.allNames es := by
  rw [allNames_eq]
  exact fun n hn => List.mem_flatMap.2 ⟨e, h, hn⟩

theorem Expr.Refers.names_subset {base : Expr} {keys : List Expr} {e : Expr} (h : Refers base keys e) :
    base.names ⊆ e.names := by
  induction h with
  | here pos => exact List.subset_append_left _ _
  | base is pos _ ih => exact List.subset_append_of_subset_left _ ih
  | key b pos he _ ih => exact List.subset_append_of_subset_right _ (List.Subset.trans ih (names_of_mem he))
  | field name pos _ ih => exact ih
  | arg f pos he _ ih => exact List.Subset.trans ih (names_of_mem he)
  | left op r pos _ ih => exact List.subset_append_of_subset_left _ ih
  | right l op pos _ ih => exact List.subset_append_of_subset_right _ ih
  | operand op pos _ ih => exact ih

/-- An axis from a bracket has no names but those of the expression. -/
theorem Collection.names_axes {e : Expr} {a : String × Axis} (ha : a ∈ (ofExpr e).axes) : a.2.names ⊆ e.names := by
  obtain ⟨r, hr, ha⟩ := List.mem_flatMap.1 ha
  obtain ⟨base, keys, rfl, hrefers⟩ := Expr.refers_of_mem_references hr
  obtain ⟨dim, hdim⟩ := Reference.eq_array_of_mem_axesFrom ha
  rw [hdim]
  exact List.Subset.trans (Expr.names_axisSource base) hrefers.names_subset

/-- What an item says, it says with its names. -/
theorem Reduction.Says.names_subset {e : Expr} {item : Item} (h : Says e item) :
    (∀ b ∈ item.bound?, b.2.names ⊆ e.names) ∧ ∀ v ∈ item.init?, v.names ⊆ e.names := by
  cases h with
  | unroll pos | width hn pos pos' | index hid pos => simp [Item.bound?, Item.init?]
  | upTo id upper pos pos' => simp [Item.bound?, Item.init?, Axis.names, Expr.names, Expr.allNames_eq]
  | between lower id upper pos pos' => simp [Item.bound?, Item.init?, Axis.names, Expr.names, Expr.allNames_eq]
  | init value pos => simp [Item.bound?, Item.init?, Expr.names]

/-- The names that stand in a reduction clause. -/
def ReductionClause.names (c : ReductionClause) : List String :=
  c.items.flatMap Expr.names

theorem Reduction.names_of_read {source : String} {c : ReductionClause} {p : Partial}
    (h : read source (some c) = (p, none)) :
    (∀ b ∈ p.bounds, b.2.names ⊆ c.names) ∧ ∀ v ∈ p.reduction.init, v.names ⊆ c.names := by
  obtain ⟨-, items, hspell, -⟩ := (read_iff source).1 ⟨p, h⟩
  obtain ⟨hdescribes, -, -⟩ := read_describes h hspell
  have hsaid : ∀ item ∈ items, ∃ e ∈ c.items, Says e item := by
    clear hdescribes
    generalize c.items = es at hspell
    induction hspell with
    | nil => simp
    | cons hs _ ih =>
      refine List.forall_mem_cons.2 ⟨⟨_, .head _, hs⟩, fun item hitem => ?_⟩
      obtain ⟨e, he, hse⟩ := ih item hitem
      exact ⟨e, .tail _ he, hse⟩
  have hnames {e : Expr} (he : e ∈ c.items) : e.names ⊆ c.names := fun n hn => List.mem_flatMap.2 ⟨e, he, hn⟩
  constructor
  · intro b hb
    rw [hdescribes.bounds] at hb
    obtain ⟨item, hitem, hbound⟩ := List.mem_filterMap.1 hb
    obtain ⟨e, he, hse⟩ := hsaid item hitem
    exact List.Subset.trans (hse.names_subset.1 b hbound) (hnames he)
  · intro v hv
    rw [Option.mem_def, hdescribes.init] at hv
    obtain ⟨item, hitem, hinit⟩ := List.mem_filterMap.1 (List.mem_of_getLast? hv)
    obtain ⟨e, he, hse⟩ := hsaid item hitem
    exact List.Subset.trans (hse.names_subset.2 v hinit) (hnames he)

namespace Statement

/-- The names that stand in a statement; the output is not named by one of these. -/
def names (s : Statement) : List String :=
  s.target.indices.flatMap Expr.names ++ s.rhs.names ++ s.reduction.toList.flatMap ReductionClause.names ++
    s.tiling.toList.flatMap fun c => c.items.flatMap Expr.names

/-- All that is evaluated has names of the statement. -/
theorem keepsFree_of_outcome {ρ : String → String} {indices : List String} {s : Statement}
    (h : KeepsFree ρ indices s.names) (houtput : ∀ n ∈ s.target.name, ρ n = n) {read : Reduction.Partial}
    (hread : Reduction.outcome s.source s.reduction = .ok read) :
    (∀ a ∈ s.axes read.bounds, KeepsFree ρ indices a.2.names) ∧
      ∀ e ∈ read.reduction.init, KeepsFree ρ indices e.names := by
  have hclause : (∀ b ∈ read.bounds, KeepsFree ρ indices b.2.names) ∧
      ∀ e ∈ read.reduction.init, KeepsFree ρ indices e.names := by
    have hread := Reduction.read_of_outcome hread
    cases hc : s.reduction with
    | none =>
      rw [hc] at hread
      cases hread
      simp
    | some c =>
      rw [hc] at hread
      have hfree : KeepsFree ρ indices c.names := h.mono fun n hn => by simp [names, hc, hn]
      obtain ⟨hbounds, hinit⟩ := Reduction.names_of_read hread
      exact ⟨fun b hb => hfree.mono (hbounds b hb), fun e he => hfree.mono (hinit e he)⟩
  refine ⟨fun a ha => ?_, hclause.2⟩
  rcases List.mem_append.1 ha with ha | ha
  · rcases List.mem_append.1 ha with ha | ha
    · exact hclause.1 a ha
    · exact h.mono fun n hn => by simp [names, Collection.names_axes ha hn]
  · split at ha
    · cases ha
    · unfold Target.axes at ha
      cases hname : s.target.name with
      | none => simp [hname] at ha
      | some name =>
        rw [hname] at ha
        obtain ⟨dim, hdim⟩ := Reference.eq_array_of_mem_axesFrom ha
        rw [hdim]
        intro n hn _
        obtain rfl := List.mem_singleton.1 hn
        exact houtput n hname

end Statement

theorem Reduction.initial_akin {ρ : String → String} (hρ : Function.Injective ρ) {scope : Scope} {indices : List String}
    {r : Reduction} (h : ∀ e ∈ r.init, KeepsFree ρ indices e.names) (t : ElemType) :
    Run.Akin Eq (r.initial t (Expr.eval scope indices []))
      ((r.rename ρ).initial t (Expr.eval scope (indices.map ρ) [])) := by
  unfold initial
  rw [show (r.rename ρ).init = r.init.map (Expr.rename ρ) from rfl]
  cases hr : r.init with
  | none => exact Run.akin_refl _
  | some e =>
    have hliteral : zeroOrOne? (e.rename ρ) = zeroOrOne? e := by cases e <;> rfl
    simp only [Option.map_some, hliteral]
    cases zeroOrOne? e with
    | none => exact Expr.eval_akin hρ (h e hr) []
    | some l => exact Run.akin_refl _

/-! ## Kernels -/

/-- An access with other names. -/
def Access.rename (ρ : String → String) : Access → Access
  | evaluate env => evaluate (renameKeys ρ env)
  | store out env => store out (renameKeys ρ env)

namespace Kernel.Renames

variable {ρ φ : String → String} {s : Statement} {k k' : Kernel} (h : Renames ρ φ s k k')
  (hρ : Function.Injective ρ)

include h

theorem outputIndices_eq : k'.outputIndices = k.outputIndices.map ρ :=
  h.analysis.outputs

theorem target_indices : k'.statement.target.indices = k.statement.target.indices.map (Expr.rename ρ) := by
  rw [h.renamed, h.statement]
  rfl

theorem target_name : k'.statement.target.name = k.statement.target.name := by
  rw [h.renamed, h.statement]
  rfl

theorem allocates_eq : k'.statement.allocates = k.statement.allocates := by
  rw [h.renamed, h.statement]
  rfl

theorem reduction_eq : k'.reduction = k.reduction.map (Reduction.rename ρ) := by
  unfold Kernel.reduction
  rw [h.plan, h.analysis.reduction, show (k.plan.rename ρ).body = k.plan.body.rename ρ from rfl]
  cases k.plan.body <;> rfl

include hρ

theorem keys_eq (env : Env) : k'.keys (renameKeys ρ env) = k.keys env := by
  rw [keys, h.target_indices, List.map_map, keys]
  refine List.map_congr_left fun e _ => ?_
  cases e with
  | name id p => simp only [Function.comp, Expr.rename, key, lookup_renameKeys hρ]
  | _ => rfl

theorem newShape_eq (rs : Ranges) : k'.newShape (renameKeys ρ rs) = k.newShape rs := by
  rw [newShape, h.target_indices, List.map_map, newShape]
  refine List.map_congr_left fun e _ => ?_
  cases e with
  | name id p => simp only [Function.comp, Expr.rename, Ranges.get_renameKeys hρ]
  | _ => rfl

theorem sample_likewise (rs : Ranges) :
    Likewise (fun env env' => env' = renameKeys ρ env) (k.sample rs) (k'.sample (renameKeys ρ rs)) := by
  rw [sample, sample, h.symbols]
  refine Likewise.mapM fun s _ => ?_
  simp only [IndexSymbol.rename, Ranges.get_renameKeys hρ]
  split
  · exact .error rfl
  · exact .ok rfl

theorem makeOutput_akin (scope : Scope) (rs : Ranges) {element element' : Env → Run Value}
    (helement : ∀ env, element' (renameKeys ρ env) = element env) :
    Run.Akin Eq (k.makeOutput scope rs element) (k'.makeOutput scope (renameKeys ρ rs) element') := by
  have hnew : Run.Akin Eq (k.newOutput rs element) (k'.newOutput (renameKeys ρ rs) element') := by
    refine (Run.akin_lift (h.sample_likewise hρ rs)).bind fun env env' henv => ?_
    rw [henv, helement, h.newShape_eq hρ]
    exact Run.akin_refl _
  unfold makeOutput
  rw [h.allocates_eq, h.target_name]
  by_cases hallocates : k.statement.allocates = true
  · rw [if_pos hallocates, if_pos hallocates]
    exact hnew
  · rw [if_neg hallocates, if_neg hallocates]
    exact Run.akin_refl _

theorem machine_pull (watch : Access → Run PUnit) (scope : Scope) {element element' : Env → Run Value}
    (helement : ∀ env, element' (renameKeys ρ env) = element env) (out : Value) (r : Reducer) (init : Value) :
    ((k'.machine scope element' out r init).watched watch out).pull ρ =
      (k.machine scope element out r init).watched (fun a => watch (a.rename ρ)) out := by
  unfold Machine.pull Machine.watched machine
  simp only [helement, h.keys_eq hρ]
  rfl

theorem reducer_akin {scope : Scope}
    (hinit : ∀ e ∈ k.analysis.reduction.init, KeepsFree ρ k.analysis.indexNames e.names) (t : ElemType) :
    Run.Akin Eq (k.reducer scope t) (k'.reducer scope t) := by
  unfold reducer
  rw [h.reduction_eq, h.analysis.indexNames_eq hρ]
  cases hr : k.reduction with
  | none => exact Run.akin_refl _
  | some r =>
    obtain rfl : k.analysis.reduction = r := by
      unfold Kernel.reduction at hr
      split at hr
      · cases hr
      · exact Option.some.inj hr
    refine Run.akin_bind_of_eq fun f => ?_
    refine (Reduction.initial_akin hρ hinit t).bind fun v v' hv => ?_
    rw [hv]
    exact Run.akin_refl _

/-- Runs of the two kernels go the same way, seen by a watcher who renames what is seen of the first. -/
theorem runWatched_akin (hfree : KeepsFree ρ k.analysis.indexNames s.names) (houtput : ∀ n ∈ s.target.name, ρ n = n)
    (watch : Access → Run PUnit) (scope : Scope) :
    Run.Akin Eq (k.runWatched (fun a => watch (a.rename ρ)) scope) (k'.runWatched watch scope) := by
  obtain ⟨read, hread, hcatalog, hinit⟩ := h.read
  obtain ⟨haxes, hstart⟩ := Statement.keepsFree_of_outcome hfree houtput hread
  obtain ⟨hbound, hchecks⟩ :=
    Catalog.forall_axes_bindAll (P := fun a => KeepsFree ρ k.analysis.indexNames a.names) haxes
  rw [← hcatalog] at hbound hchecks
  unfold runWatched
  rw [h.analysis.catalog, h.analysis.indexNames_eq hρ]
  refine (Catalog.ranges_akin hρ hbound hchecks).bind fun rs rs' hrs => ?_
  subst hrs
  have hrhs : k'.statement.rhs = k.statement.rhs.rename ρ := by
    rw [h.renamed, h.statement]
    rfl
  have hsource : k'.statement.source = k.statement.source := by
    rw [h.renamed, h.statement]
    rfl
  rw [hrhs, hsource]
  refine (Run.akin_lift (Expr.resolve_likewise hρ (hfree.mono fun n hn => ?_))).bind fun c c' hc => ?_
  · rw [h.statement] at hn
    simp [Statement.names, hn]
  subst hc
  have helement (env : Env) : (c.rename ρ).run scope (renameKeys ρ env) = c.run scope env :=
    Code.run_rename scope env hρ c
  refine (h.makeOutput_akin hρ scope rs fun env => ?_).bind fun p p' hp => ?_
  · simp only [helement]
    rfl
  subst hp
  obtain ⟨out, t⟩ := p
  refine (h.reducer_akin hρ (hinit ▸ hstart) t).bind fun p p' hp => ?_
  subst hp
  obtain ⟨r, init⟩ := p
  dsimp only
  rw [h.config, h.plan, h.outputIndices_eq]
  refine Run.akin_bind_of_eq fun shape => Run.akin_bind_of_eq fun _ => ?_
  rw [runPlan_rename hρ, h.machine_pull hρ watch scope helement]
  exact Run.akin_refl _

end Kernel.Renames

end IndexNotation
