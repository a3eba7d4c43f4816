import IndexNotation.Proofs.Agreement
import IndexNotation.Proofs.Preparation

/-!
# Under which keys names are looked up

A call looks names up in four places: the output by the name on the left, operands and functions by
the names on the right, and the names of bounds, start value and operator by those of the reduction
clause. Nothing else of the bindings matters. Of all these only the operands on the right are put
into their canonical form. So a name that does not end in an apostrophe is one key wherever it
stands, and one that does is another key as an operand than in all other places.
-/

namespace IndexNotation

open Run (exec)

/-! ## What is asked of a scope -/

/-- The names that resolving a tree looks up, in order. -/
def Expr.asks (indices : List String) : Expr → List String
  | name id _ => if indices.contains id then [] else [id]
  | index b is _ => asks indices b ++ asksAll is
  | field b _ _ => asks indices b
  | call f args _ => f :: asksAll args
  | binary l _ r _ => asks indices l ++ asks indices r
  | unary _ e _ => asks indices e
  | first e _ => asks indices e
  | _ => []
where
  asksAll : List Expr → List String
    | [] => []
    | e :: es => asks indices e ++ asksAll es

namespace Expr

variable {scope scope' : Scope} {indices : List String}

mutual

/-- What a tree resolves to depends on the names that it asks for. -/
theorem resolve_congr {e : Expr} (h : ∀ n ∈ e.asks indices, scope.lookup n = scope'.lookup n) :
    e.resolve scope indices = e.resolve scope' indices := by
  cases e with
  | name id p =>
    rw [asks] at h
    rw [resolve, resolve]
    split
    · rfl
    · rename_i hfree
      rw [if_neg hfree] at h
      rw [h id (.head _)]
  | number v p => rfl
  | index b is p =>
    simp only [asks, List.mem_append] at h
    rw [resolve, resolve, resolve_congr fun n hn => h n (.inl hn), resolveAll_congr fun n hn => h n (.inr hn)]
  | field b n p =>
    rw [asks] at h
    rw [resolve, resolve, resolve_congr h]
  | call f args p =>
    simp only [asks, List.mem_cons] at h
    rw [resolve, resolve, h f (.inl rfl), resolveAll_congr fun n hn => h n (.inr hn)]
  | binary l op r p =>
    simp only [asks, List.mem_append] at h
    unfold resolve
    rw [resolve_congr fun n hn => h n (.inl hn), resolve_congr fun n hn => h n (.inr hn)]
  | unary op e p =>
    rw [asks] at h
    unfold resolve
    rw [resolve_congr h]
  | first e p =>
    rw [asks] at h
    rw [resolve, resolve, resolve_congr h]
  | compare _ _ | keyword _ _ _ | target _ _ _ | hole => rfl

theorem resolveAll_congr {es : List Expr}
    (h : ∀ n ∈ asks.asksAll indices es, scope.lookup n = scope'.lookup n) :
    resolve.resolveAll scope indices es = resolve.resolveAll scope' indices es := by
  cases es with
  | nil => rfl
  | cons e es =>
    simp only [asks.asksAll, List.mem_append] at h
    rw [resolve.resolveAll, resolve.resolveAll, resolve_congr fun n hn => h n (.inl hn),
      resolveAll_congr fun n hn => h n (.inr hn)]

end

mutual

/-- The dimensions of a tree are found without asking for more. -/
theorem asks_axisSource (e : Expr) : e.axisSource.asks indices ⊆ e.asks indices := by
  cases e with
  | index b is p =>
    rw [axisSource]
    split
    · rw [asks, asks]
      exact List.Subset.trans (asks_axisSource b) (List.subset_append_left _ _)
    · rw [asks, asks]
      exact List.append_subset.2 ⟨List.Subset.trans (asks_axisSource b) (List.subset_append_left _ _),
        List.subset_append_right _ _⟩
  | field b n p => exact asks_axisSource b
  | call f args p => exact List.cons_subset_cons f (asksAll_axisSources args)
  | name _ _ | number _ _ | binary _ _ _ _ | unary _ _ _ | first _ _ | compare _ _ | keyword _ _ _
  | target _ _ _ | hole => exact List.Subset.refl _

theorem asksAll_axisSources (es : List Expr) :
    asks.asksAll indices (axisSource.axisSources es) ⊆ asks.asksAll indices es := by
  cases es with
  | nil => exact List.Subset.refl _
  | cons e es =>
    exact List.append_subset.2 ⟨List.Subset.trans (asks_axisSource e) (List.subset_append_left _ _),
      List.Subset.trans (asksAll_axisSources es) (List.subset_append_right _ _)⟩

end

mutual

theorem asks_references {e : Expr} {r : Reference} (hr : r ∈ e.references) :
    r.source.asks indices ⊆ e.asks indices := by
  cases e with
  | index b is p =>
    rw [references, List.mem_append, List.mem_append] at hr
    rw [asks]
    rcases hr with (hr | hr) | hr
    · exact List.Subset.trans (asks_references hr) (List.subset_append_left _ _)
    · obtain rfl := List.mem_singleton.1 hr
      exact List.Subset.trans (asks_axisSource b) (List.subset_append_left _ _)
    · exact List.Subset.trans (asks_allReferences hr) (List.subset_append_right _ _)
  | field b n p => exact asks_references (e := b) hr
  | call f args p => exact List.Subset.trans (asks_allReferences hr) (List.subset_cons_self _ _)
  | binary l op r' p =>
    rw [references, List.mem_append] at hr
    rw [asks]
    rcases hr with hr | hr
    · exact List.Subset.trans (asks_references hr) (List.subset_append_left _ _)
    · exact List.Subset.trans (asks_references hr) (List.subset_append_right _ _)
  | unary op x p => exact asks_references (e := x) hr
  | name _ _ | number _ _ | first _ _ | compare _ _ | keyword _ _ _ | target _ _ _ | hole => cases hr

theorem asks_allReferences {es : List Expr} {r : Reference} (hr : r ∈ references.allReferences es) :
    r.source.asks indices ⊆ asks.asksAll indices es := by
  cases es with
  | nil => cases hr
  | cons e es =>
    rw [references.allReferences, List.mem_append] at hr
    rw [asks.asksAll]
    rcases hr with hr | hr
    · exact List.Subset.trans (asks_references hr) (List.subset_append_left _ _)
    · exact List.Subset.trans (asks_allReferences hr) (List.subset_append_right _ _)

end

mutual

/-- Whatever a tree asks for is found if it can be resolved. -/
theorem exists_lookup {e : Expr} {c : Code} (h : e.resolve scope indices = .ok c) {n : String}
    (hn : n ∈ e.asks indices) : ∃ v, scope.lookup n = .ok v := by
  cases e with
  | name id p =>
    rw [asks] at hn
    split at hn
    · cases hn
    · rename_i hfree
      obtain rfl := List.mem_singleton.1 hn
      obtain ⟨hid, -⟩ | ⟨-, v, hv, -⟩ := resolve_name_eq_ok h
      · exact absurd (List.contains_iff_mem.2 hid) hfree
      · exact ⟨v, hv⟩
  | index b is p =>
    obtain ⟨base, codes, hb, his, -⟩ := resolve_index_eq_ok h
    rw [asks, List.mem_append] at hn
    rcases hn with hn | hn
    · exact exists_lookup hb hn
    · exact exists_lookup_of_all his hn
  | field b m p =>
    obtain ⟨base, hb, -⟩ := resolve_field_eq_ok h
    exact exists_lookup hb hn
  | call f args p =>
    obtain ⟨v, codes, hv, hargs, -⟩ := resolve_call_eq_ok h
    rcases List.mem_cons.1 hn with rfl | hn
    · exact ⟨v, hv⟩
    · exact exists_lookup_of_all hargs hn
  | binary l op r p =>
    obtain ⟨left, right, hl, hr, -⟩ := resolve_binary_eq_ok h
    rw [asks, List.mem_append] at hn
    exact hn.elim (exists_lookup hl) (exists_lookup hr)
  | unary op e p =>
    obtain ⟨operand, he, -⟩ := resolve_unary_eq_ok h
    rw [asks] at hn
    exact exists_lookup he hn
  | first e p =>
    obtain ⟨source, he, -⟩ := resolve_first_eq_ok h
    exact exists_lookup he hn
  | number _ _ | compare _ _ | keyword _ _ _ | target _ _ _ | hole => cases hn

theorem exists_lookup_of_all {es : List Expr} {cs : List Code}
    (h : resolve.resolveAll scope indices es = .ok cs) {n : String} (hn : n ∈ asks.asksAll indices es) :
    ∃ v, scope.lookup n = .ok v := by
  cases es with
  | nil => cases hn
  | cons e es =>
    obtain ⟨c, cs, he, hes, -⟩ := resolveAll_cons_eq_ok h
    rw [asks.asksAll, List.mem_append] at hn
    exact hn.elim (exists_lookup he) (exists_lookup_of_all hes)

end

end Expr

/-! ## Scopes that agree -/

/-- Two scopes have the same functions, and the same values under the keys `names`. -/
structure Scope.Agrees (scope scope' : Scope) (names : List String) : Prop where
  supplied : scope.supplied = scope'.supplied
  bindings : ∀ n ∈ names, scope.bindings.lookup n = scope'.bindings.lookup n

theorem Scope.Agrees.mono {scope scope' : Scope} {names names' : List String} (h : scope.Agrees scope' names)
    (hsub : names' ⊆ names) : scope.Agrees scope' names' :=
  ⟨h.supplied, fun n hn => h.bindings n (hsub hn)⟩

theorem Scope.Agrees.lookup {scope scope' : Scope} {names : List String} (h : scope.Agrees scope' names)
    {n : String} (hn : n ∈ names) : scope.lookup n = scope'.lookup n := by
  rw [Scope.lookup, Scope.lookup, h.bindings n hn]

theorem Scope.call_supplied {scope scope' : Scope} (h : scope.supplied = scope'.supplied) (f : Value)
    (args : List Value) : scope.call f args = scope'.call f args := by
  unfold Scope.call
  rw [h]

theorem Reducer.apply_supplied {scope scope' : Scope} (h : scope.supplied = scope'.supplied) (r : Reducer)
    (acc v : Value) : r.apply scope acc v = r.apply scope' acc v := by
  unfold Reducer.apply
  cases r with
  | function f => exact Scope.call_supplied h f [acc, v]
  | sum | product | max | min => rfl

namespace Code

mutual

theorem run_supplied {scope scope' : Scope} (h : scope.supplied = scope'.supplied) (env : Env) (c : Code) :
    c.run scope env = c.run scope' env := by
  cases c with
  | index name => rfl
  | value v => rfl
  | get base keys => rw [run, run, run_supplied h env base, runAll_supplied h env keys]
  | field base name => rw [run, run, run_supplied h env base]
  | first source => rw [run, run, run_supplied h env source]
  | call f args => simp only [run, runAll_supplied h env args, Scope.call_supplied h]
  | binary op l r => rw [run, run, run_supplied h env l, run_supplied h env r]
  | unary op e => rw [run, run, run_supplied h env e]

theorem runAll_supplied {scope scope' : Scope} (h : scope.supplied = scope'.supplied) (env : Env)
    (cs : List Code) : run.runAll scope env cs = run.runAll scope' env cs := by
  cases cs with
  | nil => rfl
  | cons c cs => rw [run.runAll, run.runAll, run_supplied h env c, runAll_supplied h env cs]

end

end Code

section

variable {scope scope' : Scope} {indices : List String}

theorem Expr.resolve_agrees {e : Expr} (h : scope.Agrees scope' (e.asks indices)) :
    e.resolve scope indices = e.resolve scope' indices :=
  Expr.resolve_congr fun _ hn => h.lookup hn

theorem Expr.eval_agrees {e : Expr} (h : scope.Agrees scope' (e.asks indices)) (env : Env) :
    e.eval scope indices env = e.eval scope' indices env := by
  rw [Expr.eval, Expr.eval, Expr.resolve_agrees h]
  exact bind_congr fun c => Code.run_supplied h.supplied env c

/-- The trees that the range of an axis is found from. -/
def Axis.parts : Axis → List Expr
  | .array source _ => [source]
  | .between lower upper => lower.toList ++ [upper]

theorem Axis.resolve_agrees {axis : Axis} (h : ∀ e ∈ axis.parts, scope.Agrees scope' (e.asks indices)) :
    axis.resolve scope indices = axis.resolve scope' indices := by
  cases axis with
  | array source dim => rw [Axis.resolve, Axis.resolve, Expr.eval_agrees (h source (.head _))]
  | between lower upper =>
    have hupper := Expr.eval_agrees (h upper (List.mem_append_right _ (.head _))) []
    cases lower with
    | none => rw [Axis.resolve, Axis.resolve, hupper]
    | some e => rw [Axis.resolve, Axis.resolve, hupper, Expr.eval_agrees (h e (.head _))]

end

namespace Catalog

variable {resolver resolver' : Axis → Run Range}

theorem resolveAxes_congr {axes : List (String × Axis)} (h : ∀ a ∈ axes, resolver a.2 = resolver' a.2) :
    resolveAxes resolver axes = resolveAxes resolver' axes := by
  induction axes with
  | nil => rfl
  | cons a axes ih => rw [resolveAxes, resolveAxes, h a (.head _), ih fun b hb => h b (.tail _ hb)]

theorem runChecks_congr {checks : List AxisCheck}
    (h : ∀ d ∈ checks, resolver d.expected = resolver' d.expected ∧ resolver d.actual = resolver' d.actual) :
    runChecks resolver checks = runChecks resolver' checks := by
  induction checks with
  | nil => rfl
  | cons d checks ih =>
    have hd : runCheck resolver d = runCheck resolver' d := by
      rw [runCheck, runCheck, (h d (.head _)).1, (h d (.head _)).2]
    change (runCheck resolver d >>= fun _ => runChecks resolver checks) =
      (runCheck resolver' d >>= fun _ => runChecks resolver' checks)
    rw [hd, ih fun b hb => h b (.tail _ hb)]

/-- The ranges depend on what the axes are resolved to. -/
theorem rangesBy_congr {c : Catalog} (haxes : ∀ a ∈ c.axes, resolver a.2 = resolver' a.2)
    (hchecks : ∀ d ∈ c.checks, resolver d.expected = resolver' d.expected ∧ resolver d.actual = resolver' d.actual) :
    c.rangesBy resolver = c.rangesBy resolver' := by
  rw [rangesBy, rangesBy, resolveBy, resolveBy, resolveAxes_congr haxes, runChecks_congr hchecks]

end Catalog

/-! ## Occurrences of names -/

/-- The places of a statement where a name stands for a value. -/
inductive Place where
  /-- In front of the bracket on the left. -/
  | output
  /-- Anywhere on the right, except as a function. -/
  | operand
  | function
  /-- In the bounds or the start value of the reduction clause, or as its operator. -/
  | clause
deriving DecidableEq

/-- A name at a place. -/
abbrev Occurrence := Place × String

/-- The key under which a name at a place is looked up. -/
def Occurrence.key : Occurrence → String
  | (.operand, n) => if endsPrimed n then canonicalIndex n else n
  | (_, n) => n

/-- Whether an entry of a bracket is the placeholder; a clause has none. -/
def Place.zero (place : Place) (e : Expr) : Bool :=
  place == .operand && e.name? == some placeholder

/-- The occurrences of names in a tree as it is written, without those of indices. What stands below
a first element is taken as it is. -/
def Expr.occurrences (indices : List String) (place : Place) : Expr → List Occurrence
  | name id _ => if indices.contains (Occurrence.key (place, id)) then [] else [(place, id)]
  | index b is _ => occurrences indices place b ++ all place.zero is
  | field b _ _ => occurrences indices place b
  | call f args _ => (.function, f) :: all (fun _ => false) args
  | binary l _ r _ => occurrences indices place l ++ occurrences indices place r
  | unary _ e _ => occurrences indices place e
  | first e _ => occurrences indices .clause e
  | _ => []
where
  all (skip : Expr → Bool) : List Expr → List Occurrence
    | [] => []
    | e :: es => (if skip e then [] else occurrences indices place e) ++ all skip es

namespace Expr

variable {indices : List String}

theorem keys_name (place : Place) (id : String) (p : Option Pos) :
    ((name id p).occurrences indices place).map Occurrence.key =
      (name (Occurrence.key (place, id)) p).asks indices := by
  rw [asks, occurrences]
  split <;> rfl

mutual

/-- In a clause names are asked for as they are written. -/
theorem asks_eq (e : Expr) : e.asks indices = (e.occurrences indices .clause).map Occurrence.key := by
  cases e with
  | name id p => exact (keys_name .clause id p).symm
  | index b is p =>
    rw [asks, occurrences, List.map_append, asks_eq b, asksAll_eq (fun _ => (rfl : Place.zero .clause _ = false)) is]
  | field b n p => exact asks_eq b
  | call f args p =>
    rw [asks, occurrences, List.map_cons, asksAll_eq (fun _ => rfl) args]
    rfl
  | binary l op r p => rw [asks, occurrences, List.map_append, asks_eq l, asks_eq r]
  | unary op e p => exact asks_eq e
  | first e p => exact asks_eq e
  | number _ _ | compare _ _ | keyword _ _ _ | target _ _ _ | hole => rfl

theorem asksAll_eq {skip : Expr → Bool} (hskip : ∀ e, skip e = false) (es : List Expr) :
    asks.asksAll indices es = (occurrences.all indices .clause skip es).map Occurrence.key := by
  cases es with
  | nil => rfl
  | cons e es =>
    rw [asks.asksAll, occurrences.all, List.map_append, hskip e, asks_eq e, asksAll_eq hskip es]
    rfl

end

mutual

/-- On the right names are asked for in their canonical form. -/
theorem asks_canonical (e : Expr) :
    e.canonical.asks indices = (e.occurrences indices .operand).map Occurrence.key := by
  cases e with
  | name id p => exact (keys_name .operand id p).symm
  | index b is p =>
    rw [canonical, asks, occurrences, List.map_append, asks_canonical b, asksAll_canonicalEntries is]
  | field b n p => exact asks_canonical b
  | call f args p =>
    rw [canonical, asks, occurrences, List.map_cons, asksAll_canonicalArgs args]
    rfl
  | binary l op r p =>
    rw [canonical, asks, occurrences, List.map_append, asks_canonical l, asks_canonical r]
  | unary op e p => exact asks_canonical e
  | first e p => exact asks_eq e
  | number _ _ | compare _ _ | keyword _ _ _ | target _ _ _ | hole => rfl

theorem asksAll_canonicalEntries (es : List Expr) : asks.asksAll indices (canonicalEntries es) =
    (occurrences.all indices .operand (Place.zero .operand) es).map Occurrence.key := by
  cases es with
  | nil => rfl
  | cons e es =>
    rw [occurrences.all, List.map_append, ← asksAll_canonicalEntries es]
    cases e with
    | name id p =>
      by_cases hid : id = placeholder
      · subst hid
        rfl
      · have hzero : Place.zero .operand (name id p) = false := by simp [Place.zero, name?, hid]
        rw [hzero, canonicalEntries, if_neg (by simpa using hid), asks.asksAll]
        exact congrArg (· ++ _) (keys_name .operand id p).symm
    | _ =>
      rw [canonicalEntries, asks.asksAll, asks_canonical]
      · rfl
      · simp

theorem asksAll_canonicalArgs (es : List Expr) : asks.asksAll indices (canonicalArgs es) =
    (occurrences.all indices .operand (fun _ => false) es).map Occurrence.key := by
  cases es with
  | nil => rfl
  | cons e es =>
    rw [canonicalArgs, asks.asksAll, occurrences.all, List.map_append, asks_canonical e,
      asksAll_canonicalArgs es]
    rfl

end

end Expr

/-- The operators of reductions that are not looked up. -/
def Reducer.standard : List String := ["+", "*", "max", "min"]

/-- The occurrences in what was read of a reduction clause. -/
def Reduction.Partial.occurrences (indices : List String) (read : Partial) : List Occurrence :=
  (if Reducer.standard.contains read.reduction.op then [] else [(.clause, read.reduction.op)]) ++
    (read.bounds.flatMap (·.2.parts) ++ read.reduction.init.toList).flatMap (Expr.occurrences indices .clause)

/-- The occurrences of names that stand for values in a statement whose updates are replaced. -/
def Statement.occurrences (indices : List String) (s : Statement) : List Occurrence :=
  (if s.allocates then [] else [(.output, s.target.name.getD "")]) ++ s.rhs.occurrences indices .operand ++
    (Reduction.read s.source s.reduction).1.occurrences indices

theorem Reducer.ofName_agrees {scope scope' : Scope} {op : String}
    (h : Reducer.standard.contains op = false → scope.lookup op = scope'.lookup op) :
    Reducer.ofName scope op = Reducer.ofName scope' op := by
  unfold Reducer.ofName
  split
  iterate 4 rfl
  · rename_i hsum hproduct hmax hmin
    rw [h (by simpa [Reducer.standard] using ⟨hsum, hproduct, hmax, hmin⟩)]

namespace Kernel

/-- The loops are settled without touching operator and start value. -/
theorem Planned.op_init_eq {k : Kernel} {read : Reduction.Partial} (hk : k.Planned read) :
    k.analysis.reduction.op = read.reduction.op ∧ k.analysis.reduction.init = read.reduction.init := by
  rcases hk.reduction_cases with ⟨-, -, heq⟩ | ⟨-, -, heq⟩
  · rw [heq]
    exact ⟨rfl, rfl⟩
  · rw [heq]
    exact ⟨rfl, rfl⟩

section

variable {k : Kernel} {s : Statement} (hk : ∃ read, k.Planned read) (hs : k.statement = s.canonical)
  {scope scope' : Scope}
  (h : scope.Agrees scope' ((s.occurrences k.analysis.indexNames).map Occurrence.key))

include hs in
theorem occurrences_rhs : k.statement.rhs.asks k.analysis.indexNames ⊆
    (s.occurrences k.analysis.indexNames).map Occurrence.key := by
  have hrhs : k.statement.rhs = s.rhs.canonical := congrArg Statement.rhs hs
  rw [hrhs, Expr.asks_canonical, Statement.occurrences, List.map_append, List.map_append]
  exact List.Subset.trans (List.subset_append_right _ _) (List.subset_append_left _ _)

include hs in
theorem occurrences_output (hstore : k.statement.allocates = false) :
    k.statement.target.name.getD "" ∈ (s.occurrences k.analysis.indexNames).map Occurrence.key := by
  rw [hs] at hstore ⊢
  have hstore' : s.allocates = false := hstore
  rw [Statement.occurrences, if_neg (by simp [hstore'])]
  exact List.Mem.head _

include hs in
theorem occurrences_clause {read : Reduction.Partial} (hread : k.Planned read) :
    (read.occurrences k.analysis.indexNames).map Occurrence.key ⊆
      (s.occurrences k.analysis.indexNames).map Occurrence.key := by
  have hclause := hread.clause
  rw [hs] at hclause
  have hclause' : Reduction.read s.source s.reduction = (read, none) := hclause
  rw [Statement.occurrences, hclause', List.map_append]
  exact List.subset_append_right _ _

include hs in
theorem occurrences_parts {read : Reduction.Partial} (hread : k.Planned read) {e : Expr}
    (he : e ∈ read.bounds.flatMap (·.2.parts) ++ read.reduction.init.toList) :
    e.asks k.analysis.indexNames ⊆ (s.occurrences k.analysis.indexNames).map Occurrence.key := by
  refine List.Subset.trans ?_ (occurrences_clause hs hread)
  rw [Expr.asks_eq, Reduction.Partial.occurrences, List.map_append]
  refine List.Subset.trans (List.map_subset _ ?_) (List.subset_append_right _ _)
  exact fun p hp => List.mem_flatMap.2 ⟨e, he, hp⟩

include hs in
/-- Whatever the range of an index is found from was written as an operand, the output or a bound. -/
theorem occurrences_axis {read : Reduction.Partial} (hread : k.Planned read) {a : String × Axis}
    (ha : a ∈ read.bounds ++ k.analysis.collection.axes ++ if k.statement.allocates then [] else k.statement.target.axes)
    {e : Expr} (he : e ∈ a.2.parts) :
    e.asks k.analysis.indexNames ⊆ (s.occurrences k.analysis.indexNames).map Occurrence.key := by
  rw [List.mem_append, List.mem_append] at ha
  rcases ha with (ha | ha) | ha
  · exact occurrences_parts hs hread (List.mem_append_left _ (List.mem_flatMap.2 ⟨a, ha, he⟩))
  · rw [hread.collection] at ha
    obtain ⟨r, hr, ha⟩ := List.mem_flatMap.1 ha
    obtain ⟨d, hd⟩ := Reference.eq_array_of_mem_axesFrom ha
    rw [hd] at he
    obtain rfl := List.mem_singleton.1 he
    exact List.Subset.trans (Expr.asks_references hr) (occurrences_rhs hs)
  · split at ha
    · cases ha
    rename_i hstore
    have hstore' : k.statement.allocates = false := by simpa using hstore
    obtain ⟨name, hname⟩ := hread.named hstore'
    rw [Target.axes, hname] at ha
    obtain ⟨d, hd⟩ := Reference.eq_array_of_mem_axesFrom ha
    rw [hd] at he
    obtain rfl := List.mem_singleton.1 he
    intro n hn
    rw [Expr.asks] at hn
    split at hn
    · cases hn
    · obtain rfl := List.mem_singleton.1 hn
      have houtput := occurrences_output hs hstore'
      rwa [hname] at houtput

include hk hs h

theorem ranges_agree : k.analysis.catalog.ranges scope k.analysis.indexNames =
    k.analysis.catalog.ranges scope' k.analysis.indexNames := by
  obtain ⟨read, hread⟩ := hk
  have hbound := Catalog.forall_axes_bindAll
    (P := fun a => a.resolve scope k.analysis.indexNames = a.resolve scope' k.analysis.indexNames)
    fun a ha => Axis.resolve_agrees fun e he => h.mono (occurrences_axis hs hread ha he)
  rw [Catalog.bindAll_append, Catalog.bindAll_append, ← hread.catalog] at hbound
  exact Catalog.rangesBy_congr hbound.1 hbound.2

theorem reducer_agrees (t : ElemType) : k.reducer scope t = k.reducer scope' t := by
  obtain ⟨read, hread⟩ := hk
  obtain ⟨hop, hinit⟩ := hread.op_init_eq
  have hname : Reducer.ofName scope k.analysis.reduction.op = Reducer.ofName scope' k.analysis.reduction.op := by
    rw [hop]
    refine Reducer.ofName_agrees fun hop => h.lookup (occurrences_clause hs hread ?_)
    rw [Reduction.Partial.occurrences, hop]
    exact List.Mem.head _
  have hstart : k.analysis.reduction.initial t (Expr.eval scope k.analysis.indexNames []) =
      k.analysis.reduction.initial t (Expr.eval scope' k.analysis.indexNames []) := by
    unfold Reduction.initial
    rw [hinit]
    split
    · rfl
    · rename_i e he
      rw [Expr.eval_agrees (h.mono (occurrences_parts hs hread (List.mem_append_right _ (by simp [he]))))]
  unfold reducer reduction
  cases k.plan.body with
  | store => rfl
  | reduce op resume loops => simp only [hname, hstart]

/-- A run depends on what the names of the statement are bound to, each under its key. -/
theorem run_agrees : k.run scope = k.run scope' := by
  have hoperands : scope.Agrees scope' (k.statement.rhs.asks k.analysis.indexNames) :=
    h.mono (occurrences_rhs hs)
  have houtput (rs : Ranges) (element : Env → Run Value) :
      k.makeOutput scope rs element = k.makeOutput scope' rs element := by
    unfold makeOutput
    split
    · rfl
    · rename_i hstore
      dsimp only
      rw [h.bindings _ (occurrences_output hs (by simpa using hstore))]
  have hmachine (element : Env → Run Value) (out : Value) (r : Reducer) (init : Value) :
      k.machine scope element out r init = k.machine scope' element out r init := by
    simp only [machine, funext fun acc => funext (Reducer.apply_supplied h.supplied r acc)]
  simp only [run, ranges_agree hk hs h, Expr.resolve_agrees hoperands, Code.run_supplied h.supplied, houtput,
    reducer_agrees hk hs h, hmachine]

end

end Kernel

/-! ## One name, one key -/

/-- A name that ends in an apostrophe is not canonical. -/
theorem canonicalIndex_ne {n : String} (h : endsPrimed n = true) : canonicalIndex n ≠ n := by
  obtain ⟨stem, hstem⟩ : ∃ stem, n.toList.reverse = '\x27' :: stem := by
    have hlast : n.toList.getLast? = some '\x27' := by simpa [endsPrimed] using h
    rw [List.getLast?_eq_head?_reverse] at hlast
    exact List.head?_eq_some_iff.1 hlast
  have hlength : n.length = stem.length + 1 := by
    rw [← String.length_toList, ← List.length_reverse, hstem, List.length_cons]
  have hdrop : (stem.dropWhile (· == '\x27')).length ≤ stem.length := (List.dropWhile_sublist _).length_le
  intro hn
  have hlast := congrArg (fun m : String => m.toList.reverse.head?) hn
  simp only [canonicalIndex, hstem, String.toList_ofList, List.reverse_append, List.reverse_replicate] at hlast
  rw [List.dropWhile_cons_of_pos (by rfl), List.length_reverse, hlength, List.head?_append,
    List.head?_replicate, if_neg (by omega), Option.some_or, List.head?_cons] at hlast
  exact absurd hlast (by decide)

theorem Occurrence.key_eq_iff {p q : Occurrence} (h : p.2 = q.2) :
    p.key = q.key ↔ endsPrimed p.2 = false ∨ (p.1 = .operand ↔ q.1 = .operand) := by
  obtain ⟨place, n⟩ := p
  obtain ⟨place', m⟩ := q
  obtain rfl : n = m := h
  cases hn : endsPrimed n with
  | false => cases place <;> cases place' <;> simp [key, hn]
  | true =>
    have hne := canonicalIndex_ne hn
    cases place <;> cases place' <;> simp [key, hn, hne, hne.symm]

namespace Kernel

/-- The statement of a kernel is the one that was written, with its update replaced. -/
theorem Compiles.statement_eq {config : Config} {source : String} {k : Kernel} (hk : Compiles config source k)
    {s : Statement} (hs : Statement.parseWritten source = .ok s) : k.statement = s.desugar.canonical := by
  have hread := hk.readStatement_eq.1
  rw [readStatement, Statement.parse, bind_of_ok hs] at hread
  exact (Except.ok.inj hread).symm

/-- An update is an assignment whose right-hand side starts with the cell that it assigns to. -/
theorem Compiles.rhs_eq {config : Config} {source : String} {k : Kernel} (hk : Compiles config source k)
    {s : Statement} (hs : Statement.parseWritten source = .ok s) {op : BinaryOp} (hop : s.op.update? = some op)
    {Z : String} (hZ : s.target.name = some Z) : k.statement.rhs = .binary (.index
      (Expr.canonicalName Z s.target.pos) k.statement.target.indices s.target.pos) op s.rhs.canonical s.pos := by
  have hstatement := hk.statement_eq hs
  have htarget : k.statement.target.indices = Expr.canonicalEntries s.target.indices := by
    rw [hstatement, Statement.desugar, hop]
    rfl
  rw [htarget, hstatement, Statement.desugar, hop, hZ]
  rfl

/-- An update reads what the name of the output is bound to, in its canonical form. -/
theorem Compiles.resolve_update {config : Config} {source : String} {k : Kernel} (hk : Compiles config source k)
    {s : Statement} (hs : Statement.parseWritten source = .ok s) {op : BinaryOp} (hop : s.op.update? = some op)
    {Z : String} (hZ : s.target.name = some Z) {scope : Scope} {code : Code}
    (hcode : k.statement.rhs.resolve scope k.analysis.indexNames = .ok code)
    (hfree : Occurrence.key (.operand, Z) ∉ k.analysis.indexNames) :
    ∃ v keys e, scope.lookup (Occurrence.key (.operand, Z)) = .ok v ∧
      Expr.resolve.resolveAll scope k.analysis.indexNames k.statement.target.indices = .ok keys ∧
      s.rhs.canonical.resolve scope k.analysis.indexNames = .ok e ∧ code = .binary op (.get (.value v) keys) e := by
  rw [hk.rhs_eq hs hop hZ] at hcode
  obtain ⟨read, e, hread, he, rfl⟩ := Expr.resolve_binary_eq_ok hcode
  obtain ⟨base, keys, hbase, hkeys, rfl⟩ := Expr.resolve_index_eq_ok hread
  rw [Expr.canonicalName] at hbase
  obtain ⟨hmem, -⟩ | ⟨-, v, hv, rfl⟩ := Expr.resolve_name_eq_ok hbase
  · exact absurd hmem hfree
  · exact ⟨v, keys, e, hv, hkeys, he, rfl⟩

/-- A run that returns has resolved the right-hand side, and the array that it was to write to. -/
theorem found_of_run {k : Kernel} {scope : Scope} {w w' : World} {out : Value}
    (h : exec (k.run scope) w = (.ok out, w')) :
    (∃ code, k.statement.rhs.resolve scope k.analysis.indexNames = .ok code) ∧
      (k.statement.allocates = false → scope.bindings.lookup (k.statement.target.name.getD "") = some out) := by
  obtain ⟨rs, w₁, -, h⟩ := Run.exec_bind_eq_ok h
  obtain ⟨code, w₂, hcode, h⟩ := Run.exec_bind_eq_ok h
  obtain ⟨⟨out', t⟩, w₃, hout, h⟩ := Run.exec_bind_eq_ok h
  obtain ⟨⟨f, init⟩, w₄, -, h⟩ := Run.exec_bind_eq_ok h
  obtain ⟨text, w₅, -, h⟩ := Run.exec_bind_eq_ok h
  obtain ⟨_, w₆, -, h⟩ := Run.exec_bind_eq_ok h
  obtain ⟨_, w₇, -, h⟩ := Run.exec_bind_eq_ok h
  cases h
  refine ⟨⟨code, (congrArg Prod.fst hcode)⟩, fun hstore => ?_⟩
  rw [makeOutput, if_neg (by simp [hstore])] at hout
  dsimp only at hout
  split at hout
  · cases hout
  · rename_i hlookup
    obtain ⟨t', w₈, -, hout⟩ := Run.exec_bind_eq_ok hout
    cases hout
    exact hlookup

/-- The keys of names. A run depends on the values under the keys of its names and on nothing else of
the bindings, and has found one for each name of the left-hand and right-hand side. All occurrences of
a name have one key exactly if it does not end in an apostrophe, or is never an operand, or nothing
else. So an update reads the array that it writes to if the name of the output does not end in an
apostrophe; else it reads what is bound to the canonical form of the name. -/
theorem one_key_iff {config : Config} {source : String} {k : Kernel} (hk : Compiles config source k)
    {s : Statement} (hs : Statement.parseWritten source = .ok s) :
    let names := s.desugar.occurrences k.analysis.indexNames
    (∀ scope scope' : Scope, scope.Agrees scope' (names.map Occurrence.key) → k.run scope = k.run scope') ∧
    (∀ scope w out w', exec (k.run scope) w = (.ok out, w') →
      (∀ p ∈ s.desugar.rhs.occurrences k.analysis.indexNames .operand, ∃ v, scope.lookup p.key = .ok v) ∧
      (s.desugar.allocates = false → scope.bindings.lookup (s.target.name.getD "") = some out)) ∧
    (∀ n, (∀ p ∈ names, ∀ q ∈ names, p.2 = n → q.2 = n → p.key = q.key) ↔
      endsPrimed n = false ∨ (.operand, n) ∉ names ∨ ∀ p ∈ names, p.2 = n → p.1 = .operand) ∧
    ∀ op Z, s.op.update? = some op → s.target.name = some Z →
      Occurrence.key (.operand, Z) ∉ k.analysis.indexNames → ∀ (scope : Scope) out code,
        scope.bindings.lookup Z = some out →
        k.statement.rhs.resolve scope k.analysis.indexNames = .ok code →
        ∃ v keys e, code = .binary op (.get (.value v) keys) e ∧
          scope.lookup (Occurrence.key (.operand, Z)) = .ok v ∧ (endsPrimed Z = false → v = out) := by
  intro names
  have hstatement := hk.statement_eq hs
  refine ⟨fun scope scope' h => run_agrees hk.planned.2 hstatement h, fun scope w out w' h => ?_,
    fun n => ⟨fun h => ?_, fun h p hp q hq hpn hqn => ?_⟩, fun op Z hop hZ hfree scope out code hout hcode => ?_⟩
  · have hrhs : k.statement.rhs = s.desugar.rhs.canonical := congrArg Statement.rhs hstatement
    have htarget : k.statement.target.name = s.target.name := by
      rw [hstatement, Statement.desugar]
      cases s.op.update? <;> rfl
    have hstore : k.statement.allocates = s.desugar.allocates := by
      rw [hstatement]
      rfl
    obtain ⟨⟨code, hcode⟩, hout⟩ := found_of_run h
    refine ⟨fun p hp => Expr.exists_lookup hcode ?_, fun halloc => htarget ▸ hout (hstore.trans halloc)⟩
    rw [hrhs, Expr.asks_canonical]
    exact List.mem_map_of_mem hp
  · by_cases hoperand : (.operand, n) ∈ names
    · refine (Bool.eq_false_or_eq_true (endsPrimed n)).symm.imp id fun hprimed => .inr fun p hp hpn => ?_
      have hkey := (Occurrence.key_eq_iff (q := (.operand, n)) hpn).1 (h p hp _ hoperand hpn rfl)
      rw [hpn, hprimed] at hkey
      exact (hkey.resolve_left Bool.false_ne_true.symm).2 rfl
    · exact .inr (.inl hoperand)
  · refine (Occurrence.key_eq_iff (hpn.trans hqn.symm)).2 ?_
    rcases h with hprimed | hnone | hall
    · exact .inl (hpn ▸ hprimed)
    · have hother {r : Occurrence} (hr : r ∈ names) (hrn : r.2 = n) : r.1 ≠ .operand :=
        fun hplace => hnone (by rwa [← hplace, ← hrn])
      exact .inr (iff_of_false (hother hp hpn) (hother hq hqn))
    · exact .inr (iff_of_true (hall p hp hpn) (hall q hq hqn))
  · obtain ⟨v, keys, e, hv, -, -, hcode⟩ := hk.resolve_update hs hop hZ hcode hfree
    refine ⟨v, keys, e, hcode, hv, fun hprimed => ?_⟩
    rw [Occurrence.key, hprimed, if_neg Bool.false_ne_true, Scope.lookup, hout] at hv
    exact (Except.ok.inj hv).symm

/-- An update of an array whose name ends in an apostrophe. -/
def primedUpdate : String := "Z\x27[i] += X[i]"

theorem one_key_iff_primedUpdate : ∃ k s, Compiles {} primedUpdate k ∧
    Statement.parseWritten primedUpdate = .ok s ∧
    let names := s.desugar.occurrences k.analysis.indexNames
    names = [(.output, "Z\x27"), (.operand, "Z\x27"), (.operand, "X")] ∧
    (∀ p ∈ names, ∀ q ∈ names, p.2 = "X" → q.2 = "X" → p.key = q.key) ∧
    ¬ ∀ p ∈ names, ∀ q ∈ names, p.2 = "Z\x27" → q.2 = "Z\x27" → p.key = q.key := by
  obtain ⟨k, hk, hnames⟩ := exists_compiles {} primedUpdate
    (fun k => (Statement.parseWritten primedUpdate).toOption.any fun s =>
      s.desugar.occurrences k.analysis.indexNames = [(.output, "Z\x27"), (.operand, "Z\x27"), (.operand, "X")])
    (by decide +kernel)
  cases hs : Statement.parseWritten primedUpdate with
  | error e => simp [hs, Except.toOption] at hnames
  | ok s =>
    have hnames : s.desugar.occurrences k.analysis.indexNames =
        [(.output, "Z\x27"), (.operand, "Z\x27"), (.operand, "X")] := by
      simpa [hs, Except.toOption] using hnames
    have hiff := (one_key_iff hk hs).2.2.1
    refine ⟨k, s, hk, rfl, hnames, (hiff "X").2 (.inl (by decide)), fun h => ?_⟩
    have hone := (hiff "Z\x27").1 h
    rw [hnames] at hone
    revert hone
    decide

/-- Two arrays under the names of the update. -/
def primedScope : Scope where
  bindings := [("Z\x27", .array ⟨0, .int .int64, 0, [2], [1]⟩), ("X", .array ⟨1, .int .int64, 0, [2], [1]⟩)]

def primedWorld : World where
  heap := #[#[.scalar (.int .int64 1), .scalar (.int .int64 2)], #[.scalar (.int .int64 10), .scalar (.int .int64 20)]]

/-- The array that is written to is there, but the old values are looked up under another name. -/
theorem update_of_primed_name : ∃ k, Compiles {} primedUpdate k ∧
    (exec (k.call primedScope) primedWorld).1.map (fun _ => ()) = .error (.binding (.unbound "Z′")) := by
  obtain ⟨k, hk, hcall⟩ := exists_compiles {} primedUpdate
    (fun k => (exec (k.call primedScope) primedWorld).1.map (fun _ => ()) = .error (.binding (.unbound "Z′")))
    (by decide +kernel)
  exact ⟨k, hk, of_decide_eq_true hcall⟩

end Kernel

end IndexNotation
