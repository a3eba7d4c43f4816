import IndexNotation.Proofs.NewArrays
import IndexNotation.Proofs.Residues

/-!
# Greatest and least integers

A statement that makes a new array and reduces with `max` or `min` compares integers of one type
exactly, also with a start value of another type or of none. So each cell holds the greatest or the
least of its values and of the start value, in whatever order they were taken. If no start value is
written, both operators start from the least integer of the type: that makes no difference to a
maximum, and nothing is less than it.
-/

namespace IndexNotation

open Run (exec Yields Determined)

/-! ## Integers are compared exactly -/

theorem Scalar.truth_bool (b : Bool) : (Scalar.bool b).truth = b := by
  cases b <;> rfl

theorem Operand.isMixed_eq_false {a b : Operand} (ha : ∀ n, a.type ≠ .text n) (hb : ∀ n, b.type ≠ .text n) :
    a.isMixed b = false := by
  unfold isMixed
  split <;> simp_all

theorem Operand.type_int_ne (n : Int) (width : Nat) : (weak (.int n)).type ≠ .text width := by
  change (if _ then _ else if _ then _ else _) ≠ _
  split_ifs <;> exact ElemType.noConfusion

namespace IntType

variable (t : IntType) (m n : Int) (w : World)

theorem exec_read : exec (Operand.read (.scalar (.int t n))) w =
    (.ok (.strong ⟨.int t, [], [.scalar (.int t (t.wrap n))]⟩), w) := by
  cases t <;> rfl

set_option maxRecDepth 10000 in
theorem exec_less (t' : IntType) :
    exec (Value.less (.scalar (.int t m)) (.scalar (.int t' n))) w = (.ok (decide (t.wrap m < t'.wrap n)), w) := by
  have hless : exec (Value.less (.scalar (.int t m)) (.scalar (.int t' n))) w =
      (.ok (Scalar.bool (decide (t.wrap m < t'.wrap n))).truth, w) := by
    rw [Value.less, Value.maxNesting, Value.lessAt]
    cases t <;> cases t' <;> rfl
  rw [hless, Scalar.truth_bool]

/-- An integer without a type takes the type of the other one, if it fits. -/
theorem exec_less_int :
    exec (Value.less (.int m) (.scalar (.int t n))) w = (.ok (decide (m < t.wrap n)), w) ∧
      exec (Value.less (.scalar (.int t n)) (.int m)) w = (.ok (decide (t.wrap n < m)), w) := by
  have hread : exec (Operand.read (.int m)) w = (.ok (.weak (.int m)), w) := rfl
  have htype (width : Nat) : (Operand.strong ⟨.int t, [], [.scalar (.int t (t.wrap n))]⟩).type ≠ .text width :=
    ElemType.noConfusion
  have hmixed := Operand.isMixed_eq_false (Operand.type_int_ne m) htype
  have hmixed' := Operand.isMixed_eq_false htype (Operand.type_int_ne m)
  cases hm : t.fits m with
  | true =>
    rw [← Scalar.truth_bool (decide (m < t.wrap n)), ← Scalar.truth_bool (decide (t.wrap n < m))]
    constructor
    all_goals
      rw [Value.less, Value.maxNesting, Value.lessAt, Run.exec_bind_ok (Run.exec_heap w)]
      simp only [Value.untyped, Value.lessKinds, Value.lessNumbers, Value.plain?, Value.isTyped, Bool.or_true,
        Bool.true_or, if_true, Run.exec_bind_ok hread, Run.exec_bind_ok (t.exec_read n w), Value.lessOperands,
        hmixed, hmixed', CellOp.run, Value.compareType, Operand.commonType, Operand.weakType, hm]
      rfl
  | false =>
    constructor
    all_goals
      rw [Value.less, Value.maxNesting, Value.lessAt, Run.exec_bind_ok (Run.exec_heap w)]
      simp only [Value.untyped, Value.lessKinds, Value.lessNumbers, Value.plain?, Value.isTyped, Bool.or_true,
        Bool.true_or, if_true, Run.exec_bind_ok hread, Run.exec_bind_ok (t.exec_read n w), Value.lessOperands,
        hmixed, hmixed', Value.compareType, hm, Value.lessMixed, Value.lessObjects]
      rfl

theorem fits_least : t.fits t.least = true := by
  cases t <;> decide

theorem least_le_of_fits {n : Int} (hn : t.fits n = true) : t.least ≤ n := by
  simp only [fits, Bool.and_eq_true, decide_eq_true_eq] at hn
  exact hn.1

end IntType

/-- The integer `n`, of any type or without one. -/
def Value.IsInteger (n : Int) (v : Value) : Prop :=
  v = .int n ∨ ∃ t : IntType, t.fits n = true ∧ v = .scalar (.int t n)

namespace Value.IsInteger

variable {m n : Int} {v v' : Value}

theorem exec_less (hv : v.IsInteger m) (hv' : v'.IsInteger n) (w : World) :
    exec (v.less v') w = (.ok (decide (m < n)), w) := by
  obtain rfl | ⟨t, hm, rfl⟩ := hv <;> obtain rfl | ⟨t', hn, rfl⟩ := hv'
  · rw [less, maxNesting, lessAt]
    rfl
  · rw [(t'.exec_less_int m n w).1, IntType.wrap_of_fits hn]
  · rw [(t.exec_less_int n m w).2, IntType.wrap_of_fits hm]
  · rw [t.exec_less m n w t', IntType.wrap_of_fits hm, IntType.wrap_of_fits hn]

/-- A cell of a type that can hold the integer takes it. -/
theorem accept (hv : v.IsInteger n) {t : IntType} (hn : t.fits n = true) (h : Heap) :
    (ElemType.int t).accept h v = .ok (.scalar (.int t n)) := by
  obtain rfl | ⟨t', -, rfl⟩ := hv
  · simp only [ElemType.accept, plain?, ElemType.acceptPlain, ElemType.acceptInt, hn]
    rfl
  · simp only [ElemType.accept, ElemType.acceptScalar, ElemType.acceptInt, hn]
    rfl

theorem unique (hv : v.IsInteger m) (hv' : v.IsInteger n) : m = n := by
  obtain rfl | ⟨t, -, rfl⟩ := hv <;> obtain h | ⟨t', -, h⟩ := hv' <;> cases h <;> rfl

end Value.IsInteger

/-! ## Folds of integers -/

/-- What an operator makes of two integers. -/
inductive Reducer.Picks : Reducer → (Int → Int → Int) → Prop where
  | max : Picks .max Max.max
  | min : Picks .min Min.min

namespace Reducer.Picks

variable {f : Reducer} {g : Int → Int → Int} (hf : f.Picks g)

include hf

theorem exec_apply {m n : Int} {acc v : Value} (hacc : acc.IsInteger m) (hv : v.IsInteger n) (scope : Scope)
    (w : World) : ∃ x, exec (f.apply scope acc v) w = (.ok x, w) ∧ x.IsInteger (g m n) := by
  cases hf with
  | max =>
    rw [apply, Run.exec_bind_ok (hacc.exec_less hv w)]
    by_cases h : m < n
    · exact ⟨_, rfl, by simpa [h, max_eq_right h.le] using hv⟩
    · exact ⟨_, rfl, by simpa [h, max_eq_left (not_lt.1 h)] using hacc⟩
  | min =>
    rw [apply, Run.exec_bind_ok (hv.exec_less hacc w)]
    by_cases h : n < m
    · exact ⟨_, rfl, by simpa [h, min_eq_right h.le] using hv⟩
    · exact ⟨_, rfl, by simpa [h, min_eq_left (not_lt.1 h)] using hacc⟩

/-- One of the two integers is picked. -/
theorem fits {t : IntType} {m n : Int} (hm : t.fits m = true) (hn : t.fits n = true) : t.fits (g m n) = true := by
  cases hf with
  | max => rcases max_choice m n with h | h <;> rwa [h]
  | min => rcases min_choice m n with h | h <;> rwa [h]

theorem foldl_perm {xs ys : List Int} (h : xs.Perm ys) (m : Int) : xs.foldl g m = ys.foldl g m := by
  cases hf <;> exact h.foldl_eq m

end Reducer.Picks

/-- A fold of integers comes to the fold of them as numbers. -/
theorem Gathers.isInteger {b : Nat} {value : Env → World → Value → World → Prop} {f : Reducer} {scope : Scope}
    {w w' : World} {init acc : Value} {ps : List Env}
    (h : Gathers b value (f.apply scope) w init ps acc w') {g : Int → Int → Int} (hf : f.Picks g) {t : IntType}
    {m : Int} (hinit : init.IsInteger m) (hm : t.fits m = true) (hnodup : ps.Nodup)
    (hvalue : ∀ p ∈ ps, ∀ z v z', value p z v z' → ∃ n, t.fits n = true ∧ v = .scalar (.int t n)) :
    ∃ n : Env → Int, (∀ p ∈ ps, t.fits (n p) = true ∧ ∃ z z', value p z (.scalar (.int t (n p))) z') ∧
      acc.IsInteger ((ps.map n).foldl g m) ∧ t.fits ((ps.map n).foldl g m) = true := by
  induction h with
  | nil _ => exact ⟨fun _ => 0, by simp, hinit, hm⟩
  | @snoc z z' u u' w' init acc acc' v ps p _ hv _ hu _ ih =>
    obtain ⟨hnodup, -, hnew⟩ := List.nodup_append.1 hnodup
    obtain ⟨n, hn, hacc, hfits⟩ := ih hinit hnodup fun p hp => hvalue p (List.mem_append_left _ hp)
    obtain ⟨x, hx, rfl⟩ := hvalue p (by simp) z v z' hv
    have hsame (q : Env) (hq : q ∈ ps) : Function.update n p x q = n q :=
      Function.update_of_ne (hnew q hq p (.head _)) _ _
    obtain ⟨acc'', hacc'', hinteger⟩ := hf.exec_apply hacc (.inr ⟨t, hx, rfl⟩) scope u
    cases hu.symm.trans hacc''
    refine ⟨Function.update n p x, fun q hq => ?_, ?_⟩
    · rcases List.mem_append.1 hq with hq | hq
      · rw [hsame q hq]
        exact hn q hq
      · obtain rfl := List.mem_singleton.1 hq
        rw [Function.update_self]
        exact ⟨hx, z, z', hv⟩
    · rw [List.map_append, List.map_congr_left hsame, List.map_singleton, Function.update_self, List.foldl_append]
      exact ⟨hinteger, hf.fits hfits hx⟩

/-- A number that is not greater than any other makes no difference to a maximum. -/
theorem max?_of_cons {xs : List Int} {a m : Int} (h : (a :: xs).max? = some m) (hne : xs ≠ [])
    (ha : ∀ x ∈ xs, a ≤ x) : xs.max? = some m := by
  rw [List.max?_eq_some_iff, List.forall_mem_cons] at h
  obtain ⟨hmem, ham, hle⟩ := h
  refine List.max?_eq_some_iff.2 ⟨?_, hle⟩
  rcases List.mem_cons.1 hmem with rfl | hmem
  · obtain ⟨x, hx⟩ := List.exists_mem_of_ne_nil xs hne
    rwa [(ha x hx).antisymm (hle x hx)]
  · exact hmem

/-- Nothing is less than a number that is not greater than any other. -/
theorem eq_of_min?_cons {xs : List Int} {a m : Int} (h : (a :: xs).min? = some m) (ha : ∀ x ∈ xs, a ≤ x) :
    m = a := by
  rw [List.min?_eq_some_iff, List.forall_mem_cons] at h
  obtain ⟨hmem, hma, -⟩ := h
  rcases List.mem_cons.1 hmem with rfl | hmem
  · rfl
  · exact hma.antisymm (ha m hmem)

/-! ## Start values -/

/-- An expression without indices comes to the integer `n`. -/
def Expr.Denotes (e : Expr) (scope : Scope) (indices : List String) (w : World) (n : Int) : Prop :=
  ∀ u, w.Keeps u → ∃ x u', exec (e.eval scope indices []) u = (.ok x, u') ∧ x.IsInteger n

theorem Expr.Denotes.unique {e : Expr} {scope : Scope} {indices : List String} {w : World} {m n : Int}
    (h : e.Denotes scope indices w m) (h' : e.Denotes scope indices w n) : m = n := by
  obtain ⟨x, u, hx, hm⟩ := h w (.refl w)
  obtain ⟨x', u', hx', hn⟩ := h' w (.refl w)
  cases hx.symm.trans hx'
  exact hm.unique hn

/-- A name that is bound to an integer denotes it. -/
theorem Expr.denotes_of_name {e : Expr} {id : String} (he : e.name? = some id) {scope : Scope}
    {indices : List String} (hid : id ∉ indices) {v : Value} (hv : scope.lookup id = .ok v) {n : Int}
    (hn : v.IsInteger n) (w : World) : e.Denotes scope indices w n := by
  obtain ⟨pos, rfl⟩ := Expr.eq_name_of_name? he
  have hcode : (Expr.name id pos).resolve scope indices = .ok (.value v) := by
    rw [resolve, if_neg (by simpa using hid), hv]
    rfl
  intro u _
  rw [Expr.eval_of_resolve hcode]
  exact ⟨v, u, rfl, hn⟩

/-- A reduction of integers of type `t` starts from `n`: from what is written, or from the least integer
of the type. -/
def Reduction.StartsAt (r : Reduction) (scope : Scope) (indices : List String) (w : World) (t : IntType)
    (n : Int) : Prop :=
  r.init = none ∧ n = t.least ∨ ∃ e, r.init = some e ∧ e.Denotes scope indices w n

/-- A literal of zero or one is the integer that it denotes. -/
theorem Expr.Denotes.eq_of_zeroOrOne {e : Expr} {scope : Scope} {indices : List String} {w : World} {n : Int}
    (h : e.Denotes scope indices w n) {l : Literal} (hl : zeroOrOne? e = some l) :
    l = .int n ∧ (n = 0 ∨ n = 1) := by
  obtain ⟨x, u, hx, hinteger⟩ := h w (.refl w)
  unfold zeroOrOne? at hl
  split at hl
  · rename_i m pos
    split at hl
    · rename_i hm
      cases hl
      cases hx
      obtain rfl := hinteger.unique (.inl rfl)
      exact ⟨rfl, by simpa using hm⟩
    · cases hl
  · cases hx
    obtain hx | ⟨t, -, hx⟩ := hinteger <;> cases hx
  · cases hl

theorem Reduction.StartsAt.exec_initial {r : Reduction} {scope : Scope} {indices : List String} {w : World}
    {t : IntType} {n : Int} (h : r.StartsAt scope indices w t n) (hop : r.op = "max" ∨ r.op = "min")
    (hn : t.fits n = true) {u : World} (hu : w.Keeps u) :
    ∃ init u', exec (r.initial (.int t) (Expr.eval scope indices [])) u = (.ok init, u') ∧ init.IsInteger n := by
  unfold initial
  obtain ⟨hnone, rfl⟩ | ⟨e, he, hdenotes⟩ := h
  · have hneutral : (ElemType.int t).neutral r.op = .scalar (.int t t.least) := by
      rcases hop with hop | hop <;> rw [hop] <;> rfl
    rw [hnone]
    exact ⟨_, u, rfl, .inr ⟨t, hn, hneutral⟩⟩
  · rw [he]
    dsimp only
    split
    · rename_i l hl
      obtain ⟨rfl, hcases⟩ := hdenotes.eq_of_zeroOrOne hl
      rw [t.ofLiteral_eq hcases, IntType.wrap_of_fits hn]
      exact ⟨_, u, rfl, .inr ⟨t, hn, rfl⟩⟩
    · exact hdenotes u hu

/-! ## Kernels -/

/-- The operators `max` and `min` cannot be rebound. -/
theorem Reduction.exists_picks {r : Reduction} (hop : r.op = "max" ∨ r.op = "min") (scope : Scope) : ∃ f g,
    Reducer.ofName scope r.op = .ok f ∧ f.Picks g ∧ (r.op = "max" → g = max) ∧ (r.op = "min" → g = min) := by
  rcases hop with hop | hop <;> rw [hop]
  · exact ⟨_, _, rfl, .max, fun _ => rfl, fun h => absurd h (by decide)⟩
  · exact ⟨_, _, rfl, .min, fun h => absurd h (by decide), fun _ => rfl⟩

namespace Kernel

/-- The right-hand side comes to an integer of type `t` at all points of the ranges. -/
def GivesInts (k : Kernel) (scope : Scope) (w : World) (rs : Ranges) (t : IntType) : Prop :=
  ∀ env : Env, env.Covers rs (k.outputIndices ++ k.reductionIndices) → ∀ u, w.Keeps u →
    ∃ n u', t.fits n = true ∧ exec (k.element scope env) u = (.ok (.scalar (.int t n)), u')

/-- Sums, differences and products over arrays of integers come to integers. -/
theorem Planned.givesInts {k : Kernel} {read : Reduction.Partial} (hk : k.Planned read)
    (hs : k.statement.allocates = true) {scope : Scope} (quiet : scope.Quiet) {w : World} {t : IntType}
    (hrhs : k.statement.rhs.Integral scope k.analysis.indexNames t w.heap) {rs : Ranges} {w₁ : World}
    (hranges : exec (k.analysis.catalog.ranges scope k.analysis.indexNames) w = (.ok rs, w₁))
    (hbounds : ∀ i axis, k.analysis.catalog.get? i = some axis → axis.isExplicit = true →
      Determined w (axis.resolve scope k.analysis.indexNames)) : k.GivesInts scope w rs t := by
  intro env henv u hu
  obtain ⟨o, hexec, hvalue, hok⟩ := hk.computes_of_integral hrhs env
  obtain ⟨-, hrs⟩ := (Catalog.still_of_quiet quiet _ _).resolved hranges
  rw [hk.reductionIndices_eq] at henv
  obtain ⟨v, rfl⟩ := hok (hk.safe_evaluate hrs (hk.determined_of_integral hrhs hs hbounds) henv)
  obtain rfl := hvalue v rfl
  exact ⟨_, u, t.fits_wrap _, hexec u hu⟩

section

variable {k : Kernel} {read : Reduction.Partial} (hk : k.Planned read) {r : Reduction} (hr : k.reduction = some r)
  (hop : r.op = "max" ∨ r.op = "min") {scope : Scope} (quiet : scope.Quiet)
  (hs : k.statement.allocates = true) {w : World} {t : IntType} {m : Int}
  (hstart : r.StartsAt scope k.analysis.indexNames w t m) (hm : t.fits m = true) {rs : Ranges}
  (hvalues : k.GivesInts scope w rs t) {f : Reducer} (hf : Reducer.ofName scope r.op = .ok f)

include hr hop hstart hm hf

theorem exists_reducer {u : World} (hu : w.Keeps u) :
    ∃ init u', exec (k.reducer scope (.int t)) u = (.ok (f, init), u') ∧ init.IsInteger m := by
  obtain ⟨init, u', hinit, hinteger⟩ := hstart.exec_initial hop hm hu
  refine ⟨init, u', ?_, hinteger⟩
  simp only [reducer, hr, hf]
  rw [Run.exec_bind_ok (Run.exec_lift _ _), Run.exec_bind_ok hinit]
  rfl

include hk quiet hs hvalues

/-- A call that has been set up has an array of the type of the integers, the operator and the start
value. -/
theorem integers_of_prepare {s : Setup} {w' : World} (h : exec (k.prepare scope) w = (.ok s, w'))
    (hrs : s.ranges = rs) {a : View} (ha : s.out = .array a) :
    a.type = .int t ∧ s.reducer = f ∧ s.init.IsInteger m := by
  have hprepared := (still_of_quiet quiet k).prepared h
  have htype : a.type = .int t := by
    obtain ⟨a', env, v, u, u', d, ha', henv, hu, hv, hd, hd'⟩ := exists_sample_of_prepare (still_of_quiet quiet k) hs h
    cases ha.symm.trans ha'
    have hcovers := covers_sample hk henv
    rw [hrs, ← hk.reductionIndices_eq] at hcovers
    obtain ⟨n, z, hn, hz⟩ := hvalues env hcovers u hu
    cases hv.symm.trans hz
    rw [← hd']
    cases t <;> cases hd <;> rfl
  obtain ⟨t', u, u', htype', -, hu, -, hreducer⟩ := hprepared.reducer
  rw [htype' a ha, htype] at hreducer
  obtain ⟨init, z, hinit, hinteger⟩ := exists_reducer hr hop hstart hm hf hu
  cases hreducer.symm.trans hinit
  exact ⟨htype, rfl, hinteger⟩

/-- A call of a maximum or a minimum of integers returns. -/
theorem exists_call_of_integers {g : Int → Int → Int} (hg : f.Picks g) {w₁ : World}
    (hranges : exec (k.analysis.catalog.ranges scope k.analysis.indexNames) w = (.ok rs, w₁))
    (hne : ∀ i ∈ k.outputIndices ++ k.reductionIndices, (rs.get i).isEmpty = false)
    (hself : ∀ b ∈ scope.bindings, b.1 ≠ ownName) : ∃ out w', exec (k.call scope) w = (.ok out, w') := by
  obtain ⟨env, henv⟩ := exists_sample hk hne
  obtain ⟨hfound, -⟩ := (Catalog.still_of_quiet quiet _ _).resolved hranges
  have hcovers := covers_sample hk henv
  rw [← hk.reductionIndices_eq] at hcovers
  obtain ⟨n, u, -, hv⟩ := hvalues env hcovers w₁ hfound
  obtain ⟨d, hd, htype⟩ : ∃ d, Dense.ofValue u.heap (.scalar (.int t n)) = .ok d ∧ d.type = .int t := by
    cases t <;> exact ⟨_, rfl, rfl⟩
  have hreducer (u : World) (hu : w.Keeps u) :
      ∃ f init u', exec (k.reducer scope d.type) u = (.ok (f, init), u') := by
    obtain ⟨init, u', hinit, -⟩ := exists_reducer hr hop hstart hm hf hu
    exact ⟨f, init, u', by rw [htype, hinit]⟩
  obtain ⟨s, w', hprepare⟩ := exists_prepare (still_of_quiet quiet k) hs hranges henv hv hd hreducer
  have hprepared := (still_of_quiet quiet k).prepared hprepare
  have hrs := hprepared.ranges_eq hranges
  obtain ⟨a, -, -, -, -, -, ha, -⟩ := exists_sample_of_prepare (still_of_quiet quiet k) hs hprepare
  obtain ⟨htype, rfl, hinit⟩ := integers_of_prepare hk hr hop quiet hs hstart hm hvalues hf hprepare hrs ha
  obtain ⟨u', hplan⟩ := hprepared.exists_runPlan hk quiet hs ha (P := fun v => ∃ n, v.IsInteger n ∧ t.fits n = true)
    (fun env henv u hu => by
      rw [hrs] at henv
      obtain ⟨n, u', hn, hv⟩ := hvalues env henv u hu
      exact ⟨_, u', hv, n, .inr ⟨t, hn, rfl⟩, hn⟩)
    (fun _ => ⟨m, hinit, hm⟩)
    (fun _ acc v u hacc hv => by
      obtain ⟨l, hl, hfits⟩ := hacc
      obtain ⟨n, hn, hfits'⟩ := hv
      obtain ⟨x, hx, hinteger⟩ := hg.exec_apply hl hn scope u
      exact ⟨x, u, hx, _, hinteger, hg.fits hfits hfits'⟩)
    (fun v heap hv => by
      obtain ⟨n, hn, hfits⟩ := hv
      exact ⟨_, htype ▸ hn.accept hfits heap⟩) k.config.workerCount
  refine ⟨s.out, u', ?_⟩
  rw [call_eq_run hself, run_eq, Run.exec_bind_ok hprepare, Run.exec_bind_ok hplan]
  rfl

/-- The cells of a maximum or a minimum of integers. -/
theorem exists_fold_of_integers {g : Int → Int → Int} (hg : f.Picks g) {w₁ : World}
    (hranges : exec (k.analysis.catalog.ranges scope k.analysis.indexNames) w = (.ok rs, w₁)) {out : Value}
    {w' : World} (hcall : exec (k.call scope) w = (.ok out, w') ∨ k.Interleaves scope w (.ok out) w') :
    ∃ a, out = .array a ∧ a.type = .int t ∧ a.shape = k.newShape rs ∧ ∀ c ∈ rs.points k.outputIndices,
      ∃ n : Env → Int, (∀ q ∈ rs.points k.reductionIndices,
          t.fits (n q) = true ∧ Yields w (k.element scope (c ++ q)) (.scalar (.int t (n q)))) ∧
        (exec (out.get (k.keys c)) w').1 =
          .ok (.scalar (.int t (((rs.points k.reductionIndices).map n).foldl g m))) := by
  obtain ⟨a, s, w₂, hprepare, ha, hout, hcells⟩ := exists_takes hk quiet hs hcall
  have hprepared := (still_of_quiet quiet k).prepared hprepare
  have hrs := hprepared.ranges_eq hranges
  obtain ⟨htype, rfl, hinit⟩ := integers_of_prepare hk hr hop quiet hs hstart hm hvalues hf hprepare hrs ha
  refine ⟨a, hout, htype, by rw [(hprepared.fresh hs ha).shape_eq, hrs], fun c hc => ?_⟩
  rw [hrs] at hcells
  obtain ⟨cell, hcell, htakes⟩ := hcells c hc
  rw [Takes, if_neg (hk.reductionIndices_ne hr)] at htakes
  obtain ⟨ps, acc, z, hps, hgathers, haccept⟩ := htakes
  have hvalue (q : Env) (hq : q ∈ ps) (z : World) (v : Value) (z' : World)
      (hv : k.Evaluates scope w (c ++ q) z v z') : ∃ n, t.fits n = true ∧ v = .scalar (.int t n) := by
    have hcovers := (Ranges.covers_of_mem_points hc).append (Ranges.covers_of_mem_points (hps.mem_iff.1 hq))
    obtain ⟨n, u, hn, hu⟩ := hvalues _ hcovers z hv.1
    cases hv.2.symm.trans hu
    exact ⟨n, hn, rfl⟩
  obtain ⟨n, hn, hacc, hfits⟩ := hgathers.isInteger hg hinit hm (hps.nodup_iff.2 (rs.nodup_points _)) hvalue
  rw [hg.foldl_perm (hps.map n)] at hacc hfits
  refine ⟨n, fun q hq => ?_, ?_⟩
  · obtain ⟨hfits, z, z', hz, hv⟩ := hn q (hps.mem_iff.2 hq)
    exact ⟨hfits, z, z', hz, hv⟩
  · rw [htype, hacc.accept hfits] at haccept
    cases haccept
    exact hcell

end

/-- **Greatest and least integers.** A statement makes a new array and reduces with `max` or `min`, over any
number of indices with ranges that are not empty; its loops may be listed in any order, unrolled and tiled.
If the right-hand side comes to an integer of the type `t` at all points, and the start value, if one is
written, comes to an integer that `t` can hold, then a call returns. Whatever the order of the steps, the
array that is returned has the type `t`. With `max` each cell holds the greatest of its values, or of its
values and the start value that is written. With `min` it holds the least of the start value that is
written and its values; but if none is written, it holds the least integer of the type, whatever the
values are. -/
theorem call_extremes {config : Config} {source : String} {k : Kernel} (hk : Compiles config source k)
    (hs : k.statement.allocates = true) {r : Reduction} (hr : k.reduction = some r)
    (hop : r.op = "max" ∨ r.op = "min") {scope : Scope} (quiet : scope.Quiet) {w : World} {rs : Ranges} {w₁ : World}
    (hranges : exec (k.analysis.catalog.ranges scope k.analysis.indexNames) w = (.ok rs, w₁))
    (hne : ∀ i ∈ k.reductionIndices, (rs.get i).isEmpty = false) {t : IntType}
    (hvalues : k.GivesInts scope w rs t)
    (hinit : ∀ e, r.init = some e → ∃ n, t.fits n = true ∧ e.Denotes scope k.analysis.indexNames w n) :
    ((∀ b ∈ scope.bindings, b.1 ≠ ownName) → (∀ i ∈ k.outputIndices, (rs.get i).isEmpty = false) →
      ∃ out w', exec (k.call scope) w = (.ok out, w')) ∧
    ∀ out w', exec (k.call scope) w = (.ok out, w') ∨ k.Interleaves scope w (.ok out) w' →
      ∃ a, out = .array a ∧ a.type = .int t ∧ a.shape = k.newShape rs ∧
        ∀ c ∈ rs.points k.outputIndices, ∃ (n : Env → Int) (m : Int),
          (∀ q ∈ rs.points k.reductionIndices, Yields w (k.element scope (c ++ q)) (.scalar (.int t (n q)))) ∧
          (exec (out.get (k.keys c)) w').1 = .ok (.scalar (.int t m)) ∧
          (r.init = none → (r.op = "max" → ((rs.points k.reductionIndices).map n).max? = some m) ∧
            (r.op = "min" → m = t.least)) ∧
          ∀ e v, r.init = some e → e.Denotes scope k.analysis.indexNames w v →
            (r.op = "max" → (v :: (rs.points k.reductionIndices).map n).max? = some m) ∧
            (r.op = "min" → (v :: (rs.points k.reductionIndices).map n).min? = some m) := by
  obtain ⟨-, read, hp⟩ := hk.planned
  obtain ⟨f, g, hf, hg, hmax, hmin⟩ := r.exists_picks hop scope
  obtain ⟨m, hm, hstart⟩ : ∃ m, t.fits m = true ∧ r.StartsAt scope k.analysis.indexNames w t m := by
    cases hr : r.init with
    | none => exact ⟨t.least, t.fits_least, .inl ⟨hr, rfl⟩⟩
    | some e =>
      obtain ⟨n, hn, he⟩ := hinit e hr
      exact ⟨n, hn, .inr ⟨e, hr, he⟩⟩
  refine ⟨fun hself houter => ?_, fun out w' hcall => ?_⟩
  · exact exists_call_of_integers hp hr hop quiet hs hstart hm hvalues hf hg hranges
      (List.forall_mem_append.2 ⟨houter, hne⟩) hself
  · obtain ⟨a, hout, htype, hshape, hcells⟩ :=
      exists_fold_of_integers hp hr hop quiet hs hstart hm hvalues hf hg hranges hcall
    refine ⟨a, hout, htype, hshape, fun c hc => ?_⟩
    obtain ⟨n, hn, hcell⟩ := hcells c hc
    have hgreatest (h : r.op = "max") : (m :: (rs.points k.reductionIndices).map n).max? =
        some (((rs.points k.reductionIndices).map n).foldl g m) := by
      rw [hmax h]
      exact List.max?_cons'
    have hleast (h : r.op = "min") : (m :: (rs.points k.reductionIndices).map n).min? =
        some (((rs.points k.reductionIndices).map n).foldl g m) := by
      rw [hmin h]
      exact List.min?_cons'
    refine ⟨n, _, fun q hq => (hn q hq).2, hcell, fun hnone => ?_, fun e v he hv => ?_⟩
    · obtain rfl : m = t.least := by
        obtain ⟨-, hm⟩ | ⟨e, he, -⟩ := hstart
        · exact hm
        · cases hnone.symm.trans he
      have hle : ∀ x ∈ (rs.points k.reductionIndices).map n, t.least ≤ x := by
        intro x hx
        obtain ⟨q, hq, rfl⟩ := List.mem_map.1 hx
        exact t.least_le_of_fits (hn q hq).1
      refine ⟨fun h => max?_of_cons (hgreatest h) ?_ hle, fun h => eq_of_min?_cons (hleast h) hle⟩
      rw [ne_eq, List.map_eq_nil_iff]
      exact Ranges.points_ne_nil hne
    · obtain rfl : m = v := by
        obtain ⟨hnone, -⟩ | ⟨e', he', hm⟩ := hstart
        · cases he.symm.trans hnone
        · cases he.symm.trans he'
          exact hm.unique hv
      exact ⟨hgreatest, hleast⟩

/-- The cubes and their weights, and an integer of a wider type. -/
def capped : Scope :=
  { bindings := ("top", .scalar (.int .int64 100)) :: weighed.bindings }

/-- A minimum with workers, blocks, unrolled steps and a start value. -/
def cappedSource : String := "Z[i] := X[i, j, l] - Y[j] (min, l, unroll(2), j, init=top) \x7btile(2), i, l\x7d"

theorem call_extremes_capped : ∃ k rs out w', Compiles ⟨true, some 2⟩ cappedSource k ∧
    (exec (k.analysis.catalog.ranges capped k.analysis.indexNames) weighedWorld).1 = .ok rs ∧
    exec (k.call capped) weighedWorld = (.ok out, w') ∧
    ∀ c ∈ rs.points k.outputIndices, ∃ (n : Env → Int) (m : Int),
      (∀ q ∈ rs.points k.reductionIndices,
        Yields weighedWorld (k.element capped (c ++ q)) (.scalar (.int .int8 (n q)))) ∧
      (exec (out.get (k.keys c)) w').1 = .ok (.scalar (.int .int8 m)) ∧
      (100 :: (rs.points k.reductionIndices).map n).min? = some m := by
  obtain ⟨k, hk, hcheck⟩ := exists_compiles ⟨true, some 2⟩ cappedSource
    (fun k => k.statement.allocates && k.statement.rhs.isIntegral capped k.analysis.indexNames .int8 weighedWorld.heap &&
      k.analysis.catalog.axes.all (!·.2.isExplicit) && !k.analysis.indexNames.contains "top" &&
      (k.reduction.any fun r => r.op == "min" && r.init.any fun e => e.name? == some "top") &&
      (exec (k.analysis.catalog.ranges capped k.analysis.indexNames) weighedWorld).1.toOption.any fun rs =>
        (k.outputIndices ++ k.reductionIndices).all fun i => !(rs.get i).isEmpty) (by decide +kernel)
  simp only [Bool.and_eq_true] at hcheck
  obtain ⟨⟨⟨⟨⟨hs, hrhs⟩, hplain⟩, htop⟩, hreduction⟩, hranges⟩ := hcheck
  rcases hr : k.reduction with _ | r
  · simp [hr] at hreduction
  obtain ⟨rs, w₁, hrs, hranges⟩ := Run.exists_of_any hranges
  simp only [hr, Option.any_some, Bool.and_eq_true, beq_iff_eq] at hreduction
  obtain ⟨hop, hinit⟩ := hreduction
  rcases he : r.init with _ | e
  · simp [he] at hinit
  have hne (i : String) (hi : i ∈ k.outputIndices ++ k.reductionIndices) : (rs.get i).isEmpty = false := by
    simpa using List.all_eq_true.1 hranges i hi
  have hquiet : capped.Quiet := fun _ _ => Run.keeps_fail _
  have hdenotes : e.Denotes capped k.analysis.indexNames weighedWorld 100 :=
    Expr.denotes_of_name (by simpa [he] using hinit) (by simpa using htop) (v := .scalar (.int .int64 100)) rfl
      (.inr ⟨.int64, by decide, rfl⟩) _
  obtain ⟨-, read, hp⟩ := hk.planned
  have hvalues := hp.givesInts hs hquiet (Expr.integral_of_isIntegral hrhs) hrs
    fun i axis hi hx => by simpa [hx] using List.all_eq_true.1 hplain _ (Env.mem_of_lookup hi)
  obtain ⟨hreturns, hcells⟩ := call_extremes hk hs hr (.inr hop) hquiet hrs
    (fun i hi => hne i (List.mem_append_right _ hi)) hvalues
    (fun e' he' => ⟨100, by decide, by rwa [← Option.some.inj (he.symm.trans he')]⟩)
  obtain ⟨out, w', hcall⟩ := hreturns (by decide) fun i hi => hne i (List.mem_append_left _ hi)
  obtain ⟨a, -, -, -, hcells⟩ := hcells out w' (.inl hcall)
  refine ⟨k, rs, out, w', hk, by rw [hrs], hcall, fun c hc => ?_⟩
  obtain ⟨n, m, hn, hm, -, hwritten⟩ := hcells c hc
  exact ⟨n, m, hn, hm, (hwritten e 100 he hdenotes).2 hop⟩

end Kernel

end IndexNotation
