import IndexNotation.Proofs.Bounds
import IndexNotation.Proofs.Catalogs
import IndexNotation.Proofs.Forecast

/-!
# Sums of integers

Integers of a fixed width wrap around, so adding them never fails and the order does not matter. A
kernel that sums the cells of an array of integers is therefore pure, and its values may be taken in
any order.
-/

namespace IndexNotation

open Run (exec outcome Keeps PureFrom)

namespace IntType

theorem wrap_add_wrap (t : IntType) (m n : Int) : t.wrap (t.wrap m + n) = t.wrap (m + n) := by
  have hshift : t.wrap m + n - t.least = (m - t.least) % (Number.twoTo t.bits : Int) + n := by
    unfold wrap
    omega
  rw [wrap, hshift, Int.emod_add_emod, wrap]
  congr 2
  omega

theorem wrap_wrap (t : IntType) (n : Int) : t.wrap (t.wrap n) = t.wrap n := by
  simpa using t.wrap_add_wrap n 0

/-- What an integer of the type looks like. -/
def look (t : IntType) (n : Int) : Look := (Value.scalar (.int t n)).look #[]

theorem look_scalar (t : IntType) (n : Int) (h : Heap) : (Value.scalar (.int t n)).look h = t.look n :=
  Value.look_congr fun _ hb => (nomatch hb)

theorem eq_scalar_of_look {t : IntType} {n : Int} {h : Heap} {v : Value} (hl : v.look h = t.look n) :
    v = .scalar (.int t n) :=
  Value.eq_of_isFlat rfl hl.symm

/-- The integer that a look is of. -/
def number (l : Look) : Int :=
  match l 1 with
  | .scalar (.int _ n) => n
  | _ => 0

@[simp] theorem number_look (t : IntType) (n : Int) : number (t.look n) = n := rfl

/-- What the sum of two integers looks like. -/
def sum (t : IntType) (a x : Look) : Except Error Look :=
  .ok (t.look (t.wrap (number a + number x)))

theorem sum_exchange (t : IntType) (a x y : Look) :
    (t.sum a x >>= (t.sum · y)) = (t.sum a y >>= (t.sum · x)) := by
  change t.sum _ y = t.sum _ x
  rw [sum, sum, number_look, number_look, wrap_add_wrap, wrap_add_wrap, Int.add_right_comm]

set_option maxRecDepth 10000 in
theorem exec_add (t : IntType) (m n : Int) (w : World) :
    exec (Value.binary .add (.scalar (.int t m)) (.scalar (.int t n))) w =
      (.ok (.scalar (.int t (t.wrap (m + n)))), w) := by
  -- both operands are brought to the type of the result before they are added
  have hadd : exec (Value.binary .add (.scalar (.int t m)) (.scalar (.int t n))) w =
      (.ok (.scalar (.int t (t.wrap (t.wrap (t.wrap m) + t.wrap (t.wrap n))))), w) := by
    cases t <;> rfl
  rw [hadd, wrap_wrap, wrap_wrap, wrap_add_wrap, Int.add_comm m, wrap_add_wrap, Int.add_comm n]

theorem eq_of_typed {t : IntType} {n : Int} {t' : ElemType} (h : (t.look n).Typed t') : t' = .int t := by
  have htype := h #[] (.scalar (.int t n)) rfl
  cases t <;> exact (Except.ok.inj htype).symm

theorem neutral_sum (t : IntType) : (ElemType.int t).neutral "+" = .scalar (.int t 0) := by
  cases t <;> rfl

end IntType

/-! ## Flat values -/

theorem Value.not_reaches_of_isFlat {h : Heap} {v : Value} (hv : v.isFlat = true) (b : Nat) :
    ¬ v.Reaches h b := by
  intro hb
  cases hb <;> cases hv

theorem Value.look_of_isFlat {v : Value} (hv : v.isFlat = true) (h h' : Heap) : v.look h = v.look h' :=
  Value.look_congr fun b hb => (not_reaches_of_isFlat hv b hb).elim

theorem Run.pureFrom_pure {v : Value} (hv : v.isFlat = true) (w : World) : PureFrom w (pure v) := by
  refine fun u _ => ⟨congrArg Except.ok (Value.look_of_isFlat hv _ _), fun v' u' hv' b hb => ?_⟩
  cases hv'
  exact (Value.not_reaches_of_isFlat hv b hb).elim

theorem ElemType.isFlat_neutral_sum (t : ElemType) : (t.neutral "+").isFlat = true := by
  cases t <;> rfl

/-! ## References by plain indices -/

/-- An expression that is a name and plain indices in brackets. -/
def Expr.Reads (e : Expr) (name : String) (indices : List String) : Prop :=
  ∃ pos keys pos', e = .index (.name name pos) keys pos' ∧ keys.map Expr.name? = indices.map some

def Expr.isReading (name : String) (indices : List String) : Expr → Bool
  | .index (.name id _) keys _ => id == name && keys.map Expr.name? == indices.map some
  | _ => false

theorem Expr.reads_of_isReading {e : Expr} {name : String} {indices : List String}
    (h : e.isReading name indices = true) : e.Reads name indices := by
  unfold isReading at h
  split at h
  · rename_i id pos keys pos'
    simp only [Bool.and_eq_true, beq_iff_eq] at h
    exact ⟨pos, keys, pos', by rw [h.1], h.2⟩
  · cases h

theorem Expr.eq_name_of_name? {e : Expr} {i : String} (h : e.name? = some i) : ∃ pos, e = .name i pos := by
  cases e <;> cases h
  exact ⟨_, rfl⟩

/-- There is no reference in such an expression but the expression itself. -/
theorem Expr.Reads.of_refers {e : Expr} {name name' : String} {indices : List String} {pos : Option Pos}
    {keys : List Expr} (h : e.Reads name indices) (hr : Refers (.name name' pos) keys e) :
    name' = name ∧ keys.map Expr.name? = indices.map some := by
  obtain ⟨pos', keys', pos'', rfl, hkeys⟩ := h
  cases hr with
  | here => exact ⟨rfl, hkeys⟩
  | base _ _ hr => cases hr
  | @key key _ _ _ hmem hr =>
    obtain ⟨i, -, hi⟩ : ∃ i ∈ indices, some i = key.name? :=
      List.mem_map.1 (hkeys ▸ List.mem_map_of_mem hmem)
    obtain ⟨_, rfl⟩ := eq_name_of_name? hi.symm
    cases hr

theorem Expr.map_name?_of_all {keys : List Expr} (h : keys.all Expr.isName = true) :
    keys.map Expr.name? = (symbolNames keys).map some := by
  induction keys with
  | nil => rfl
  | cons key keys ih =>
    rw [List.all_cons, Bool.and_eq_true] at h
    obtain ⟨i, hi⟩ := Option.isSome_iff_exists.1 h.1
    rw [symbolNames, List.map_cons, List.filterMap_cons_some hi, List.map_cons, hi, ih h.2]
    rfl

theorem Expr.resolveAll_names {scope : Scope} {names indices : List String} {keys : List Expr}
    (hkeys : keys.map Expr.name? = indices.map some) (hmem : ∀ i ∈ indices, i ∈ names) :
    Expr.resolve.resolveAll scope names keys = .ok (indices.map .index) := by
  induction indices generalizing keys with
  | nil =>
    obtain rfl : keys = [] := by simpa using hkeys
    rfl
  | cons i indices ih =>
    obtain _ | ⟨key, keys⟩ := keys
    · simp at hkeys
    · simp only [List.map_cons, List.cons.injEq] at hkeys
      obtain ⟨pos, rfl⟩ := eq_name_of_name? hkeys.1
      have hi : names.contains i = true := by simpa using hmem i (.head _)
      rw [resolve.resolveAll, resolve, if_pos hi, ih hkeys.2 fun i hi => hmem i (.tail _ hi)]
      rfl

theorem Expr.Reads.resolve {e : Expr} {name : String} {indices names : List String} {scope : Scope}
    {v : Value} (h : e.Reads name indices) (hname : name ∉ names)
    (hlookup : scope.bindings.lookup name = some v) (hmem : ∀ i ∈ indices, i ∈ names) :
    e.resolve scope names = .ok (.get (.value v) (indices.map .index)) := by
  obtain ⟨pos, keys, pos', rfl, hkeys⟩ := h
  have hcontains : names.contains name = false := by simpa using hname
  simp only [Expr.resolve, hcontains, resolveAll_names hkeys hmem, Scope.lookup, hlookup]
  rfl

/-- Values that fit a shape are positions in it. -/
theorem Env.Fits.exists_values {env : Env} {keys : List Expr} {indices : List String} {shape : List Nat}
    (h : env.Fits keys shape) (hkeys : keys.map Expr.name? = indices.map some)
    (hlen : indices.length = shape.length) :
    ∃ vs, indices.mapM (fun i => List.lookup i env) = some vs ∧
      List.Forall₂ (fun (v : Int) (n : Nat) => 0 ≤ v ∧ v < n) vs shape := by
  induction indices generalizing keys shape with
  | nil =>
    obtain rfl := List.length_eq_zero_iff.1 hlen.symm
    exact ⟨[], rfl, .nil⟩
  | cons i indices ih =>
    obtain _ | ⟨key, keys⟩ := keys
    · simp at hkeys
    · obtain _ | ⟨n, shape⟩ := shape
      · simp at hlen
      · simp only [List.map_cons, List.cons.injEq] at hkeys
        obtain ⟨pos, rfl⟩ := Expr.eq_name_of_name? hkeys.1
        obtain ⟨v, n', hv, hn, hbounds⟩ := h 0 i pos rfl
        obtain rfl := Option.some.inj hn
        have htail : env.Fits keys shape := fun d i pos hd => h (d + 1) i pos hd
        obtain ⟨vs, hvs, hwithin⟩ := ih htail hkeys.2 (by simpa using hlen)
        exact ⟨v :: vs, by simp [List.mapM_cons, hv, hvs], .cons hbounds hwithin⟩

namespace Kernel

/-- A kernel that takes cells of an array of integers, by plain indices, and adds up what is not
stored as it is. -/
structure Sums (k : Kernel) (scope : Scope) (w : World) (t : IntType) (a : View) : Prop where
  reads : ∃ name indices, k.statement.rhs.Reads name indices ∧ name ∉ k.analysis.indexNames ∧
    scope.bindings.lookup name = some (.array a) ∧ indices.length = a.shape.length
  solid : a.Solid w.heap
  strides : a.strides.length = a.shape.length
  integers : ∀ v ∈ (w.heap.block a.block).toList, ∃ n, v = .scalar (.int t n)
  op : k.analysis.reduction.op = "+"
  init : k.analysis.reduction.init = none

theorem Planned.mem_indexNames {k : Kernel} {read : Reduction.Partial} (hk : k.Planned read)
    {name : String} {indices : List String} (hreads : k.statement.rhs.Reads name indices)
    {i : String} (hi : i ∈ indices) : i ∈ k.analysis.indexNames := by
  obtain ⟨pos, keys, pos', hrhs, hkeys⟩ := hreads
  obtain ⟨key, hkey, hname⟩ : ∃ key ∈ keys, key.name? = some i := by
    have hsome : some i ∈ keys.map Expr.name? := hkeys ▸ List.mem_map_of_mem hi
    exact List.mem_map.1 hsome
  have hrefers : Expr.Refers (.name name pos) keys k.statement.rhs := hrhs ▸ .here pos'
  have hsymbol : i ∈ k.analysis.collection.indices := by
    rw [hk.collection]
    refine List.mem_flatMap.2 ⟨_, hrefers.mem_references, ?_⟩
    exact List.mem_filterMap.2 ⟨key, hkey, hname⟩
  exact List.mem_eraseDups.2 (List.mem_append_right _ hsymbol)

/-- What the right-hand side reads is within the array if the ranges of its indices are. -/
theorem Planned.safe_of_reads {k : Kernel} {read : Reduction.Partial} (hk : k.Planned read)
    {name : String} {indices : List String} (hreads : k.statement.rhs.Reads name indices)
    {scope : Scope} {a : View} (hname : scope.bindings.lookup name = some (.array a))
    (hlen : indices.length = a.shape.length) {rs : Ranges}
    (hwithin : ∀ p ∈ indices.zip a.shape, ∀ v ∈ (rs.get p.1).toList, 0 ≤ v ∧ v < p.2) {env : Env}
    (henv : env.Covers rs (k.outputIndices ++ k.analysis.reduction.order)) : k.Safe scope (.evaluate env) := by
  intro name' pos keys b hr hb d i pos' hd
  obtain ⟨rfl, hkeys⟩ := hreads.of_refers hr
  cases hname.symm.trans hb
  have hi : indices[d]? = some i := by
    have hd' := congrArg (·[d]?) hkeys
    simpa [hd, Expr.name?, eq_comm] using hd'
  obtain ⟨hlt, -⟩ := List.getElem?_eq_some_iff.1 hi
  have hn : a.shape[d]? = some a.shape[d] := List.getElem?_eq_getElem (hlen ▸ hlt)
  obtain ⟨v, hv, hmem⟩ := henv.lookup (hk.mem_loops_of_reference hr hd)
  have hpair : (i, a.shape[d]) ∈ indices.zip a.shape :=
    List.mem_of_getElem? (List.getElem?_zip_eq_some.2 ⟨hi, hn⟩)
  exact ⟨v, a.shape[d], hv, hn, hwithin _ hpair v hmem⟩

namespace Sums

variable {k : Kernel} {read : Reduction.Partial} (hk : k.Planned read) {scope : Scope} {w : World}
  {t : IntType} {a : View} (h : k.Sums scope w t a)

include hk h

/-- An evaluation changes nothing. What it reads is an integer, and it reads one if it stays within
the array. -/
theorem exec_element (env : Env) : ∃ o : Except Error Value,
    (∀ u, w.Keeps u → exec (k.element scope env) u = (o, u)) ∧
    (∀ v, o = .ok v → ∃ n, v = .scalar (.int t n)) ∧
    (k.Safe scope (.evaluate env) → ∃ v, o = .ok v) := by
  obtain ⟨name, indices, hreads, hname, hlookup, hlen⟩ := h.reads
  have hcode := hreads.resolve hname hlookup fun i hi => hk.mem_indexNames hreads hi
  refine ⟨a.readAt w.heap indices env, fun u hu => ?_, fun v hv => ?_, fun hsafe => ?_⟩
  · rw [element_of_resolve hcode, Code.exec_run_reference hlen, View.readAt,
      hu.2 _ h.solid.exists_block, View.readAt]
  · unfold View.readAt at hv
    split at hv
    · split at hv
      · rename_i p hp
        cases hv
        have hlt := h.solid.place_lt hp
        refine h.integers _ ?_
        rw [Array.getD_eq_getD_getElem?, Array.getElem?_eq_getElem hlt]
        exact Array.getElem_mem_toList hlt
      · cases hv
    · cases hv
  · obtain ⟨pos, keys, pos', hrhs, hkeys⟩ := hreads
    have hfits : env.Fits keys a.shape := hsafe name pos keys a (hrhs ▸ .here pos') hlookup
    obtain ⟨vs, hvs, hwithin⟩ := hfits.exists_values hkeys hlen
    obtain ⟨p, hp⟩ := View.exists_place h.strides hwithin
    simp only [View.readAt, hvs, hp]
    exact ⟨_, rfl⟩

theorem outcome_element {env : Env} {l : Look} (hl : outcome (k.element scope env) w = .ok l) :
    ∃ n, l = t.look n := by
  obtain ⟨o, hexec, hint, -⟩ := h.exec_element hk env
  obtain ⟨v, u, hv, rfl⟩ := Run.outcome_eq_ok hl
  rw [hexec w (.refl w), Prod.mk.injEq] at hv
  obtain ⟨n, rfl⟩ := hint v hv.1
  exact ⟨n, t.look_scalar n _⟩

omit hk in
theorem initial_eq {r : Reduction} (hr : k.reduction = some r) (t' : ElemType) (eval : Expr → Run Value) :
    r.initial t' eval = pure (t'.neutral "+") := by
  obtain rfl := eq_of_reduction hr
  rw [Reduction.initial, h.init, h.op]

theorem tame : k.Tame scope w (∃ n, · = t.look n) t.sum where
  element env u hu := by
    obtain ⟨o, hexec, hint, -⟩ := h.exec_element hk env
    have hreach (v : Value) (hv : o = .ok v) (h : Heap) (b : Nat) : ¬ v.Reaches h b := by
      obtain ⟨n, rfl⟩ := hint v hv
      exact Value.not_reaches_of_isFlat rfl b
    refine ⟨?_, fun v u' hv b hb => ?_⟩
    · rw [outcome, outcome, hexec u hu, hexec w (.refl w)]
      cases ho : o with
      | error e => rfl
      | ok v => exact congrArg Except.ok (Value.look_congr fun b hb => (hreach v ho _ b hb).elim)
    · rw [hexec u hu, Prod.mk.injEq] at hv
      exact (hreach v hv.1 _ b hb).elim
  value env l hl := h.outcome_element hk hl
  initial r t' hr := by
    rw [h.initial_eq hr]
    exact Run.pureFrom_pure t'.isFlat_neutral_sum w
  start r t' env x l hr hx htyped hl := by
    obtain ⟨n, rfl⟩ := h.outcome_element hk hx
    obtain rfl := IntType.eq_of_typed htyped
    rw [h.initial_eq hr, IntType.neutral_sum] at hl
    exact ⟨0, (Except.ok.inj hl).symm.trans (t.look_scalar 0 _)⟩
  closed a x l _ _ hl := ⟨_, (Except.ok.inj hl).symm⟩
  combine r f hr hf u acc v _ hacc hv _ _ := by
    obtain ⟨m, hm⟩ := hacc
    obtain ⟨n, hn⟩ := hv
    obtain rfl := IntType.eq_scalar_of_look hm
    obtain rfl := IntType.eq_scalar_of_look hn
    obtain rfl := eq_of_reduction hr
    rw [h.op] at hf
    cases hf
    have hadd := t.exec_add m n u
    refine ⟨?_, fun x u' hx b hb => ?_⟩
    · rw [hm, hn, IntType.sum, IntType.number_look, IntType.number_look, ← t.look_scalar _ u.heap]
      exact Run.outcome_ok hadd
    · cases hadd.symm.trans hx
      cases hb

/-- The values of a sum may be taken in any order if all of them are within the array. -/
theorem exchangeable_of_safe
    (hsafe : ∀ rs w', exec (k.analysis.catalog.ranges scope k.analysis.indexNames) w = (.ok rs, w') →
      ∀ env : Env, env.Covers rs (k.outputIndices ++ k.analysis.reduction.order) → k.Safe scope (.evaluate env)) :
    k.Exchangeable scope w (∃ n, · = t.look n) t.sum where
  toTame := h.tame hk
  never rs w' hranges env henv := by
    obtain ⟨o, hexec, -, hok⟩ := h.exec_element hk env
    obtain ⟨v, rfl⟩ := hok (hsafe rs w' hranges env henv)
    exact ⟨_, Run.outcome_ok (hexec w (.refl w))⟩
  total a x _ _ := ⟨_, rfl⟩
  exchange a x y _ _ _ := t.sum_exchange a x y

theorem exchangeable (still : k.analysis.catalog.Still scope k.analysis.indexNames)
    (hsteady : k.analysis.catalog.Steady scope k.analysis.indexNames w) :
    k.Exchangeable scope w (∃ n, · = t.look n) t.sum := by
  refine h.exchangeable_of_safe hk fun rs w' hranges env henv => ?_
  obtain ⟨-, hrs⟩ := still.resolved hranges
  exact hk.safe_evaluate hrs (fun _ _ => hsteady.get?) henv

end Sums

/-- Whether a statement makes an array with the indices `outputs` of the cells of `name` at
`indices`, and adds up what is reduced. -/
def addsUp (k : Kernel) (outputs : List String) (name : String) (indices : List String) : Bool :=
  k.statement.allocates && k.statement.target.indices.map Expr.name? == outputs.map some &&
    k.statement.rhs.isReading name indices && !k.analysis.indexNames.contains name &&
    k.analysis.reduction.op == "+" && k.analysis.reduction.init.isNone

/-- The same, and there are no written bounds. -/
def isSumOf (k : Kernel) (outputs : List String) (name : String) (indices : List String) : Bool :=
  k.addsUp outputs name indices && k.analysis.catalog.axes.all (!·.2.isExplicit)

theorem addsUp_of_isSumOf {k : Kernel} {outputs indices : List String} {name : String}
    (h : k.isSumOf outputs name indices = true) : k.addsUp outputs name indices = true :=
  (Bool.and_eq_true_iff.1 h).1

theorem allocates_of_isSumOf {k : Kernel} {outputs indices : List String} {name : String}
    (h : k.isSumOf outputs name indices = true) : k.statement.allocates = true := by
  simp only [isSumOf, addsUp, Bool.and_eq_true] at h
  exact h.1.1.1.1.1.1

theorem sums_of_addsUp {k : Kernel} {outputs indices : List String} {name : String}
    (h : k.addsUp outputs name indices = true) {scope : Scope} {a : View}
    (hname : scope.bindings.lookup name = some (.array a)) (hlen : indices.length = a.shape.length)
    {w : World} (hsolid : a.Solid w.heap) (hstrides : a.strides.length = a.shape.length) {t : IntType}
    (hint : ∀ v ∈ (w.heap.block a.block).toList, ∃ n, v = .scalar (.int t n)) : k.Sums scope w t a := by
  simp only [addsUp, Bool.and_eq_true, beq_iff_eq, Option.isNone_iff_eq_none] at h
  obtain ⟨⟨⟨⟨-, hreads⟩, hfree⟩, hop⟩, hinit⟩ := h
  exact ⟨⟨name, indices, Expr.reads_of_isReading hreads, by simpa using hfree, hname, hlen⟩, hsolid,
    hstrides, hint, hop, hinit⟩

end Kernel

end IndexNotation
