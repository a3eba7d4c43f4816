import IndexNotation.Proofs.PureLibrary
import IndexNotation.Proofs.Updates

/-!
# Axis sources

An axis is measured on an expression without indices, which takes the first element wherever the
expression it is made from takes an element by an index. Where every such element is taken of a list, a
tuple or an array of one dimension, this is the element at position zero. The two evaluations allocate
different blocks, since the first element of an array is found in a flat copy of it, so what they come
to is compared up to the blocks it is kept in.
-/

namespace IndexNotation

open Run (exec outcome)
open Value (Twins)

/-- A supplied function is pure as long as all is there that `w` has: it keeps that, and cannot tell
twins apart. -/
def Scope.IsPure (scope : Scope) (w : World) (name : String) : Prop :=
  ∀ R args args', List.Forall₂ (Twins R) args args' →
    (mirroring w).Rel R Twins (scope.supplied name args) (scope.supplied name args')

/-- All supplied functions that are called in `es` are pure. -/
def Expr.CallsPure (scope : Scope) (w : World) (es : List Expr) : Prop :=
  ∀ f args pos name, .call f args pos ∈ es → scope.lookup f = .ok (.function (.supplied name)) →
    scope.IsPure w name

/-- What is called in `es` is pure, and the names in it have the same values as indices. -/
structure Expr.Settled (scope : Scope) (w : World) (env env' : Env) (es : List Expr) : Prop where
  pure : CallsPure scope w es
  same : ∀ i pos, .name i pos ∈ es → env.lookup i = env'.lookup i

theorem Expr.Settled.mono {scope : Scope} {w : World} {env env' : Env} {es es' : List Expr}
    (h : Settled scope w env env' es) (hsub : es' ⊆ es) : Settled scope w env env' es' :=
  ⟨fun f args pos name hf => h.pure f args pos name (hsub hf), fun i pos hi => h.same i pos (hsub hi)⟩

variable {scope : Scope} {w : World} {R₀ : Nat → Nat → Prop} {env env' : Env}

/-! ## Evaluation -/

namespace Code

/-- Two resolved expressions come to twins wherever the blocks that `R₀` relates are related. -/
def Agree (scope : Scope) (w : World) (R₀ : Nat → Nat → Prop) (env env' : Env) (c c' : Code) : Prop :=
  ∀ R, R₀ ≤ R → (mirroring w).Rel R Twins (c.run scope env) (c'.run scope env')

variable {c c' : Code} {cs cs' : List Code}

theorem Agree.value {v v' : Value} (hv : Twins R₀ v v') : Agree scope w R₀ env env' (.value v) (.value v') :=
  fun _ hR => (mirroring w).pure (hv.mono hR)

theorem Agree.index {i : String} (hi : env.lookup i = env'.lookup i) :
    Agree scope w R₀ env env' (.index i) (.index i) := by
  intro R hR
  simp only [run, hi]
  split
  · exact (mirroring w).pure (.flat rfl)
  · exact (mirroring w).throw _

theorem Agree.runAll (h : List.Forall₂ (Agree scope w R₀ env env') cs cs') (R : Nat → Nat → Prop)
    (hR : R₀ ≤ R) :
    (mirroring w).Rel R (fun R' => List.Forall₂ (Twins R')) (run.runAll scope env cs)
      (run.runAll scope env' cs') := by
  induction h generalizing R with
  | nil => exact (mirroring w).pure .nil
  | cons hc _ ih =>
    refine (mirroring w).bind (hc R hR) fun R₁ v v' hR₁ hv => ?_
    refine (mirroring w).bind (ih R₁ ((mirroring w).trans hR hR₁)) fun R₂ vs vs' hR₂ hvs => ?_
    exact (mirroring w).pure (.cons (hv.mono hR₂) hvs)

theorem Agree.get (hc : Agree scope w R₀ env env' c c')
    (hcs : List.Forall₂ (Agree scope w R₀ env env') cs cs') :
    Agree scope w R₀ env env' (.get c cs) (.get c' cs') := by
  intro R hR
  refine (mirroring w).bind (hc R hR) fun R₁ v v' hR₁ hv => ?_
  refine (mirroring w).bind (runAll hcs R₁ ((mirroring w).trans hR hR₁)) fun R₂ keys keys' hR₂ hkeys => ?_
  replace hv := hv.mono hR₂
  rcases hkeys with _ | ⟨hkey, _ | ⟨hkey', hkeys⟩⟩
  · exact Value.mirroring_get hv .nil
  · exact Value.mirroring_item hv hkey
  · exact Value.mirroring_get hv (.cons hkey (.cons hkey' hkeys))

theorem Agree.field (hc : Agree scope w R₀ env env' c c') (name : String) :
    Agree scope w R₀ env env' (.field c name) (.field c' name) :=
  fun R hR => (mirroring w).bind (hc R hR) fun _ _ _ _ hv => Value.mirroring_field hv name

theorem Agree.first (hc : Agree scope w R₀ env env' c c') :
    Agree scope w R₀ env env' (.first c) (.first c') :=
  fun R hR => (mirroring w).bind (hc R hR) fun _ _ _ _ hv => Value.mirroring_first hv

theorem Agree.call {f : Value} (hf : ∀ name, f = .function (.supplied name) → scope.IsPure w name)
    (hcs : List.Forall₂ (Agree scope w R₀ env env') cs cs') :
    Agree scope w R₀ env env' (.call f cs) (.call f cs') := by
  intro R hR
  refine (mirroring w).bind (runAll hcs R hR) fun R₁ args args' _ hargs => ?_
  unfold Scope.call
  split
  · exact Library.mirroring_call _ hargs
  · exact hf _ rfl R₁ args args' hargs
  · exact (mirroring w).throw _

theorem Agree.binary {d d' : Code} (op : BinaryOp) (hc : Agree scope w R₀ env env' c c')
    (hd : Agree scope w R₀ env env' d d') :
    Agree scope w R₀ env env' (.binary op c d) (.binary op c' d') := by
  intro R hR
  refine (mirroring w).bind (hc R hR) fun R₁ a a' hR₁ ha => ?_
  refine (mirroring w).bind (hd R₁ ((mirroring w).trans hR hR₁)) fun R₂ b b' hR₂ hb => ?_
  exact Value.mirroring_binary op (ha.mono hR₂) hb

theorem Agree.unary (op : UnaryOp) (hc : Agree scope w R₀ env env' c c') :
    Agree scope w R₀ env env' (.unary op c) (.unary op c') :=
  fun R hR => (mirroring w).bind (hc R hR) fun _ _ _ _ hv => Value.mirroring_unary op hv

end Code

namespace Expr

mutual

/-- An expression comes to the same wherever its names stand for the same. -/
theorem resolve_agree (hconst : ∀ name v, scope.lookup name = .ok v → Twins R₀ v v)
    (indices : List String) (e : Expr) (h : Settled scope w env env' e.walk) :
    Paired (Code.Agree scope w R₀ env env') (e.resolve scope indices) (e.resolve scope indices) := by
  cases e with
  | name id pos =>
    rw [resolve]
    split
    · exact .ok (.index (h.same id pos (.head _)))
    · cases hv : scope.lookup id with
      | error e => exact .error e
      | ok v => exact .ok (.value (hconst id v hv))
  | number v pos => exact .ok (.value (.flat (Value.isFlat_ofLiteral v)))
  | index base keys pos =>
    refine (resolve_agree hconst indices base (h.mono (by simp [walk]))).bind fun c c' hc => ?_
    refine (resolveAll_agree hconst indices keys (h.mono (by simp [walk]))).bind fun cs cs' hcs => ?_
    exact .ok (hc.get hcs)
  | field base name pos =>
    refine (resolve_agree hconst indices base (h.mono (by simp [walk]))).bind fun c c' hc => ?_
    exact .ok (hc.field name)
  | first e pos =>
    refine (resolve_agree hconst indices e (h.mono (by simp [walk]))).bind fun c c' hc => ?_
    exact .ok hc.first
  | call f args pos =>
    rw [resolve]
    cases hv : scope.lookup f with
    | error e => exact .error e
    | ok v =>
      dsimp only [bind, Except.bind]
      split
      · refine (resolveAll_agree hconst indices args (h.mono (by simp [walk]))).bind fun cs cs' hcs => ?_
        exact .ok (.call (fun name hname => h.pure f args pos name (.head _) (hname ▸ hv)) hcs)
      · exact .error _
  | binary l op r pos =>
    unfold resolve
    split
    · exact .error _
    · refine (resolve_agree hconst indices l (h.mono (by simp [walk]))).bind fun c c' hc => ?_
      refine (resolve_agree hconst indices r (h.mono (by simp [walk]))).bind fun d d' hd => ?_
      exact .ok (hc.binary _ hd)
  | unary op e pos =>
    unfold resolve
    split
    · exact .error _
    · refine (resolve_agree hconst indices e (h.mono (by simp [walk]))).bind fun c c' hc => ?_
      exact .ok (hc.unary _)
  | _ => exact .error _

theorem resolveAll_agree (hconst : ∀ name v, scope.lookup name = .ok v → Twins R₀ v v)
    (indices : List String) (es : List Expr) (h : Settled scope w env env' (walk.walkAll es)) :
    Paired (List.Forall₂ (Code.Agree scope w R₀ env env')) (resolve.resolveAll scope indices es)
      (resolve.resolveAll scope indices es) := by
  cases es with
  | nil => exact .ok .nil
  | cons e es =>
    refine (resolve_agree hconst indices e (h.mono (by simp [walk.walkAll]))).bind fun c c' hc => ?_
    refine (resolveAll_agree hconst indices es (h.mono (by simp [walk.walkAll]))).bind fun cs cs' hcs => ?_
    exact .ok (.cons hc hcs)

end

end Expr

/-! ## Rows -/

namespace Value

/-- A list, a tuple or an array of one dimension that is not empty. -/
inductive IsRow (h : Heap) : Value → Prop where
  | list {b : Nat} {x : Value} {xs : List Value} : (h.block b).toList = x :: xs → IsRow h (.list b)
  | tuple (x : Value) (xs : List Value) : IsRow h (.tuple (x :: xs))
  | array {a : View} {n : Nat} {s : Int} : a.shape = [n + 1] → a.strides = [s] → IsRow h (.array a)

variable {R : Nat → Nat → Prop} {h h' : Heap} {v v' : Value} {u u' : World}

theorem IsRow.of_twins (hl : Linked R h h') (hv : Twins R v v') (hrow : v'.IsRow h') : v.IsRow h := by
  cases hrow with
  | list hb =>
    cases hv with
    | flat hflat => cases hflat
    | list hR =>
      have hcells := hl.cells hR
      rw [hb] at hcells
      generalize hxs : (h.block _).toList = xs at hcells
      cases hcells with
      | cons _ _ => exact .list hxs
  | tuple x xs =>
    cases hv with
    | flat hflat => cases hflat
    | tuple hlen hitems =>
      cases (Twins.tuple hlen hitems).items with
      | cons _ _ => exact .tuple _ _
  | array hshape hstrides =>
    cases hv with
    | flat hflat => cases hflat
    | array hR => exact .array hshape hstrides

section

variable {a : View} {n : Nat} {s : Int} (hshape : a.shape = [n + 1]) (hstrides : a.strides = [s])

include hshape hstrides

theorem exec_item_of_array (u : World) :
    exec (item (.array a) (.int 0)) u = (.ok ((u.heap.block a.block).getD a.offset .none), u) := by
  have hplace : a.place [0] = some a.offset := by
    simp [View.place, stepsTo, hshape, hstrides, resolvePosition]
  have hget := exec_get_ints (a := a) (show [0].length = a.shape.length by simp [hshape]) u
  rw [hplace] at hget
  rw [item, Run.exec_bind_ok (Run.exec_heap u)]
  exact hget

/-- The first element of an array is found in a flat copy. -/
theorem exec_first_of_array (u : World) :
    exec (first (.array a)) u = (.ok ((u.heap.block a.block).getD a.offset .none),
      { u with heap := u.heap.push (a.cells u.heap).toArray }) := by
  have hflat : exec (field? (.array a) "flat") u =
      (.ok (some (.array ⟨u.heap.size, a.type, 0, [cellCount a.shape], rowMajor [cellCount a.shape]⟩)),
        { u with heap := u.heap.push (a.cells u.heap).toArray }) := rfl
  have hhead : (a.cells u.heap).toArray.getD 0 .none = (u.heap.block a.block).getD a.offset .none := by
    simp [View.cells, View.places, places, hshape, hstrides, List.range_succ_eq_map]
  rw [first, Run.exec_bind_ok hflat]
  dsimp only
  rw [Run.exec_tryCatch, exec_item_of_array (n := n) (s := 1) (by simp [hshape, cellCount])
    (by simp [rowMajor, cellCount])]
  simp only [Heap.block_push_self, hhead]

end

theorem exec_itemOf_cons (h : Heap) (x : Value) (xs : List Value) (u : World) :
    exec (Run.ofFault (itemOf h (x :: xs) (.int 0))) u = (.ok x, u) := by
  simp [itemOf, position?, resolvePosition, Except.mapError]

/-- In linked heaps, what stands at position zero of a row is the twin of the first element of its
twin. -/
theorem IsRow.exists_first (hl : Linked R u.heap u'.heap) (hv : Twins R v v') (hrow : v.IsRow u.heap) :
    ∃ x x' u₁, exec (v.item (.int 0)) u = (.ok x, u) ∧ exec v'.first u' = (.ok x', u₁) ∧
      Linked R u.heap u₁.heap ∧ Twins R x x' := by
  cases hrow with
  | @list b x xs hb =>
    cases hv with
    | flat hflat => cases hflat
    | @list _ b' hR =>
      have hcells := hl.cells hR
      rw [hb] at hcells
      generalize hxs : (u'.heap.block b').toList = ys at hcells
      cases hcells with
      | cons hx _ =>
        refine ⟨x, _, u', ?_, ?_, hl, hx⟩
        · rw [item, Run.exec_bind_ok (Run.exec_heap u)]
          simp only [hb, exec_itemOf_cons]
        · have hflat : exec (field? (.list b') "flat") u' = (.ok Option.none, u') := rfl
          rw [first, Run.exec_bind_ok hflat, Run.exec_bind_ok (Run.exec_heap u')]
          simp only [sequence?, hxs]
          rfl
  | tuple x xs =>
    cases hv with
    | flat hflat => cases hflat
    | tuple hlen hitems =>
      cases (Twins.tuple hlen hitems).items with
      | cons hx _ => exact ⟨x, _, u', exec_itemOf_cons u.heap x xs u, rfl, hl, hx⟩
  | @array a n s hshape hstrides =>
    cases hv with
    | flat hflat => cases hflat
    | @array _ b' hR =>
      have hfirst := exec_first_of_array (a := { a with block := b' }) hshape hstrides u'
      exact ⟨_, _, _, exec_item_of_array hshape hstrides u, hfirst, hl.push_right _, hl.cell hR _⟩

/-- What a cell of a block leads to, whatever leads to the block leads to. -/
theorem Reaches.trans {b c : Nat} {x : Value} (hv : v.Reaches h b) (hx : x ∈ (h.block b).toList)
    (hc : x.Reaches h c) : v.Reaches h c := by
  induction hv with
  | list b => exact .listItem hx hc
  | array a => exact .arrayCell hx hc
  | listItem hmem _ ih => exact .listItem hmem (ih hx)
  | arrayCell hmem _ ih => exact .arrayCell hmem (ih hx)
  | tupleItem hmem _ ih => exact .tupleItem hmem (ih hx)
  | recordField hmem _ ih => exact .recordField hmem (ih hx)

end Value

/-! ## What names are bound to -/

namespace Scope

/-- The blocks that bindings lead to, each related to itself. -/
def held (scope : Scope) (h : Heap) (b b' : Nat) : Prop :=
  b = b' ∧ ∃ name v, scope.bindings.lookup name = some v ∧ v.Reaches h b

theorem twins_of_lookup {h : Heap} {name : String} {v : Value} (hv : scope.lookup name = .ok v) :
    Twins (scope.held h) v v := by
  refine .of_reaches h v fun b hb => ?_
  unfold lookup at hv
  split at hv
  · rename_i x hx
    cases hv
    exact ⟨rfl, name, v, hx, hb⟩
  · split at hv
    · rename_i hx
      cases hv
      exact absurd hb (Kernel.not_reaches_of_library hx h b)
    · cases hv

/-- What names are bound to is there: it leads to no block that does not exist. -/
def Within (scope : Scope) (w : World) : Prop :=
  ∀ name v, scope.bindings.lookup name = some v → ∀ b, v.Reaches w.heap b → b < w.heap.size

/-- The bindings stay what they are while all is kept. -/
theorem linked_held (hbound : scope.Within w) {u : World} (hu : w.Keeps u) :
    Linked (scope.held w.heap) u.heap w.heap where
  unique := ⟨fun _ _ _ hb hc => hb.1.trans hc.1.symm, fun _ _ _ hb hc => hb.1.symm.trans hc.1⟩
  left := by
    rintro b _ ⟨rfl, name, v, hv, hb⟩
    exact Nat.lt_of_lt_of_le (hbound name v hv b hb) hu.1
  right := by
    rintro b _ ⟨rfl, name, v, hv, hb⟩
    exact hbound name v hv b hb
  cells := by
    rintro b _ ⟨rfl, name, v, hv, hb⟩
    rw [hu.2 b (hbound name v hv b hb)]
    refine List.forall₂_same.2 fun x hx => .of_reaches w.heap x fun c hc => ?_
    exact ⟨rfl, name, v, hv, hb.trans hx hc⟩

end Scope

/-! ## First elements in place of indices -/

namespace Expr

/-- One plain index. -/
def isPlainIndex (indices : List String) : List Expr → Bool
  | [name i _] => indices.contains i
  | _ => false

/-- The expressions that stand in front of a bracket: names that are no indices, fields, calls, and
brackets that hold one plain index or no names. -/
def isBase (indices : List String) : Expr → Bool
  | name id _ => !indices.contains id
  | number .. => true
  | field b _ _ => isBase indices b
  | call _ args _ => areBases args
  | index b keys _ => isBase indices b && (isPlainIndex indices keys || !keys.any mentionsName)
  | _ => false
where
  areBases : List Expr → Bool
    | [] => true
    | e :: es => isBase indices e && areBases es

/-- Every index in `es` picks an element of a row: where the value it is applied to can be evaluated, with
the values `env` of the indices, it is one. -/
def PicksOfRows (scope : Scope) (indices : List String) (env : Env) (w : World) (es : List Expr) : Prop :=
  ∀ b i p q, .index b [.name i p] q ∈ es → i ∈ indices →
    ∀ v u, exec (b.eval scope indices env) w = (.ok v, u) → v.IsRow u.heap

end Expr

/-- Position zero of what gives a row agrees with the first element. -/
theorem Code.Agree.zero_first {c c' : Code} (hc : Agree scope w R₀ env env' c c')
    (hself : Agree scope w R₀ env env c c) (hlinked : ∀ u, w.Keeps u → Linked R₀ u.heap w.heap)
    (hrow : ∀ v u, exec (c.run scope env) w = (.ok v, u) → v.IsRow u.heap) {i : String}
    (hi : env.lookup i = some 0) : Agree scope w R₀ env env' (.get c [.index i]) (.first c') := by
  intro R hR u u' hu hl
  obtain ⟨R₁, hR₁, hkeeps, hl₁, hboth⟩ := hc R hR u u' hu hl
  -- The row that is seen at the start is also seen here.
  obtain ⟨R₂, -, -, hl₂, hstart⟩ := hself R₀ le_rfl u w hu (hlinked u hu)
  rcases hv : exec (c.run scope env) u with ⟨e | v, u₁⟩ <;>
    rcases hv' : exec (c'.run scope env') u' with ⟨e' | v', u₁'⟩ <;>
    rw [hv, hv'] at hboth hl₁ <;> rw [hv] at hkeeps hl₂ hstart
  · have hget : exec ((Code.get c [.index i]).run scope env) u = (.error e, u₁) :=
      Run.exec_bind_error hv
    have hfirst : exec ((Code.first c').run scope env') u' = (.error e', u₁') := Run.exec_bind_error hv'
    rw [hget, hfirst]
    exact ⟨R₁, hR₁, hkeeps, hl₁, hboth⟩
  · exact hboth.elim
  · exact hboth.elim
  · rcases hx : exec (c.run scope env) w with ⟨e | x, w₁⟩ <;> rw [hx] at hl₂ hstart
    · exact hstart.elim
    have hrow := (hrow x w₁ hx).of_twins hl₂ hstart
    obtain ⟨y, y', u₂, hy, hy', hl', htwins⟩ := hrow.exists_first hl₁ hboth
    have hkeys : exec (run.runAll scope env [.index i]) u₁ = (.ok [.int 0], u₁) := by
      simp only [run.runAll, run, hi]
      rfl
    have hget : exec ((Code.get c [.index i]).run scope env) u = (.ok y, u₁) :=
      (Run.exec_bind_ok hv).trans ((Run.exec_bind_ok hkeys).trans hy)
    have hfirst : exec ((Code.first c').run scope env') u' = (.ok y', u₂) :=
      (Run.exec_bind_ok hv').trans hy'
    rw [hget, hfirst]
    exact ⟨R₁, hR₁, hkeeps, hl', htwins⟩

namespace Expr

variable {indices : List String}

theorem exists_of_isPlainIndex {keys : List Expr} (h : isPlainIndex indices keys = true) :
    ∃ i p, keys = [.name i p] ∧ i ∈ indices := by
  unfold isPlainIndex at h
  split at h
  · exact ⟨_, _, rfl, by simpa using h⟩
  · cases h

theorem isBase_index {b : Expr} {keys : List Expr} {pos : Option Pos} :
    (index b keys pos).isBase indices = true ↔
      b.isBase indices = true ∧ (isPlainIndex indices keys = true ∨ keys.any mentionsName = false) := by
  simp [isBase]

theorem name_notMem_of_nameless {keys : List Expr} (h : keys.any mentionsName = false) (i : String)
    (pos : Option Pos) : .name i pos ∉ walk.walkAll keys := by
  induction keys with
  | nil => simp [walk.walkAll]
  | cons e es ih =>
    rw [List.any_cons, Bool.or_eq_false_iff] at h
    rw [walk.walkAll, List.mem_append]
    rintro (hi | hi)
    · have hnames := List.any_eq_false.1 h.1 _ hi
      exact hnames rfl
    · exact ih h.2 hi

/-- What is called in `es` is pure, and its indices pick elements of rows. -/
structure Sourced (scope : Scope) (indices : List String) (env : Env) (w : World) (es : List Expr) :
    Prop where
  pure : CallsPure scope w es
  rows : PicksOfRows scope indices env w es

theorem Sourced.mono {es es' : List Expr} (h : Sourced scope indices env w es) (hsub : es' ⊆ es) :
    Sourced scope indices env w es' :=
  ⟨fun f args pos name hf => h.pure f args pos name (hsub hf), fun b i p q hb => h.rows b i p q (hsub hb)⟩

mutual

/-- A base expression and its axis source fail to resolve alike, or come to twins. -/
theorem axisSource_agree (henv : ∀ i ∈ indices, env.lookup i = some 0) (hbound : scope.Within w)
    (e : Expr) (hbase : e.isBase indices = true) (h : Sourced scope indices env w e.walk) :
    Paired (Code.Agree scope w (scope.held w.heap) env []) (e.resolve scope indices)
      (e.axisSource.resolve scope indices) := by
  have hconst (name : String) (v : Value) (hv : scope.lookup name = .ok v) :
      Twins (scope.held w.heap) v v := Scope.twins_of_lookup hv
  cases e with
  | name id pos =>
    have hid : indices.contains id = false := by simpa [isBase] using hbase
    simp only [axisSource, resolve, hid, Bool.false_eq_true, if_false]
    cases hv : scope.lookup id with
    | error e => exact .error e
    | ok v => exact .ok (.value (hconst id v hv))
  | number v pos => exact .ok (.value (.flat (Value.isFlat_ofLiteral v)))
  | field b n pos =>
    refine (axisSource_agree henv hbound b hbase (h.mono (by simp [walk]))).bind fun c c' hc => ?_
    exact .ok (hc.field n)
  | call f args pos =>
    simp only [axisSource, resolve]
    cases hv : scope.lookup f with
    | error e => exact .error e
    | ok v =>
      dsimp only [bind, Except.bind]
      split
      · refine (axisSources_agree henv hbound args hbase (h.mono (by simp [walk]))).bind fun cs cs' hcs => ?_
        exact .ok (.call (fun name hname => h.pure f args pos name (.head _) (hname ▸ hv)) hcs)
      · exact .error _
  | index b keys pos =>
    obtain ⟨hb, hkeys⟩ := isBase_index.1 hbase
    have ih := axisSource_agree henv hbound b hb (h.mono (by simp [walk]))
    rcases hkeys with hplain | hnameless
    · obtain ⟨i, p, rfl, hi⟩ := exists_of_isPlainIndex hplain
      have hsource : (index b [.name i p] pos).axisSource = first b.axisSource none := rfl
      have hindex : resolve.resolveAll scope indices [.name i p] = .ok [.index i] := by
        have hcontains : indices.contains i = true := by simpa using hi
        simp only [resolve.resolveAll, resolve, hcontains, if_true]
        rfl
      have hbase : Settled scope w env env b.walk :=
        ⟨(h.mono (by simp [walk])).pure, fun _ _ _ => rfl⟩
      have hself := resolve_agree hconst indices b hbase
      rw [hsource, resolve, resolve, hindex]
      rcases ih.exists_or with ⟨c, c', hc, hc', hagree⟩ | ⟨e, hc, hc'⟩
      · rw [hc] at hself
        rw [hc, hc']
        cases hself with
        | ok hself =>
          refine .ok (hagree.zero_first hself (fun u => Scope.linked_held hbound) (fun v u hv => ?_) (henv i hi))
          exact h.rows b i p pos (.head _) hi v u (by rwa [eval_of_resolve hc])
      · rw [hc, hc']
        exact .error e
    · have hsource : (index b keys pos).axisSource = index b.axisSource keys none := by
        simp only [axisSource, hnameless, Bool.false_eq_true, if_false]
      have hsettled : Settled scope w env [] (walk.walkAll keys) :=
        ⟨(h.mono (by simp [walk])).pure, fun i p hi => absurd hi (name_notMem_of_nameless hnameless i p)⟩
      rw [hsource, resolve, resolve]
      refine ih.bind fun c c' hc => (resolveAll_agree hconst indices keys hsettled).bind fun cs cs' hcs => ?_
      exact .ok (hc.get hcs)
  | _ => cases hbase

theorem axisSources_agree (henv : ∀ i ∈ indices, env.lookup i = some 0) (hbound : scope.Within w)
    (es : List Expr) (hbase : isBase.areBases indices es = true)
    (h : Sourced scope indices env w (walk.walkAll es)) :
    Paired (List.Forall₂ (Code.Agree scope w (scope.held w.heap) env [])) (resolve.resolveAll scope indices es)
      (resolve.resolveAll scope indices (axisSource.axisSources es)) := by
  cases es with
  | nil => exact .ok .nil
  | cons e es =>
    obtain ⟨he, hes⟩ := Bool.and_eq_true_iff.1 hbase
    refine (axisSource_agree henv hbound e he (h.mono (by simp [walk.walkAll]))).bind fun c c' hc => ?_
    refine (axisSources_agree henv hbound es hes (h.mono (by simp [walk.walkAll]))).bind fun cs cs' hcs => ?_
    exact .ok (.cons hc hcs)

end

mutual

theorem notMem_of_name_mem_axisSource (e : Expr) (hbase : e.isBase indices = true) (i : String)
    (pos : Option Pos) (hi : .name i pos ∈ e.axisSource.walk) : i ∉ indices := by
  cases e with
  | name id p =>
    obtain ⟨rfl, -⟩ : i = id ∧ pos = p := by simpa [axisSource, walk] using hi
    simpa [isBase] using hbase
  | number v p => simp [axisSource, walk] at hi
  | field b n p =>
    have hi : .name i pos ∈ b.axisSource.walk := by simpa [axisSource, walk] using hi
    exact notMem_of_name_mem_axisSource b hbase i pos hi
  | call f args p =>
    have hi : .name i pos ∈ walk.walkAll (axisSource.axisSources args) := by
      simpa [axisSource, walk] using hi
    exact notMem_of_name_mem_axisSources args hbase i pos hi
  | index b keys p =>
    have ih := notMem_of_name_mem_axisSource b (isBase_index.1 hbase).1 i pos
    rw [axisSource] at hi
    split at hi
    · exact ih (by simpa [walk] using hi)
    · rename_i hnamed
      have hi : .name i pos ∈ b.axisSource.walk ∨ .name i pos ∈ walk.walkAll keys := by
        simpa [walk] using hi
      exact hi.elim ih fun hi => absurd hi (name_notMem_of_nameless (by simpa using hnamed) i pos)
  | _ => cases hbase

theorem notMem_of_name_mem_axisSources (es : List Expr) (hbase : isBase.areBases indices es = true)
    (i : String) (pos : Option Pos) (hi : .name i pos ∈ walk.walkAll (axisSource.axisSources es)) :
    i ∉ indices := by
  cases es with
  | nil => simp [axisSource.axisSources, walk.walkAll] at hi
  | cons e es =>
    obtain ⟨he, hes⟩ := Bool.and_eq_true_iff.1 hbase
    rw [axisSource.axisSources, walk.walkAll, List.mem_append] at hi
    exact hi.elim (notMem_of_name_mem_axisSource e he i pos) (notMem_of_name_mem_axisSources es hes i pos)

end

/-- **Axis sources evaluate to the first inner value.** An expression is made of names that are no
indices, fields, calls of pure functions, and brackets that hold no names or one plain index; where an
index is applied, it is to a list, a tuple or an array of one dimension that is not empty. Then its axis
source mentions no index, and evaluated without indices it comes to what the expression comes to with all
indices zero: the same error, or a value that looks the same. -/
theorem axisSource_at_zero (henv : ∀ i ∈ indices, env.lookup i = some 0) (hbound : scope.Within w)
    {e : Expr} (hbase : e.isBase indices = true) (hpure : CallsPure scope w e.walk)
    (hrows : PicksOfRows scope indices env w e.walk) :
    (∀ i pos, .name i pos ∈ e.axisSource.walk → i ∉ indices) ∧
      outcome (e.axisSource.eval scope indices []) w = outcome (e.eval scope indices env) w := by
  refine ⟨notMem_of_name_mem_axisSource e hbase, ?_⟩
  have hlinked := Scope.linked_held hbound (.refl w)
  rcases (axisSource_agree henv hbound e hbase ⟨hpure, hrows⟩).exists_or with
    ⟨c, c', hc, hc', hagree⟩ | ⟨err, hc, hc'⟩
  · obtain ⟨R, -, -, hl, hboth⟩ := hagree _ le_rfl w w (.refl w) hlinked
    rw [eval_of_resolve hc, eval_of_resolve hc', outcome, outcome]
    generalize exec (c.run scope env) w = r, exec (c'.run scope []) w = r' at hl hboth
    obtain ⟨e | v, u⟩ := r <;> obtain ⟨e' | v', u'⟩ := r'
    · exact congrArg Except.error (Eq.symm hboth)
    · exact hboth.elim
    · exact hboth.elim
    · exact congrArg Except.ok (hl.look_eq hboth).symm
  · rw [eval, eval, hc, hc']
    rfl

end Expr

/-- A function that makes a list of its argument, twice. -/
def pairing : Scope where
  bindings := [("C", .array ⟨0, .object, 0, [2], [1]⟩), ("twice", .function (.supplied "twice"))]
  supplied _ args := if h : args.length = 1 then Run.newList [args[0], args[0]] else Run.fail .wrongKind

/-- An array of two records, each with a list. -/
def pairingWorld : World where
  heap := #[#[.record [("vec", .list 1)], .record [("vec", .list 2)]], #[.int 5, .int 7], #[.int 9]]

/-- `twice(C[j].vec)[1]` -/
def pairedList : Expr :=
  .index (.call "twice" [.field (.index (.name "C" none) [.name "j" none] none) "vec" none] none)
    [.number (.int 1) none] none

/-- `twice(C[j].vec)[1][i]` -/
def pairedItem : Expr := .index pairedList [.name "i" none] none

theorem pairing_isPure (name : String) : pairing.IsPure pairingWorld name := by
  intro R args args' hargs
  rcases hargs with _ | ⟨hv, _ | ⟨_, _⟩⟩
  · exact (mirroring _).throw _
  · exact Value.mirroring_newList (.cons hv (.cons hv .nil))
  · exact (mirroring _).throw _

theorem pairing_within : pairing.Within pairingWorld := by
  have hlist {c b : Nat} (hc : c = 1 ∨ c = 2) (hb : (Value.list c).Reaches pairingWorld.heap b) : b < 3 := by
    cases hb with
    | list => omega
    | @listItem _ _ x hx hb =>
      have hint : x = .int 5 ∨ x = .int 7 ∨ x = .int 9 := by
        rcases hc with rfl | rfl
        · have : x = .int 5 ∨ x = .int 7 := by simpa [pairingWorld, Heap.block] using hx
          exact this.imp_right .inl
        · exact .inr (.inr (by simpa [pairingWorld, Heap.block] using hx))
      rcases hint with rfl | rfl | rfl <;> cases hb
  intro name v hv b hb
  have hall : ∀ p ∈ pairing.bindings, p.2 = .array ⟨0, .object, 0, [2], [1]⟩ ∨
      p.2 = .function (.supplied "twice") := by simp [pairing]
  obtain rfl | rfl := hall (name, v) (Env.mem_of_lookup hv)
  · cases hb with
    | array => decide
    | @arrayCell _ _ x hx hb =>
      have hrecord : x = .record [("vec", .list 1)] ∨ x = .record [("vec", .list 2)] := by
        simpa [pairingWorld, Heap.block] using hx
      rcases hrecord with rfl | rfl <;> cases hb with
      | recordField hf hb =>
        obtain ⟨-, rfl⟩ := Prod.mk.inj (List.mem_singleton.1 hf)
        exact hlist (by decide) hb
  · cases hb

theorem pairing_picksOfRows :
    Expr.PicksOfRows pairing ["i", "j"] [("i", 0), ("j", 0)] pairingWorld pairedItem.walk := by
  intro b i p q hb hi v u hv
  have hbases : b = pairedList ∧ i = "i" ∧ p = none ∧ q = none ∨
      b = .name "C" none ∧ i = "j" ∧ p = none ∧ q = none := by
    simpa [pairedItem, pairedList, Expr.walk, Expr.walk.walkAll, and_assoc] using hb
  rcases hbases with ⟨rfl, -⟩ | ⟨rfl, -⟩
  · cases hv
    exact .list rfl
  · cases hv
    exact .array rfl rfl

theorem Expr.axisSource_at_zero_paired :
    pairing.Within pairingWorld ∧ pairedItem.isBase ["i", "j"] = true ∧
      CallsPure pairing pairingWorld pairedItem.walk ∧
      PicksOfRows pairing ["i", "j"] [("i", 0), ("j", 0)] pairingWorld pairedItem.walk ∧
      (exec (pairedItem.eval pairing ["i", "j"] [("i", 0), ("j", 0)]) pairingWorld).1 = .ok (.int 5) ∧
      (∀ i pos, .name i pos ∈ pairedItem.axisSource.walk → i ∉ ["i", "j"]) ∧
      outcome (pairedItem.axisSource.eval pairing ["i", "j"] []) pairingWorld =
        outcome (pairedItem.eval pairing ["i", "j"] [("i", 0), ("j", 0)]) pairingWorld :=
  have hpure : CallsPure pairing pairingWorld pairedItem.walk := fun _ _ _ name _ _ => pairing_isPure name
  ⟨pairing_within, by decide, hpure, pairing_picksOfRows, rfl,
    axisSource_at_zero (by decide) pairing_within (by decide) hpure pairing_picksOfRows⟩

end IndexNotation
