import Mathlib.Data.Int.ModEq
import Mathlib.Algebra.BigOperators.Group.List.Basic
import IndexNotation.Proofs.Sums

/-!
# Arithmetic of residues

Integers of a fixed width are residues: sums, differences, products and signs of the numbers in the
cells are those of the unbounded integers, wrapped. A kernel of such operations that adds up or
multiplies therefore returns the wrapped results of exact arithmetic, whatever the order of its loops.
-/

namespace IndexNotation

open Run (exec outcome Keeps PureFrom Determined)

/-! ## Residues -/

namespace IntType

variable (t : IntType)

theorem wrap_modEq (n : Int) : t.wrap n ≡ n [ZMOD Number.twoTo t.bits] := by
  have hmod := (Int.mod_modEq (n - t.least) (Number.twoTo t.bits)).add_right t.least
  rwa [Int.sub_add_cancel] at hmod

theorem wrap_eq_wrap_iff {m n : Int} : t.wrap m = t.wrap n ↔ m ≡ n [ZMOD Number.twoTo t.bits] := by
  constructor
  · intro h
    exact (t.wrap_modEq m).symm.trans (h ▸ t.wrap_modEq n)
  · intro h
    have hshift : (m - t.least) % (Number.twoTo t.bits : Int) = (n - t.least) % (Number.twoTo t.bits : Int) :=
      h.sub_right t.least
    rw [wrap, wrap, hshift]

theorem fits_wrap (n : Int) : t.fits (t.wrap n) = true := by
  cases t <;> simp only [fits, wrap, least, greatest, signed, bits, Number.twoTo, Bool.and_eq_true, decide_eq_true_eq] <;>
    norm_num <;> omega

theorem wrap_of_fits {t : IntType} {n : Int} (h : t.fits n = true) : t.wrap n = n := by
  cases t <;> simp only [fits, wrap, least, greatest, signed, bits, Number.twoTo, Bool.and_eq_true, decide_eq_true_eq] at h ⊢ <;>
    norm_num at h ⊢ <;> omega

end IntType

/-! ## Operators -/

/-- Sums, differences and products. -/
def BinaryOp.isRing : BinaryOp → Bool
  | add | sub | mul => true
  | _ => false

/-- What an operator does to unbounded integers. -/
def BinaryOp.exact : BinaryOp → Int → Int → Int
  | sub, m, n => m - n
  | mul, m, n => m * n
  | _, m, n => m + n

/-- Signs. -/
def UnaryOp.isSign : UnaryOp → Bool
  | neg | pos => true
  | other _ => false

/-- What a sign does to unbounded integers. -/
def UnaryOp.exact : UnaryOp → Int → Int
  | neg, n => -n
  | _, n => n

namespace IntType

variable (t : IntType)

theorem wrap_exact (op : BinaryOp) {m m' n n' : Int} (hm : t.wrap m = t.wrap m') (hn : t.wrap n = t.wrap n') :
    t.wrap (op.exact m n) = t.wrap (op.exact m' n') := by
  rw [wrap_eq_wrap_iff] at hm hn ⊢
  cases op with
  | sub => exact hm.sub hn
  | mul => exact hm.mul hn
  | add | div | floorDiv | mod | pow | caret | other _ => exact hm.add hn

set_option maxRecDepth 10000 in
theorem exec_binary {op : BinaryOp} (hop : op.isRing = true) (m n : Int) (w : World) :
    exec (Value.binary op (.scalar (.int t m)) (.scalar (.int t n))) w =
      (.ok (.scalar (.int t (t.wrap (op.exact m n)))), w) := by
  -- both operands are brought to the type of the result before they are combined
  have hexec : exec (Value.binary op (.scalar (.int t m)) (.scalar (.int t n))) w =
      (.ok (.scalar (.int t (t.wrap (op.exact (t.wrap (t.wrap m)) (t.wrap (t.wrap n)))))), w) := by
    cases op <;> cases hop <;> cases t <;> rfl
  have htwice (n : Int) : t.wrap (t.wrap (t.wrap n)) = t.wrap n := by rw [wrap_wrap, wrap_wrap]
  rw [hexec, t.wrap_exact op (htwice m) (htwice n)]

theorem exec_unary {op : UnaryOp} (hop : op.isSign = true) (n : Int) (w : World) :
    exec (Value.unary op (.scalar (.int t n))) w = (.ok (.scalar (.int t (t.wrap (op.exact n)))), w) := by
  cases op with
  | neg =>
    have hexec : exec (Value.unary .neg (.scalar (.int t n))) w =
        (.ok (.scalar (.int t (t.wrap (-t.wrap n)))), w) := by
      cases t <;> rfl
    rw [hexec, (t.wrap_eq_wrap_iff).2 (t.wrap_modEq n).neg, UnaryOp.exact]
  | pos => cases t <;> rfl
  | other s => cases hop

theorem wrap_sign (op : UnaryOp) (n : Int) : t.wrap (op.exact (t.wrap n)) = t.wrap (op.exact n) := by
  cases op with
  | neg => exact (t.wrap_eq_wrap_iff).2 (t.wrap_modEq n).neg
  | pos | other _ => exact t.wrap_wrap n

end IntType

/-! ## Trees of integers -/

/-- Whether a value is an integer of type `t`. -/
def Value.isInteger (t : IntType) : Value → Bool
  | .scalar (.int t' n) => t' == t && t.fits n
  | _ => false

/-- An array of integers of type `t`: there is one in each of its cells. -/
structure View.Integers (a : View) (t : IntType) (h : Heap) : Prop where
  type_eq : a.type = .int t
  exists_block : a.block < h.size
  strides : a.strides.length = a.shape.length
  cells : ∀ p ∈ a.places, ((h.block a.block).getD p .none).isInteger t = true

instance (a : View) (t : IntType) (h : Heap) : Decidable (a.Integers t h) :=
  decidable_of_iff (a.type = .int t ∧ a.block < h.size ∧ a.strides.length = a.shape.length ∧
      ∀ p ∈ a.places, ((h.block a.block).getD p .none).isInteger t = true)
    ⟨fun ⟨h₁, h₂, h₃, h₄⟩ => ⟨h₁, h₂, h₃, h₄⟩, fun ⟨h₁, h₂, h₃, h₄⟩ => ⟨h₁, h₂, h₃, h₄⟩⟩

theorem Value.eq_of_isInteger {t : IntType} {v : Value} (h : v.isInteger t = true) :
    ∃ n, t.fits n = true ∧ v = .scalar (.int t n) := by
  unfold isInteger at h
  split at h
  · rename_i t' n
    simp only [Bool.and_eq_true, beq_iff_eq] at h
    obtain ⟨rfl, hn⟩ := h
    exact ⟨n, hn, rfl⟩
  · cases h

theorem View.Integers.exists_integer {a : View} {t : IntType} {h : Heap} (ha : a.Integers t h) {ps : List Int}
    {p : Nat} (hp : a.place ps = some p) :
    ∃ n, t.fits n = true ∧ (h.block a.block).getD p .none = .scalar (.int t n) := by
  obtain ⟨steps, hsteps, rfl⟩ := Option.map_eq_some_iff.1 hp
  exact Value.eq_of_isInteger (ha.cells _ (mem_places _ hsteps))

/-- The integer at a position of an array. -/
def View.integer (a : View) (h : Heap) (ps : List Int) : Int :=
  match a.place ps with
  | some p => ((h.block a.block).getD p .none).repeatCount?.getD 0
  | none => 0

namespace Expr

/-- Trees of sums, differences, products and signs over references to arrays of integers of type `t`,
each with as many plain indices as the array has dimensions. -/
inductive Integral (scope : Scope) (names : List String) (t : IntType) (h : Heap) : Expr → Prop where
  | reference {e : Expr} {name : String} {indices : List String} {a : View} : e.Reads name indices →
      name ∉ names → scope.bindings.lookup name = some (.array a) → a.Integers t h →
      indices.length = a.shape.length → Integral scope names t h e
  | binary {l r : Expr} {op : BinaryOp} (pos : Option Pos) : op.isRing = true →
      Integral scope names t h l → Integral scope names t h r → Integral scope names t h (.binary l op r pos)
  | unary {e : Expr} {op : UnaryOp} (pos : Option Pos) : op.isSign = true →
      Integral scope names t h e → Integral scope names t h (.unary op e pos)

/-- Whether a tree is one of integers. -/
def isIntegral (scope : Scope) (names : List String) (t : IntType) (h : Heap) : Expr → Bool
  | .index (.name id _) keys _ =>
    match scope.bindings.lookup id with
    | some (.array a) => !names.contains id && keys.all isName && keys.length == a.shape.length && decide (a.Integers t h)
    | _ => false
  | .binary l op r _ => op.isRing && isIntegral scope names t h l && isIntegral scope names t h r
  | .unary op e _ => op.isSign && isIntegral scope names t h e
  | _ => false

theorem integral_of_isIntegral {scope : Scope} {names : List String} {t : IntType} {h : Heap} {e : Expr}
    (he : e.isIntegral scope names t h = true) : e.Integral scope names t h := by
  fun_induction isIntegral scope names t h e with
  | case1 id pos keys pos' a ha =>
    simp only [Bool.and_eq_true, beq_iff_eq, decide_eq_true_eq] at he
    obtain ⟨⟨⟨hfree, hnames⟩, hlen⟩, hint⟩ := he
    have hkeys := map_name?_of_all hnames
    refine .reference ⟨pos, keys, pos', rfl, hkeys⟩ (by simpa using hfree) ha hint ?_
    rw [← hlen]
    simpa using (congrArg List.length hkeys).symm
  | case2 => cases he
  | case3 l op r pos ihl ihr =>
    simp only [Bool.and_eq_true] at he
    exact .binary pos he.1.1 (ihl he.1.2) (ihr he.2)
  | case4 op e pos ih =>
    simp only [Bool.and_eq_true] at he
    exact .unary pos he.1 (ih he.2)
  | case5 => cases he

/-- The value of a tree over the unbounded integers. -/
def exact (scope : Scope) (h : Heap) (env : Env) : Expr → Int
  | .index (.name id _) keys _ =>
    match scope.bindings.lookup id with
    | some (.array a) => a.integer h ((symbolNames keys).map fun i => (env.lookup i).getD 0)
    | _ => 0
  | .binary l op r _ => op.exact (exact scope h env l) (exact scope h env r)
  | .unary op e _ => op.exact (exact scope h env e)
  | _ => 0

theorem symbolNames_eq {keys : List Expr} {indices : List String}
    (h : keys.map Expr.name? = indices.map some) : symbolNames keys = indices := by
  have hfilter := congrArg (List.filterMap id) h
  rwa [List.filterMap_map, List.filterMap_map, Function.id_comp, Function.id_comp, List.filterMap_some] at hfilter

theorem Reads.exact {e : Expr} {name : String} {indices : List String} (h : e.Reads name indices)
    {scope : Scope} {a : View} (hlookup : scope.bindings.lookup name = some (.array a)) (heap : Heap) (env : Env) :
    e.exact scope heap env = a.integer heap (indices.map fun i => (List.lookup i env).getD 0) := by
  obtain ⟨pos, keys, pos', rfl, hkeys⟩ := h
  rw [Expr.exact, hlookup, symbolNames_eq hkeys]

end Expr

theorem map_getD_of_mapM {indices : List String} {env : Env} {vs : List Int}
    (h : indices.mapM (fun i => List.lookup i env) = some vs) :
    indices.map (fun i => (List.lookup i env).getD 0) = vs := by
  induction indices generalizing vs with
  | nil => simpa using h
  | cons i indices ih =>
    rw [List.mapM_cons] at h
    obtain ⟨v, hv, h⟩ := Option.bind_eq_some_iff.1 h
    obtain ⟨vs', hvs', h⟩ := Option.bind_eq_some_iff.1 h
    cases h
    rw [List.map_cons, ih hvs', hv, Option.getD_some]

/-- What is read at indices that have values is the integer there. -/
theorem View.Integers.readAt {a : View} {t : IntType} {h : Heap} (ha : a.Integers t h) {indices : List String}
    {env : Env} {v : Value} (hv : a.readAt h indices env = .ok v) :
    v = .scalar (.int t (t.wrap (a.integer h (indices.map fun i => (List.lookup i env).getD 0)))) := by
  unfold View.readAt at hv
  split at hv
  · rename_i vs hvs
    have hmap := map_getD_of_mapM hvs
    split at hv
    · rename_i p hp
      obtain ⟨n, hn, hcell⟩ := ha.exists_integer hp
      cases hv
      rw [hmap, View.integer, hp]
      simp only [hcell, Value.repeatCount?, Option.getD_some, IntType.wrap_of_fits hn]
    · cases hv
  · cases hv

theorem Expr.allReferences_names {keys : List Expr} {indices : List String}
    (h : keys.map Expr.name? = indices.map some) : Expr.references.allReferences keys = [] := by
  induction keys generalizing indices with
  | nil => rfl
  | cons key keys ih =>
    obtain _ | ⟨i, indices⟩ := indices
    · cases h
    · simp only [List.map_cons, List.cons.injEq] at h
      obtain ⟨pos, rfl⟩ := Expr.eq_name_of_name? h.1
      exact ih h.2

theorem Reference.lt_of_mem_axesFrom {source : Expr} {dim d : Nat} {es : List Expr} {i : String}
    (h : (i, .array source d) ∈ axesFrom source dim es) : d < dim + es.length := by
  induction es generalizing dim with
  | nil => cases h
  | cons e es ih =>
    have hrest (h : (i, Axis.array source d) ∈ axesFrom source (dim + 1) es) : d < dim + (es.length + 1) := by
      have := ih h
      omega
    cases e with
    | name id pos =>
      rcases List.mem_cons.1 h with h | h
      · cases h
        exact Nat.lt_add_of_pos_right (Nat.succ_pos _)
      · exact hrest h
    | _ => exact hrest h

/-- The axes of a tree of integers are dimensions of its arrays. -/
theorem Expr.Integral.isPlain {scope : Scope} {names : List String} {t : IntType} {heap : Heap} {e : Expr}
    (h : e.Integral scope names t heap) {p : String × Axis} (hp : p ∈ (Collection.ofExpr e).axes) :
    p.2.isPlain scope names = true := by
  obtain ⟨r, hr, hr'⟩ := List.mem_flatMap.1 hp
  clear hp
  change r ∈ e.references at hr
  induction h with
  | @reference e name indices a hreads hname hlookup ha hlen =>
    obtain ⟨pos, keys, pos', rfl, hkeys⟩ := hreads
    rw [Expr.references, Expr.allReferences_names hkeys, List.append_nil] at hr
    obtain rfl := List.mem_singleton.1 hr
    obtain ⟨i, axis⟩ := p
    obtain ⟨d, rfl⟩ := Reference.eq_array_of_mem_axesFrom hr'
    have hd : d < 0 + keys.length := Reference.lt_of_mem_axesFrom hr'
    have hrank : keys.length = a.shape.length := by
      rw [← hlen]
      simpa using congrArg List.length hkeys
    change (Axis.array (.name name pos) d).isPlain scope names = true
    simp only [Axis.isPlain, hlookup, Bool.and_eq_true, decide_eq_true_eq]
    exact ⟨by simpa using hname, by omega⟩
  | binary pos hop hl hr ihl ihr => exact (List.mem_append.1 ‹_›).elim ihl ihr
  | unary pos hop he ih => exact ih hr

/-- A computation that changes nothing. It gives nothing but `n`, wrapped, and it gives that if `within`. -/
def Run.Computes (w : World) (t : IntType) (within : Prop) (n : Int) (x : Run Value) : Prop :=
  ∃ o : Except Error Value, (∀ u, w.Keeps u → exec x u = (o, u)) ∧
    (∀ v, o = .ok v → v = .scalar (.int t (t.wrap n))) ∧ (within → ∃ v, o = .ok v)

namespace Run

variable {w : World} {t : IntType} {within : Prop} {m n : Int} {x : Run Value}

theorem Computes.mono {within' : Prop} (h : Computes w t within n x) (hsub : within' → within) :
    Computes w t within' n x := by
  obtain ⟨o, hexec, hvalue, hok⟩ := h
  exact ⟨o, hexec, hvalue, fun h => hok (hsub h)⟩

theorem computes_of_exec (h : ∀ u, exec x u = (.ok (.scalar (.int t (t.wrap n))), u)) :
    Computes w t within n x :=
  ⟨_, fun u _ => h u, fun _ hv => (Except.ok.inj hv).symm, fun _ => ⟨_, rfl⟩⟩

theorem Computes.bind (hx : Computes w t within m x) {f : Value → Run Value}
    (hf : Computes w t within n (f (.scalar (.int t (t.wrap m))))) : Computes w t within n (x >>= f) := by
  obtain ⟨o, hexec, hvalue, hok⟩ := hx
  cases o with
  | error e =>
    refine ⟨.error e, fun u hu => exec_bind_error (hexec u hu), fun v hv => ?_, fun hwithin => ?_⟩
    · cases hv
    · obtain ⟨v, hv⟩ := hok hwithin
      cases hv
  | ok v =>
    obtain rfl := hvalue v rfl
    obtain ⟨o', hexec', hvalue', hok'⟩ := hf
    exact ⟨o', fun u hu => (exec_bind_ok (hexec u hu)).trans (hexec' u hu), hvalue', hok'⟩

end Run

/-- The values of the indices are within all arrays that a tree refers to. -/
def Expr.Within (scope : Scope) (env : Env) (e : Expr) : Prop :=
  ∀ name pos keys a, Expr.Refers (.name name pos) keys e → scope.bindings.lookup name = some (.array a) →
    env.Fits keys a.shape

/-- A tree of integers can be resolved; it then computes its exact value and changes nothing. -/
theorem Expr.Integral.computes {scope : Scope} {names : List String} {t : IntType} {w : World} {e : Expr}
    (h : e.Integral scope names t w.heap)
    (hnames : ∀ base keys, Expr.Refers base keys e → ∀ i ∈ symbolNames keys, i ∈ names) :
    ∃ code, e.resolve scope names = .ok code ∧ ∀ env, Keeps (code.run scope env) ∧
      Run.Computes w t (e.Within scope env) (e.exact scope w.heap env) (code.run scope env) := by
  induction h with
  | @reference e name indices a hreads hname hlookup ha hlen =>
    obtain ⟨pos, keys, pos', he, hkeys⟩ := id hreads
    have hrefers : Expr.Refers (.name name pos) keys e := he ▸ .here pos'
    have hmem (i : String) (hi : i ∈ indices) : i ∈ names :=
      hnames _ keys hrefers i (Expr.symbolNames_eq hkeys ▸ hi)
    refine ⟨_, hreads.resolve hname hlookup hmem, fun env => ⟨fun u => ?_,
      a.readAt w.heap indices env, fun u hu => ?_, fun v hv => ?_, fun hwithin => ?_⟩⟩
    · rw [Code.exec_run_reference hlen]
      exact .refl u
    · rw [Code.exec_run_reference hlen, View.readAt, hu.2 _ ha.exists_block, View.readAt]
    · rw [hreads.exact hlookup, ha.readAt hv]
    · obtain ⟨vs, hvs, hinside⟩ := (hwithin name pos keys a hrefers hlookup).exists_values hkeys hlen
      obtain ⟨p, hp⟩ := View.exists_place ha.strides hinside
      simp only [View.readAt, hvs, hp]
      exact ⟨_, rfl⟩
  | @binary l r op pos hop hl hr ihl ihr =>
    obtain ⟨cl, hcl, hl⟩ := ihl fun base keys h => hnames base keys (.left op r pos h)
    obtain ⟨cr, hcr, hr⟩ := ihr fun base keys h => hnames base keys (.right l op pos h)
    refine ⟨.binary op cl cr, ?_, fun env => ?_⟩
    · cases op <;> cases hop <;> simp only [Expr.resolve, hcl, hcr] <;> rfl
    · obtain ⟨⟨keepsl, hl⟩, keepsr, hr⟩ := And.intro (hl env) (hr env)
      refine ⟨keepsl.bind fun _ => keepsr.bind fun _ => (Value.calm_binary op _ _).keeps, ?_⟩
      have hleft (hwithin : Expr.Within scope env (.binary l op r pos)) : l.Within scope env :=
        fun name pos' keys a h => hwithin name pos' keys a (.left op r pos h)
      have hright (hwithin : Expr.Within scope env (.binary l op r pos)) : r.Within scope env :=
        fun name pos' keys a h => hwithin name pos' keys a (.right l op pos h)
      refine (hl.mono hleft).bind ((hr.mono hright).bind (Run.computes_of_exec fun u => ?_))
      rw [t.exec_binary hop, t.wrap_exact op (t.wrap_wrap _) (t.wrap_wrap _), Expr.exact]
  | @unary e op pos hop he ih =>
    obtain ⟨c, hc, he⟩ := ih fun base keys h => hnames base keys (.operand op pos h)
    refine ⟨.unary op c, ?_, fun env => ?_⟩
    · cases op <;> cases hop <;> simp only [Expr.resolve, hc] <;> rfl
    · obtain ⟨keeps, he⟩ := he env
      refine ⟨keeps.bind fun _ => (Value.calm_unary op _).keeps, ?_⟩
      have hoperand (hwithin : Expr.Within scope env (.unary op e pos)) : e.Within scope env :=
        fun name pos' keys a h => hwithin name pos' keys a (.operand op pos h)
      refine (he.mono hoperand).bind (Run.computes_of_exec fun u => ?_)
      rw [t.exec_unary hop, t.wrap_sign op, Expr.exact]

/-! ## Reductions of integers -/

/-- The integer that a reduction starts from. -/
def Reduction.exactStart (r : Reduction) : Int :=
  match r.init with
  | some (.number (.int n) _) => n
  | _ => if r.op == "*" then 1 else 0

/-- A reduction that adds up or multiplies, from zero or one or what the operator starts from. -/
structure Reduction.Integral (r : Reduction) : Prop where
  op : r.op = "+" ∨ r.op = "*"
  init : r.init = none ∨ ∃ n pos, r.init = some (.number (.int n) pos) ∧ (n = 0 ∨ n = 1)

def Reduction.isIntegral (r : Reduction) : Bool :=
  (r.op == "+" || r.op == "*") && match r.init with
    | none => true
    | some (.number (.int n) _) => n == 0 || n == 1
    | _ => false

theorem Reduction.integral_of_isIntegral {r : Reduction} (h : r.isIntegral = true) : r.Integral := by
  simp only [isIntegral, Bool.and_eq_true, Bool.or_eq_true, beq_iff_eq] at h
  obtain ⟨hop, hinit⟩ := h
  refine ⟨hop, ?_⟩
  split at hinit
  · exact .inl ‹_›
  · exact .inr ⟨_, _, ‹_›, by simpa using hinit⟩
  · cases hinit

/-- The operator that a reduction of integers applies. -/
def Reduction.folder (r : Reduction) : BinaryOp := if r.op == "*" then .mul else .add

/-- What the values of exact arithmetic are reduced to. -/
def Reduction.exactTotal (r : Reduction) (xs : List Int) : Int :=
  if r.op == "*" then r.exactStart * xs.prod else r.exactStart + xs.sum

theorem ElemType.isFlat_ofLiteral (t : ElemType) {n : Int} (hn : n = 0 ∨ n = 1) :
    (t.ofLiteral (.int n)).isFlat = true := by
  rcases hn with rfl | rfl <;> cases t <;> rfl

theorem IntType.ofLiteral_eq (t : IntType) {n : Int} (hn : n = 0 ∨ n = 1) :
    (ElemType.int t).ofLiteral (.int n) = .scalar (.int t (t.wrap n)) := by
  rcases hn with rfl | rfl <;> cases t <;> rfl

theorem Reduction.foldl_folder_comm (r : Reduction) (l m n : Int) :
    [m, n].foldl r.folder.exact l = [n, m].foldl r.folder.exact l := by
  simp only [List.foldl_cons, List.foldl_nil, folder]
  split
  · exact Int.mul_right_comm l m n
  · exact Int.add_right_comm l m n

namespace Reduction.Integral

variable {r : Reduction} (h : r.Integral)

include h

theorem exactStart_cases : r.exactStart = 0 ∨ r.exactStart = 1 := by
  rcases h.init with hinit | ⟨n, pos, hinit, hn⟩
  · rcases h.op with hop | hop <;> simp [exactStart, hinit, hop]
  · simpa only [exactStart, hinit] using hn

/-- The start value is that of exact arithmetic, in the type of the elements. -/
theorem initial_eq (t : ElemType) (eval : Expr → Run Value) :
    r.initial t eval = pure (t.ofLiteral (.int r.exactStart)) := by
  rcases h.init with hinit | ⟨n, pos, hinit, hn⟩
  · rcases h.op with hop | hop <;> simp [initial, exactStart, hinit, hop, ElemType.neutral]
  · have hzero : zeroOrOne? (.number (.int n) pos) = some (.int n) := by
      rcases hn with rfl | rfl <;> rfl
    simp only [initial, exactStart, hinit, hzero]

theorem isRing_folder : r.folder.isRing = true := by
  rcases h.op with hop | hop <;> simp [folder, hop, BinaryOp.isRing]

theorem apply_eq {scope : Scope} {f : Reducer} (hf : Reducer.ofName scope r.op = .ok f) (acc v : Value) :
    f.apply scope acc v = Value.binary r.folder acc v := by
  rcases h.op with hop | hop <;> rw [hop] at hf <;> cases hf <;> simp [Reducer.apply, folder, hop]

theorem foldl_exact (xs : List Int) (n : Int) : xs.foldl r.folder.exact n =
    if r.op == "*" then n * xs.prod else n + xs.sum := by
  induction xs generalizing n with
  | nil => simp
  | cons x xs ih =>
    rw [List.foldl_cons, ih]
    rcases h.op with hop | hop <;> simp [folder, hop, BinaryOp.exact] <;> ring

end Reduction.Integral

namespace IntType

/-- What comes of taking one more integer into an accumulator. -/
def merge (t : IntType) (op : BinaryOp) (a x : Look) : Except Error Look :=
  .ok (t.look (t.wrap (op.exact (number a) (number x))))

theorem merge_look (t : IntType) (op : BinaryOp) (m n : Int) :
    t.merge op (t.look (t.wrap m)) (t.look (t.wrap n)) = .ok (t.look (t.wrap (op.exact m n))) := by
  rw [merge, number_look, number_look, t.wrap_exact op (t.wrap_wrap m) (t.wrap_wrap n)]

theorem foldlM_merge (t : IntType) (op : BinaryOp) (ns : List Int) (n : Int) :
    (ns.map fun m => t.look (t.wrap m)).foldlM (t.merge op) (t.look (t.wrap n)) =
      .ok (t.look (t.wrap (ns.foldl op.exact n))) := by
  induction ns generalizing n with
  | nil => rfl
  | cons m ns ih =>
    rw [List.map_cons, List.foldlM_cons, merge_look, List.foldl_cons, ← ih]
    rfl

end IntType

/-! ## Kernels of integers -/

namespace Kernel

/-- A kernel of integers of type `t` that reduces, if it does, by adding up or multiplying. -/
structure Integral (k : Kernel) (scope : Scope) (w : World) (t : IntType) : Prop where
  rhs : k.statement.rhs.Integral scope k.analysis.indexNames t w.heap
  reduction : k.reductionIndices ≠ [] → k.analysis.reduction.Integral

/-- The value of a cell of the output in exact arithmetic. -/
def exactCell (k : Kernel) (scope : Scope) (h : Heap) (rs : Ranges) (c : Env) : Int :=
  if k.reductionIndices = [] then k.statement.rhs.exact scope h c
  else k.analysis.reduction.exactTotal
    ((rs.points k.reductionIndices).map fun q => k.statement.rhs.exact scope h (q ++ c))

theorem Planned.mem_indexNames_of_refers {k : Kernel} {read : Reduction.Partial} (hk : k.Planned read)
    {base : Expr} {keys : List Expr} (hrefers : Expr.Refers base keys k.statement.rhs) {i : String}
    (hi : i ∈ symbolNames keys) : i ∈ k.analysis.indexNames := by
  have hsymbol : i ∈ k.analysis.collection.indices := by
    rw [hk.collection]
    exact List.mem_flatMap.2 ⟨_, hrefers.mem_references, hi⟩
  exact List.mem_eraseDups.2 (List.mem_append_right _ hsymbol)

section

variable {k : Kernel} {read : Reduction.Partial} (hk : k.Planned read) {scope : Scope} {w : World}
  {t : IntType} (hrhs : k.statement.rhs.Integral scope k.analysis.indexNames t w.heap)

include hk hrhs

theorem Planned.computes_of_integral (env : Env) : Run.Computes w t (k.Safe scope (.evaluate env))
    (k.statement.rhs.exact scope w.heap env) (k.element scope env) := by
  obtain ⟨code, hcode, hcomputes⟩ := hrhs.computes fun base keys hrefers i hi =>
    hk.mem_indexNames_of_refers hrefers hi
  rw [element_of_resolve hcode]
  exact (hcomputes env).2

/-- The axes of references are dimensions of arrays, so a property that these have is one of all axes if
the bounds that are written have it. -/
theorem Planned.forall_axes_of_integral (hs : k.statement.allocates = true) {P : Axis → Prop}
    (hbounds : ∀ i axis, k.analysis.catalog.get? i = some axis → axis.isExplicit = true → P axis)
    (hplain : ∀ axis : Axis, axis.isPlain scope k.analysis.indexNames = true → P axis) :
    (∀ a ∈ k.analysis.catalog.axes, P a.2) ∧
      ∀ check ∈ k.analysis.catalog.checks, P check.expected ∧ P check.actual := by
  have hsound := (Reduction.sound_of_read hk.clause).1
  have hcatalog := hk.catalog
  rw [if_pos hs, ← Catalog.bindAll_append, ← Catalog.bindAll_append, List.append_nil] at hcatalog
  rw [hcatalog] at hbounds ⊢
  refine Catalog.forall_axes_bindAll fun p hp => ?_
  rcases List.mem_append.1 hp with hp | hp
  · refine hbounds p.1 p.2 ?_ (hsound.bounds_explicit p hp)
    rw [Catalog.get?_bindAll_empty, List.lookup_append,
      (Env.lookup_eq_some_iff hsound.bounds_nodup).2 hp]
    rfl
  · rw [hk.collection] at hp
    exact hplain p.2 (hrhs.isPlain hp)

/-- Only bounds that are written can come to something else later. -/
theorem Planned.determined_of_integral (hs : k.statement.allocates = true)
    (hbounds : ∀ i axis, k.analysis.catalog.get? i = some axis → axis.isExplicit = true →
      Determined w (axis.resolve scope k.analysis.indexNames)) (i : String) (axis : Axis)
    (hi : k.analysis.catalog.get? i = some axis) : Determined w (axis.resolve scope k.analysis.indexNames) :=
  (hk.forall_axes_of_integral hrhs hs hbounds fun _ h => Axis.determined_of_isPlain h w).1
    (i, axis) (Env.mem_of_lookup hi)

end

namespace Integral

variable {k : Kernel} {read : Reduction.Partial} (hk : k.Planned read) {scope : Scope} {w : World}
  {t : IntType} (h : k.Integral scope w t)

include hk h

theorem computes (env : Env) : Run.Computes w t (k.Safe scope (.evaluate env))
    (k.statement.rhs.exact scope w.heap env) (k.element scope env) :=
  hk.computes_of_integral h.rhs env

theorem outcome_element {env : Env} {l : Look} (hl : outcome (k.element scope env) w = .ok l) :
    l = t.look (t.wrap (k.statement.rhs.exact scope w.heap env)) := by
  obtain ⟨o, hexec, hvalue, -⟩ := h.computes hk env
  obtain ⟨v, u, hv, rfl⟩ := Run.outcome_eq_ok hl
  rw [hexec w (.refl w), Prod.mk.injEq] at hv
  rw [hvalue v hv.1, t.look_scalar]

theorem integral_of_reduction {r : Reduction} (hr : k.reduction = some r) : r.Integral := by
  have hne := hk.reductionIndices_ne hr
  rw [eq_of_reduction hr]
  exact h.reduction hne

/-- What a kernel of integers gives depends on the looks of values only. -/
theorem tame : k.Tame scope w (∃ n, · = t.look (t.wrap n)) (t.merge k.analysis.reduction.folder) where
  element env u hu := by
    obtain ⟨o, hexec, hvalue, -⟩ := h.computes hk env
    have hreach (v : Value) (hv : o = .ok v) (h : Heap) (b : Nat) : ¬ v.Reaches h b := by
      rw [hvalue v hv]
      exact Value.not_reaches_of_isFlat rfl b
    refine ⟨?_, fun v u' hv b hb => ?_⟩
    · rw [outcome, outcome, hexec u hu, hexec w (.refl w)]
      cases ho : o with
      | error e => rfl
      | ok v => exact congrArg Except.ok (Value.look_congr fun b hb => (hreach v ho _ b hb).elim)
    · rw [hexec u hu, Prod.mk.injEq] at hv
      exact (hreach v hv.1 _ b hb).elim
  value env l hl := ⟨_, h.outcome_element hk hl⟩
  initial r t' hr := by
    have hintegral := h.integral_of_reduction hk hr
    rw [hintegral.initial_eq]
    exact Run.pureFrom_pure (t'.isFlat_ofLiteral hintegral.exactStart_cases) w
  start r t' env x l hr hx htyped hl := by
    have hintegral := h.integral_of_reduction hk hr
    rw [h.outcome_element hk hx] at htyped
    obtain rfl := IntType.eq_of_typed htyped
    rw [hintegral.initial_eq, t.ofLiteral_eq hintegral.exactStart_cases] at hl
    exact ⟨_, (Except.ok.inj hl).symm.trans (t.look_scalar _ _)⟩
  closed a x l _ _ hl := ⟨_, (Except.ok.inj hl).symm⟩
  combine r f hr hf u acc v _ hacc hv _ _ := by
    have hintegral := h.integral_of_reduction hk hr
    obtain ⟨m, hm⟩ := hacc
    obtain ⟨n, hn⟩ := hv
    obtain rfl := IntType.eq_scalar_of_look hm
    obtain rfl := IntType.eq_scalar_of_look hn
    rw [← eq_of_reduction hr, hintegral.apply_eq hf]
    have hexec := t.exec_binary hintegral.isRing_folder (t.wrap m) (t.wrap n) u
    refine ⟨?_, fun x u' hx b hb => ?_⟩
    · rw [hm, hn, IntType.merge, IntType.number_look, IntType.number_look, ← t.look_scalar _ u.heap]
      exact Run.outcome_ok hexec
    · cases hexec.symm.trans hx
      cases hb

/-- The integers of a kernel may be taken in any order. -/
theorem exchangeable (still : k.analysis.catalog.Still scope k.analysis.indexNames)
    (hdet : ∀ i axis, k.analysis.catalog.get? i = some axis →
      Determined w (axis.resolve scope k.analysis.indexNames)) :
    k.Exchangeable scope w (∃ n, · = t.look (t.wrap n)) (t.merge k.analysis.reduction.folder) where
  toTame := h.tame hk
  never rs w' hranges env henv := by
    obtain ⟨-, hrs⟩ := still.resolved hranges
    obtain ⟨o, hexec, -, hsafe⟩ := h.computes hk env
    obtain ⟨v, rfl⟩ := hsafe (hk.safe_evaluate hrs hdet henv)
    exact ⟨_, Run.outcome_ok (hexec w (.refl w))⟩
  total a x _ _ := ⟨_, rfl⟩
  exchange a x y ha hx hy := by
    obtain ⟨m, rfl⟩ := ha
    obtain ⟨n, rfl⟩ := hx
    obtain ⟨n', rfl⟩ := hy
    have htake (n n' : Int) : (t.merge k.analysis.reduction.folder (t.look (t.wrap m)) (t.look (t.wrap n)) >>=
        (t.merge k.analysis.reduction.folder · (t.look (t.wrap n')))) =
        .ok (t.look (t.wrap ([n, n'].foldl k.analysis.reduction.folder.exact m))) :=
      t.foldlM_merge _ [n, n'] m
    rw [htake, htake, k.analysis.reduction.foldl_folder_comm]

/-- A kernel of integers changes nothing if its bounds do not. -/
theorem still (hs : k.statement.allocates = true)
    (hbounds : ∀ i axis, k.analysis.catalog.get? i = some axis → axis.isExplicit = true →
      Keeps (axis.resolve scope k.analysis.indexNames)) : k.Still scope where
  catalog := by
    obtain ⟨haxes, hchecks⟩ := hk.forall_axes_of_integral h.rhs hs hbounds fun _ => Axis.keeps_of_isPlain
    exact ⟨haxes, hchecks⟩
  element env := by
    obtain ⟨code, hcode, hcomputes⟩ := h.rhs.computes fun base keys hrefers i hi =>
      hk.mem_indexNames_of_refers hrefers hi
    rw [element_of_resolve hcode]
    exact (hcomputes env).1
  initial r t' hr := by
    rw [(h.integral_of_reduction hk hr).initial_eq]
    exact Run.keeps_pure _
  combine r f hr hf acc v := by
    rw [(h.integral_of_reduction hk hr).apply_eq hf]
    exact (Value.calm_binary _ _ _).keeps

theorem exists_start : ∃ init, outcome (k.start scope (.int t)) w = .ok init ∧
    (k.reductionIndices ≠ [] → init = t.look (t.wrap k.analysis.reduction.exactStart)) := by
  cases hr : k.reduction with
  | none =>
    refine ⟨_, outcome_start_of_none hr _ _, fun hne => absurd ?_ hne⟩
    rw [reductionIndices, hr]
    rfl
  | some r =>
    have hintegral := h.integral_of_reduction hk hr
    obtain ⟨f, hf⟩ : ∃ f, Reducer.ofName scope r.op = .ok f := by
      rcases hintegral.op with hop | hop <;> rw [hop] <;> exact ⟨_, rfl⟩
    refine ⟨_, ?_, fun _ => rfl⟩
    rw [start_eq_initial hr hf, hintegral.initial_eq, t.ofLiteral_eq hintegral.exactStart_cases,
      ← eq_of_reduction hr, ← t.look_scalar _ w.heap]
    rfl

/-- What a run of a kernel of integers comes to. -/
theorem exists_forecast {rs : Ranges} {w₁ : World}
    (hranges : exec (k.analysis.catalog.ranges scope k.analysis.indexNames) w = (.ok rs, w₁))
    (hne : ∀ i ∈ k.outputIndices ++ k.reductionIndices, (rs.get i).isEmpty = false)
    (hexch : k.Exchangeable scope w (∃ n, · = t.look (t.wrap n)) (t.merge k.analysis.reduction.folder)) :
    ∃ init, k.Forecast scope w rs (.int t) init ∧
      (k.reductionIndices ≠ [] → init = t.look (t.wrap k.analysis.reduction.exactStart)) := by
  obtain ⟨init, hstart, hinit⟩ := h.exists_start hk
  obtain ⟨env, henv⟩ := exists_sample hk hne
  obtain ⟨l, hl⟩ := hexch.never rs w₁ hranges env (covers_sample hk henv)
  obtain ⟨code, hcode, -⟩ := h.rhs.computes fun base keys hrefers i hi =>
    hk.mem_indexNames_of_refers hrefers hi
  refine ⟨init, ⟨⟨w₁, hranges⟩, ⟨code, hcode⟩, ⟨env, l, henv, hl, fun h' v hv => ?_⟩, hstart⟩, hinit⟩
  rw [h.outcome_element hk hl] at hv
  obtain rfl := IntType.eq_scalar_of_look hv
  cases t <;> rfl

omit hk h in
theorem acceptLook_eq (t : IntType) (n : Int) :
    (ElemType.int t).acceptLook (t.look (t.wrap n)) = .ok (t.look (t.wrap n)) := by
  have hlook := (ElemType.int t).look_accept #[] (.scalar (.int t (t.wrap n)))
  have haccept : (ElemType.int t).accept #[] (.scalar (.int t (t.wrap n))) = .ok (.scalar (.int t (t.wrap n))) := by
    simp only [ElemType.accept, ElemType.acceptScalar, ElemType.acceptInt, t.fits_wrap n]
    rfl
  rw [haccept] at hlook
  exact hlook.symm

/-- What the rule of a run gives to a cell is its exact value, wrapped. -/
theorem given_eq {rs : Ranges} {init : Look}
    (hexch : k.Exchangeable scope w (∃ n, · = t.look (t.wrap n)) (t.merge k.analysis.reduction.folder))
    (hf : k.Forecast scope w rs (.int t) init)
    (hinit : k.reductionIndices ≠ [] → init = t.look (t.wrap k.analysis.reduction.exactStart)) {c : Env}
    (hc : c ∈ rs.points k.outputIndices) :
    (k.rule scope w (t.merge k.analysis.reduction.folder) (.int t) init).given rs k.analysis.reduction.order c =
      .ok (t.look (t.wrap (k.exactCell scope w.heap rs c))) := by
  have hsure := hexch.sure hk hf
  suffices hvalue : (k.rule scope w (t.merge k.analysis.reduction.folder) (.int t) init).value rs
      k.analysis.reduction.order c = .ok (t.look (t.wrap (k.exactCell scope w.heap rs c))) by
    rw [Rule.given, bind_of_ok hvalue]
    exact congrArg (Except.mapError Error.fault) (acceptLook_eq t _)
  rw [exactCell, hk.reductionIndices_eq]
  by_cases hnil : k.analysis.reduction.order = []
  · obtain ⟨l, hl, -⟩ := hsure.element c (by rw [hnil, List.append_nil]; exact Ranges.covers_of_mem_points hc)
    rw [Rule.value, if_pos hnil, if_pos hnil, hl, h.outcome_element hk hl]
  · rw [← hk.reductionIndices_eq] at hnil
    have hintegral := h.reduction hnil
    rw [hk.reductionIndices_eq] at hnil
    have htake (q : Env) (hq : q ∈ rs.points k.analysis.reduction.order) (acc : Look) :
        (k.rule scope w (t.merge k.analysis.reduction.folder) (.int t) init).take c acc q =
          t.merge k.analysis.reduction.folder acc (t.look (t.wrap (k.statement.rhs.exact scope w.heap (q ++ c)))) := by
      obtain ⟨l, hl, -⟩ := hsure.exists_element hc hq
      rw [Rule.take, bind_of_ok hl]
      rw [hsure.element_reverse hk.nodup_order hq] at hl
      rw [h.outcome_element hk hl]
      rfl
    rw [Rule.value, if_neg hnil, if_neg hnil, foldlM_congr_mem htake]
    have hfold := t.foldlM_merge k.analysis.reduction.folder
      ((rs.points k.analysis.reduction.order).map fun q => k.statement.rhs.exact scope w.heap (q ++ c))
      k.analysis.reduction.exactStart
    rw [List.map_map, List.foldlM_map, hintegral.foldl_exact] at hfold
    rw [Reduction.exactTotal, ← hfold, ← hinit (by rwa [hk.reductionIndices_eq])]
    rfl

end Integral

/-- **Integers are computed modulo a power of two.** If a statement that makes a new array has a
right-hand side of sums, differences, products and signs over arrays of integers of one type, and adds
up or multiplies what it reduces, if its ranges are found and not empty, and if the bounds that are written
change nothing when they are evaluated and come to the same range each time, then a call returns an array
of that type. Each cell of the left-hand side holds the exact integer, wrapped: the value of the
right-hand side, or the start value and all values of the cell added up or multiplied. -/
theorem call_residues {config : Config} {source : String} {k : Kernel} (hk : Compiles config source k)
    (hs : k.statement.allocates = true) {scope : Scope}
    (hself : ∀ b ∈ scope.bindings, b.1 ≠ ownName) {w : World} {t : IntType} (hint : k.Integral scope w t)
    {rs : Ranges} {w₁ : World}
    (hranges : exec (k.analysis.catalog.ranges scope k.analysis.indexNames) w = (.ok rs, w₁))
    (hbounds : ∀ i axis, k.analysis.catalog.get? i = some axis → axis.isExplicit = true →
      Keeps (axis.resolve scope k.analysis.indexNames) ∧ Determined w (axis.resolve scope k.analysis.indexNames))
    (hne : ∀ i ∈ k.outputIndices ++ k.reductionIndices, (rs.get i).isEmpty = false) :
    ∃ a w', exec (k.call scope) w = (.ok (.array a), w') ∧ a.type = .int t ∧ a.shape = k.newShape rs ∧
      ∀ c ∈ rs.points k.outputIndices, exec ((Value.array a).get (k.keys c)) w' =
        (.ok (.scalar (.int t (t.wrap (k.exactCell scope w.heap rs c)))), w') := by
  obtain ⟨-, read, hp⟩ := hk.planned
  have still := hint.still hp hs fun i axis hi hx => (hbounds i axis hi hx).1
  have hdet := hp.determined_of_integral hint.rhs hs fun i axis hi hx => (hbounds i axis hi hx).2
  have hexch := hint.exchangeable hp still.catalog hdet
  obtain ⟨init, hf, hinit⟩ := hint.exists_forecast hp hranges hne hexch
  have hgiven {c : Env} (hc : c ∈ rs.points k.outputIndices) := hint.given_eq hp hexch hf hinit hc
  obtain ⟨cells, hfills⟩ := Rule.exists_fills k.nodup_outputIndices fun c hc => ⟨_, hgiven hc⟩
  obtain ⟨out, w', hrun⟩ := exists_run hp still hs hexch.toTame (hexch.served hp) hf hfills
  obtain ⟨rs', a, init', w₂, cells', hf', rfl, hfresh, hfills', htracks⟩ :=
    fills_of_run hp still hs hexch.toTame (hexch.served hp) hrun
  obtain ⟨rfl, htype, rfl⟩ := hf.unique hf'
  rw [← htype] at hfills'
  have hcall : k.call scope = k.run scope := by
    rw [call, if_neg]
    simpa using fun v hv => hself (ownName, v) hv rfl
  refine ⟨a, w', by rw [hcall, hrun], htype.symm, hfresh.shape_eq, fun c hc => ?_⟩
  obtain ⟨l, hl, hcell⟩ := hfills'.1 c hc
  obtain ⟨p, v, hplace, hv, hshows⟩ := htracks.holds c l (Ranges.covers_of_mem_points hc) hcell
  rw [hgiven hc] at hl
  obtain rfl := IntType.eq_scalar_of_look (hshows.look_eq.trans (Except.ok.inj hl).symm)
  have hrank : (k.positions c).length = a.shape.length := by
    rw [positions, List.length_map, hfresh.shape_eq, newShape, List.length_map]
  rw [hp.keys_eq, Value.exec_get_ints hrank, hplace]
  simp [Array.getD_eq_getD_getElem?, hv]

/-- Cubes of integers of eight bits, and weights for their columns. -/
def weighed : Scope :=
  { bindings := [("X", .array ⟨0, .int .int8, 0, [3, 3, 2], [6, 2, 1]⟩), ("Y", .array ⟨1, .int .int8, 2, [3], [-1]⟩)] }

def weighedWorld : World :=
  { heap := #[(List.range 18).toArray.map fun n : Nat => .scalar (.int .int8 (7 * n)),
      #[-100, 5, 127].map fun n => .scalar (.int .int8 n)] }

/-- Products that wrap around, with a bound that is written, workers, blocks and unrolled steps. -/
def weighedSource : String :=
  "Z[i] := X[i, j, l] * Y[j] - -X[i, j, l] (*, l, unroll(2), 0 <= j <= 2, init=1) \x7btile(2), i, l\x7d"

theorem call_residues_weighed : ∃ k rs a w', Compiles ⟨true, some 2⟩ weighedSource k ∧
    (k.analysis.catalog.get? "j").any Axis.isExplicit = true ∧
    (exec (k.analysis.catalog.ranges weighed k.analysis.indexNames) weighedWorld).1 = .ok rs ∧
    exec (k.call weighed) weighedWorld = (.ok (.array a), w') ∧ a.type = .int .int8 ∧ a.shape = k.newShape rs ∧
    ∀ c ∈ rs.points k.outputIndices, exec ((Value.array a).get (k.keys c)) w' =
      (.ok (.scalar (.int .int8 (IntType.int8.wrap (k.exactCell weighed weighedWorld.heap rs c)))), w') := by
  obtain ⟨k, hk, hcheck⟩ := exists_compiles ⟨true, some 2⟩ weighedSource
    (fun k => k.statement.allocates && k.statement.rhs.isIntegral weighed k.analysis.indexNames .int8 weighedWorld.heap &&
      k.analysis.reduction.isIntegral && k.analysis.catalog.axes.all (·.2.isPlain weighed k.analysis.indexNames) &&
      (k.analysis.catalog.get? "j").any Axis.isExplicit &&
      (exec (k.analysis.catalog.ranges weighed k.analysis.indexNames) weighedWorld).1.toOption.any fun rs =>
        (k.outputIndices ++ k.reductionIndices).all fun i => !(rs.get i).isEmpty) (by decide +kernel)
  simp only [Bool.and_eq_true] at hcheck
  obtain ⟨⟨⟨⟨⟨hs, hrhs⟩, hreduction⟩, hplain⟩, hexplicit⟩, hranges⟩ := hcheck
  obtain ⟨rs, w₁, hrs, hne⟩ := Run.exists_of_any hranges
  obtain ⟨a, w', hcall, htype, hshape, hcells⟩ := call_residues hk hs (by decide)
    ⟨Expr.integral_of_isIntegral hrhs, fun _ => Reduction.integral_of_isIntegral hreduction⟩ hrs
    (fun i axis hi _ =>
      have hplain := List.all_eq_true.1 hplain _ (Env.mem_of_lookup hi)
      ⟨Axis.keeps_of_isPlain hplain, Axis.determined_of_isPlain hplain _⟩)
    (fun i hi => by simpa using List.all_eq_true.1 hne i hi)
  exact ⟨k, rs, a, w', hk, hexplicit, by rw [hrs], hcall, htype, hshape, hcells⟩

/-- A bound that is lower when it is compared with the array than when the range is found. Squares of integers
are to be added up, all checks pass and no range is empty, but the call fails. -/
theorem call_with_shrinking_bound :
    ∃ k rs, Compiles {} "A[i] := X[i, j] * X[i, j] (+, j <= subtract(N, 1, N))" k ∧
      k.statement.allocates = true ∧ k.Integral shrinking shrinkingWorld .int8 ∧
      (exec (k.analysis.catalog.ranges shrinking k.analysis.indexNames) shrinkingWorld).1 = .ok rs ∧
      (∀ i ∈ k.outputIndices ++ k.reductionIndices, (rs.get i).isEmpty = false) ∧
      (exec (k.call shrinking) shrinkingWorld).1.map (fun _ => ()) = .error (.fault .outOfBounds) := by
  obtain ⟨k, hk, hcheck⟩ := exists_compiles {} "A[i] := X[i, j] * X[i, j] (+, j <= subtract(N, 1, N))"
    (fun k => k.statement.allocates &&
      k.statement.rhs.isIntegral shrinking k.analysis.indexNames .int8 shrinkingWorld.heap &&
      k.analysis.reduction.isIntegral &&
      ((exec (k.analysis.catalog.ranges shrinking k.analysis.indexNames) shrinkingWorld).1.toOption.any fun rs =>
        (k.outputIndices ++ k.reductionIndices).all fun i => !(rs.get i).isEmpty) &&
      (exec (k.call shrinking) shrinkingWorld).1.map (fun _ => ()) == .error (.fault .outOfBounds)) (by decide +kernel)
  simp only [Bool.and_eq_true] at hcheck
  obtain ⟨⟨⟨⟨hs, hrhs⟩, hreduction⟩, hranges⟩, hcall⟩ := hcheck
  obtain ⟨rs, w', hrs, hne⟩ := Run.exists_of_any hranges
  exact ⟨k, rs, hk, hs, ⟨Expr.integral_of_isIntegral hrhs, fun _ => Reduction.integral_of_isIntegral hreduction⟩,
    by rw [hrs], fun i hi => by simpa using List.all_eq_true.1 hne i hi, of_decide_eq_true hcall⟩

end Kernel

end IndexNotation
