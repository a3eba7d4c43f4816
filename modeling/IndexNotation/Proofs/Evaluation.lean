import IndexNotation.Exec.Reducer
import IndexNotation.Proofs.World

/-!
# Evaluation only looks

Reading, arithmetic and the functions of the library read the heap, add blocks to it, and fail with
faults; they have no way to write. The evaluation of an expression is put together from them and
from the supplied functions, so it keeps every block that is there if these do.
-/

namespace IndexNotation

open Run (Keeps Calm keeps_pure keeps_throw keeps_fail keeps_heap keeps_lift keeps_foldlM)

/-! ## Arrays and arithmetic -/

theorem Dense.calm_read (v : Value) : Calm (Dense.read v) :=
  Calm.heap.bind fun _ => Calm.ofFault _

theorem Dense.calm_allocate (d : Dense) : Calm d.allocate :=
  (Calm.allocate _).bind fun _ => Calm.pure _

theorem Dense.calm_toValue (d : Dense) : Calm d.toValue := by
  unfold Dense.toValue
  split
  · exact Calm.pure _
  · exact (Dense.calm_allocate d).bind fun _ => Calm.pure _

theorem Operand.calm_read (v : Value) : Calm (Operand.read v) :=
  Calm.heap.bind fun _ => Calm.ofFault _

theorem CellOp.calm_run (op : CellOp) {objects : Value → Value → Run Value}
    (h : ∀ a b, Calm (objects a b)) (a b : Operand) : Calm (op.run objects a b) := by
  unfold CellOp.run
  extract_lets cells
  have hcells : ∀ u, Calm (cells u) := by
    intro u
    refine (Calm.ofFault _).bind fun t => (Calm.ofFault _).bind fun a =>
      (Calm.ofFault _).bind fun b => ?_
    split
    · exact Calm.fail _
    · dsimp only
      split
      · exact (Calm.mapM (fun (p : Value × Value) => h p.1 p.2) _).bind fun _ => Calm.pure _
      · refine (Calm.ofFault _).bind fun _ => (Calm.mapM (fun p => ?_) _).bind fun _ => Calm.pure _
        exact (Calm.ofFault _).bind fun _ => Calm.pure _
  split
  · exact (Calm.fail _).bind hcells
  · exact hcells ()

namespace Value

theorem calm_newList (items : List Value) : Calm (Run.newList items) :=
  (Calm.allocate _).bind fun _ => Calm.pure _

theorem calm_readBlock (n : Nat) : Calm (Run.readBlock n) :=
  Calm.heap.bind fun _ => Calm.pure _

theorem calm_times {s n : Value} {r : Run Value} (h : sequenceOp.times s n = some r) : Calm r := by
  unfold sequenceOp.times at h
  split at h
  · cases h
    exact (Calm.ofFault _).bind fun _ => Calm.pure _
  · cases h
    exact (Calm.ofFault _).bind fun _ => Calm.pure _
  · cases h
    exact (calm_readBlock _).bind fun _ => (Calm.ofFault _).bind fun _ => calm_newList _
  iterate 3
    split at h
    · cases h
      exact Calm.fail _
    · simp at h
  · simp at h

theorem calm_sequenceOp {op : BinaryOp} {a b : Value} {r : Run Value}
    (h : sequenceOp op a b = some r) : Calm r := by
  unfold sequenceOp at h
  split at h
  · cases h; exact Calm.pure _
  · cases h; exact Calm.pure _
  · cases h
    exact (calm_readBlock _).bind fun _ => (calm_readBlock _).bind fun _ => calm_newList _
  · cases hs : sequenceOp.times a b with
    | some r' =>
      simp only [hs, Option.orElse_some, Option.some.injEq] at h
      exact h ▸ calm_times hs
    | none =>
      simp only [hs, Option.orElse_none] at h
      exact calm_times h
  · split at h
    · simp at h
    · unfold sequenceOp.fill at h
      split at h <;> first | (cases h; exact Calm.pure _) | simp at h
  · simp at h

theorem calm_binaryAt (depth : Nat) (op : BinaryOp) (a b : Value) : Calm (binaryAt depth op a b) := by
  induction depth generalizing a b with
  | zero => exact Calm.fail _
  | succ depth ih =>
    unfold binaryAt
    dsimp only
    split
    · exact (Calm.ofFault _).bind fun _ => Calm.pure _
    · split
      · exact calm_sequenceOp ‹_›
      · split
        · exact (Operand.calm_read _).bind fun _ => (Operand.calm_read _).bind fun _ =>
            (CellOp.calm_run _ ih _ _).bind fun d => Dense.calm_toValue d
        · exact Calm.fail _

theorem calm_binary (op : BinaryOp) (a b : Value) : Calm (binary op a b) :=
  calm_binaryAt _ _ _ _

theorem calm_mapCells (type : ElemType → Except Fault ElemType) (f : Scalar → Except Fault Scalar)
    {objects : Value → Run Value} (h : ∀ v, Calm (objects v)) (d : Dense) :
    Calm (mapCells type f objects d) := by
  unfold mapCells
  split
  · exact (Calm.mapM h _).bind fun _ => Calm.pure _
  · refine (Calm.ofFault _).bind fun _ => (Calm.mapM (fun _ => ?_) _).bind fun _ => Calm.pure _
    exact (Calm.ofFault _).bind fun _ => Calm.pure _

theorem calm_unaryAt (depth : Nat) (op : UnaryOp) (v : Value) : Calm (unaryAt depth op v) := by
  induction depth generalizing v with
  | zero => exact Calm.fail _
  | succ depth ih =>
    unfold unaryAt
    split
    · exact Calm.fail _
    · exact Calm.pure _
    · exact Calm.pure _
    · split
      · exact (Dense.calm_read _).bind fun _ => (calm_mapCells _ _ ih _).bind fun d =>
          Dense.calm_toValue d
      · exact Calm.fail _

theorem calm_unary (op : UnaryOp) (v : Value) : Calm (unary op v) := calm_unaryAt _ _ _

theorem calm_absAt (depth : Nat) (v : Value) : Calm (absAt depth v) := by
  induction depth generalizing v with
  | zero => exact Calm.fail _
  | succ depth ih =>
    unfold absAt
    split
    · exact (Calm.ofFault _).bind fun _ => Calm.pure _
    · split
      · exact (Dense.calm_read _).bind fun _ => (calm_mapCells _ _ ih _).bind fun d =>
          Dense.calm_toValue d
      · exact Calm.fail _

theorem calm_abs (v : Value) : Calm (abs v) := calm_absAt _ _

section

variable {less : Value → Value → Run Bool} (hless : ∀ x y, Calm (less x y))

include hless

theorem calm_lessItems (h : Heap) (xs ys : List Value) : Calm (lessItems less h xs ys) := by
  unfold lessItems
  split
  · exact hless _ _
  · exact Calm.pure _

theorem calm_lessObjects (a b : Value) : Calm (lessObjects less a b) := by
  unfold lessObjects
  split
  · exact Calm.ofFault _
  · exact hless _ _

theorem calm_lessMixed (x y : Operand) : Calm (lessMixed less x y) := by
  refine (Calm.ofFault _).bind fun dx => (Calm.ofFault _).bind fun dy => ?_
  split
  · exact Calm.fail _
  · exact (Calm.mapM (fun (p : Value × Value) => calm_lessObjects hless p.1 p.2) _).bind fun _ =>
      Calm.ofFault _

theorem calm_lessOperands (x y : Operand) : Calm (lessOperands less x y) := by
  unfold lessOperands
  extract_lets cells
  have hcells : ∀ u, Calm (cells u) := by
    intro u
    refine (Calm.ofFault _).bind fun t => ?_
    split
    · exact calm_lessMixed hless x y
    · exact (CellOp.calm_run _ (fun _ _ => Calm.fail _) _ _).bind fun _ => Calm.ofFault _
  split
  · exact (Calm.fail _).bind hcells
  · exact hcells ()

theorem calm_lessNumbers (a b : Value) : Calm (lessNumbers less a b) := by
  unfold lessNumbers
  split
  · exact Calm.ofFault _
  · split
    · exact (Operand.calm_read _).bind fun x => (Operand.calm_read _).bind fun y => calm_lessOperands hless x y
    · exact Calm.fail _

theorem calm_lessKinds (h : Heap) (a b : Value) : Calm (lessKinds less h a b) := by
  unfold lessKinds
  split
  · exact Calm.pure _
  · exact calm_lessItems hless _ _ _
  · exact calm_lessItems hless _ _ _
  · exact calm_lessNumbers hless _ _

end

theorem calm_lessAt (depth : Nat) (a b : Value) : Calm (lessAt depth a b) := by
  induction depth generalizing a b with
  | zero => exact Calm.fail _
  | succ depth ih => exact Calm.heap.bind fun h => calm_lessKinds ih h _ _

theorem calm_less (a b : Value) : Calm (less a b) := calm_lessAt _ _ _

/-! ## Parts of values -/

theorem calm_arrayItem (v : View) (keys : List Value) : Calm (arrayItem v keys) := by
  refine Calm.heap.bind fun h => (Calm.ofFault _).bind fun s => ?_
  split
  · exact (Dense.calm_allocate _).bind fun _ => Calm.pure _
  · dsimp only
    split
    · exact Calm.pure _
    · exact Calm.pure _

theorem calm_item (v key : Value) : Calm (item v key) := by
  refine Calm.heap.bind fun h => ?_
  split
  · split
    · exact calm_arrayItem _ _
    · exact calm_arrayItem _ _
  all_goals first | exact Calm.ofFault _ | exact Calm.fail _

theorem calm_get (v : Value) (keys : List Value) : Calm (get v keys) := by
  unfold get
  split
  · exact calm_arrayItem _ _
  · exact Calm.foldlM calm_item _ _

theorem calm_arrayField (v : View) (name : String) : Calm (arrayField v name) := by
  refine Calm.heap.bind fun h => ?_
  extract_lets partType part
  have hpart : ∀ b, Calm (part b) := fun b => (Dense.calm_allocate _).bind fun _ => Calm.pure _
  split
  case h_6 => exact (Dense.calm_allocate _).bind fun _ => Calm.pure _
  case h_7 =>
    split
    · exact hpart _
    · exact Calm.pure _
  case h_8 => exact hpart _
  case h_9 => exact Calm.fail _
  all_goals exact Calm.pure _

theorem calm_scalarField (s : Scalar) (name : String) : Calm (scalarField s name) := by
  unfold scalarField
  split
  case h_6 => exact (Dense.calm_allocate _).bind fun _ => Calm.pure _
  case h_9 => exact Calm.fail _
  all_goals exact Calm.pure _

theorem calm_numberField (p : Plain) (name : String) : Calm (numberField p name) := by
  unfold numberField
  split
  case h_8 => exact Calm.fail _
  all_goals exact Calm.pure _

theorem calm_field (v : Value) (name : String) : Calm (field v name) := by
  unfold field
  split
  · split
    · exact Calm.pure _
    · exact Calm.fail _
  · exact calm_arrayField _ _
  · exact calm_scalarField _ _
  · split
    · exact calm_numberField _ _
    · exact Calm.fail _

theorem keeps_field? (v : Value) (name : String) : Keeps (field? v name) := by
  refine Keeps.bind ((calm_field v name).keeps.map some |>.tryCatch fun e => ?_) fun r => ?_
  · split
    · exact keeps_pure _
    · exact keeps_throw _
  · split
    · exact keeps_pure _
    · exact keeps_pure _

theorem keeps_first (v : Value) : Keeps (first v) := by
  refine (keeps_field? v "flat").bind fun r => ?_
  split
  · refine (calm_item _ _).keeps.tryCatch fun e => ?_
    split
    · exact keeps_throw _
    · exact keeps_throw _
  · refine keeps_heap.bind fun h => ?_
    split
    · exact keeps_fail _
    · exact keeps_throw _
    · exact keeps_pure _

theorem calm_toInt (v : Value) : Calm (toInt v) := by
  refine Calm.heap.bind fun h => ?_
  extract_lets ofText ofScalar
  have htext : ∀ s, Calm (ofText s) := by
    intro s
    dsimp only [ofText]
    split
    · exact Calm.pure _
    · exact Calm.fail _
  have hscalar : ∀ s, Calm (ofScalar s) := by
    intro s
    dsimp only [ofScalar]
    split
    · exact htext _
    · exact Calm.ofFault _
    · split
      · exact Calm.ofFault _
      · exact Calm.fail _
  split
  · exact htext _
  · exact hscalar _
  · split
    · exact hscalar _
    · exact Calm.fail _
  · split
    · exact Calm.ofFault _
    · exact Calm.fail _

theorem keeps_axisRange (v : Value) (dim : Nat) : Keeps (axisRange v dim) := by
  refine (keeps_field? v "shape").bind fun r => ?_
  split
  · refine keeps_heap.bind fun h => ?_
    split
    · exact keeps_fail _
    · split
      · exact keeps_throw _
      · exact (calm_item _ _).keeps.bind fun _ => (calm_toInt _).keeps.bind fun _ => keeps_pure _
  · refine (keeps_foldlM (fun v _ => keeps_first v) _ _).bind fun inner => keeps_heap.bind fun h => ?_
    split
    · exact keeps_pure _
    · exact keeps_throw _

end Value

/-! ## The library -/

namespace Library

theorem calm_mapValue (type : ElemType → Except Fault ElemType) (f : Scalar → Except Fault Scalar)
    {objects : Value → Run Value} (h : ∀ v, Calm (objects v)) (v : Value) :
    Calm (mapValue type f objects v) :=
  (Dense.calm_read _).bind fun _ => (Value.calm_mapCells _ _ h _).bind fun d =>
    Dense.calm_toValue d

theorem calm_zipValues (op : CellOp) {objects : Value → Value → Run Value}
    (h : ∀ a b, Calm (objects a b)) (a b : Value) : Calm (zipValues op objects a b) :=
  (Operand.calm_read _).bind fun _ => (Operand.calm_read _).bind fun _ =>
    (CellOp.calm_run _ h _ _).bind fun d => Dense.calm_toValue d

theorem calm_extremeObjects (largest : Bool) (a b : Value) : Calm (extremeObjects largest a b) := by
  unfold extremeObjects
  split <;> exact (Value.calm_less _ _).bind fun _ => Calm.pure _

theorem calm_foldObjects {f : Value → Value → Run Value} (h : ∀ a b, Calm (f a b))
    (vs : List Value) : Calm (foldObjects f vs) := by
  unfold foldObjects
  split
  · exact Calm.fail _
  · exact Calm.foldlM h _ _

theorem calm_reduceCells (f : Builtin) (t : ElemType) (cells : List Value) :
    Calm (reduceCells f t cells) := by
  unfold reduceCells
  dsimp only
  split
  · split
    · split
      · exact Calm.pure _
      · exact calm_foldObjects (Value.calm_binary _) _
    · exact (Calm.ofFault _).bind fun _ => (Calm.ofFault _).bind fun _ => Calm.pure _
  · split
    · exact calm_foldObjects (calm_extremeObjects _) _
    · split
      · exact Calm.fail _
      · exact (Calm.ofFault _).bind fun _ => Calm.pure _

theorem calm_reduce (f : Builtin) (v axis : Value) : Calm (reduce f v axis) := by
  refine (Dense.calm_read _).bind fun d => (Calm.ofFault _).bind fun type => ?_
  split
  · exact calm_reduceCells _ _ _
  · extract_lets dims along
    have halong : ∀ n, Calm (along n) := by
      intro n
      dsimp only [along]
      split
      · exact calm_reduceCells _ _ _
      · split
        · exact Calm.fail _
        · exact (Calm.mapM (calm_reduceCells _ _) _).bind fun _ => Dense.calm_toValue _
    split
    · exact (Calm.pure _).bind halong
    · exact (Calm.pure _).bind halong
    · exact (Calm.fail _).bind halong

theorem calm_convert (t : ElemType) (v : Value) : Calm (convert t v) := by
  refine Calm.heap.bind fun h => ?_
  split
  · exact Dense.calm_toValue _
  · exact (Calm.ofFault _).bind fun d => Dense.calm_toValue d
  · exact (Calm.ofFault _).bind fun d => Dense.calm_toValue d
  · exact (Calm.ofFault _).bind fun _ => Calm.pure _
  · exact Calm.pure _
  · exact Calm.ofFault _

theorem calm_natural (v : Value) : Calm (natural v) := by
  refine Calm.heap.bind fun h => ?_
  split
  · exact Calm.fail _
  · split
    · exact Calm.fail _
    · exact Calm.pure _

theorem calm_call (f : Builtin) (args : List Value) : Calm (call f args) := by
  have hnone : ∀ v, Calm (noObjects v) := fun _ => Calm.fail _
  rcases args with _ | ⟨a, _ | ⟨b, _ | ⟨c, rest⟩⟩⟩
  · cases f with
    | convert t => exact Calm.pure _
    | _ => exact Calm.fail _
  · cases f with
    | abs => exact calm_mapValue _ _ Value.calm_abs _
    | square => exact calm_mapValue _ _ (fun _ => Value.calm_binary _ _ _) _
    | sqrt | log | exp | floor | ceil | sign | round => exact calm_mapValue _ _ hnone _
    | largest | smallest | total => exact calm_reduce _ a .none
    | convert t => exact calm_convert _ _
    | factorial | integerRoot => exact (calm_natural _).bind fun _ => Calm.pure _
    | _ => exact Calm.fail _
  · cases f with
    | round => exact (Value.calm_toInt _).bind fun _ => calm_mapValue _ _ hnone _
    | maximum | minimum => exact calm_zipValues _ (calm_extremeObjects _) _ _
    | add | subtract | multiply => exact calm_zipValues _ (Value.calm_binary _) _ _
    | hypot | gcd => exact calm_zipValues _ (fun _ _ => Calm.fail _) _ _
    | largest | smallest | total => exact calm_reduce _ a b
    | choose => exact (calm_natural _).bind fun _ => (calm_natural _).bind fun _ => Calm.pure _
    | _ => exact Calm.fail _
  · cases f <;> exact Calm.fail _

end Library

/-! ## Expressions -/

mutual

/-- A resolved expression depends on the values of the indices, not on how they are listed. -/
theorem Code.run_congr {scope : Scope} {env env' : Env} (h : ∀ i, env.lookup i = env'.lookup i)
    (c : Code) : c.run scope env = c.run scope env' := by
  cases c with
  | index name => rw [Code.run, Code.run, h]
  | value v => rfl
  | get base keys => rw [Code.run, Code.run, Code.run_congr h base, Code.runAll_congr h keys]
  | field base name => rw [Code.run, Code.run, Code.run_congr h base]
  | first source => rw [Code.run, Code.run, Code.run_congr h source]
  | call f args => rw [Code.run, Code.run, Code.runAll_congr h args]
  | binary op l r => rw [Code.run, Code.run, Code.run_congr h l, Code.run_congr h r]
  | unary op e => rw [Code.run, Code.run, Code.run_congr h e]

theorem Code.runAll_congr {scope : Scope} {env env' : Env} (h : ∀ i, env.lookup i = env'.lookup i)
    (cs : List Code) : Code.run.runAll scope env cs = Code.run.runAll scope env' cs := by
  cases cs with
  | nil => rfl
  | cons c cs => rw [Code.run.runAll, Code.run.runAll, Code.run_congr h c, Code.runAll_congr h cs]

end

theorem Expr.eval_of_resolve {e : Expr} {scope : Scope} {indices : List String} {code : Code}
    (h : e.resolve scope indices = .ok code) (env : Env) :
    e.eval scope indices env = code.run scope env := by
  rw [eval, h]
  rfl

theorem Expr.eval_congr {scope : Scope} {indices : List String} {env env' : Env}
    (h : ∀ i, env.lookup i = env'.lookup i) (e : Expr) :
    e.eval scope indices env = e.eval scope indices env' := by
  simp only [Expr.eval, Code.run_congr h]

/-! What resolving an expression gives, by the kind of its root. -/

namespace Expr

variable {scope : Scope} {indices : List String} {c : Code}

theorem resolve_name_eq_ok {id : String} {pos : Option Pos} (h : (name id pos).resolve scope indices = .ok c) :
    id ∈ indices ∧ c = .index id ∨ id ∉ indices ∧ ∃ v, scope.lookup id = .ok v ∧ c = .value v := by
  rw [resolve] at h
  split at h
  · rename_i hid
    cases h
    exact .inl ⟨List.contains_iff_mem.1 hid, rfl⟩
  · rename_i hid
    obtain ⟨v, hv, h⟩ := bind_eq_ok h
    cases h
    exact .inr ⟨fun hmem => hid (List.contains_iff_mem.2 hmem), v, hv, rfl⟩

theorem resolve_index_eq_ok {b : Expr} {keys : List Expr} {pos : Option Pos}
    (h : (index b keys pos).resolve scope indices = .ok c) :
    ∃ base codes, b.resolve scope indices = .ok base ∧
      resolve.resolveAll scope indices keys = .ok codes ∧ c = .get base codes := by
  rw [resolve] at h
  obtain ⟨base, hbase, h⟩ := bind_eq_ok h
  obtain ⟨codes, hcodes, h⟩ := bind_eq_ok h
  cases h
  exact ⟨base, codes, hbase, hcodes, rfl⟩

theorem resolve_field_eq_ok {b : Expr} {n : String} {pos : Option Pos}
    (h : (field b n pos).resolve scope indices = .ok c) :
    ∃ base, b.resolve scope indices = .ok base ∧ c = .field base n := by
  rw [resolve] at h
  obtain ⟨base, hbase, h⟩ := bind_eq_ok h
  cases h
  exact ⟨base, hbase, rfl⟩

theorem resolve_first_eq_ok {e : Expr} {pos : Option Pos} (h : (first e pos).resolve scope indices = .ok c) :
    ∃ source, e.resolve scope indices = .ok source ∧ c = .first source := by
  rw [resolve] at h
  obtain ⟨source, hsource, h⟩ := bind_eq_ok h
  cases h
  exact ⟨source, hsource, rfl⟩

theorem resolve_call_eq_ok {f : String} {args : List Expr} {pos : Option Pos}
    (h : (call f args pos).resolve scope indices = .ok c) :
    ∃ v codes, scope.lookup f = .ok v ∧ resolve.resolveAll scope indices args = .ok codes ∧
      c = .call v codes := by
  rw [resolve] at h
  obtain ⟨v, hv, h⟩ := bind_eq_ok h
  split at h
  · obtain ⟨codes, hcodes, h⟩ := bind_eq_ok h
    cases h
    exact ⟨v, codes, hv, hcodes, rfl⟩
  · cases h

theorem resolve_binary_eq_ok {l r : Expr} {op : BinaryOp} {pos : Option Pos}
    (h : (binary l op r pos).resolve scope indices = .ok c) :
    ∃ left right, l.resolve scope indices = .ok left ∧ r.resolve scope indices = .ok right ∧
      c = .binary op left right := by
  unfold resolve at h
  split at h
  · cases h
  · obtain ⟨left, hleft, h⟩ := bind_eq_ok h
    obtain ⟨right, hright, h⟩ := bind_eq_ok h
    cases h
    exact ⟨left, right, hleft, hright, rfl⟩

theorem resolve_unary_eq_ok {e : Expr} {op : UnaryOp} {pos : Option Pos}
    (h : (unary op e pos).resolve scope indices = .ok c) :
    ∃ operand, e.resolve scope indices = .ok operand ∧ c = .unary op operand := by
  unfold resolve at h
  split at h
  · cases h
  · obtain ⟨operand, hoperand, h⟩ := bind_eq_ok h
    cases h
    exact ⟨operand, hoperand, rfl⟩

theorem resolveAll_cons_eq_ok {e : Expr} {es : List Expr} {cs : List Code}
    (h : resolve.resolveAll scope indices (e :: es) = .ok cs) :
    ∃ c cs', e.resolve scope indices = .ok c ∧ resolve.resolveAll scope indices es = .ok cs' ∧
      cs = c :: cs' := by
  rw [resolve.resolveAll] at h
  obtain ⟨c, hc, h⟩ := bind_eq_ok h
  obtain ⟨cs', hcs', h⟩ := bind_eq_ok h
  cases h
  exact ⟨c, cs', hc, hcs', rfl⟩

end Expr

namespace Code

/-- Whether a resolved expression asks for the first element of something. What is written in a
statement never does. -/
def usesFirst : Code → Bool
  | index _ | value _ => false
  | get base keys => usesFirst base || anyUsesFirst keys
  | field base _ => usesFirst base
  | first _ => true
  | call _ args => anyUsesFirst args
  | binary _ l r => usesFirst l || usesFirst r
  | unary _ e => usesFirst e
where
  anyUsesFirst : List Code → Bool
    | [] => false
    | c :: cs => usesFirst c || anyUsesFirst cs

mutual

/-- What holds of the supplied functions holds of evaluation. -/
theorem run_closed {P : {α : Type} → Run α → Prop} (hP : Run.Closed P) {scope : Scope}
    (hcall : ∀ f args, P (scope.call f args)) (env : Env) (c : Code)
    (hfirst : c.usesFirst = true → ∀ v : Value, P v.first) : P (c.run scope env) := by
  cases c with
  | index name =>
    rw [Code.run]
    split
    · exact hP.calm (.pure _)
    · exact hP.calm (.fail _)
  | value v => exact hP.calm (.pure _)
  | get base keys =>
    rw [Code.run]
    refine hP.bind (run_closed hP hcall env base fun h => hfirst (by simp [usesFirst, h])) fun v =>
      hP.bind (runAll_closed hP hcall env keys fun h => hfirst (by simp [usesFirst, h])) fun vs => ?_
    split
    · exact hP.calm (Value.calm_item _ _)
    · exact hP.calm (Value.calm_get _ _)
  | field base name =>
    rw [Code.run]
    exact hP.bind (run_closed hP hcall env base fun h => hfirst (by simp [usesFirst, h])) fun v =>
      hP.calm (Value.calm_field v _)
  | first source =>
    rw [Code.run]
    exact hP.bind (run_closed hP hcall env source fun _ => hfirst rfl) (hfirst rfl)
  | call f args =>
    rw [Code.run]
    exact hP.bind (runAll_closed hP hcall env args fun h => hfirst (by simp [usesFirst, h])) fun vs => hcall f vs
  | binary op l r =>
    rw [Code.run]
    exact hP.bind (run_closed hP hcall env l fun h => hfirst (by simp [usesFirst, h])) fun a =>
      hP.bind (run_closed hP hcall env r fun h => hfirst (by simp [usesFirst, h])) fun b =>
        hP.calm (Value.calm_binary op a b)
  | unary op e =>
    rw [Code.run]
    exact hP.bind (run_closed hP hcall env e fun h => hfirst (by simp [usesFirst, h])) fun v =>
      hP.calm (Value.calm_unary op v)

theorem runAll_closed {P : {α : Type} → Run α → Prop} (hP : Run.Closed P) {scope : Scope}
    (hcall : ∀ f args, P (scope.call f args)) (env : Env) (cs : List Code)
    (hfirst : usesFirst.anyUsesFirst cs = true → ∀ v : Value, P v.first) :
    P (Code.run.runAll scope env cs) := by
  cases cs with
  | nil => exact hP.calm (.pure _)
  | cons c cs =>
    rw [Code.run.runAll]
    exact hP.bind (run_closed hP hcall env c fun h => hfirst (by simp [usesFirst.anyUsesFirst, h])) fun v =>
      hP.bind (runAll_closed hP hcall env cs fun h => hfirst (by simp [usesFirst.anyUsesFirst, h])) fun vs =>
        hP.calm (.pure _)

end

end Code

/-- What holds of the supplied functions holds of all functions. -/
theorem Scope.call_closed {P : {α : Type} → Run α → Prop} (hP : Run.Closed P) {scope : Scope}
    (h : ∀ name args, P (scope.supplied name args)) (f : Value) (args : List Value) :
    P (scope.call f args) := by
  unfold Scope.call
  split
  · exact hP.calm (Library.calm_call _ _)
  · exact h _ _
  · exact hP.calm (.fail _)

/-- What holds of the supplied functions holds of reducers. -/
theorem Reducer.apply_closed {P : {α : Type} → Run α → Prop} (hP : Run.Closed P) {scope : Scope}
    (h : ∀ name args, P (scope.supplied name args)) (r : Reducer) (acc v : Value) :
    P (r.apply scope acc v) := by
  unfold Reducer.apply
  split
  · exact hP.calm (Value.calm_binary _ _ _)
  · exact hP.calm (Value.calm_binary _ _ _)
  · exact hP.calm ((Value.calm_less _ _).bind fun _ => .pure _)
  · exact hP.calm ((Value.calm_less _ _).bind fun _ => .pure _)
  · exact Scope.call_closed hP h _ _

/-- The supplied functions change nothing that is there. -/
def Scope.Quiet (scope : Scope) : Prop :=
  ∀ name args, Keeps (scope.supplied name args)

section

variable {scope : Scope} (quiet : scope.Quiet)

include quiet

theorem Code.keeps_run (env : Env) (c : Code) : Keeps (c.run scope env) :=
  Code.run_closed Run.closed_keeps (Scope.call_closed Run.closed_keeps quiet) env c
    fun _ => Value.keeps_first

theorem Expr.keeps_eval (indices : List String) (env : Env) (e : Expr) :
    Keeps (e.eval scope indices env) :=
  (keeps_lift _).bind fun c => Code.keeps_run quiet env c

theorem Axis.keeps_resolve (indices : List String) (axis : Axis) :
    Keeps (axis.resolve scope indices) := by
  unfold Axis.resolve
  split
  · exact (Expr.keeps_eval quiet _ _ _).bind fun v => Value.keeps_axisRange v _
  · extract_lets upTo
    have hupTo : ∀ n, Keeps (upTo n) := fun n =>
      (Expr.keeps_eval quiet _ _ _).bind fun v => (Value.calm_toInt v).keeps.bind fun _ => keeps_pure _
    split
    · exact (keeps_pure _).bind hupTo
    · exact (Expr.keeps_eval quiet _ _ _).bind fun v => (Value.calm_toInt v).keeps.bind hupTo

theorem Reducer.keeps_apply (r : Reducer) (acc v : Value) : Keeps (r.apply scope acc v) :=
  Reducer.apply_closed Run.closed_keeps quiet r acc v

end

end IndexNotation
