import IndexNotation.Proofs.Untiling

/-!
# Expressions of scalars

What is done with flat values (numbers, texts, scalars) does not look at the heap and adds nothing to
it, and what comes of it is flat again. So an expression that is put together from indices, numbers,
references to single cells, operators and functions of the library is pure: it evaluates to the same
value as long as the cells that it reads stay as they are.
-/

namespace IndexNotation

open Run (exec outcome)

/-! ## Computations that leave the world alone -/

namespace Run

/-- A computation that comes out the same in all worlds of `S` and leaves them as they are. What it
gives has the property `P`. -/
def Inert {α : Type} (S : World → Prop) (P : α → Prop) (x : Run α) : Prop :=
  ∃ r, (∀ a, r = .ok a → P a) ∧ ∀ w, S w → exec x w = (r, w)

variable {α β : Type} {S : World → Prop} {P : α → Prop} {Q : β → Prop}

theorem inert_pure {a : α} (ha : P a) : Inert S P (pure a) := by
  refine ⟨.ok a, fun b hb => ?_, fun _ _ => rfl⟩
  cases hb
  exact ha

theorem inert_fail (f : Fault) : Inert S P (fail f) :=
  ⟨.error (.fault f), (fun _ h => by cases h), fun _ _ => rfl⟩

theorem inert_ofFault {x : Except Fault α} (hx : ∀ a, x = .ok a → P a) : Inert S P (ofFault x) := by
  cases x with
  | error f => exact inert_fail f
  | ok a => exact inert_pure (hx a rfl)

/-- A result that may be anything. -/
theorem inert_any (x : Except Fault α) : Inert S (fun _ => True) (ofFault x) :=
  inert_ofFault fun _ _ => trivial

theorem Inert.bind {x : Run α} {f : α → Run β} (hx : Inert S P x)
    (hf : ∀ a, P a → Inert S Q (f a)) : Inert S Q (x >>= f) := by
  obtain ⟨r, hr, hx⟩ := hx
  cases r with
  | error e => exact ⟨.error e, (fun _ h => by cases h), fun w hw => exec_bind_error (hx w hw)⟩
  | ok a =>
    obtain ⟨r, hr, hf⟩ := hf a (hr a rfl)
    exact ⟨r, hr, fun w hw => (exec_bind_ok (hx w hw)).trans (hf w hw)⟩

/-- Reading the heap, if nothing comes of it. -/
theorem inert_heap {f : Heap → Run β} (hf : ∀ h, f h = f #[]) (hx : Inert S Q (f #[])) :
    Inert S Q (heap >>= f) := by
  obtain ⟨r, hr, hx⟩ := hx
  refine ⟨r, hr, fun w hw => ?_⟩
  rw [exec_bind_ok (exec_heap w), hf, hx w hw]

theorem inert_mapM {f : α → Run β} {as : List α} (hf : ∀ a ∈ as, Inert S Q (f a)) :
    Inert S (fun bs : List β => bs.length = as.length ∧ ∀ b ∈ bs, Q b) (as.mapM f) := by
  induction as with
  | nil => exact inert_pure ⟨rfl, by simp⟩
  | cons a as ih =>
    rw [List.mapM_cons]
    refine (hf a (.head _)).bind fun b hb => (ih fun a ha => hf a (.tail _ ha)).bind fun bs hbs => ?_
    exact inert_pure ⟨by simp [hbs.1], List.forall_mem_cons.2 ⟨hb, hbs.2⟩⟩

/-- A computation that gives a flat value looks the same in all the worlds. -/
theorem Inert.outcome_eq {x : Run Value} (hx : Inert S (·.isFlat = true) x) {u w : World} (hu : S u)
    (hw : S w) : outcome x u = outcome x w := by
  obtain ⟨r, hr, hx⟩ := hx
  rw [outcome, outcome, hx u hu, hx w hw]
  cases r with
  | error e => rfl
  | ok v => exact congrArg Except.ok (Value.look_of_isFlat (hr v rfl) _ _)

end Run

open Run

/-! ## Single cells -/

/-- An array without dimensions, with a flat value in its only cell. -/
structure Dense.IsSingle (d : Dense) : Prop where
  shape : d.shape = []
  length : d.cells.length = 1
  flat : ∀ v ∈ d.cells, v.isFlat = true

variable {S : World → Prop}

namespace Dense

theorem isSingle_of_isFlat (t : ElemType) {v : Value} (hv : v.isFlat = true) : IsSingle ⟨t, [], [v]⟩ :=
  ⟨rfl, rfl, by simpa using hv⟩

theorem isFlat_castCell (t : ElemType) {v : Value} (hv : v.isFlat = true) : (castCell t v).isFlat = true := by
  unfold castCell
  split
  · exact hv
  · rfl
  · exact hv

theorem ofValue_of_isFlat {v : Value} (hv : v.isFlat = true) (h : Heap) :
    ofValue h v = .ok ⟨leafType v, [], [castCell (leafType v) v]⟩ := by
  cases v with
  | list | tuple | record | function | array => cases hv
  | _ => rfl

theorem inert_read {v : Value} (hv : v.isFlat = true) : Inert S IsSingle (read v) := by
  refine inert_heap (fun h => by rw [ofValue_of_isFlat hv, ofValue_of_isFlat hv]) ?_
  rw [ofValue_of_isFlat hv]
  exact inert_pure (isSingle_of_isFlat _ (isFlat_castCell _ hv))

theorem inert_toValue {d : Dense} (hd : d.IsSingle) : Inert S (·.isFlat = true) d.toValue := by
  obtain ⟨v, hcells⟩ := List.length_eq_one_iff.1 hd.length
  unfold toValue
  rw [hd.shape, hcells]
  exact inert_pure (hd.flat v (by simp [hcells]))

namespace IsSingle

variable {d d' : Dense}

theorem broadcastShapes (hd : d.IsSingle) (hd' : d'.IsSingle) :
    Dense.broadcastShapes d.shape d'.shape = some [] := by
  rw [hd.shape, hd'.shape]
  rfl

/-- Two single cells make one pair. -/
theorem zip (hd : d.IsSingle) (hd' : d'.IsSingle) : ((d.spread []).zip (d'.spread [])).length = 1 ∧
    ∀ p ∈ (d.spread []).zip (d'.spread []), p.1.isFlat = true ∧ p.2.isFlat = true := by
  simp only [spread, hd.shape, hd'.shape, beq_self_eq_true, if_true]
  refine ⟨by simp [hd.length, hd'.length], fun p hp => ?_⟩
  exact ⟨hd.flat _ (List.of_mem_zip hp).1, hd'.flat _ (List.of_mem_zip hp).2⟩

end IsSingle
end Dense

/-- A side of an operation that is a plain number or a single cell. -/
def Operand.IsSingle : Operand → Prop
  | weak _ => True
  | strong d => d.IsSingle

namespace Operand

theorem inert_read {v : Value} (hv : v.isFlat = true) : Inert S IsSingle (read v) := by
  have hstrong := Dense.isSingle_of_isFlat (Dense.leafType v) (Dense.isFlat_castCell (Dense.leafType v) hv)
  cases v with
  | list | tuple | record | function | array => cases hv
  | int n => exact inert_heap (fun _ => rfl) (inert_pure (a := weak (.int n)) trivial)
  | float x => exact inert_heap (fun _ => rfl) (inert_pure (a := weak (.float x)) trivial)
  | complex z => exact inert_heap (fun _ => rfl) (inert_pure (a := weak (.complex z)) trivial)
  | _ => exact inert_heap (fun _ => rfl) (inert_pure (a := strong _) hstrong)

theorem isSingle_dense {o : Operand} (ho : o.IsSingle) {t : ElemType} {d : Dense} (hd : o.dense t = .ok d) :
    d.IsSingle := by
  cases o with
  | strong d' =>
    cases hd
    exact ho
  | weak p =>
    unfold dense at hd
    dsimp only at hd
    split at hd
    · cases hd
      cases p <;> exact Dense.isSingle_of_isFlat _ rfl
    · cases hd
      exact Dense.isSingle_of_isFlat _ rfl
    · obtain ⟨z, -, hd⟩ := bind_eq_ok hd
      cases hd
      exact Dense.isSingle_of_isFlat _ rfl

end Operand

/-! ## Cell by cell -/

/-- An operation on single cells, if the one on cells that hold any value is inert. -/
theorem CellOp.inert_run (op : CellOp) {objects : Value → Value → Run Value}
    (hobjects : ∀ x y : Value, x.isFlat = true → y.isFlat = true → Inert S (·.isFlat = true) (objects x y))
    {a b : Operand} (ha : a.IsSingle) (hb : b.IsSingle) : Inert S Dense.IsSingle (op.run objects a b) := by
  unfold CellOp.run
  extract_lets cells
  have hcells : ∀ u, Inert S Dense.IsSingle (cells u) := by
    intro u
    refine (inert_any _).bind fun t _ =>
      (inert_ofFault fun _ => Operand.isSingle_dense ha).bind fun d hd =>
      (inert_ofFault fun _ => Operand.isSingle_dense hb).bind fun d' hd' => ?_
    obtain ⟨hlength, hflat⟩ := hd.zip hd'
    simp only [hd.broadcastShapes hd']
    split
    · refine (inert_mapM fun p hp => hobjects p.1 p.2 (hflat p hp).1 (hflat p hp).2).bind fun vs hvs => ?_
      exact inert_pure ⟨rfl, hvs.1.trans hlength, hvs.2⟩
    · refine (inert_any _).bind fun _ _ => (inert_mapM (Q := (·.isFlat = true)) fun p _ => ?_).bind fun vs hvs => ?_
      · exact (inert_any _).bind fun _ _ => inert_pure rfl
      · exact inert_pure ⟨rfl, hvs.1.trans hlength, hvs.2⟩
  split
  · exact (inert_fail (P := fun _ => True) _).bind fun u _ => hcells u
  · exact hcells ()

theorem Value.inert_mapCells (type : ElemType → Except Fault ElemType) (f : Scalar → Except Fault Scalar)
    {objects : Value → Run Value}
    (hobjects : ∀ v : Value, v.isFlat = true → Inert S (·.isFlat = true) (objects v)) {d : Dense}
    (hd : d.IsSingle) : Inert S Dense.IsSingle (mapCells type f objects d) := by
  unfold mapCells
  split
  · refine (inert_mapM fun v hv => hobjects v (hd.flat v hv)).bind fun vs hvs => ?_
    exact inert_pure ⟨hd.shape, hvs.1.trans hd.length, hvs.2⟩
  · refine (inert_any _).bind fun _ _ => (inert_mapM (Q := (·.isFlat = true)) fun _ _ => ?_).bind fun vs hvs => ?_
    · exact (inert_any _).bind fun _ _ => inert_pure rfl
    · exact inert_pure ⟨hd.shape, hvs.1.trans hd.length, hvs.2⟩

theorem Library.inert_mapValue (type : ElemType → Except Fault ElemType) (f : Scalar → Except Fault Scalar)
    {objects : Value → Run Value}
    (hobjects : ∀ v : Value, v.isFlat = true → Inert S (·.isFlat = true) (objects v)) {v : Value}
    (hv : v.isFlat = true) : Inert S (·.isFlat = true) (mapValue type f objects v) :=
  (Dense.inert_read hv).bind fun _ hd => (Value.inert_mapCells type f hobjects hd).bind fun _ =>
    Dense.inert_toValue

theorem Library.inert_zipValues (op : CellOp) {objects : Value → Value → Run Value}
    (hobjects : ∀ x y : Value, x.isFlat = true → y.isFlat = true → Inert S (·.isFlat = true) (objects x y))
    {a b : Value} (ha : a.isFlat = true) (hb : b.isFlat = true) :
    Inert S (·.isFlat = true) (zipValues op objects a b) :=
  (Operand.inert_read ha).bind fun _ hx => (Operand.inert_read hb).bind fun _ hy =>
    (op.inert_run hobjects hx hy).bind fun _ => Dense.inert_toValue

/-! ## Operators -/

namespace Value

theorem inert_times {s n : Value} (hs : s.isFlat = true) {r : Run Value} (h : sequenceOp.times s n = some r) :
    Inert S (·.isFlat = true) r := by
  cases s with
  | list | tuple | record | function | array => cases hs
  | text t =>
    cases hn : repeatCount? n with
    | some k =>
      simp only [sequenceOp.times, hn, Option.some.injEq] at h
      exact h ▸ (inert_any _).bind fun _ _ => inert_pure rfl
    | none =>
      simp only [sequenceOp.times, hn] at h
      split at h
      · exact Option.some.inj h ▸ inert_fail _
      · cases h
  | _ => cases h

theorem inert_sequenceOp {op : BinaryOp} {a b : Value} (ha : a.isFlat = true) (hb : b.isFlat = true)
    {r : Run Value} (h : sequenceOp op a b = some r) : Inert S (·.isFlat = true) r := by
  unfold sequenceOp at h
  split at h
  · cases h
    exact inert_pure rfl
  · cases ha
  · cases ha
  · cases hs : sequenceOp.times a b with
    | some r' =>
      simp only [hs, Option.orElse_some, Option.some.injEq] at h
      exact h ▸ inert_times ha hs
    | none =>
      simp only [hs, Option.orElse_none] at h
      exact inert_times hb h
  · split at h
    · cases h
    · cases b with
      | list | tuple | record | function | array => cases hb
      | _ => cases h
  · cases h

theorem inert_binaryAt (depth : Nat) (op : BinaryOp) {a b : Value} (ha : a.isFlat = true)
    (hb : b.isFlat = true) : Inert S (·.isFlat = true) (binaryAt depth op a b) := by
  induction depth generalizing a b with
  | zero => exact inert_fail _
  | succ depth ih =>
    have ha := isFlat_untyped ha
    have hb := isFlat_untyped hb
    unfold binaryAt
    dsimp only
    split
    · exact (inert_any _).bind fun p _ => inert_pure (isFlat_ofPlain p)
    · split
      · exact inert_sequenceOp ha hb ‹_›
      · split
        · exact Library.inert_zipValues _ (fun _ _ => ih) ha hb
        · exact inert_fail _

theorem inert_binary (op : BinaryOp) {a b : Value} (ha : a.isFlat = true) (hb : b.isFlat = true) :
    Inert S (·.isFlat = true) (binary op a b) :=
  inert_binaryAt _ op ha hb

theorem inert_unaryAt (depth : Nat) (op : UnaryOp) {v : Value} (hv : v.isFlat = true) :
    Inert S (·.isFlat = true) (unaryAt depth op v) := by
  induction depth generalizing v with
  | zero => exact inert_fail _
  | succ depth ih =>
    unfold unaryAt
    split
    · exact inert_fail _
    · exact inert_pure (isFlat_ofPlain _)
    · exact inert_pure (isFlat_ofPlain _)
    · split
      · exact Library.inert_mapValue _ _ (fun _ => ih) hv
      · exact inert_fail _

theorem inert_unary (op : UnaryOp) {v : Value} (hv : v.isFlat = true) :
    Inert S (·.isFlat = true) (unary op v) :=
  inert_unaryAt _ op hv

theorem inert_absAt (depth : Nat) {v : Value} (hv : v.isFlat = true) :
    Inert S (·.isFlat = true) (absAt depth v) := by
  induction depth generalizing v with
  | zero => exact inert_fail _
  | succ depth ih =>
    unfold absAt
    split
    · exact (inert_any _).bind fun p _ => inert_pure (isFlat_ofPlain p)
    · split
      · exact Library.inert_mapValue _ _ (fun _ => ih) hv
      · exact inert_fail _

section

variable {less : Value → Value → Run Bool}
  (hless : ∀ {x y : Value}, x.isFlat = true → y.isFlat = true → Inert S (fun _ => True) (less x y))

include hless

theorem inert_lessObjects {a b : Value} (ha : a.isFlat = true) (hb : b.isFlat = true) :
    Inert S (fun _ => True) (lessObjects less a b) := by
  unfold lessObjects
  split
  · exact inert_any _
  · exact hless ha hb

theorem inert_lessOperands {x y : Operand} (hx : x.IsSingle) (hy : y.IsSingle) :
    Inert S (fun _ => True) (lessOperands less x y) := by
  unfold lessOperands
  extract_lets cells
  have hcells : ∀ u, Inert S (fun _ => True) (cells u) := by
    intro u
    refine (inert_any _).bind fun t _ => ?_
    split
    · refine (inert_ofFault fun _ => Operand.isSingle_dense hx).bind fun dx hdx =>
        (inert_ofFault fun _ => Operand.isSingle_dense hy).bind fun dy hdy => ?_
      simp only [hdx.broadcastShapes hdy]
      have hflat := (hdx.zip hdy).2
      exact (inert_mapM fun p hp => inert_lessObjects hless (hflat p hp).1 (hflat p hp).2).bind fun _ _ =>
        inert_any _
    · exact (CellOp.inert_run _ (fun _ _ _ _ => inert_fail _) hx hy).bind fun _ _ => inert_any _
  split
  · exact (inert_fail (P := fun _ => True) _).bind fun u _ => hcells u
  · exact hcells ()

theorem inert_lessNumbers {a b : Value} (ha : a.isFlat = true) (hb : b.isFlat = true) :
    Inert S (fun _ => True) (lessNumbers less a b) := by
  unfold lessNumbers
  split
  · exact inert_any _
  · split
    · exact (Operand.inert_read ha).bind fun x hx => (Operand.inert_read hb).bind fun y hy =>
        inert_lessOperands hless hx hy
    · exact inert_fail _

end

/-- Flat values are no sequences, so the heap does not matter for their order. -/
theorem lessKinds_of_isFlat (less : Value → Value → Run Bool) {a : Value} (ha : a.isFlat = true) (b : Value)
    (h h' : Heap) : lessKinds less h a b = lessKinds less h' a b := by
  cases a with
  | list | tuple | record | function | array => cases ha
  | text s => cases b <;> rfl
  | _ => rfl

theorem inert_lessAt (depth : Nat) {a b : Value} (ha : a.isFlat = true) (hb : b.isFlat = true) :
    Inert S (fun _ => True) (lessAt depth a b) := by
  induction depth generalizing a b with
  | zero => exact inert_fail _
  | succ depth ih =>
    replace ha := isFlat_untyped ha
    replace hb := isFlat_untyped hb
    refine inert_heap (fun h => lessKinds_of_isFlat _ ha _ _ _) ?_
    unfold lessKinds
    split
    · exact inert_pure trivial
    · rename_i hx _
      rw [hx] at ha
      cases ha
    · rename_i hx _
      rw [hx] at ha
      cases ha
    · exact inert_lessNumbers ih ha hb

theorem inert_toInt {v : Value} (hv : v.isFlat = true) : Inert S (fun _ => True) (toInt v) := by
  refine inert_heap (fun h => ?_) ?_
  · cases v with
    | list | tuple | record | function | array => cases hv
    | _ => rfl
  extract_lets ofText ofScalar
  have htext : ∀ s, Inert S (fun _ => True) (ofText s) := by
    intro s
    dsimp only [ofText]
    split
    · exact inert_pure trivial
    · exact inert_fail _
  have hscalar : ∀ s, Inert S (fun _ => True) (ofScalar s) := by
    intro s
    dsimp only [ofScalar]
    split
    · exact htext _
    · exact inert_any _
    · split
      · exact inert_any _
      · exact inert_fail _
  split
  · exact htext _
  · exact hscalar _
  · cases hv
  · split
    · exact inert_any _
    · exact inert_fail _

end Value

/-! ## The library -/

theorem ElemType.accept_of_isFlat (t : ElemType) {v : Value} (hv : v.isFlat = true) (h h' : Heap) :
    t.accept h v = t.accept h' v := by
  by_cases ht : t = .object
  · subst ht
    rfl
  · exact accept_eq_of_look_eq ht (Value.look_of_isFlat hv h h')

namespace Library

theorem inert_extremeObjects (largest : Bool) {a b : Value} (ha : a.isFlat = true) (hb : b.isFlat = true) :
    Inert S (·.isFlat = true) (extremeObjects largest a b) := by
  unfold extremeObjects
  split
  · refine (Value.inert_lessAt _ ha hb).bind fun c _ => inert_pure ?_
    split <;> assumption
  · refine (Value.inert_lessAt _ hb ha).bind fun c _ => inert_pure ?_
    split <;> assumption

/-- One cell is its own total. -/
theorem inert_reduceCells (f : Builtin) (t : ElemType) {d : Dense} (hd : d.IsSingle) :
    Inert S (·.isFlat = true) (reduceCells f t d.cells) := by
  obtain ⟨v, hcells⟩ := List.length_eq_one_iff.1 hd.length
  have hv : v.isFlat = true := hd.flat v (by simp [hcells])
  rw [hcells]
  unfold reduceCells
  split
  · split
    · exact inert_pure hv
    · exact (inert_any _).bind fun _ _ => (inert_any _).bind fun _ _ => inert_pure rfl
  · split
    · exact inert_pure hv
    · exact (inert_any _).bind fun _ _ => inert_pure rfl

theorem inert_reduce (f : Builtin) {v : Value} (hv : v.isFlat = true) (axis : Value) :
    Inert S (·.isFlat = true) (reduce f v axis) := by
  unfold reduce
  refine (Dense.inert_read hv).bind fun d hd => (inert_any _).bind fun t _ => ?_
  split
  · exact inert_reduceCells f d.type hd
  · extract_lets dims along
    have halong : ∀ n, Inert S (·.isFlat = true) (along n) := by
      intro n
      dsimp only [along]
      split
      · exact inert_reduceCells f d.type hd
      · have hnone : resolvePosition dims n = none := by
          simp only [dims, hd.shape, List.length_nil, resolvePosition]
          split <;> rw [if_neg (by omega)]
        rw [hnone]
        exact inert_fail _
    split
    · exact (inert_pure (P := fun _ => True) trivial).bind fun n _ => halong n
    · exact (inert_pure (P := fun _ => True) trivial).bind fun n _ => halong n
    · exact (inert_fail (P := fun _ => True) _).bind fun n _ => halong n

theorem inert_natural {v : Value} (hv : v.isFlat = true) : Inert S (fun _ => True) (natural v) := by
  refine inert_heap (fun h => ?_) ?_
  · cases v with
    | list | tuple | record | function | array => cases hv
    | scalar s => cases s <;> rfl
    | _ => rfl
  · split
    · exact inert_fail _
    · split
      · exact inert_fail _
      · exact inert_pure trivial

theorem inert_convert (t : ElemType) {v : Value} (hv : v.isFlat = true) :
    Inert S (·.isFlat = true) (convert t v) := by
  refine inert_heap (fun h => ?_) ?_
  · cases v with
    | list | tuple | record | function | array => cases hv
    | scalar s => cases s <;> rfl
    | _ => exact congrArg ofFault (t.accept_of_isFlat hv h #[])
  split
  · cases hv
  · cases hv
  · cases hv
  · exact (inert_any _).bind fun _ _ => inert_pure rfl
  · exact inert_pure rfl
  · refine inert_ofFault fun c hc => ?_
    by_cases ht : t = .object
    · subst ht
      cases hc
      exact hv
    · obtain ⟨s, rfl⟩ := ElemType.exists_scalar_of_accept ht hc
      rfl

theorem inert_call (f : Builtin) {args : List Value} (hargs : ∀ v ∈ args, v.isFlat = true) :
    Inert S (·.isFlat = true) (call f args) := by
  have hnone : ∀ v : Value, v.isFlat = true → Inert S (·.isFlat = true) (noObjects v) := fun _ _ => inert_fail _
  rcases args with _ | ⟨a, _ | ⟨b, _ | ⟨c, rest⟩⟩⟩
  · cases f with
    | convert t => exact inert_pure rfl
    | _ => exact inert_fail _
  · have ha := hargs a (.head _)
    cases f with
    | abs => exact inert_mapValue _ _ (fun _ => Value.inert_absAt _) ha
    | square => exact inert_mapValue _ _ (fun _ hv => Value.inert_binary _ hv hv) ha
    | sqrt | log | exp | floor | ceil | sign | round => exact inert_mapValue _ _ hnone ha
    | largest | smallest | total => exact inert_reduce _ ha .none
    | convert t => exact inert_convert t ha
    | factorial | integerRoot => exact (inert_natural ha).bind fun _ _ => inert_pure rfl
    | _ => exact inert_fail _
  · have ha := hargs a (.head _)
    have hb := hargs b (.tail _ (.head _))
    cases f with
    | round => exact (Value.inert_toInt hb).bind fun _ _ => inert_mapValue _ _ hnone ha
    | maximum | minimum => exact inert_zipValues _ (fun _ _ => inert_extremeObjects _) ha hb
    | add | subtract | multiply => exact inert_zipValues _ (fun _ _ => Value.inert_binary _) ha hb
    | hypot | gcd => exact inert_zipValues _ (fun _ _ _ _ => inert_fail _) ha hb
    | largest | smallest | total => exact inert_reduce _ ha b
    | choose => exact (inert_natural ha).bind fun _ _ => (inert_natural hb).bind fun _ _ => inert_pure rfl
    | _ => exact inert_fail _
  · cases f <;> exact inert_fail _

end Library

/-! ## Expressions -/

namespace Value

/-- Whether a value is a function of the library. -/
def isBuiltin : Value → Bool
  | function (.builtin _) => true
  | _ => false

/-- Whether a value is an array with a number of dimensions, and flat values in its cells. -/
def isTable (h : Heap) (rank : Nat) : Value → Bool
  | array a => a.shape.length == rank && (h.block a.block).toList.all isFlat
  | _ => false

end Value

namespace Expr

/-- Whether an expression is put together from indices, numbers, names of flat values, references to
single cells of arrays by plain indices, operators, and functions of the library. -/
def isScalar (scope : Scope) (indices : List String) (h : Heap) : Expr → Bool
  | name id _ => indices.contains id || (scope.lookup id).toOption.any Value.isFlat
  | number _ _ => true
  | index (name id _) keys _ => !indices.contains id && keys.all isName &&
    (symbolNames keys).all indices.contains && (scope.bindings.lookup id).any (·.isTable h keys.length)
  | call f args _ => (scope.lookup f).toOption.any Value.isBuiltin && isScalarAll args
  | binary l _ r _ => isScalar scope indices h l && isScalar scope indices h r
  | unary _ e _ => isScalar scope indices h e
  | _ => false
where
  isScalarAll : List Expr → Bool
    | [] => true
    | e :: es => isScalar scope indices h e && isScalarAll es

variable {scope : Scope} {indices : List String} {env : Env} {h : Heap}

theorem inert_call {f : Value} (hf : f.isBuiltin = true) {args : List Value}
    (hargs : ∀ v ∈ args, v.isFlat = true) : Inert S (·.isFlat = true) (scope.call f args) := by
  unfold Value.isBuiltin at hf
  split at hf
  · exact Library.inert_call _ hargs
  · cases hf

/-- A reference to a single cell reads its block and nothing else. -/
theorem inert_reference {a : View} {keys : List String} (hlen : keys.length = a.shape.length)
    (hflat : ∀ v ∈ (h.block a.block).toList, v.isFlat = true)
    (hS : ∀ w, S w → w.heap.block a.block = h.block a.block) :
    Inert S (·.isFlat = true) (Code.run scope env (.get (.value (.array a)) (keys.map .index))) := by
  refine ⟨a.readAt h keys env, fun v hv => ?_, fun w hw => ?_⟩
  · unfold View.readAt at hv
    split at hv
    · split at hv
      · rename_i p hplace
        cases hv
        rw [Array.getD_eq_getD_getElem?]
        cases hp : (h.block a.block)[p]? with
        | none => rfl
        | some x => exact hflat x (Array.mem_toList_iff.2 (Array.mem_of_getElem? hp))
      · cases hv
    · cases hv
  · rw [Code.exec_run_reference hlen, View.readAt, hS w hw, View.readAt]

mutual

/-- An expression of scalars reads single cells, and the arrays are as in the heap `h`. -/
theorem inert_run {e : Expr} (he : e.isScalar scope indices h = true)
    (hS : ∀ id pos, Expr.name id pos ∈ e.walk → ∀ a, scope.bindings.lookup id = some (.array a) →
      ∀ w, S w → w.heap.block a.block = h.block a.block)
    {c : Code} (hc : e.resolve scope indices = .ok c) : Inert S (·.isFlat = true) (c.run scope env) := by
  cases e with
  | name id pos =>
    rw [isScalar, Bool.or_eq_true, List.contains_iff_mem] at he
    obtain ⟨-, rfl⟩ | ⟨hfree, v, hv, rfl⟩ := resolve_name_eq_ok hc
    · rw [Code.run]
      split
      · exact inert_pure rfl
      · exact inert_fail _
    · rw [hv] at he
      exact inert_pure (he.resolve_left hfree)
  | number v pos =>
    cases hc
    exact inert_pure (Value.isFlat_ofLiteral v)
  | index base keys pos =>
    cases base with
    | name id pos' =>
      simp only [isScalar, Bool.and_eq_true] at he
      obtain ⟨⟨⟨hfree, hnames⟩, hmem⟩, htable⟩ := he
      obtain ⟨v, hv, htable⟩ := (Option.any_eq_true _ _).1 htable
      cases v with
      | array a =>
        have hkeys := map_name?_of_all hnames
        have hlen : keys.length = (symbolNames keys).length := by simpa using congrArg List.length hkeys
        simp only [Value.isTable, Bool.and_eq_true, beq_iff_eq, List.all_eq_true] at htable
        have hreads : (Expr.index (.name id pos') keys pos).Reads id (symbolNames keys) :=
          ⟨pos', keys, pos, rfl, hkeys⟩
        rw [hreads.resolve (by simpa using hfree) hv (by simpa using hmem)] at hc
        cases hc
        exact inert_reference (hlen.symm.trans htable.1.symm) htable.2
          (hS id pos' (.tail _ (List.mem_append_left _ (.head _))) a hv)
      | _ => cases htable
    | _ => cases he
  | call f args pos =>
    rw [isScalar, Bool.and_eq_true] at he
    obtain ⟨v, codes, hv, hargs, rfl⟩ := resolve_call_eq_ok hc
    rw [hv] at he
    refine (inert_runAll he.2 (fun id pos hid => hS id pos (.tail _ hid)) hargs).bind fun vs hvs => ?_
    exact inert_call he.1 hvs
  | binary l op r pos =>
    rw [isScalar, Bool.and_eq_true] at he
    obtain ⟨left, right, hleft, hright, rfl⟩ := resolve_binary_eq_ok hc
    have hl := inert_run he.1 (fun id pos hid => hS id pos (.tail _ (List.mem_append_left _ hid))) hleft
    have hr := inert_run he.2 (fun id pos hid => hS id pos (.tail _ (List.mem_append_right _ hid))) hright
    exact hl.bind fun x hx => hr.bind fun y hy => Value.inert_binary _ hx hy
  | unary op e pos =>
    rw [isScalar] at he
    obtain ⟨operand, hoperand, rfl⟩ := resolve_unary_eq_ok hc
    have hx := inert_run he (fun id pos hid => hS id pos (.tail _ hid)) hoperand
    exact hx.bind fun x hx => Value.inert_unary _ hx
  | field | first | compare | keyword | target | hole => cases he

theorem inert_runAll {es : List Expr} (hes : isScalar.isScalarAll scope indices h es = true)
    (hS : ∀ id pos, Expr.name id pos ∈ walk.walkAll es → ∀ a, scope.bindings.lookup id = some (.array a) →
      ∀ w, S w → w.heap.block a.block = h.block a.block)
    {cs : List Code} (hcs : resolve.resolveAll scope indices es = .ok cs) :
    Inert S (fun vs : List Value => ∀ v ∈ vs, v.isFlat = true) (Code.run.runAll scope env cs) := by
  cases es with
  | nil =>
    cases hcs
    exact inert_pure (by simp)
  | cons e es =>
    rw [isScalar.isScalarAll, Bool.and_eq_true] at hes
    obtain ⟨c, cs', hc, hcs', rfl⟩ := resolveAll_cons_eq_ok hcs
    refine (inert_run hes.1 (fun id pos hid => hS id pos (List.mem_append_left _ hid)) hc).bind fun v hv =>
      (inert_runAll hes.2 (fun id pos hid => hS id pos (List.mem_append_right _ hid)) hcs').bind fun vs hvs => ?_
    exact inert_pure (List.forall_mem_cons.2 ⟨hv, hvs⟩)

end

end Expr

end IndexNotation
