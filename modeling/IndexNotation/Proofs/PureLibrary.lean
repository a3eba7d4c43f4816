import IndexNotation.Element.Code
import IndexNotation.Proofs.Mirroring

/-!
# The library is pure

A pure function gives the same for arguments that are the same up to the blocks they are kept in, and
leaves what there is as it is. Comparing values uses where they are kept, but only to tell whether it
is one place; so the functions of the library are pure, and an expression that calls pure functions
only comes to the same however its values are kept.
-/

namespace IndexNotation

open Value (Twins)

variable {w : World} {R : Nat → Nat → Prop} {h h' : Heap} {v v' : Value}

/-! ## Order -/

namespace Value

variable {a a' b b' : Value}

/-- Whether twins are equal to twins. -/
theorem equal_eq (hl : Linked R h h') (depth : Nat) :
    (∀ {a a' b b'}, Twins R a a' → Twins R b b' → equalAt h depth a b = equalAt h' depth a' b') ∧
    ∀ {xs xs' ys ys'}, List.Forall₂ (Twins R) xs xs' → List.Forall₂ (Twins R) ys ys' →
      equalAll h depth xs ys = equalAll h' depth xs' ys' := by
  induction depth with
  | zero => exact ⟨fun _ _ => rfl, fun _ _ => rfl⟩
  | succ depth ih =>
    refine ⟨fun {a a' b b'} ha hb => ?_, fun hxs hys => ?_⟩
    · replace ha := ha.untyped
      replace hb := hb.untyped
      simp only [equalAt]
      generalize a.untyped = x, a'.untyped = x' at ha
      generalize b.untyped = y, b'.untyped = y' at hb
      cases ha with
      | flat hx =>
        cases x with
        | list | tuple | record | function | array => cases hx
        | _ =>
          cases hb with
          | flat hy =>
            cases y with
            | list | tuple | record | function | array => cases hy
            | _ => rfl
          | _ => rfl
      | @list p p' hp =>
        cases hb with
        | flat hy =>
          cases y with
          | list => cases hy
          | _ => rfl
        | @list q q' hq =>
          have hsame : (p == q) = (p' == q') := by
            rw [Bool.eq_iff_iff, beq_iff_eq, beq_iff_eq]
            exact ⟨fun e => hl.unique.2 (e ▸ hp) hq, fun e => hl.unique.1 (e ▸ hp) hq⟩
          simp only [hsame, ih.2 (hl.cells hp) (hl.cells hq)]
        | _ => rfl
      | tuple hlen hitems =>
        cases hb with
        | flat hy =>
          cases y with
          | tuple => cases hy
          | _ => rfl
        | tuple hlen' hitems' =>
          exact ih.2 (Twins.tuple hlen hitems).items (Twins.tuple hlen' hitems').items
        | _ => rfl
      | _ =>
        cases hb with
        | flat _ => cases y <;> rfl
        | _ => rfl
    · cases hxs with
      | nil => cases hys <;> rfl
      | cons hx hxs =>
        cases hys with
        | nil => rfl
        | cons hy hys => simp only [equalAll, ih.1 hx hy, ih.2 hxs hys]

theorem firstDifference_twins (hl : Linked R h h') {xs xs' ys ys' : List Value}
    (hxs : List.Forall₂ (Twins R) xs xs') (hys : List.Forall₂ (Twins R) ys ys') :
    Option.Rel (fun p p' => Twins R p.1 p'.1 ∧ Twins R p.2 p'.2) (firstDifference h xs ys)
      (firstDifference h' xs' ys') := by
  induction hxs generalizing ys ys' with
  | nil => cases hys <;> exact .none
  | cons hx _ ih =>
    cases hys with
    | nil => exact .none
    | cons hy hys =>
      simp only [firstDifference, (equal_eq hl 1000).1 hx hy]
      split
      · exact ih hys
      · exact .some ⟨hx, hy⟩

theorem compareType_eq {x x' y y' : Operand} (hx : x.Twins R x') (hy : y.Twins R y') :
    compareType x y = compareType x' y' := by
  have hcommon := hx.commonType_eq hy
  cases hx with
  | weak p =>
    cases hy with
    | weak q => rfl
    | strong hd => cases p <;> first | exact hcommon | simp only [compareType, hd.type]
  | strong hd =>
    cases hy with
    | weak q => cases q <;> first | exact hcommon | simp only [compareType, hd.type]
    | strong he => exact hcommon

theorem Twins.widthless_eq (hv : Twins R v v') : widthless v = widthless v' := by
  cases hv <;> rfl

section

variable {less less' : Value → Value → Run Bool}
  (hless : ∀ {R : Nat → Nat → Prop} {a a' b b' : Value}, Twins R a a' → Twins R b b' →
    (mirroring w).Rel R (fun _ => Eq) (less a b) (less' a' b'))

include hless

theorem mirroring_lessItems (hl : Linked R h h') {xs xs' ys ys' : List Value}
    (hxs : List.Forall₂ (Twins R) xs xs') (hys : List.Forall₂ (Twins R) ys ys') :
    (mirroring w).Rel R (fun _ => Eq) (lessItems less h xs ys) (lessItems less' h' xs' ys') := by
  have hdifference := firstDifference_twins hl hxs hys
  rw [lessItems, lessItems, hxs.length_eq, hys.length_eq]
  generalize firstDifference h xs ys = p, firstDifference h' xs' ys' = p' at hdifference
  cases hdifference with
  | some hp => exact hless hp.1 hp.2
  | none => exact (mirroring w).pure rfl

theorem mirroring_lessObjects (ha : Twins R a a') (hb : Twins R b b') :
    (mirroring w).Rel R (fun _ => Eq) (lessObjects less a b) (lessObjects less' a' b') := by
  unfold lessObjects
  rw [ha.widthless_eq, hb.widthless_eq]
  split
  · exact mirroring_same _
  · exact hless ha hb

theorem mirroring_lessMixed {x x' y y' : Operand} (hx : x.Twins R x') (hy : y.Twins R y') :
    (mirroring w).Rel R (fun _ => Eq) (lessMixed less x y) (lessMixed less' x' y') := by
  refine (mirroring w).bind (mirroring_ofFault (hx.dense _)) fun R₁ d d' hR₁ hd => ?_
  refine (mirroring w).bind (mirroring_ofFault ((hy.mono hR₁).dense _)) fun R₂ e e' hR₂ he => ?_
  replace hd := hd.mono hR₂
  rw [hd.shape, he.shape]
  split
  · exact (mirroring w).throw _
  · rename_i shape _
    have hpairs := zip_of_forall₂ (hd.spread shape) (he.spread shape)
    refine (mirroring w).bind (mirroring_mapM (fun _ => Eq) (fun _ => id) hpairs
      fun R₃ p p' hR₃ hp => mirroring_lessObjects hless (hp.1.mono hR₃) (hp.2.mono hR₃))
      fun R₃ bs bs' _ hbs => ?_
    rw [List.forall₂_eq_eq_eq] at hbs
    exact hbs ▸ mirroring_same _

theorem mirroring_lessOperands {x x' y y' : Operand} (hx : x.Twins R x') (hy : y.Twins R y') :
    (mirroring w).Rel R (fun _ => Eq) (lessOperands less x y) (lessOperands less' x' y') := by
  unfold lessOperands
  rw [hx.isMixed_eq hy, compareType_eq hx hy]
  extract_lets cells cells'
  have hcells : ∀ u, (mirroring w).Rel R (fun _ => Eq) (cells u) (cells' u) := by
    intro u
    refine (mirroring w).bind (mirroring_same _) fun R₁ t _ hR₁ ht => ?_
    subst ht
    split
    · exact mirroring_lessMixed hless (hx.mono hR₁) (hy.mono hR₁)
    · refine (mirroring w).bind (CellOp.mirroring_run lessOp
        (fun _ _ _ _ _ _ _ _ => (mirroring w).throw _) (hx.mono hR₁) (hy.mono hR₁)) fun R₂ d d' _ hd => ?_
      rw [truths_eq hd]
      exact mirroring_same _
  split
  · exact (mirroring w).throw _
  · exact hcells ()

theorem mirroring_lessNumbers (ha : Twins R a a') (hb : Twins R b b') :
    (mirroring w).Rel R (fun _ => Eq) (lessNumbers less a b) (lessNumbers less' a' b') := by
  unfold lessNumbers
  rw [ha.plain?_eq, hb.plain?_eq, ha.isTyped_eq, hb.isTyped_eq]
  split
  · exact mirroring_same _
  · split
    · refine (mirroring w).bind (Operand.mirroring_read ha) fun R₁ x x' hR₁ hx => ?_
      refine (mirroring w).bind (Operand.mirroring_read (hb.mono hR₁)) fun R₂ y y' hR₂ hy => ?_
      exact mirroring_lessOperands hless (hx.mono hR₂) hy
    · exact (mirroring w).throw _

/-- Twins are of one kind, so both sides take the same branch. -/
theorem mirroring_lessKinds (hl : Linked R h h') (ha : Twins R a a') (hb : Twins R b b') :
    (mirroring w).Rel R (fun _ => Eq) (lessKinds less h a b) (lessKinds less' h' a' b') := by
  have hnumbers := mirroring_lessNumbers hless ha hb
  cases ha with
  | flat hx =>
    cases a with
    | text s =>
      cases hb with
      | flat hy =>
        cases b with
        | text t => exact (mirroring w).pure rfl
        | _ => exact hnumbers
      | _ => exact hnumbers
    | list | tuple => cases hx
    | _ => exact hnumbers
  | list hp =>
    cases hb with
    | list hq => exact mirroring_lessItems hless hl (hl.cells hp) (hl.cells hq)
    | flat hy =>
      cases b with
      | list => cases hy
      | _ => exact hnumbers
    | _ => exact hnumbers
  | tuple hlen hitems =>
    cases hb with
    | tuple hlen' hitems' =>
      exact mirroring_lessItems hless hl (Twins.tuple hlen hitems).items (Twins.tuple hlen' hitems').items
    | flat hy =>
      cases b with
      | tuple => cases hy
      | _ => exact hnumbers
    | _ => exact hnumbers
  | _ => exact hnumbers

end

theorem mirroring_lessAt (depth : Nat) (ha : Twins R a a') (hb : Twins R b b') :
    (mirroring w).Rel R (fun _ => Eq) (lessAt depth a b) (lessAt depth a' b') := by
  induction depth generalizing R a a' b b' with
  | zero => exact (mirroring w).throw _
  | succ depth ih =>
    refine (mirroring w).bind mirroring_heap fun R₁ h h' hR₁ hl => ?_
    exact mirroring_lessKinds ih hl (ha.mono hR₁).untyped (hb.mono hR₁).untyped

theorem mirroring_less (ha : Twins R a a') (hb : Twins R b b') :
    (mirroring w).Rel R (fun _ => Eq) (less a b) (less a' b') :=
  mirroring_lessAt _ ha hb

/-! ## Numbers -/

theorem mirroring_absAt (depth : Nat) (hv : Twins R v v') :
    (mirroring w).Rel R Twins (absAt depth v) (absAt depth v') := by
  induction depth generalizing R v v' with
  | zero => exact (mirroring w).throw _
  | succ depth ih =>
    simp only [absAt, hv.plain?_eq, hv.isTyped_eq]
    split
    · refine (mirroring w).bind (mirroring_same _) fun _ p _ _ hp => (mirroring w).pure ?_
      exact hp ▸ .flat (isFlat_ofPlain p)
    · split
      · refine (mirroring w).bind (Dense.mirroring_read hv) fun R₁ d d' _ hd => ?_
        exact (mirroring w).bind (mirroring_mapCells _ _ (fun R₂ _ _ _ hx => ih hx) hd)
          fun _ _ _ _ hd => Dense.mirroring_toValue hd
      · exact (mirroring w).throw _

theorem mirroring_toInt (hv : Twins R v v') :
    (mirroring w).Rel R (fun _ => Eq) (toInt v) (toInt v') := by
  refine (mirroring w).bind mirroring_heap fun R₁ h h' hR₁ hl => ?_
  replace hv := hv.mono hR₁
  extract_lets ofText ofScalar
  have htext (s : String) : (mirroring w).Rel R₁ (fun _ => Eq) (ofText s) (ofText s) := by
    dsimp only [ofText]
    split
    · exact (mirroring w).pure rfl
    · exact (mirroring w).throw _
  have hscalar (s : Scalar) : (mirroring w).Rel R₁ (fun _ => Eq) (ofScalar s) (ofScalar s) := by
    dsimp only [ofScalar]
    split
    · exact htext _
    · exact mirroring_same _
    · split
      · exact mirroring_same _
      · exact (mirroring w).throw _
  cases hv with
  | flat hflat =>
    cases v with
    | list | tuple | record | function | array => cases hflat
    | text s => exact htext s
    | scalar s => exact hscalar s
    | bool | int | float | complex => exact mirroring_same _
    | _ => exact (mirroring w).throw _
  | @array a b' hb =>
    have hcells := hl.view_cells hb
    dsimp only
    generalize a.cells h = cells, View.cells h' { a with block := b' } = cells' at hcells
    cases a.shape with
    | cons n ns => exact (mirroring w).throw _
    | nil =>
      rcases hcells with _ | ⟨hx, _ | ⟨_, _⟩⟩
      · exact (mirroring w).throw _
      · cases hx with
        | flat _ =>
          rename_i x _
          cases x with
          | scalar s => exact hscalar s
          | _ => exact (mirroring w).throw _
        | _ => exact (mirroring w).throw _
      · simpa [Run.fail] using (mirroring w).throw _
  | _ => exact (mirroring w).throw _

end Value

theorem ElemType.accept_twins (hl : Linked R h h') (t : ElemType) (hv : Twins R v v') :
    Paired (Twins R) (t.accept h v) (t.accept h' v') := by
  by_cases ht : t = .object
  · subst ht
    exact .ok hv
  rw [accept_eq_of_look_eq ht (hl.look_eq hv)]
  cases hc : t.accept h' v' with
  | error f => exact .error f
  | ok cell =>
    obtain ⟨s, rfl⟩ := exists_scalar_of_accept ht hc
    exact .ok (.flat rfl)

theorem Value.cellsFor_twins (hl : Linked R h h') (t : ElemType) (hv : Twins R v v') :
    Paired (Dense.Twins R) (cellsFor h t v) (cellsFor h' t v') := by
  have hnest : Paired (Dense.Twins R)
      (do let n ← Dense.nest h Dense.maxDepth v; return ⟨t, n.shape, ← n.cells.mapM (t.accept h)⟩)
      (do let n ← Dense.nest h' Dense.maxDepth v'; return ⟨t, n.shape, ← n.cells.mapM (t.accept h')⟩) := by
    refine (Dense.nest_twins hl _ hv).bind fun n n' hn => ?_
    rw [hn.shape]
    exact (Paired.mapM hn.cells fun _ _ hx => t.accept_twins hl hx).bind fun _ _ hcells =>
      .ok ⟨rfl, rfl, hcells⟩
  cases hv with
  | flat hflat =>
    cases v with
    | array => cases hflat
    | _ => exact hnest
  | array hb => exact .ok ⟨rfl, rfl, forall₂_map (hl.view_cells hb) fun _ _ hx => hx.castCell t⟩
  | _ => exact hnest

namespace Library

theorem mirroring_mapValue (type : ElemType → Except Fault ElemType) (f : Scalar → Except Fault Scalar)
    {objects : Value → Run Value}
    (hobjects : ∀ R' x x', Twins R' x x' → (mirroring w).Rel R' Twins (objects x) (objects x'))
    (hv : Twins R v v') :
    (mirroring w).Rel R Twins (mapValue type f objects v) (mapValue type f objects v') :=
  (mirroring w).bind (Dense.mirroring_read hv) fun _ _ _ _ hd =>
    (mirroring w).bind (Value.mirroring_mapCells type f (fun R' x x' _ => hobjects R' x x') hd)
      fun _ _ _ _ hd => Dense.mirroring_toValue hd

variable {a a' b b' : Value}

theorem mirroring_zipValues (op : CellOp) {objects : Value → Value → Run Value}
    (hobjects : ∀ R' x x' y y', Twins R' x x' → Twins R' y y' →
      (mirroring w).Rel R' Twins (objects x y) (objects x' y'))
    (ha : Twins R a a') (hb : Twins R b b') :
    (mirroring w).Rel R Twins (zipValues op objects a b) (zipValues op objects a' b') := by
  refine (mirroring w).bind (Operand.mirroring_read ha) fun R₁ x x' hR₁ hx => ?_
  refine (mirroring w).bind (Operand.mirroring_read (hb.mono hR₁)) fun R₂ y y' hR₂ hy => ?_
  exact (mirroring w).bind (CellOp.mirroring_run op (fun R' x x' y y' _ => hobjects R' x x' y y')
    (hx.mono hR₂) hy) fun _ _ _ _ hd => Dense.mirroring_toValue hd

theorem mirroring_extremeObjects (largest : Bool) (ha : Twins R a a') (hb : Twins R b b') :
    (mirroring w).Rel R Twins (extremeObjects largest a b) (extremeObjects largest a' b') := by
  have hpick {x x' y y' : Value} {R₁ : Nat → Nat → Prop} (hx : Twins R₁ x x') (hy : Twins R₁ y y')
      (c : Bool) : (mirroring w).Rel R₁ Twins (pure (if c then x else y)) (pure (if c then x' else y')) := by
    cases c with
    | true => exact (mirroring w).pure hx
    | false => exact (mirroring w).pure hy
  cases largest with
  | true =>
    refine (mirroring w).bind (Value.mirroring_less ha hb) fun R₁ c _ hR₁ hc => ?_
    exact hc ▸ hpick (hb.mono hR₁) (ha.mono hR₁) c
  | false =>
    refine (mirroring w).bind (Value.mirroring_less hb ha) fun R₁ c _ hR₁ hc => ?_
    exact hc ▸ hpick (hb.mono hR₁) (ha.mono hR₁) c

theorem mirroring_foldObjects {f : Value → Value → Run Value}
    (hf : ∀ R' x x' y y', Twins R' x x' → Twins R' y y' → (mirroring w).Rel R' Twins (f x y) (f x' y'))
    {xs ys : List Value} (hxs : List.Forall₂ (Twins R) xs ys) :
    (mirroring w).Rel R Twins (foldObjects f xs) (foldObjects f ys) := by
  cases hxs with
  | nil => exact (mirroring w).throw _
  | cons hx hxs =>
    exact mirroring_foldlM hxs (fun R' v v' x x' hR hv hx => hf R' v v' x x' hv (hx.mono hR)) hx

theorem mirroring_reduceCells (f : Builtin) (t : ElemType) {xs ys : List Value}
    (hxs : List.Forall₂ (Twins R) xs ys) :
    (mirroring w).Rel R Twins (reduceCells f t xs) (reduceCells f t ys) := by
  have hscalars : xs.map CellOp.scalarOf = ys.map CellOp.scalarOf :=
    map_eq_of_forall₂ hxs fun _ _ hx => hx.scalarOf_eq
  have hsum := mirroring_foldObjects (w := w) (f := Value.binary .add)
    (fun R' _ _ _ _ hx hy => Value.mirroring_binary .add hx hy) hxs
  have hextreme (largest : Bool) := mirroring_foldObjects (w := w) (f := extremeObjects largest)
    (fun R' _ _ _ _ hx hy => mirroring_extremeObjects largest hx hy) hxs
  unfold reduceCells
  rw [hscalars]
  dsimp only
  split
  · split
    · cases hxs with
      | nil => exact (mirroring w).pure (.flat rfl)
      | cons hx hxs => exact hsum
    · refine (mirroring w).bind (mirroring_same _) fun R₁ t _ _ ht => ?_
      subst ht
      exact (mirroring w).bind (mirroring_same _) fun R₂ s _ _ hs => (mirroring w).pure (hs ▸ .flat rfl)
  · split
    · exact hextreme _
    · split
      · exact (mirroring w).throw _
      · exact (mirroring w).bind (mirroring_same _) fun R₂ s _ _ hs =>
          (mirroring w).pure (hs ▸ .flat rfl)

theorem linesAlong_twins {d d' : Dense} (hd : d.Twins R d') (axis : Nat) :
    (linesAlong d axis).1 = (linesAlong d' axis).1 ∧
      List.Forall₂ (List.Forall₂ (Twins R)) (linesAlong d axis).2 (linesAlong d' axis).2 := by
  simp only [linesAlong, hd.shape, true_and]
  refine List.rel_flatMap (List.forall₂_same.2 fun _ _ => rfl) fun o _ ho => ?_
  subst ho
  refine forall₂_map_same _ fun i => forall₂_map_same _ fun k => ?_
  simp only [Array.getD_eq_getD_getElem?, List.getElem?_toArray]
  exact getD_of_forall₂ hd.cells (.flat rfl) _

theorem mirroring_reduce (f : Builtin) {axis axis' : Value} (hv : Twins R v v')
    (haxis : Twins R axis axis') :
    (mirroring w).Rel R Twins (reduce f v axis) (reduce f v' axis') := by
  have hread {x x' : Dense → ElemType → Run Value}
      (hx : ∀ R' d d' t, d.Twins R' d' → (mirroring w).Rel R' Twins (x d t) (x' d' t)) :
      (mirroring w).Rel R Twins
        (do let d ← Dense.read v; let t ← Run.ofFault (reducedType f d.type); x d t)
        (do let d ← Dense.read v'; let t ← Run.ofFault (reducedType f d.type); x' d t) := by
    refine (mirroring w).bind (Dense.mirroring_read hv) fun R₁ d d' _ hd => ?_
    rw [hd.type]
    refine (mirroring w).bind (mirroring_same _) fun R₂ t _ hR₂ ht => ?_
    exact ht ▸ hx R₂ d d' t (hd.mono hR₂)
  have hall {R' : Nat → Nat → Prop} {d d' : Dense} (hd : d.Twins R' d') :
      (mirroring w).Rel R' Twins (reduceCells f d.type d.cells) (reduceCells f d'.type d'.cells) :=
    hd.type ▸ mirroring_reduceCells f d.type hd.cells
  have hint (n : Int) : (mirroring w).Rel R Twins (reduce f v (.int n)) (reduce f v' (.int n)) := by
    refine hread fun R₁ d d' t hd => ?_
    refine (mirroring w).bind (Q := fun _ => Eq) ((mirroring w).pure rfl) fun R₂ n _ hR₂ hn => ?_
    subst hn
    replace hd := hd.mono hR₂
    dsimp only
    rw [hd.shape]
    split
    · exact hall hd
    · split
      · exact (mirroring w).throw _
      · rename_i axis _
        obtain ⟨hshape, hlines⟩ := linesAlong_twins hd axis
        refine (mirroring w).bind (mirroring_mapM Twins Twins.mono hlines fun R₃ xs ys hR₃ hxs => ?_)
          fun R₃ cells cells' _ hcells => ?_
        · rw [hd.type]
          exact mirroring_reduceCells f _ (Twins.mono_all hxs hR₃)
        · exact Dense.mirroring_toValue ⟨rfl, hshape, hcells⟩
  cases haxis with
  | flat hflat =>
    cases axis with
    | list | tuple | record | function | array => cases hflat
    | none => exact hread fun _ _ _ _ hd => hall hd
    | int n => exact hint n
    | scalar s =>
      cases s with
      | int t n => exact hint n
      | _ => exact hread fun _ _ _ _ _ => (mirroring w).throw _
    | _ => exact hread fun _ _ _ _ _ => (mirroring w).throw _
  | _ => exact hread fun _ _ _ _ _ => (mirroring w).throw _

theorem mirroring_convert (t : ElemType) (hv : Twins R v v') :
    (mirroring w).Rel R Twins (convert t v) (convert t v') := by
  refine (mirroring w).bind mirroring_heap fun R₁ h h' hR₁ hl => ?_
  replace hv := hv.mono hR₁
  have hcells : (mirroring w).Rel R₁ Twins
      (do let d ← Run.ofFault (Value.cellsFor h t v); d.toValue)
      (do let d ← Run.ofFault (Value.cellsFor h' t v'); d.toValue) :=
    (mirroring w).bind (mirroring_ofFault (Value.cellsFor_twins hl t hv)) fun _ _ _ _ hd =>
      Dense.mirroring_toValue hd
  have haccept : (mirroring w).Rel R₁ Twins (Run.ofFault (t.accept h v)) (Run.ofFault (t.accept h' v')) :=
    mirroring_ofFault (t.accept_twins hl hv)
  cases hv with
  | flat hflat =>
    cases v with
    | list | tuple | record | function | array => cases hflat
    | scalar s =>
      cases s with
      | text s =>
        exact (mirroring w).bind (mirroring_same _) fun _ x _ _ hx => (mirroring w).pure (hx ▸ .flat rfl)
      | _ => exact (mirroring w).pure (.flat rfl)
    | _ => exact haccept
  | array hb =>
    exact Dense.mirroring_toValue ⟨rfl, rfl, forall₂_map (hl.view_cells hb) fun _ _ hx => hx.castCell t⟩
  | list | tuple => exact hcells
  | _ => exact haccept

theorem mirroring_natural (hv : Twins R v v') :
    (mirroring w).Rel R (fun _ => Eq) (natural v) (natural v') := by
  refine (mirroring w).bind mirroring_heap fun R₁ h h' hR₁ hl => ?_
  rw [Value.position?_eq hl (hv.mono hR₁)]
  split
  · exact (mirroring w).throw _
  · split
    · exact (mirroring w).throw _
    · exact (mirroring w).pure rfl

theorem mirroring_call (f : Builtin) {args args' : List Value} (hargs : List.Forall₂ (Twins R) args args') :
    (mirroring w).Rel R Twins (call f args) (call f args') := by
  have hnone (R' : Nat → Nat → Prop) (x x' : Value) (_ : Twins R' x x') :
      (mirroring w).Rel R' Twins (noObjects x) (noObjects x') := (mirroring w).throw _
  have hbinary (op : BinaryOp) (R' : Nat → Nat → Prop) (x x' y y' : Value) (hx : Twins R' x x')
      (hy : Twins R' y y') : (mirroring w).Rel R' Twins (Value.binary op x y) (Value.binary op x' y') :=
    Value.mirroring_binary op hx hy
  have hextreme (largest : Bool) (R' : Nat → Nat → Prop) (x x' y y' : Value) (hx : Twins R' x x')
      (hy : Twins R' y y') :
      (mirroring w).Rel R' Twins (extremeObjects largest x y) (extremeObjects largest x' y') :=
    mirroring_extremeObjects largest hx hy
  rcases hargs with _ | ⟨ha, _ | ⟨hb, _ | ⟨_, _⟩⟩⟩
  · cases f with
    | convert t => exact (mirroring w).pure (.flat rfl)
    | _ => exact (mirroring w).throw _
  · have hreduce := mirroring_reduce (w := w) f ha (.flat (v := .none) rfl)
    cases f with
    | abs => exact mirroring_mapValue _ _ (fun _ _ _ hx => Value.mirroring_absAt _ hx) ha
    | square => exact mirroring_mapValue _ _ (fun R' x x' hx => hbinary .mul R' x x' x x' hx hx) ha
    | sqrt | log | exp | floor | ceil | sign | round => exact mirroring_mapValue _ _ hnone ha
    | largest | smallest | total => exact hreduce
    | convert t => exact mirroring_convert t ha
    | factorial | integerRoot =>
      refine (mirroring w).bind (mirroring_natural ha) fun _ n _ _ hn => ?_
      subst hn
      exact (mirroring w).pure (.flat rfl)
    | _ => exact (mirroring w).throw _
  · cases f with
    | round =>
      refine (mirroring w).bind (Value.mirroring_toInt hb) fun R₁ n _ hR₁ hn => ?_
      subst hn
      exact mirroring_mapValue _ _ hnone (ha.mono hR₁)
    | maximum => exact mirroring_zipValues _ (hextreme true) ha hb
    | minimum => exact mirroring_zipValues _ (hextreme false) ha hb
    | add => exact mirroring_zipValues _ (hbinary .add) ha hb
    | subtract => exact mirroring_zipValues _ (hbinary .sub) ha hb
    | multiply => exact mirroring_zipValues _ (hbinary .mul) ha hb
    | hypot | gcd => exact mirroring_zipValues _ (fun _ _ _ _ _ _ _ => (mirroring w).throw _) ha hb
    | largest | smallest | total => exact mirroring_reduce _ ha hb
    | choose =>
      refine (mirroring w).bind (mirroring_natural ha) fun R₁ n _ hR₁ hn => ?_
      refine (mirroring w).bind (mirroring_natural (hb.mono hR₁)) fun _ k _ _ hk => ?_
      subst hn hk
      exact (mirroring w).pure (.flat rfl)
    | _ => exact (mirroring w).throw _
  · cases f <;> exact (mirroring w).throw _

end Library

end IndexNotation
