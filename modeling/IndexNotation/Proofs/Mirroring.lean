import IndexNotation.Proofs.Twins

/-!
# Arithmetic and access cannot tell twins apart

Everything that computes with values looks at how they are built and at what is in the blocks they
refer to, never at the numbers of the blocks. So in linked heaps it does the same with twins.
-/

namespace IndexNotation

variable {w : World} {R : Nat → Nat → Prop} {h h' : Heap} {v v' : Value}

namespace Value

/-! ## What is the same for twins -/

theorem Twins.leafScalar?_eq (hv : Twins R v v') : Dense.leafScalar? v = Dense.leafScalar? v' := by
  cases hv <;> rfl

theorem Twins.plain?_eq (hv : Twins R v v') : v.plain? = v'.plain? := by
  cases hv <;> rfl

theorem Twins.isTyped_eq (hv : Twins R v v') : v.isTyped = v'.isTyped := by
  cases hv <;> rfl

theorem Twins.repeatCount?_eq (hv : Twins R v v') : v.repeatCount? = v'.repeatCount? := by
  cases hv <;> rfl

theorem Twins.scalarOf_eq (hv : Twins R v v') : CellOp.scalarOf v = CellOp.scalarOf v' := by
  cases hv <;> rfl

theorem Twins.untyped (hv : Twins R v v') : Twins R v.untyped v'.untyped := by
  cases hv with
  | flat hv => exact .flat (isFlat_untyped hv)
  | function f => exact .function f
  | list hb => exact .list hb
  | array hb => exact .array hb
  | tuple hlen hitems => exact .tuple hlen hitems
  | record hlen hnames hfields => exact .record hlen hnames hfields

theorem Twins.castCell (t : ElemType) (hv : Twins R v v') :
    Twins R (Dense.castCell t v) (Dense.castCell t v') := by
  unfold Dense.castCell
  rw [hv.leafScalar?_eq]
  split
  · exact hv
  · exact .flat rfl
  · exact hv

end Value

open Value (Twins)

/-! ## Dense arrays -/

namespace Dense

/-- Arrays of one type and shape with twins in their cells. -/
structure Twins (R : Nat → Nat → Prop) (d d' : Dense) : Prop where
  type : d.type = d'.type
  shape : d.shape = d'.shape
  cells : List.Forall₂ (Value.Twins R) d.cells d'.cells

structure Nest.Twins (R : Nat → Nat → Prop) (n n' : Nest) : Prop where
  shape : n.shape = n'.shape
  types : n.types = n'.types
  cells : List.Forall₂ (Value.Twins R) n.cells n'.cells

theorem Twins.mono {R' : Nat → Nat → Prop} {d d' : Dense} (hd : d.Twins R d')
    (hR : R ≤ R') : d.Twins R' d' :=
  ⟨hd.type, hd.shape, Value.Twins.mono_all hd.cells hR⟩

theorem joinNests_twins {ns ns' : List Nest} (hns : List.Forall₂ (Nest.Twins R) ns ns') :
    Paired (Nest.Twins R) (joinNests ns) (joinNests ns') := by
  cases hns with
  | nil => exact .ok ⟨rfl, rfl, .nil⟩
  | @cons n n' ns ns' hn hns =>
    have hshapes : ns.map (·.shape) = ns'.map (·.shape) := map_eq_of_forall₂ hns fun _ _ h => h.shape
    have htypes : ns.flatMap (·.types) = ns'.flatMap (·.types) := by
      rw [List.flatMap_def, List.flatMap_def, map_eq_of_forall₂ hns fun _ _ h => h.types]
    have hcells : List.Forall₂ (Value.Twins R) (ns.flatMap (·.cells)) (ns'.flatMap (·.cells)) :=
      List.rel_flatMap hns fun _ _ h => h.cells
    have hall : ns.all (·.shape == n'.shape) = ns'.all (·.shape == n'.shape) := by
      simpa [List.all_map, Function.comp_def] using congrArg (List.all · (· == n'.shape)) hshapes
    simp only [joinNests, hn.shape, hn.types, hall, htypes, hns.length_eq]
    split
    · exact .ok ⟨rfl, rfl, List.rel_append hn.cells hcells⟩
    · exact .error _

theorem nest_twins (hl : Linked R h h') (depth : Nat) (hv : Value.Twins R v v') :
    Paired (Nest.Twins R) (nest h depth v) (nest h' depth v') := by
  induction depth generalizing v v' with
  | zero => exact .error _
  | succ depth ih =>
    have hjoin {xs ys : List Value} (hxs : List.Forall₂ (Value.Twins R) xs ys) :
        Paired (Nest.Twins R) (do joinNests (← xs.mapM (nest h depth)))
          (do joinNests (← ys.mapM (nest h' depth))) :=
      (Paired.mapM hxs fun _ _ => ih).bind fun _ _ => joinNests_twins
    cases hv with
    | flat hflat =>
      cases v with
      | list | tuple | record | function | array => cases hflat
      | _ => exact .ok ⟨rfl, rfl, .cons (.flat rfl) .nil⟩
    | function f => exact .ok ⟨rfl, rfl, .cons (.function f) .nil⟩
    | list hb => exact hjoin (hl.cells hb)
    | array hb => exact .ok ⟨rfl, rfl, hl.view_cells hb⟩
    | tuple hlen hitems => exact hjoin (Value.Twins.tuple hlen hitems).items
    | record hlen hnames hfields =>
      exact .ok ⟨rfl, rfl, .cons (.record hlen hnames hfields) .nil⟩

theorem ofValue_twins (hl : Linked R h h') (hv : Value.Twins R v v') :
    Paired (Twins R) (ofValue h v) (ofValue h' v') := by
  refine (nest_twins hl maxDepth hv).bind fun n n' hn => ?_
  simp only [ofNest, hn.shape, hn.types]
  split
  · exact .error _
  · exact .ok ⟨rfl, rfl, forall₂_map hn.cells fun _ _ hx => hx.castCell _⟩

theorem mirroring_read (hv : Value.Twins R v v') :
    (mirroring w).Rel R Twins (read v) (read v') :=
  (mirroring w).bind mirroring_heap fun _ _ _ hR hl =>
    mirroring_ofFault (ofValue_twins hl (hv.mono hR))

theorem mirroring_allocate {d d' : Dense} (hd : d.Twins R d') :
    (mirroring w).Rel R (fun R' a a' => Value.Twins R' (.array a) (.array a')) d.allocate d'.allocate := by
  refine (mirroring w).bind (IndexNotation.mirroring_allocate (by simpa using hd.cells))
    fun R' b b' _ hb => (mirroring w).pure ?_
  rw [hd.type, hd.shape]
  exact .array (a := ⟨b, _, _, _, _⟩) hb

/-- The array that is made of twins is a twin. -/
theorem mirroring_newArray {d d' : Dense} (hd : d.Twins R d') :
    (mirroring w).Rel R Value.Twins (do return .array (← d.allocate)) (do return .array (← d'.allocate)) :=
  (mirroring w).bind (mirroring_allocate hd) fun _ _ _ _ ha => (mirroring w).pure ha

theorem mirroring_toValue {d d' : Dense} (hd : d.Twins R d') :
    (mirroring w).Rel R Value.Twins d.toValue d'.toValue := by
  have hnew := mirroring_newArray (w := w) hd
  obtain ⟨t, shape, cells⟩ := d
  obtain ⟨t', shape', cells'⟩ := d'
  obtain ⟨rfl, rfl, hcells⟩ := hd
  cases shape with
  | cons n shape => exact hnew
  | nil =>
    cases hcells with
    | nil => exact hnew
    | cons hx _ => exact (mirroring w).pure hx

theorem Twins.spread {d d' : Dense} (hd : d.Twins R d') (t : List Nat) :
    List.Forall₂ (Value.Twins R) (d.spread t) (d'.spread t) := by
  simp only [Dense.spread, hd.shape]
  split
  · exact hd.cells
  · refine forall₂_map_same _ fun p => ?_
    simp only [Array.getD_eq_getD_getElem?, List.getElem?_toArray]
    exact getD_of_forall₂ hd.cells (.flat rfl) p

end Dense

/-! ## Arithmetic -/

namespace Operand

/-- Sides of an operation that are the same number or twin arrays. -/
inductive Twins (R : Nat → Nat → Prop) : Operand → Operand → Prop where
  | weak (p : Plain) : Twins R (.weak p) (.weak p)
  | strong {d d' : Dense} : d.Twins R d' → Twins R (.strong d) (.strong d')

variable {a a' b b' : Operand}

theorem Twins.mono {R' : Nat → Nat → Prop} (ha : a.Twins R a') (hR : R ≤ R') :
    a.Twins R' a' := by
  cases ha with
  | weak p => exact .weak p
  | strong hd => exact .strong (hd.mono hR)

theorem Twins.type_eq (ha : a.Twins R a') : a.type = a'.type := by
  cases ha with
  | weak p => rfl
  | strong hd => exact hd.type

theorem Twins.isMixed_eq (ha : a.Twins R a') (hb : b.Twins R b') : a.isMixed b = a'.isMixed b' := by
  rw [isMixed, isMixed, ha.type_eq, hb.type_eq]

theorem Twins.commonType_eq (ha : a.Twins R a') (hb : b.Twins R b') :
    a.commonType b = a'.commonType b' := by
  cases ha with
  | weak p =>
    cases hb with
    | weak q => rfl
    | strong hd => simp only [commonType, hd.type]
  | strong hc =>
    cases hb with
    | weak q => simp only [commonType, hc.type]
    | strong hd => simp only [commonType, hc.type, hd.type]

theorem Twins.dense (t : ElemType) (ha : a.Twins R a') :
    Paired (Dense.Twins R) (a.dense t) (a'.dense t) := by
  cases ha with
  | strong hd => exact .ok hd
  | weak p =>
    have hcell {v : Value} (hv : v.isFlat = true) (t : ElemType) :
        Dense.Twins R ⟨t, [], [v]⟩ ⟨t, [], [v]⟩ :=
      ⟨rfl, rfl, .cons (.flat hv) .nil⟩
    unfold Operand.dense
    dsimp only
    split
    · exact .ok (hcell (Value.isFlat_ofPlain p) _)
    · exact .ok (hcell rfl _)
    · cases p.toComplex with
      | error f => exact .error f
      | ok z => exact .ok (hcell rfl _)

theorem ofValue_twins (hl : Linked R h h') (hv : Value.Twins R v v') :
    Paired (Twins R) (ofValue h v) (ofValue h' v') := by
  have hdense : Paired (Twins R) (do return strong (← Dense.ofValue h v))
      (do return strong (← Dense.ofValue h' v')) :=
    (Dense.ofValue_twins hl hv).bind fun _ _ hd => .ok (.strong hd)
  cases hv with
  | @flat v hflat =>
    cases v with
    | list | tuple | record | function | array => cases hflat
    | int n => exact .ok (.weak _)
    | float x => exact .ok (.weak _)
    | complex z => exact .ok (.weak _)
    | _ => exact hdense
  | _ => exact hdense

theorem mirroring_read (hv : Value.Twins R v v') : (mirroring w).Rel R Twins (read v) (read v') :=
  (mirroring w).bind mirroring_heap fun _ _ _ hR hl => mirroring_ofFault (ofValue_twins hl (hv.mono hR))

end Operand

theorem CellOp.mirroring_run (op : CellOp) {objects objects' : Value → Value → Run Value}
    (hobjects : ∀ R' x x' y y', R ≤ R' → Twins R' x x' → Twins R' y y' →
      (mirroring w).Rel R' Twins (objects x y) (objects' x' y'))
    {a a' b b' : Operand} (ha : a.Twins R a') (hb : b.Twins R b') :
    (mirroring w).Rel R Dense.Twins (op.run objects a b) (op.run objects' a' b') := by
  unfold CellOp.run
  rw [ha.isMixed_eq hb, ha.commonType_eq hb]
  extract_lets cells cells'
  have hcells : ∀ u, (mirroring w).Rel R Dense.Twins (cells u) (cells' u) := by
    intro u
    refine (mirroring w).bind (mirroring_same _) fun R₀ t _ hR₀ ht => ?_
    subst ht
    refine (mirroring w).bind (mirroring_ofFault ((ha.mono hR₀).dense t)) fun R₁ d d' hR₁ hd => ?_
    refine (mirroring w).bind (mirroring_ofFault (((hb.mono hR₀).mono hR₁).dense t))
      fun R₂ e e' hR₂ he => ?_
    replace hd := hd.mono hR₂
    rw [hd.shape, he.shape]
    split
    · exact (mirroring w).throw _
    · rename_i shape _
      have hpairs := zip_of_forall₂ (hd.spread shape) (he.spread shape)
      dsimp only
      split
      · refine (mirroring w).bind (mirroring_mapM Twins Twins.mono hpairs fun R₃ p p' hR₃ hp => ?_)
          fun _ _ _ _ hcells => (mirroring w).pure ⟨rfl, rfl, hcells⟩
        exact hobjects R₃ _ _ _ _ ((mirroring w).trans hR₀ ((mirroring w).trans hR₁
          ((mirroring w).trans hR₂ hR₃))) (hp.1.mono hR₃) (hp.2.mono hR₃)
      · refine (mirroring w).bind (mirroring_same _) fun R₃ type _ hR₃ htype => ?_
        subst htype
        refine (mirroring w).bind (mirroring_mapM Twins Twins.mono hpairs fun R₄ p p' _ hp => ?_)
          fun _ _ _ _ hcells => (mirroring w).pure ⟨rfl, rfl, hcells⟩
        rw [hp.1.scalarOf_eq, hp.2.scalarOf_eq]
        refine (mirroring w).bind (mirroring_same _) fun _ s _ _ hs => ?_
        exact (mirroring w).pure (hs ▸ .flat rfl)
  split
  · exact (mirroring w).throw _
  · exact hcells ()

namespace Value

theorem mirroring_newList {items items' : List Value} (hitems : List.Forall₂ (Twins R) items items') :
    (mirroring w).Rel R Twins (Run.newList items) (Run.newList items') :=
  (mirroring w).bind (mirroring_allocate (by simpa using hitems)) fun _ _ _ _ hb =>
    (mirroring w).pure (.list hb)

theorem mirroring_readBlock {b b' : Nat} (hb : R b b') :
    (mirroring w).Rel R (fun R' c c' => List.Forall₂ (Twins R') c.toList c'.toList)
      (Run.readBlock b) (Run.readBlock b') :=
  (mirroring w).bind mirroring_heap fun _ _ _ hR hl => (mirroring w).pure (hl.cells (hR _ _ hb))

theorem repeated_twins {xs ys : List Value} (hxs : List.Forall₂ (Twins R) xs ys) (n : Int) :
    Paired (List.Forall₂ (Twins R)) (repeated n xs) (repeated n ys) := by
  have hempty : xs.isEmpty = ys.isEmpty := by cases hxs <;> rfl
  unfold repeated
  rw [hempty, hxs.length_eq]
  split
  · exact .error _
  split
  · exact .ok .nil
  split
  · exact .error _
  · refine .ok ?_
    induction n.toNat with
    | zero => exact .nil
    | succ k ih => exact List.rel_append hxs ih

variable {a a' b b' : Value}

theorem times_twins (ha : Twins R a a') (hb : Twins R b b') :
    Option.Rel ((mirroring w).Rel R Twins) (sequenceOp.times a b) (sequenceOp.times a' b') := by
  unfold sequenceOp.times
  rw [hb.repeatCount?_eq]
  cases b'.repeatCount? with
  | some n =>
    cases ha with
    | flat hflat =>
      cases a with
      | text s =>
        refine .some ((mirroring w).bind (mirroring_same _) fun _ cs _ _ hcs => (mirroring w).pure ?_)
        exact hcs ▸ .flat rfl
      | list | tuple | record | function | array => cases hflat
      | _ => exact .none
    | tuple hlen hitems =>
      have hxs := (Twins.tuple hlen hitems).items
      exact .some ((mirroring w).bind (mirroring_ofFault (repeated_twins hxs n)) fun _ _ _ _ hys =>
        (mirroring w).pure (.of_items hys))
    | list hp =>
      refine .some ((mirroring w).bind (mirroring_readBlock hp) fun R₁ xs xs' _ hxs => ?_)
      exact (mirroring w).bind (mirroring_ofFault (repeated_twins hxs n)) fun _ _ _ _ hys =>
        mirroring_newList hys
    | _ => exact .none
  | none =>
    -- Only a scalar that is no count is refused.
    have hrefused : Option.Rel ((mirroring w).Rel R Twins) (some (Run.fail .wrongKind))
        (some (Run.fail .wrongKind)) :=
      .some ((mirroring w).throw _)
    cases hb with
    | flat hflat =>
      cases b with
      | list | tuple | record | function | array => cases hflat
      | scalar s =>
        cases ha with
        | flat _ => cases a <;> first | exact hrefused | exact .none
        | _ => first | exact hrefused | exact .none
      | _ =>
        cases ha with
        | flat _ => cases a <;> exact .none
        | _ => exact .none
    | _ =>
      cases ha with
      | flat _ => cases a <;> exact .none
      | _ => exact .none

theorem fill_twins (s : String) (hv : Twins R v v') :
    Option.Rel ((mirroring w).Rel R Twins) (sequenceOp.fill s v) (sequenceOp.fill s v') := by
  have htext : Option.Rel ((mirroring w).Rel R Twins) (some (pure (text s))) (some (pure (text s))) :=
    .some ((mirroring w).pure (.flat rfl))
  cases hv with
  | flat hflat =>
    cases v with
    | list | tuple | record | function | array => cases hflat
    | _ => exact .none
  | function f => exact .none
  | list hb => exact htext
  | array hb => exact htext
  | tuple hlen hitems =>
    cases (Twins.tuple hlen hitems).items with
    | nil => exact htext
    | cons _ _ => exact .none
  | record _ _ _ => exact .none

theorem sequenceOp_twins (op : BinaryOp) (ha : Twins R a a') (hb : Twins R b b') :
    Option.Rel ((mirroring w).Rel R Twins) (sequenceOp op a b) (sequenceOp op a' b') := by
  cases op with
  | add =>
    cases ha with
    | flat hflat =>
      cases a with
      | text s =>
        cases hb with
        | flat hflat =>
          cases b with
          | list | tuple | record | function | array => cases hflat
          | text t => exact .some ((mirroring w).pure (.flat rfl))
          | _ => exact .none
        | _ => exact .none
      | list | tuple | record | function | array => cases hflat
      | _ => exact .none
    | @list p p' hp =>
      cases hb with
      | list hq =>
        refine .some ((mirroring w).bind (mirroring_readBlock hp) fun R₁ xs xs' hR₁ hxs => ?_)
        refine (mirroring w).bind (mirroring_readBlock (hR₁ _ _ hq)) fun R₂ ys ys' hR₂ hys => ?_
        exact mirroring_newList (List.rel_append (Twins.mono_all hxs hR₂) hys)
      | flat hflat =>
        cases b with
        | list => cases hflat
        | _ => exact .none
      | _ => exact .none
    | @tuple xs ys hlen hitems =>
      cases hb with
      | tuple hlen' hitems' =>
        exact .some ((mirroring w).pure (.of_items
          (List.rel_append (Twins.tuple hlen hitems).items (Twins.tuple hlen' hitems').items)))
      | flat hflat =>
        cases b with
        | tuple => cases hflat
        | _ => exact .none
      | _ => exact .none
    | _ => exact .none
  | mul =>
    have hab := times_twins (w := w) ha hb
    have hba := times_twins (w := w) hb ha
    simp only [sequenceOp]
    generalize sequenceOp.times a b = x, sequenceOp.times a' b' = x' at hab
    cases hab with
    | some h => exact .some h
    | none => exact hba
  | mod =>
    cases ha with
    | flat hflat =>
      cases a with
      | text s =>
        simp only [sequenceOp]
        split
        · exact .none
        · exact fill_twins s hb
      | list | tuple | record | function | array => cases hflat
      | _ => exact .none
    | _ => exact .none
  | _ => exact .none

theorem mirroring_binaryAt (depth : Nat) (op : BinaryOp) (ha : Twins R a a') (hb : Twins R b b') :
    (mirroring w).Rel R Twins (binaryAt depth op a b) (binaryAt depth op a' b') := by
  induction depth generalizing R a a' b b' with
  | zero => exact (mirroring w).throw _
  | succ depth ih =>
    replace ha := ha.untyped
    replace hb := hb.untyped
    simp only [binaryAt, ha.plain?_eq, hb.plain?_eq, ha.isTyped_eq, hb.isTyped_eq]
    split
    · refine (mirroring w).bind (mirroring_same _) fun _ p _ _ hp => (mirroring w).pure ?_
      exact hp ▸ .flat (isFlat_ofPlain p)
    have hseq := sequenceOp_twins (w := w) op ha hb
    generalize sequenceOp op a.untyped b.untyped = x, sequenceOp op a'.untyped b'.untyped = x' at hseq
    cases hseq with
    | some hr => exact hr
    | none =>
      dsimp only
      split
      · refine (mirroring w).bind (Operand.mirroring_read ha) fun R₁ x x' hR₁ hx => ?_
        refine (mirroring w).bind (Operand.mirroring_read (hb.mono hR₁)) fun R₂ y y' hR₂ hy => ?_
        refine (mirroring w).bind (CellOp.mirroring_run _ (fun R₃ _ _ _ _ _ hx hy => ih hx hy)
          (hx.mono hR₂) hy) fun R₃ d d' _ hd => ?_
        exact Dense.mirroring_toValue hd
      · exact (mirroring w).throw _

theorem mirroring_binary (op : BinaryOp) (ha : Twins R a a') (hb : Twins R b b') :
    (mirroring w).Rel R Twins (binary op a b) (binary op a' b') :=
  mirroring_binaryAt _ op ha hb

theorem mirroring_mapCells (type : ElemType → Except Fault ElemType) (f : Scalar → Except Fault Scalar)
    {objects objects' : Value → Run Value}
    (hobjects : ∀ R' x x', R ≤ R' → Twins R' x x' →
      (mirroring w).Rel R' Twins (objects x) (objects' x'))
    {d d' : Dense} (hd : d.Twins R d') :
    (mirroring w).Rel R Dense.Twins (mapCells type f objects d) (mapCells type f objects' d') := by
  simp only [mapCells, hd.type, hd.shape]
  split
  · refine (mirroring w).bind (mirroring_mapM Twins Twins.mono hd.cells fun R₁ x x' hR₁ hx => ?_)
      fun _ _ _ _ hcells => (mirroring w).pure ⟨rfl, rfl, hcells⟩
    exact hobjects R₁ x x' hR₁ (hx.mono hR₁)
  · refine (mirroring w).bind (mirroring_same _) fun R₁ t _ _ ht => ?_
    subst ht
    refine (mirroring w).bind (mirroring_mapM Twins Twins.mono hd.cells fun R₂ x x' _ hx => ?_)
      fun _ _ _ _ hcells => (mirroring w).pure ⟨rfl, rfl, hcells⟩
    rw [hx.scalarOf_eq]
    exact (mirroring w).bind (mirroring_same _) fun _ s _ _ hs => (mirroring w).pure (hs ▸ .flat rfl)

theorem mirroring_unaryAt (depth : Nat) (op : UnaryOp) (hv : Twins R v v') :
    (mirroring w).Rel R Twins (unaryAt depth op v) (unaryAt depth op v') := by
  induction depth generalizing R v v' with
  | zero => exact (mirroring w).throw _
  | succ depth ih =>
    have hplain (p : Plain) : Twins R (ofPlain p) (ofPlain p) := .flat (isFlat_ofPlain p)
    simp only [unaryAt, hv.plain?_eq, hv.isTyped_eq]
    split
    · exact (mirroring w).throw _
    · exact (mirroring w).pure (hplain _)
    · exact (mirroring w).pure (hplain _)
    · split
      · refine (mirroring w).bind (Dense.mirroring_read hv) fun R₁ d d' _ hd => ?_
        refine (mirroring w).bind (mirroring_mapCells _ _ (fun R₂ _ _ _ hx => ih hx) hd)
          fun _ _ _ _ hd => Dense.mirroring_toValue hd
      · exact (mirroring w).throw _

theorem mirroring_unary (op : UnaryOp) (hv : Twins R v v') :
    (mirroring w).Rel R Twins (unary op v) (unary op v') :=
  mirroring_unaryAt _ op hv

/-! ## Access -/

theorem position?_eq (hl : Linked R h h') (hv : Twins R v v') : position? h v = position? h' v' := by
  cases hv with
  | flat hflat =>
    cases v with
    | list | tuple | record | function | array => cases hflat
    | scalar s => cases s <;> rfl
    | _ => rfl
  | @array a b' hb =>
    have hcells := hl.view_cells hb
    simp only [position?]
    generalize a.cells h = cells, View.cells h' { a with block := b' } = cells' at hcells
    cases a.shape with
    | cons n ns => rfl
    | nil =>
      rcases hcells with _ | ⟨hx, _ | ⟨_, _⟩⟩
      · rfl
      · cases hx <;> rfl
      · simp
  | _ => rfl

theorem itemOf_twins (hl : Linked R h h') {xs ys : List Value} (hxs : List.Forall₂ (Twins R) xs ys)
    (hv : Twins R v v') : Paired (Twins R) (itemOf h xs v) (itemOf h' ys v') := by
  unfold itemOf
  rw [position?_eq hl hv, hxs.length_eq]
  split
  · exact .error _
  · split
    · rw [List.getD_eq_getElem?_getD, List.getD_eq_getElem?_getD]
      exact .ok (getD_of_forall₂ hxs (.flat rfl) _)
    · exact .error _

theorem keyInts_eq {d d' : Dense} (hd : d.Twins R d') : keyInts d = keyInts d' := by
  obtain ⟨t, shape, cells⟩ := d
  obtain ⟨t', shape', cells'⟩ := d'
  obtain ⟨rfl, rfl, hcells⟩ := hd
  have hempty : cells.isEmpty = cells'.isEmpty := by cases hcells <;> rfl
  simp only [keyInts, hempty]
  split
  · exact congrArg some (map_eq_of_forall₂ hcells fun x y hxy => by cases hxy <;> rfl)
  · rfl
  · rfl

theorem truths_eq {d d' : Dense} (hd : d.Twins R d') :
    (d.cells.map fun v => (CellOp.scalarOf v).truth) = d'.cells.map fun v => (CellOp.scalarOf v).truth :=
  map_eq_of_forall₂ hd.cells fun x y hxy => by rw [hxy.scalarOf_eq]

/-- What a key does to the dimensions of an array does not depend on where the key is kept. -/
theorem subscript_eq (hl : Linked R h h') (shape : List Nat) (strides : List Int) (hv : Twins R v v') :
    subscript h shape strides v = subscript h' shape strides v' := by
  have hdense := Dense.ofValue_twins hl hv
  cases hv with
  | flat hflat =>
    cases v with
    | list | tuple | record | function | array => cases hflat
    | scalar s => cases s <;> rfl
    | _ => rfl
  | function f => rfl
  | record _ _ _ => rfl
  | list | array | tuple =>
    exact hdense.bind_eq fun d d' hd => by simp only [hd.type, hd.shape, truths_eq hd, keyInts_eq hd]

theorem subscripts_eq (hl : Linked R h h') (shape : List Nat) (strides : List Int) {keys keys' : List Value}
    (hkeys : List.Forall₂ (Twins R) keys keys') :
    subscripts h shape strides keys = subscripts h' shape strides keys' := by
  induction hkeys generalizing shape strides with
  | nil => rfl
  | cons hkey _ ih => simp only [subscripts, subscript_eq hl _ _ hkey, ih]

theorem select_eq (hl : Linked R h h') (a : View) (b : Nat) {keys keys' : List Value}
    (hkeys : List.Forall₂ (Twins R) keys keys') :
    select h a keys = select h' { a with block := b } keys' := by
  simp only [select, subscripts_eq hl _ _ hkeys]

theorem mirroring_arrayItem {a : View} {b : Nat} (ha : R a.block b) {keys keys' : List Value}
    (hkeys : List.Forall₂ (Twins R) keys keys') :
    (mirroring w).Rel R Twins (arrayItem a keys) (arrayItem { a with block := b } keys') := by
  refine (mirroring w).bind mirroring_heap fun R₁ h h' hR₁ hl => ?_
  replace ha := hR₁ _ _ ha
  rw [select_eq hl a b (Twins.mono_all hkeys hR₁)]
  refine (mirroring w).bind (mirroring_same _) fun R₂ s _ hR₂ hs => ?_
  subst hs
  have hcell (p : Nat) : Twins R₂ ((h.block a.block).getD p none) ((h'.block b).getD p none) :=
    (hl.cell ha p).mono hR₂
  split
  · refine Dense.mirroring_newArray ⟨rfl, rfl, ?_⟩
    exact forall₂_map_same _ hcell
  · dsimp only
    split
    · exact (mirroring w).pure (hcell _)
    · exact (mirroring w).pure (.array (hR₂ _ _ ha))

theorem mirroring_item {key key' : Value} (hv : Twins R v v') (hkey : Twins R key key') :
    (mirroring w).Rel R Twins (item v key) (item v' key') := by
  refine (mirroring w).bind mirroring_heap fun R₁ h h' hR₁ hl => ?_
  replace hv := hv.mono hR₁
  replace hkey := hkey.mono hR₁
  have hchars (s : String) : (mirroring w).Rel R₁ Twins
      (Run.ofFault (itemOf h (s.toList.map fun c => text (String.singleton c)) key))
      (Run.ofFault (itemOf h' (s.toList.map fun c => text (String.singleton c)) key')) :=
    mirroring_ofFault (itemOf_twins hl (forall₂_map_same _ fun _ => .flat rfl) hkey)
  cases hv with
  | flat hflat =>
    cases v with
    | list | tuple | record | function | array => cases hflat
    | text s => exact hchars s
    | scalar s =>
      cases s with
      | text s => exact hchars s
      | _ => exact (mirroring w).throw _
    | _ => exact (mirroring w).throw _
  | function f => exact (mirroring w).throw _
  | list hb => exact mirroring_ofFault (itemOf_twins hl (hl.cells hb) hkey)
  | array hb =>
    have hone := mirroring_arrayItem (w := w) hb (.cons hkey .nil)
    cases hkey with
    | flat hflat =>
      cases key with
      | tuple => cases hflat
      | _ => exact hone
    | tuple hlen hitems => exact mirroring_arrayItem hb (Twins.tuple hlen hitems).items
    | _ => exact hone
  | tuple hlen hitems =>
    exact mirroring_ofFault (itemOf_twins hl (Twins.tuple hlen hitems).items hkey)
  | record _ _ _ => exact (mirroring w).throw _

theorem mirroring_get {keys keys' : List Value} (hv : Twins R v v')
    (hkeys : List.Forall₂ (Twins R) keys keys') :
    (mirroring w).Rel R Twins (get v keys) (get v' keys') := by
  have hitems : (mirroring w).Rel R Twins (items v keys) (items v' keys') :=
    mirroring_foldlM hkeys (fun R' v v' key key' hR hv hkey => mirroring_item hv (hkey.mono hR)) hv
  cases hv with
  | flat hflat =>
    cases v with
    | array => cases hflat
    | _ => exact hitems
  | array hb => exact mirroring_arrayItem hb hkeys
  | _ => exact hitems

theorem mirroring_arrayField {a : View} {b : Nat} (ha : R a.block b) (name : String) :
    (mirroring w).Rel R Twins (arrayField a name) (arrayField { a with block := b } name) := by
  refine (mirroring w).bind mirroring_heap fun R₁ h h' hR₁ hl => ?_
  replace ha := hR₁ _ _ ha
  extract_lets type part type' part'
  have hpart (imaginary : Bool) : (mirroring w).Rel R₁ Twins (part imaginary) (part' imaginary) := by
    refine Dense.mirroring_newArray ⟨rfl, rfl, forall₂_map (hl.view_cells ha) fun c c' hc => ?_⟩
    have hsame := hc
    cases hc with
    | flat hflat => cases c <;> exact .flat hflat
    | _ => exact hsame
  split
  · exact (mirroring w).pure (.of_items (forall₂_map_same _ fun _ => .flat rfl))
  · exact (mirroring w).pure (.flat rfl)
  · exact (mirroring w).pure (.flat rfl)
  · exact (mirroring w).pure (.array (a := ⟨_, _, _, _, _⟩) ha)
  · exact (mirroring w).pure (.flat rfl)
  · exact Dense.mirroring_newArray ⟨rfl, rfl, hl.view_cells ha⟩
  · dsimp only
    split
    · exact hpart false
    · exact (mirroring w).pure (.array ha)
  · exact hpart true
  · exact (mirroring w).throw _

theorem mirroring_scalarField (s : Scalar) (name : String) :
    (mirroring w).Rel R Twins (scalarField s name) (scalarField s name) := by
  unfold scalarField
  split
  case h_1 => exact (mirroring w).pure (.of_items .nil)
  case h_6 => exact Dense.mirroring_newArray ⟨rfl, rfl, .cons (.flat rfl) .nil⟩
  case h_9 => exact (mirroring w).throw _
  all_goals exact (mirroring w).pure (.flat rfl)

theorem mirroring_numberField (p : Plain) (name : String) :
    (mirroring w).Rel R Twins (numberField p name) (numberField p name) := by
  unfold numberField
  split
  case h_3 => exact (mirroring w).pure (.flat (isFlat_ofPlain p))
  case h_8 => exact (mirroring w).throw _
  all_goals exact (mirroring w).pure (.flat rfl)

theorem mirroring_field (hv : Twins R v v') (name : String) :
    (mirroring w).Rel R Twins (field v name) (field v' name) := by
  cases hv with
  | @flat v hflat =>
    cases v with
    | list | tuple | record | function | array => cases hflat
    | scalar s => exact mirroring_scalarField s name
    | bool | int | float | complex => exact mirroring_numberField _ name
    | _ => exact (mirroring w).throw _
  | array hb => exact mirroring_arrayField hb name
  | @record fs gs hlen hnames hfields =>
    have hfield := (Twins.record hlen hnames hfields).lookup name
    simp only [field]
    generalize fs.lookup name = x, gs.lookup name = y at hfield
    cases hfield with
    | some hx => exact (mirroring w).pure hx
    | none => exact (mirroring w).throw _
  | _ => exact (mirroring w).throw _

theorem mirroring_field? (hv : Twins R v v') (name : String) :
    (mirroring w).Rel R (fun R' => Option.Rel (Twins R')) (field? v name) (field? v' name) := by
  have hsome : (mirroring w).Rel R (fun R' => Option.Rel (Twins R')) (some <$> field v name)
      (some <$> field v' name) := by
    rw [map_eq_pure_bind, map_eq_pure_bind]
    exact (mirroring w).bind (mirroring_field hv name) fun _ _ _ _ hx => (mirroring w).pure (.some hx)
  refine (mirroring w).bind (mirroring_tryCatch hsome fun R₁ e _ => ?_) fun R₁ r r' _ hr => ?_
  · split
    · exact (mirroring w).pure .none
    · exact (mirroring w).throw _
  · cases hr with
    | none => exact (mirroring w).pure .none
    | @some x x' hx =>
      have hsame := hx
      cases hx with
      | flat hflat =>
        cases x with
        | none => exact (mirroring w).pure .none
        | _ => exact (mirroring w).pure (.some hsame)
      | _ => exact (mirroring w).pure (.some hsame)

theorem sequence?_twins (hl : Linked R h h') (hv : Twins R v v') :
    Option.Rel (List.Forall₂ (Twins R)) (sequence? h v) (sequence? h' v') := by
  have hchars (s : String) : Option.Rel (List.Forall₂ (Twins R))
      (some (s.toList.map fun c => text (String.singleton c)))
      (some (s.toList.map fun c => text (String.singleton c))) :=
    .some (forall₂_map_same _ fun _ => .flat rfl)
  cases hv with
  | flat hflat =>
    cases v with
    | list | tuple | record | function | array => cases hflat
    | text s => exact hchars s
    | scalar s =>
      cases s with
      | text s => exact hchars s
      | _ => exact .none
    | _ => exact .none
  | list hb => exact .some (hl.cells hb)
  | tuple hlen hitems => exact .some (Twins.tuple hlen hitems).items
  | _ => exact .none

theorem mirroring_first (hv : Twins R v v') : (mirroring w).Rel R Twins (first v) (first v') := by
  refine (mirroring w).bind (mirroring_field? hv "flat") fun R₁ r r' hR₁ hr => ?_
  cases hr with
  | some hflat =>
    refine mirroring_tryCatch (mirroring_item hflat (.flat rfl)) fun R₂ e _ => ?_
    split
    · exact (mirroring w).throw _
    · exact (mirroring w).throw _
  | none =>
    refine (mirroring w).bind mirroring_heap fun R₂ h h' hR₂ hl => ?_
    have hitems := sequence?_twins hl ((hv.mono hR₁).mono hR₂)
    generalize sequence? h v = xs, sequence? h' v' = ys at hitems
    cases hitems with
    | none => exact (mirroring w).throw _
    | some hxs =>
      cases hxs with
      | nil => exact (mirroring w).throw _
      | cons hx _ => exact (mirroring w).pure hx

end Value

end IndexNotation
