import IndexNotation.Proofs.Looks
import IndexNotation.Proofs.Simulation
import Mathlib.Data.Option.Basic
import Mathlib.Logic.Relator
import Mathlib.Order.Basic

/-!
# Values up to the blocks they are kept in

Two evaluations that allocate at different times name their blocks differently, and that is the only
difference between what they give. A relation between the blocks of two heaps makes this precise:
values are twins if they are built alike and refer to related blocks, and the heaps are linked if
related blocks hold twins. The relation grows as both sides allocate, and nothing that computes with
values can tell twins apart.
-/

namespace IndexNotation

open Run (exec)

/-! ## Lists and results side by side -/

section

variable {α α' β β' : Type} {P : α → α' → Prop} {Q : β → β' → Prop}

theorem forall₂_map_same {γ : Type} (xs : List γ) {f : γ → β} {f' : γ → β'} (h : ∀ x, Q (f x) (f' x)) :
    List.Forall₂ Q (xs.map f) (xs.map f') :=
  List.forall₂_map_left_iff.2 (List.forall₂_map_right_iff.2 (List.forall₂_same.2 fun x _ => h x))

theorem forall₂_map {as : List α} {as' : List α'} (h : List.Forall₂ P as as') {f : α → β} {f' : α' → β'}
    (hf : ∀ a a', P a a' → Q (f a) (f' a')) : List.Forall₂ Q (as.map f) (as'.map f') :=
  List.forall₂_map_left_iff.2 (List.forall₂_map_right_iff.2 (h.imp hf))

theorem map_eq_of_forall₂ {γ : Type} {as : List α} {as' : List α'} (h : List.Forall₂ P as as')
    {f : α → γ} {f' : α' → γ} (hf : ∀ a a', P a a' → f a = f' a') : as.map f = as'.map f' :=
  List.forall₂_eq_eq_eq ▸ forall₂_map h hf

theorem getD_of_forall₂ {as : List α} {as' : List α'} (h : List.Forall₂ P as as') {d : α} {d' : α'}
    (hd : P d d') (p : Nat) : P (as[p]?.getD d) (as'[p]?.getD d') := by
  induction h generalizing p with
  | nil => exact hd
  | cons h _ ih =>
    cases p with
    | zero => exact h
    | succ p => exact ih p

theorem zip_of_forall₂ {as : List α} {as' : List α'} {bs : List β} {bs' : List β'}
    (ha : List.Forall₂ P as as') (hb : List.Forall₂ Q bs bs') :
    List.Forall₂ (fun p p' => P p.1 p'.1 ∧ Q p.2 p'.2) (as.zip bs) (as'.zip bs') := by
  induction ha generalizing bs bs' with
  | nil => exact .nil
  | cons ha _ ih =>
    cases hb with
    | nil => exact .nil
    | cons hb hrest => exact .cons ⟨ha, hb⟩ (ih hrest)

end

/-- Two results are both what `Q` relates, or the same failure. -/
inductive Paired {ε α α' : Type} (Q : α → α' → Prop) : Except ε α → Except ε α' → Prop where
  | ok {a : α} {a' : α'} : Q a a' → Paired Q (.ok a) (.ok a')
  | error (e : ε) : Paired Q (.error e) (.error e)

namespace Paired

variable {ε α α' β β' : Type} {Q : α → α' → Prop} {Q' : β → β' → Prop} {x : Except ε α}
  {x' : Except ε α'} {f : α → Except ε β} {f' : α' → Except ε β'}

theorem bind (h : Paired Q x x') (hf : ∀ a a', Q a a' → Paired Q' (f a) (f' a')) :
    Paired Q' (x >>= f) (x' >>= f') := by
  cases h with
  | ok ha => exact hf _ _ ha
  | error e => exact .error e

theorem mapM {as : List α} {as' : List α'} (h : List.Forall₂ Q as as')
    (hf : ∀ a a', Q a a' → Paired Q' (f a) (f' a')) :
    Paired (List.Forall₂ Q') (as.mapM f) (as'.mapM f') := by
  induction h with
  | nil => exact .ok .nil
  | cons ha _ ih =>
    rw [List.mapM_cons, List.mapM_cons]
    exact (hf _ _ ha).bind fun b b' hb => ih.bind fun bs bs' hbs => .ok (.cons hb hbs)

theorem exists_or (h : Paired Q x x') :
    (∃ a a', x = .ok a ∧ x' = .ok a' ∧ Q a a') ∨ ∃ e, x = .error e ∧ x' = .error e := by
  cases h with
  | ok ha => exact .inl ⟨_, _, rfl, rfl, ha⟩
  | error e => exact .inr ⟨e, rfl, rfl⟩

/-- What is computed from related results by functions that cannot tell them apart is the same. -/
theorem bind_eq {g : α → Except ε β} {g' : α' → Except ε β} (h : Paired Q x x')
    (hg : ∀ a a', Q a a' → g a = g' a') : (x >>= g) = (x' >>= g') := by
  cases h with
  | ok ha => exact hg _ _ ha
  | error e => rfl

end Paired

/-! ## Twins -/

namespace Value

/-- Values that are built alike, with related blocks in the same places. -/
inductive Twins (R : Nat → Nat → Prop) : Value → Value → Prop where
  | flat {v : Value} : v.isFlat = true → Twins R v v
  | function (f : Callable) : Twins R (.function f) (.function f)
  | list {b b' : Nat} : R b b' → Twins R (.list b) (.list b')
  | array {a : View} {b' : Nat} : R a.block b' → Twins R (.array a) (.array { a with block := b' })
  | tuple {xs ys : List Value} : xs.length = ys.length →
      (∀ {x y}, (x, y) ∈ xs.zip ys → Twins R x y) → Twins R (.tuple xs) (.tuple ys)
  | record {fs gs : List (String × Value)} : fs.length = gs.length →
      (∀ {f g}, (f, g) ∈ fs.zip gs → f.1 = g.1) → (∀ {f g}, (f, g) ∈ fs.zip gs → Twins R f.2 g.2) →
      Twins R (.record fs) (.record gs)

variable {R R' : Nat → Nat → Prop} {v v' : Value}

theorem Twins.mono (hR : R ≤ R') (h : Twins R v v') : Twins R' v v' := by
  induction h with
  | flat hv => exact .flat hv
  | function f => exact .function f
  | list hb => exact .list (hR _ _ hb)
  | array hb => exact .array (hR _ _ hb)
  | tuple hlen _ ih => exact .tuple hlen ih
  | record hlen hnames _ ih => exact .record hlen hnames ih

theorem Twins.mono_all {vs vs' : List Value} (h : List.Forall₂ (Twins R) vs vs')
    (hR : R ≤ R') : List.Forall₂ (Twins R') vs vs' :=
  h.imp fun _ _ hv => hv.mono hR

theorem Twins.of_items {xs ys : List Value} (h : List.Forall₂ (Twins R) xs ys) :
    Twins R (.tuple xs) (.tuple ys) :=
  have hzip := List.forall₂_iff_zip.1 h
  .tuple hzip.1 hzip.2

theorem Twins.items {xs ys : List Value} (h : Twins R (.tuple xs) (.tuple ys)) :
    List.Forall₂ (Twins R) xs ys := by
  cases h with
  | flat hv => cases hv
  | tuple hlen hitems => exact List.forall₂_iff_zip.2 ⟨hlen, hitems⟩

theorem Twins.fields {fs gs : List (String × Value)} (h : Twins R (.record fs) (.record gs)) :
    List.Forall₂ (fun f g => f.1 = g.1 ∧ Twins R f.2 g.2) fs gs := by
  cases h with
  | flat hv => cases hv
  | record hlen hnames hfields =>
    exact List.forall₂_iff_zip.2 ⟨hlen, fun hfg => ⟨hnames hfg, hfields hfg⟩⟩

theorem Twins.lookup {fs gs : List (String × Value)} (h : Twins R (.record fs) (.record gs))
    (name : String) : Option.Rel (Twins R) (fs.lookup name) (gs.lookup name) := by
  have hfields := h.fields
  clear h
  induction hfields with
  | nil => exact .none
  | @cons f g fs gs hfg _ ih =>
    rw [List.lookup_cons, List.lookup_cons, hfg.1]
    cases name == g.1 with
    | true => exact .some hfg.2
    | false => exact ih

/-- A value is its own twin if the blocks that it leads to are related to themselves. -/
theorem Twins.of_reaches (h : Heap) (v : Value) (hv : ∀ b, v.Reaches h b → R b b) : Twins R v v := by
  cases v with
  | list b => exact .list (hv b (.list b))
  | array a => exact .array (hv a.block (.array a))
  | function f => exact .function f
  | tuple items =>
    refine .of_items (List.forall₂_same.2 fun x hx => ?_)
    have hsize := List.sizeOf_lt_of_mem hx
    exact of_reaches h x fun b hb => hv b (.tupleItem hx hb)
  | record fields =>
    have hself : List.Forall₂ (fun f g => f = g ∧ f ∈ fields) fields fields :=
      List.forall₂_same.2 fun f hf => ⟨rfl, hf⟩
    have hzip {f g} (hfg : (f, g) ∈ fields.zip fields) := (List.forall₂_iff_zip.1 hself).2 hfg
    refine .record rfl (fun hfg => congrArg Prod.fst (hzip hfg).1) fun hfg => ?_
    obtain ⟨rfl, hf⟩ := hzip hfg
    rename_i f
    obtain ⟨n, x⟩ := f
    have hsize := List.sizeOf_lt_of_mem hf
    exact of_reaches h x fun b hb => hv b (.recordField hf hb)
  | _ => exact .flat rfl
termination_by sizeOf v
decreasing_by
  · subst_vars
    simp only [Value.tuple.sizeOf_spec]
    omega
  · subst_vars
    simp only [Value.record.sizeOf_spec, Prod.mk.sizeOf_spec] at hsize ⊢
    omega

end Value

/-! ## Linked heaps -/

/-- Two heaps in which related blocks hold twins. No block is related to two others. -/
structure Linked (R : Nat → Nat → Prop) (h h' : Heap) : Prop where
  unique : Relator.BiUnique R
  left : ∀ {b b'}, R b b' → b < h.size
  right : ∀ {b b'}, R b b' → b' < h'.size
  cells : ∀ {b b'}, R b b' → List.Forall₂ (Value.Twins R) (h.block b).toList (h'.block b').toList

theorem Heap.block_push_self (h : Heap) (cells : Array Value) : Heap.block (h.push cells) h.size = cells := by
  simp [Heap.block]

theorem Heap.block_push_of_lt {h : Heap} {b : Nat} (hb : b < h.size) (cells : Array Value) :
    Heap.block (h.push cells) b = h.block b := by
  simp [Heap.block, Array.getD_eq_getD_getElem?, Array.getElem?_push, Nat.ne_of_lt hb]

namespace Linked

variable {R : Nat → Nat → Prop} {h h' : Heap}

/-- A block that is added on the right only has no twin. -/
theorem push_right (hl : Linked R h h') (cells : Array Value) : Linked R h (h'.push cells) where
  unique := hl.unique
  left := hl.left
  right hb := by simpa using Nat.lt_succ_of_lt (hl.right hb)
  cells hb := by
    rw [Heap.block_push_of_lt (hl.right hb)]
    exact hl.cells hb

/-- Blocks that are added on both sides become related. -/
theorem push (hl : Linked R h h') {cells cells' : Array Value}
    (hcells : List.Forall₂ (Value.Twins R) cells.toList cells'.toList) :
    Linked (fun b b' => R b b' ∨ b = h.size ∧ b' = h'.size) (h.push cells) (h'.push cells') where
  unique := by
    refine ⟨fun b c b' hb hc => ?_, fun b b' c' hb hc => ?_⟩
    · rcases hb with hb | ⟨rfl, hb⟩ <;> rcases hc with hc | ⟨rfl, hc⟩
      · exact hl.unique.1 hb hc
      · exact absurd (hl.right hb) (by omega)
      · exact absurd (hl.right hc) (by omega)
      · rfl
    · rcases hb with hb | ⟨hb, rfl⟩ <;> rcases hc with hc | ⟨hc, rfl⟩
      · exact hl.unique.2 hb hc
      · exact absurd (hl.left hb) (by omega)
      · exact absurd (hl.left hc) (by omega)
      · rfl
  left hb := by
    rcases hb with hb | ⟨rfl, -⟩
    · simpa using Nat.lt_succ_of_lt (hl.left hb)
    · simp
  right hb := by
    rcases hb with hb | ⟨-, rfl⟩
    · simpa using Nat.lt_succ_of_lt (hl.right hb)
    · simp
  cells hb := by
    rcases hb with hb | ⟨rfl, rfl⟩
    · rw [Heap.block_push_of_lt (hl.left hb), Heap.block_push_of_lt (hl.right hb)]
      exact Value.Twins.mono_all (hl.cells hb) fun _ _ => .inl
    · rw [Heap.block_push_self, Heap.block_push_self]
      exact Value.Twins.mono_all hcells fun _ _ => .inl

/-- A cell that both blocks have, or lack, is a twin. -/
theorem cell (hl : Linked R h h') {b b' : Nat} (hb : R b b') (p : Nat) :
    Value.Twins R ((h.block b).getD p .none) ((h'.block b').getD p .none) := by
  simp only [Array.getD_eq_getD_getElem?, ← Array.getElem?_toList]
  exact getD_of_forall₂ (hl.cells hb) (.flat rfl) p

theorem view_cells (hl : Linked R h h') {a : View} {b' : Nat} (hb : R a.block b') :
    List.Forall₂ (Value.Twins R) (a.cells h) (View.cells h' { a with block := b' }) :=
  forall₂_map_same _ fun p => hl.cell hb p

/-- Twins look the same. -/
theorem look_eq (hl : Linked R h h') {v v' : Value} (hv : Value.Twins R v v') :
    v.look h = v'.look h' := by
  funext depth
  simp only [Value.look]
  induction depth generalizing v v' with
  | zero => rfl
  | succ depth ih =>
    have hall {xs ys : List Value} (hxs : List.Forall₂ (Value.Twins R) xs ys) :
        xs.map (Value.snapshot h depth) = ys.map (Value.snapshot h' depth) :=
      map_eq_of_forall₂ hxs fun _ _ => ih
    cases hv with
    | flat hflat =>
      cases v with
      | list | tuple | record | function | array => cases hflat
      | _ => rfl
    | function f => rfl
    | list hb => simp only [Value.snapshot, hall (hl.cells hb)]
    | array hb => simp only [Value.snapshot, hall (hl.view_cells hb)]
    | tuple hlen hitems => simp only [Value.snapshot, hall (Value.Twins.tuple hlen hitems).items]
    | record hlen hnames hfields =>
      have hfields := (Value.Twins.record hlen hnames hfields).fields
      simp only [Value.snapshot]
      exact congrArg _ (map_eq_of_forall₂ hfields fun f g hfg => by rw [hfg.1, ih hfg.2])

end Linked

/-! ## Computations that cannot tell twins apart -/

/-- Both computations go the same way in linked heaps, and leave linked heaps. The one on the left is
done in a world that has all that `w` has, and keeps it. -/
def mirroring (w : World) : Simulation Run Run where
  Stage := Nat → Nat → Prop
  le R R' := R ≤ R'
  refl := le_refl
  trans := le_trans
  Rel R Q x x' := ∀ u u', w.Keeps u → Linked R u.heap u'.heap →
    ∃ R' : Nat → Nat → Prop, R ≤ R' ∧ w.Keeps (exec x u).2 ∧
      Linked R' (exec x u).2.heap (exec x' u').2.heap ∧ Concur (Q R') (exec x u).1 (exec x' u').1
  pure := by
    intro α α' R Q a a' hQ u u' hu hl
    exact ⟨R, le_rfl, hu, hl, hQ⟩
  bind := by
    intro α α' β β' R Q Q' x x' f f' hx hf u u' hu hl
    obtain ⟨R', hR, hkeeps, hl', hboth⟩ := hx u u' hu hl
    rw [Run.exec_bind, Run.exec_bind]
    generalize exec x u = r, exec x' u' = r' at hkeeps hl' hboth
    obtain ⟨e | a, u₁⟩ := r <;> obtain ⟨e' | a', u₁'⟩ := r'
    · exact ⟨R', hR, hkeeps, hl', hboth⟩
    · exact hboth.elim
    · exact hboth.elim
    · obtain ⟨R'', hR', hkeeps', hl'', hboth'⟩ := hf R' a a' hR hboth u₁ u₁' hkeeps hl'
      exact ⟨R'', le_trans hR hR', hkeeps', hl'', hboth'⟩
  throw := by
    intro α α' R Q e u u' hu hl
    exact ⟨R, le_rfl, hu, hl, rfl⟩
  attempt := by
    intro α α' R Q x x' hx u u' hu hl
    obtain ⟨R', hR, hkeeps, hl', hboth⟩ := hx u u' hu hl
    rw [Run.exec_attempt, Run.exec_attempt]
    exact ⟨R', hR, hkeeps, hl', hboth⟩

section

variable {w : World} {R : Nat → Nat → Prop} {α α' β β' : Type}
  {Q : (Nat → Nat → Prop) → α → α' → Prop} {Q' : (Nat → Nat → Prop) → β → β' → Prop}

theorem mirroring_heap : (mirroring w).Rel R Linked Run.heap Run.heap :=
  fun _ _ hu hl => ⟨R, le_rfl, hu, hl, hl⟩

theorem mirroring_ofFault {x : Except Fault α} {x' : Except Fault α'} (h : Paired (Q R) x x') :
    (mirroring w).Rel R Q (Run.ofFault x) (Run.ofFault x') := by
  cases h with
  | ok ha => exact (mirroring w).pure ha
  | error f => exact (mirroring w).throw _

theorem mirroring_same (x : Except Fault α) :
    (mirroring w).Rel R (fun _ => Eq) (Run.ofFault x) (Run.ofFault x) := by
  cases x with
  | ok a => exact (mirroring w).pure rfl
  | error f => exact (mirroring w).throw _

theorem mirroring_allocate {cells cells' : Array Value}
    (h : List.Forall₂ (Value.Twins R) cells.toList cells'.toList) :
    (mirroring w).Rel R (fun R' => R') (Run.allocate cells) (Run.allocate cells') :=
  fun _ _ hu hl => ⟨_, fun _ _ => .inl, hu.trans (.of_push cells rfl), hl.push h, .inr ⟨rfl, rfl⟩⟩

theorem mirroring_tryCatch {x : Run α} {x' : Run α'} {f : Error → Run α} {f' : Error → Run α'}
    (hx : (mirroring w).Rel R Q x x')
    (hf : ∀ R' e, R ≤ R' → (mirroring w).Rel R' Q (f e) (f' e)) :
    (mirroring w).Rel R Q (tryCatch x f) (tryCatch x' f') := by
  intro u u' hu hl
  obtain ⟨R', hR, hkeeps, hl', hboth⟩ := hx u u' hu hl
  rw [Run.exec_tryCatch, Run.exec_tryCatch]
  generalize exec x u = r, exec x' u' = r' at hkeeps hl' hboth
  obtain ⟨e | a, u₁⟩ := r <;> obtain ⟨e' | a', u₁'⟩ := r'
  · obtain rfl : e = e' := hboth
    obtain ⟨R'', hR', hrest⟩ := hf R' e hR u₁ u₁' hkeeps hl'
    exact ⟨R'', le_trans hR hR', hrest⟩
  · exact hboth.elim
  · exact hboth.elim
  · exact ⟨R', hR, hkeeps, hl', hboth⟩

theorem mirroring_mapM (Q' : (Nat → Nat → Prop) → β → β' → Prop)
    (mono : ∀ {R R' b b'}, R ≤ R' → Q' R b b' → Q' R' b b')
    {P : α → α' → Prop} {as : List α} {as' : List α'} (h : List.Forall₂ P as as')
    {f : α → Run β} {f' : α' → Run β'}
    (hf : ∀ R' a a', R ≤ R' → P a a' → (mirroring w).Rel R' Q' (f a) (f' a')) :
    (mirroring w).Rel R (fun R' => List.Forall₂ (Q' R')) (as.mapM f) (as'.mapM f') := by
  induction h generalizing R with
  | nil => exact (mirroring w).pure .nil
  | cons ha _ ih =>
    rw [List.mapM_cons, List.mapM_cons]
    refine (mirroring w).bind (hf R _ _ le_rfl ha) fun R₁ b b' hR hb => ?_
    refine (mirroring w).bind (ih fun R₂ a a' hR' => hf R₂ a a' ((mirroring w).trans hR hR'))
      fun R₂ bs bs' hR' hbs => ?_
    exact (mirroring w).pure (.cons (mono hR' hb) hbs)

theorem mirroring_foldlM {P : α → α' → Prop} {as : List α} {as' : List α'}
    (h : List.Forall₂ P as as') {f : Value → α → Run Value} {f' : Value → α' → Run Value}
    (hf : ∀ R' v v' a a', R ≤ R' → Value.Twins R' v v' → P a a' →
      (mirroring w).Rel R' Value.Twins (f v a) (f' v' a')) {v v' : Value} (hv : Value.Twins R v v') :
    (mirroring w).Rel R Value.Twins (as.foldlM f v) (as'.foldlM f' v') := by
  induction h generalizing R v v' with
  | nil => exact (mirroring w).pure hv
  | cons ha _ ih =>
    rw [List.foldlM_cons, List.foldlM_cons]
    refine (mirroring w).bind (hf R _ _ _ _ le_rfl hv ha) fun R₁ v v' hR hv => ?_
    exact ih (fun R₂ v v' a a' hR' => hf R₂ v v' a a' ((mirroring w).trans hR hR')) hv

end

end IndexNotation
