import IndexNotation.Proofs.World
import IndexNotation.Value.Assign
import Mathlib.Data.List.Forall2
import Mathlib.Logic.Function.Basic

/-!
# What values look like

Lists and arrays are known by the block that they are kept in, and an evaluation that makes a new
one takes the next block that is free. So the same evaluation, done at another time, does not give
the same value, but one that looks the same: it differs in nothing but the numbers of blocks. What
is stored into a cell, and what the type of an array is, depends on how values look only.
-/

namespace IndexNotation

open Run (exec)

/-- What a value looks like, to every depth. -/
abbrev Look := Nat → Data

namespace Value

def look (h : Heap) (v : Value) : Look := fun depth => v.snapshot h depth

/-- A value leads to a block, directly or through what it holds. -/
inductive Reaches (h : Heap) : Value → Nat → Prop where
  | list (b : Nat) : Reaches h (.list b) b
  | array (a : View) : Reaches h (.array a) a.block
  | listItem {b c : Nat} {v : Value} : v ∈ (h.block b).toList → Reaches h v c → Reaches h (.list b) c
  | arrayCell {a : View} {c : Nat} {v : Value} : v ∈ (h.block a.block).toList → Reaches h v c →
      Reaches h (.array a) c
  | tupleItem {items : List Value} {c : Nat} {v : Value} : v ∈ items → Reaches h v c →
      Reaches h (.tuple items) c
  | recordField {fields : List (String × Value)} {c : Nat} {n : String} {v : Value} :
      (n, v) ∈ fields → Reaches h v c → Reaches h (.record fields) c

theorem mem_cells {h : Heap} {a : View} {x : Value} (hx : x ∈ a.cells h) :
    x = .none ∨ x ∈ (h.block a.block).toList := by
  obtain ⟨p, -, rfl⟩ := List.mem_map.1 hx
  rw [Array.getD_eq_getD_getElem?]
  cases hp : (h.block a.block)[p]? with
  | none => exact .inl rfl
  | some y => exact .inr (Array.mem_toList_iff.2 (Array.mem_of_getElem? hp))

/-- An array of scalars leads to its own block only. -/
theorem Reaches.eq_block {h : Heap} {a : View} {b : Nat} (hr : (Value.array a).Reaches h b)
    (hcells : ∀ v ∈ (h.block a.block).toList, ∃ s, v = .scalar s) : b = a.block := by
  cases hr with
  | array => rfl
  | arrayCell hmem hr =>
    obtain ⟨s, rfl⟩ := hcells _ hmem
    cases hr

/-! ## Blocks that stay -/

section

variable {h h' : Heap}

theorem Reaches.of_congr {v : Value} (hv : ∀ b, v.Reaches h b → h'.block b = h.block b) {b : Nat}
    (hr : v.Reaches h' b) : v.Reaches h b := by
  induction hr with
  | list b => exact .list b
  | array a => exact .array a
  | listItem hmem _ ih =>
    rw [hv _ (.list _)] at hmem
    exact .listItem hmem (ih fun b hb => hv b (.listItem hmem hb))
  | arrayCell hmem _ ih =>
    rw [hv _ (.array _)] at hmem
    exact .arrayCell hmem (ih fun b hb => hv b (.arrayCell hmem hb))
  | tupleItem hmem _ ih => exact .tupleItem hmem (ih fun b hb => hv b (.tupleItem hmem hb))
  | recordField hmem _ ih => exact .recordField hmem (ih fun b hb => hv b (.recordField hmem hb))

/-- A value looks the same as long as the blocks that it leads to are the same. -/
theorem look_congr {v : Value} (hv : ∀ b, v.Reaches h b → h'.block b = h.block b) :
    v.look h' = v.look h := by
  funext depth
  simp only [look]
  induction depth generalizing v with
  | zero => rfl
  | succ depth ih =>
    cases v with
    | list b =>
      simp only [snapshot, hv b (.list b)]
      congr 1
      exact List.map_congr_left fun x hx => ih fun c hc => hv c (.listItem hx hc)
    | tuple items =>
      simp only [snapshot]
      congr 1
      exact List.map_congr_left fun x hx => ih fun c hc => hv c (.tupleItem hx hc)
    | record fields =>
      simp only [snapshot]
      congr 1
      exact List.map_congr_left fun f hf => by rw [ih fun c hc => hv c (.recordField hf hc)]
    | array a =>
      have hcells : a.cells h' = a.cells h := by rw [View.cells, View.cells, hv _ (.array a)]
      simp only [snapshot, hcells]
      congr 1
      refine List.map_congr_left fun x hx => ih fun c hc => ?_
      rcases mem_cells hx with rfl | hx
      · cases hc
      · exact hv c (.arrayCell hx hc)
    | _ => rfl

end

/-! ## Values that look the same -/

theorem forall₂_of_map_eq {α β γ δ : Type} {f : δ → α → γ} {g : δ → β → γ} [Inhabited δ] {as : List α}
    {bs : List β} (h : ∀ d, as.map (f d) = bs.map (g d)) :
    List.Forall₂ (fun a b => ∀ d, f d a = g d b) as bs := by
  induction as generalizing bs with
  | nil =>
    have hbs : bs = [] := by simpa using (h default).symm
    exact hbs ▸ .nil
  | cons a as ih =>
    cases bs with
    | nil => simpa using h default
    | cons b bs =>
      simp only [List.map_cons, List.cons.injEq] at h
      exact .cons (fun d => (h d).1) (ih fun d => (h d).2)

/-- A value that leads to no block and is told apart by its look. -/
def isFlat : Value → Bool
  | none | bool _ | int _ | float _ | complex _ | text _ | scalar _ | elemType _ => true
  | _ => false

theorem isFlat_ofLiteral (v : Literal) : (ofLiteral v).isFlat = true := by
  cases v <;> rfl

theorem isFlat_ofPlain (p : Plain) : (ofPlain p).isFlat = true := by
  cases p <;> rfl

theorem isFlat_untyped {v : Value} (hv : v.isFlat = true) : v.untyped.isFlat = true := by
  unfold untyped
  split
  · rfl
  · exact hv

/-- The flat value that data are a copy of. -/
def ofData? : Data → Option Value
  | .none => some .none
  | .bool b => some (.bool b)
  | .int n => some (.int n)
  | .float x => some (.float x)
  | .complex z => some (.complex z)
  | .text s => some (.text s)
  | .scalar s => some (.scalar s)
  | .elemType t => some (.elemType t)
  | _ => Option.none

theorem ofData?_snapshot (h : Heap) (v : Value) :
    ofData? (v.snapshot h 1) = if v.isFlat then some v else Option.none := by
  cases v <;> rfl

theorem eq_of_isFlat {h h' : Heap} {v v' : Value} (hv : v.isFlat = true) (hl : v.look h = v'.look h') :
    v' = v := by
  have hone : ofData? (v'.snapshot h' 1) = some v := by
    rw [show v'.snapshot h' 1 = v.snapshot h 1 from (congrFun hl 1).symm, ofData?_snapshot, if_pos hv]
  rw [ofData?_snapshot] at hone
  split at hone
  · exact Option.some.inj hone
  · cases hone

/-- How two values that look the same are made. -/
inductive Matches (h h' : Heap) : Value → Value → Prop where
  | flat {v : Value} : v.isFlat = true → Matches h h' v v
  | list {b b' : Nat} :
      List.Forall₂ (fun x x' => x.look h = x'.look h') (h.block b).toList (h'.block b').toList →
      Matches h h' (.list b) (.list b')
  | tuple {items items' : List Value} :
      List.Forall₂ (fun x x' => x.look h = x'.look h') items items' →
      Matches h h' (.tuple items) (.tuple items')
  | record (fields fields' : List (String × Value)) : Matches h h' (.record fields) (.record fields')
  | function (f f' : Callable) : Matches h h' (.function f) (.function f')
  | array {a a' : View} : a.type = a'.type → a.shape = a'.shape →
      List.Forall₂ (fun x x' => x.look h = x'.look h') (a.cells h) (a'.cells h') →
      Matches h h' (.array a) (.array a')

theorem matches_of_look_eq {h h' : Heap} {v v' : Value} (hl : v.look h = v'.look h') :
    Matches h h' v v' := by
  have hone := congrFun hl 1
  have hdeep (d : Nat) := congrFun hl (d + 1)
  have hforall {xs ys : List Value}
      (hmap : ∀ d, xs.map (snapshot h d) = ys.map (snapshot h' d)) :
      List.Forall₂ (fun x y => x.look h = y.look h') xs ys :=
    (forall₂_of_map_eq hmap).imp fun _ _ hxy => funext hxy
  by_cases hflat : v.isFlat = true
  · rw [eq_of_isFlat hflat hl]
    exact .flat hflat
  cases v with
  | list b =>
    cases v' with
    | list b' => exact .list (hforall fun d => by simpa [look, snapshot] using hdeep d)
    | _ => simp [look, snapshot] at hone
  | tuple items =>
    cases v' with
    | tuple items' => exact .tuple (hforall fun d => by simpa [look, snapshot] using hdeep d)
    | _ => simp [look, snapshot] at hone
  | array a =>
    cases v' with
    | array a' =>
      simp only [look, snapshot, Data.array.injEq] at hone hdeep
      exact .array hone.1 hone.2.1 (hforall fun d => (hdeep d).2.2)
    | _ => simp [look, snapshot] at hone
  | record fields =>
    cases v' with
    | record fields' => exact .record fields fields'
    | _ => simp [look, snapshot] at hone
  | function f =>
    cases v' with
    | function f' => exact .function f f'
    | _ => simp [look, snapshot] at hone
  | _ => simp [isFlat] at hflat

end Value

/-! ## What depends on looks only -/

namespace ElemType

variable {h h' : Heap} {t : ElemType}

theorem accept_list (ht : t ≠ .object) (b : Nat) :
    t.accept h (.list b) = .scalar <$> t.acceptSequence (h.block b).isEmpty := by
  cases t with
  | object => exact absurd rfl ht
  | _ => rfl

theorem accept_tuple (ht : t ≠ .object) (items : List Value) :
    t.accept h (.tuple items) = .scalar <$> t.acceptSequence items.isEmpty := by
  cases t with
  | object => exact absurd rfl ht
  | _ => rfl

theorem accept_array (ht : t ≠ .object) (a : View) :
    t.accept h (.array a) = match a.shape, a.cells h with
      | [], [.scalar s] => .scalar <$> t.acceptScalar s
      | _, _ => .error .badValue := by
  cases t with
  | object => exact absurd rfl ht
  | _ => rfl

/-- A cell that holds no objects holds a scalar. -/
theorem exists_scalar_of_accept (ht : t ≠ .object) {v cell : Value} (hc : t.accept h v = .ok cell) :
    ∃ s, cell = .scalar s := by
  have hmap {x : Except Fault Scalar} (hx : Value.scalar <$> x = .ok cell) : ∃ s, cell = .scalar s := by
    cases x with
    | error f => cases hx
    | ok s => exact ⟨s, (Except.ok.inj hx).symm⟩
  unfold accept at hc
  split at hc
  · exact absurd rfl ht
  · exact hmap hc
  · exact hmap hc
  · exact hmap hc
  · exact hmap hc
  · exact hmap hc
  · split at hc
    · exact hmap hc
    · cases hc
  · split at hc
    · exact ⟨_, (Except.ok.inj hc).symm⟩
    · cases hc
  · split at hc
    · exact hmap hc
    · split at hc
      · exact ⟨_, (Except.ok.inj hc).symm⟩
      · cases hc

theorem accept_eq_of_look_eq (ht : t ≠ .object) {v v' : Value} (hl : v.look h = v'.look h') :
    t.accept h v = t.accept h' v' := by
  cases Value.matches_of_look_eq hl with
  | flat hflat =>
    cases v with
    | list | tuple | record | function | array => cases hflat
    | _ => cases t <;> rfl
  | @list b b' hitems =>
    have hsize : (h.block b).size = (h'.block b').size := hitems.length_eq
    rw [accept_list ht, accept_list ht, Array.isEmpty, Array.isEmpty, hsize]
  | tuple hitems =>
    rw [accept_tuple ht, accept_tuple ht]
    cases hitems <;> rfl
  | record fields fields' =>
    cases t with
    | object => exact absurd rfl ht
    | _ => rfl
  | function f f' =>
    cases t with
    | object => exact absurd rfl ht
    | _ => rfl
  | @array a a' htype hshape hcells =>
    rw [accept_array ht, accept_array ht, hshape]
    generalize a.cells h = cells, a'.cells h' = cells' at hcells
    cases a'.shape with
    | cons n ns => rfl
    | nil =>
      rcases hcells with _ | ⟨hx, _ | ⟨_, _⟩⟩
      · rfl
      · cases Value.matches_of_look_eq hx <;> rfl
      · simp

/-- What a cell takes depends on how the value looks, and so does how the cell looks then. -/
theorem accept_congr {v v' : Value} (hl : v.look h = v'.look h') (t : ElemType) :
    (t.accept h v).map (Value.look h) = (t.accept h' v').map (Value.look h') := by
  by_cases ht : t = .object
  · subst ht
    simp [accept, Except.map, hl]
  rw [accept_eq_of_look_eq ht hl]
  cases hc : t.accept h' v' with
  | error f => rfl
  | ok cell =>
    obtain ⟨s, rfl⟩ := exists_scalar_of_accept ht hc
    refine congrArg Except.ok (funext fun d => ?_)
    cases d <;> rfl

end ElemType

namespace Dense

/-- What the type of an array depends on. -/
def Nest.frame (n : Nest) : List Nat × List ElemType := (n.shape, n.types)

theorem mapM_frame_congr {f g : Value → Except Fault Nest} {xs ys : List Value}
    (h : List.Forall₂ (fun x y => (f x).map Nest.frame = (g y).map Nest.frame) xs ys) :
    (xs.mapM f).map (List.map Nest.frame) = (ys.mapM g).map (List.map Nest.frame) := by
  induction h with
  | nil => rfl
  | @cons x y xs ys hxy _ ih =>
    rw [List.mapM_cons, List.mapM_cons]
    cases hx : f x <;> cases hy : g y <;> rw [hx, hy] at hxy
    · cases hxy
      rfl
    · cases hxy
    · cases hxy
    · have hframe := Except.ok.inj hxy
      cases hxs : xs.mapM f <;> cases hys : ys.mapM g <;> rw [hxs, hys] at ih
      · cases ih
        rfl
      · cases ih
      · cases ih
      · have htail := Except.ok.inj ih
        exact congrArg Except.ok (congrArg₂ List.cons hframe htail)

theorem joinNests_congr {ns ns' : List Nest} (h : ns.map Nest.frame = ns'.map Nest.frame) :
    (joinNests ns).map Nest.frame = (joinNests ns').map Nest.frame := by
  have hshapes (ns : List Nest) (s : List Nat) :
      ns.all (·.shape == s) = (ns.map Nest.frame).all (·.1 == s) := by
    simp [List.all_map, Function.comp_def, Nest.frame]
  have htypes (ns : List Nest) : ns.flatMap (·.types) = (ns.map Nest.frame).flatMap (·.2) := by
    simp [List.flatMap_map, Nest.frame]
  cases ns with
  | nil =>
    obtain rfl : ns' = [] := by simpa using h.symm
    rfl
  | cons n ns =>
    cases ns' with
    | nil => simp at h
    | cons n' ns' =>
      obtain ⟨hn, hns⟩ := List.cons.inj h
      obtain ⟨hshape, htype⟩ := Prod.mk.inj hn
      have hlen : ns.length = ns'.length := by simpa using congrArg List.length hns
      simp only [joinNests, hshapes, htypes, hns, hshape, hlen]
      split
      · simp [Except.map, Nest.frame, htype]
      · rfl

theorem nest_congr {h h' : Heap} (depth : Nat) {v v' : Value} (hl : v.look h = v'.look h') :
    (nest h depth v).map Nest.frame = (nest h' depth v').map Nest.frame := by
  induction depth generalizing v v' with
  | zero => rfl
  | succ depth ih =>
    have hjoin {xs ys : List Value}
        (hxs : List.Forall₂ (fun x y => x.look h = y.look h') xs ys) :
        (do joinNests (← xs.mapM (nest h depth))).map Nest.frame =
          (do joinNests (← ys.mapM (nest h' depth))).map Nest.frame := by
      have hmap := mapM_frame_congr (hxs.imp fun _ _ hxy => ih hxy)
      cases hx : xs.mapM (nest h depth) <;> cases hy : ys.mapM (nest h' depth) <;> rw [hx, hy] at hmap
      · cases hmap
        rfl
      · cases hmap
      · cases hmap
      · exact joinNests_congr (Except.ok.inj hmap)
    cases Value.matches_of_look_eq hl with
    | flat hflat =>
      cases v with
      | list | tuple | record | function | array => cases hflat
      | _ => rfl
    | list hitems => exact hjoin hitems
    | tuple hitems => exact hjoin hitems
    | record => rfl
    | function => rfl
    | array htype hshape _ => simp [nest, Except.map, Nest.frame, htype, hshape]

/-- The type of the array that a value is or stands for depends on how it looks. -/
theorem type_congr {h h' : Heap} {v v' : Value} (hl : v.look h = v'.look h') :
    (ofValue h v).map (·.type) = (ofValue h' v').map (·.type) := by
  have hnest := nest_congr maxDepth hl
  unfold ofValue
  cases hv : nest h maxDepth v <;> cases hv' : nest h' maxDepth v' <;> rw [hv, hv'] at hnest
  · cases hnest
    rfl
  · cases hnest
  · cases hnest
  · obtain ⟨hshape, htypes⟩ := Prod.mk.inj (Except.ok.inj hnest)
    simp only [bind, Except.bind, ofNest, hshape, htypes]
    split <;> rfl

end Dense

/-! ## Outcomes -/

/-- What looks like `l` stands for an array with elements of type `t`. -/
def Look.Typed (l : Look) (t : ElemType) : Prop :=
  ∀ (h : Heap) (v : Value), v.look h = l → (Dense.ofValue h v).map (·.type) = .ok t

namespace Run

/-- What comes of an evaluation: the error, or how the value looks. -/
def outcome (x : Run Value) (w : World) : Except Error Look :=
  (exec x w).1.map (Value.look (exec x w).2.heap)

theorem outcome_ok {x : Run Value} {w w' : World} {v : Value} (h : exec x w = (.ok v, w')) :
    outcome x w = .ok (v.look w'.heap) := by
  rw [outcome, h]
  rfl

theorem outcome_error {x : Run Value} {w w' : World} {e : Error} (h : exec x w = (.error e, w')) :
    outcome x w = .error e := by
  rw [outcome, h]
  rfl

theorem outcome_eq_ok {x : Run Value} {w : World} {l : Look} (h : outcome x w = .ok l) :
    ∃ v w', exec x w = (.ok v, w') ∧ v.look w'.heap = l := by
  rcases hx : exec x w with ⟨e | v, w'⟩
  · rw [outcome_error hx] at h
    cases h
  · rw [outcome_ok hx] at h
    exact ⟨v, w', rfl, Except.ok.inj h⟩

/-- An evaluation is pure from `w` on: whenever what `w` has is still there, the same comes of it, and
its value is made of what `w` has and of what the evaluation adds. -/
def PureFrom (w : World) (x : Run Value) : Prop :=
  ∀ u, w.Keeps u → outcome x u = outcome x w ∧ ∀ v u', exec x u = (.ok v, u') →
    ∀ b, v.Reaches u'.heap b → b < w.heap.size ∨ u.heap.size ≤ b ∧ b < u'.heap.size

end Run

/-! ## Values apart from an array -/

/-- A value looks like `l`, and all that it leads to is there and is not the block `b`. -/
structure Value.Shows (w : World) (b : Nat) (v : Value) (l : Look) : Prop where
  look_eq : v.look w.heap = l
  apart : ∀ c, v.Reaches w.heap c → c < w.heap.size ∧ c ≠ b

theorem Value.Shows.mono {w w' : World} {b : Nat} {v : Value} {l : Look} (h : v.Shows w b l)
    (hw : World.KeepsBut b w w') : v.Shows w' b l := by
  have hblock (c : Nat) (hc : v.Reaches w.heap c) : w'.heap.block c = w.heap.block c :=
    hw.2 c (h.apart c hc).1 (h.apart c hc).2
  refine ⟨(Value.look_congr hblock).trans h.look_eq, fun c hc => ?_⟩
  obtain ⟨hlt, hne⟩ := h.apart c (hc.of_congr hblock)
  exact ⟨Nat.lt_of_lt_of_le hlt hw.1, hne⟩

/-- What a cell takes is made of what it is given. -/
theorem ElemType.reaches_of_accept {h : Heap} {t : ElemType} {v cell : Value}
    (hc : t.accept h v = .ok cell) {b : Nat} (hb : cell.Reaches h b) : v.Reaches h b := by
  by_cases ht : t = .object
  · subst ht
    cases hc
    exact hb
  · obtain ⟨s, rfl⟩ := exists_scalar_of_accept ht hc
    cases hb

theorem ElemType.exists_acceptLook (t : ElemType) :
    ∃ accept : Look → Except Fault Look,
      ∀ h v, (t.accept h v).map (Value.look h) = accept (v.look h) := by
  have hfactors : Function.FactorsThrough (fun x : Heap × Value => (t.accept x.1 x.2).map (Value.look x.1))
      (fun x => x.2.look x.1) := fun _ _ hl => accept_congr hl t
  obtain ⟨accept, haccept⟩ := (Function.factorsThrough_iff _).1 hfactors
  exact ⟨accept, fun h v => congrFun haccept (h, v)⟩

/-- What a cell takes of a look. -/
noncomputable def ElemType.acceptLook (t : ElemType) : Look → Except Fault Look :=
  Classical.choose t.exists_acceptLook

theorem ElemType.look_accept (t : ElemType) (h : Heap) (v : Value) :
    (t.accept h v).map (Value.look h) = t.acceptLook (v.look h) :=
  Classical.choose_spec t.exists_acceptLook h v

end IndexNotation
