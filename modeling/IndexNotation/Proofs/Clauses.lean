import IndexNotation.Proofs.Catalogs
import IndexNotation.Proofs.Layout
import Mathlib.Data.List.TakeWhile

/-!
# What a reduction clause lists

A reduction clause is read item by item, with a mode that sticks: once an item turns unrolling on,
all indices after it are unrolled, each as far as the last such item says. What a clause means can be
said without the mode. Every item says one of three things (a width, an index, a start value), and the
whole schedule is a matter of the order in which these are said.
-/

namespace IndexNotation

open Run (exec)

/-- What an item of a reduction clause says. -/
inductive Item where
  /-- The loops that follow are unrolled, `width` steps at a time; zero stands for the whole range. -/
  | unroll (width : Nat)
  /-- An index is listed, with bounds or without. -/
  | index (name : String) (bound : Option Axis)
  /-- The reduction starts from a value. -/
  | init (value : Expr)

namespace Item

def width? : Item → Option Nat
  | unroll width => some width
  | _ => none

def index? : Item → Option String
  | index name _ => some name
  | _ => none

def bound? : Item → Option (String × Axis)
  | index name bound => bound.map (Prod.mk name)
  | _ => none

def init? : Item → Option Expr
  | init value => some value
  | _ => none

def isUnroll (item : Item) : Bool := item.width?.isSome

end Item

namespace Reduction

/-- The items that make sense, and what they say. -/
inductive Says : Expr → Item → Prop where
  /-- `unroll` -/
  | unroll (pos : Option Pos) : Says (.name "unroll" pos) (.unroll 0)
  /-- `unroll(4)` -/
  | width {n : Int} (hn : 1 ≤ n) (pos pos' : Option Pos) :
      Says (.call "unroll" [.number (.int n) pos] pos') (.unroll n.toNat)
  /-- `j` -/
  | index {id : String} (hid : id ≠ "unroll") (pos : Option Pos) :
      Says (.name id pos) (.index (canonicalIndex id) none)
  /-- `j <= M` -/
  | upTo (id : String) (upper : Expr) (pos pos' : Option Pos) :
      Says (.compare [.name id pos, upper] pos') (.index (canonicalIndex id) (some (.between none upper)))
  /-- `N <= j <= M` -/
  | between (lower : Expr) (id : String) (upper : Expr) (pos pos' : Option Pos) :
      Says (.compare [lower, .name id pos, upper] pos')
        (.index (canonicalIndex id) (some (.between (some lower) upper)))
  /-- `init=1` -/
  | init (value : Expr) (pos : Option Pos) : Says (.keyword "init" value pos) (.init value)

/-! ## One item -/

namespace Partial

/-- What an item adds to what was read before it. -/
def take (p : Partial) : Item → Partial
  | .unroll width => { p with unrolling := some width }
  | .init value => { p with reduction := { p.reduction with init := some value } }
  | .index i bound =>
    let bounds := p.bounds ++ (bound.map (Prod.mk i)).toList
    match p.unrolling with
    | some width =>
      { p with bounds, reduction := { p.reduction with unrolled := p.reduction.unrolled ++ [(i, width)] } }
    | none => { p with bounds, reduction := { p.reduction with loops := p.reduction.loops ++ [i] } }

variable {site : Site} {p p' : Partial}

/-- An index is listed unless it is listed already. -/
theorem push_iff {i : String} {pos : Option Pos} : p.push site i pos = (p', none) ↔
    i ∉ p.reduction.order ∧ p' = p.take (.index i none) := by
  unfold push take
  dsimp only
  by_cases hi : i ∈ p.reduction.order
  · simp [hi]
  · cases p.unrolling <;> simp [hi, eq_comm]

theorem push_bound_iff {i : String} {axis : Axis} {pos : Option Pos} :
    push site { p with bounds := p.bounds ++ [(i, axis)] } i pos = (p', none) ↔
      i ∉ p.reduction.order ∧ p' = p.take (.index i (some axis)) := by
  rw [push_iff]
  unfold take
  dsimp only
  cases p.unrolling <;> simp

end Partial

theorem intLiteral?_eq_some_iff {e : Expr} {n : Int} :
    intLiteral? e = some n ↔ ∃ pos, e = .number (.int n) pos := by
  unfold intLiteral?
  constructor
  · intro h
    split at h
    · cases h
      exact ⟨_, rfl⟩
    · cases h
  · rintro ⟨pos, rfl⟩
    rfl

theorem unrollWidth?_eq_some_iff {args : List Expr} {width : Nat} : unrollWidth? args = some width ↔
    ∃ n pos, args = [.number (.int n) pos] ∧ 1 ≤ n ∧ width = n.toNat := by
  unfold unrollWidth?
  constructor
  · intro h
    split at h
    · split at h
      · rename_i n hn
        obtain ⟨pos, rfl⟩ := intLiteral?_eq_some_iff.1 hn
        split at h
        · cases h
          exact ⟨n, pos, rfl, ‹_›, rfl⟩
        · cases h
      · cases h
    · cases h
  · rintro ⟨n, pos, rfl, hn, rfl⟩
    simp [intLiteral?, hn]

theorem bound?_eq_some_iff {operands : List Expr} {i : String} {axis : Axis} (pos : Option Pos) :
    bound? operands = some (i, axis) ↔ Says (.compare operands pos) (.index i (some axis)) := by
  unfold bound?
  constructor
  · intro h
    split at h
    · cases h
      exact .upTo _ _ _ _
    · cases h
      exact .between _ _ _ _ _
    · cases h
  · intro h
    cases h <;> simp

/-- An item is read if it makes sense and lists no index for the second time; it adds what it says. -/
theorem Partial.item_iff {site : Site} {p p' : Partial} {e : Expr} : p.item site e = (p', none) ↔
    ∃ item, Says e item ∧ (∀ i, item.index? = some i → i ∉ p.reduction.order) ∧ p' = p.take item := by
  unfold Partial.item
  constructor
  · intro h
    split at h
    · split at h
      · rename_i hid
        obtain rfl := eq_of_beq hid
        cases h
        exact ⟨_, .unroll _, by simp [Item.index?], rfl⟩
      · rename_i hid
        obtain ⟨hnew, rfl⟩ := push_iff.1 h
        refine ⟨_, .index (by simpa using hid) _, fun i hi => ?_, rfl⟩
        cases hi
        exact hnew
    · split at h
      · rename_i hf
        obtain rfl := eq_of_beq hf
        split at h
        · rename_i width hwidth
          obtain ⟨n, pos, rfl, hn, rfl⟩ := unrollWidth?_eq_some_iff.1 hwidth
          cases h
          exact ⟨_, .width hn _ _, by simp [Item.index?], rfl⟩
        · cases h
      · cases h
    · split at h
      · rename_i pos i axis hbound
        obtain ⟨hnew, rfl⟩ := push_bound_iff.1 h
        refine ⟨_, (bound?_eq_some_iff _).1 hbound, fun j hj => ?_, rfl⟩
        cases hj
        exact hnew
      · cases h
    · split at h
      · rename_i hname
        obtain rfl := eq_of_beq hname
        cases h
        exact ⟨_, .init _ _, by simp [Item.index?], rfl⟩
      · cases h
    · cases h
  · rintro ⟨item, hspell, hnew, rfl⟩
    cases hspell with
    | unroll pos => rfl
    | width hn pos pos' => simp [unrollWidth?, intLiteral?, hn, take]
    | index hid pos =>
      simp only [beq_iff_eq, hid, if_false]
      exact push_iff.2 ⟨hnew _ rfl, rfl⟩
    | upTo id upper pos pos' => exact push_bound_iff.2 ⟨hnew _ rfl, rfl⟩
    | between lower id upper pos pos' =>
      simp only [(bound?_eq_some_iff _).2 (.between lower id upper pos pos')]
      exact push_bound_iff.2 ⟨hnew _ rfl, rfl⟩
    | init value pos => rfl

/-! ## All items -/

/-- What is known after some items. -/
structure Partial.Describes (op : String) (items : List Item) (p : Partial) : Prop where
  op_eq : p.reduction.op = op
  loops : p.reduction.loops = (items.takeWhile (!·.isUnroll)).filterMap Item.index?
  unrolled : p.reduction.unrolled.map Prod.fst = (items.dropWhile (!·.isUnroll)).filterMap Item.index?
  width : ∀ n i bound, items[n]? = some (.index i bound) →
    p.reduction.unrolled.lookup i = ((items.take n).filterMap Item.width?).getLast?
  init : p.reduction.init = (items.filterMap Item.init?).getLast?
  bounds : p.bounds = items.filterMap Item.bound?
  unrolling : p.unrolling = (items.filterMap Item.width?).getLast?

namespace Partial

variable {op : String} {items : List Item} {p : Partial}

theorem describes_start (op : String) : Describes op [] { reduction := { op := op } } where
  op_eq := rfl
  loops := rfl
  unrolled := rfl
  width n i bound h := by simp at h
  init := rfl
  bounds := rfl
  unrolling := rfl

theorem Describes.order (h : p.Describes op items) :
    p.reduction.order = items.filterMap Item.index? := by
  rw [Reduction.order, h.loops, h.unrolled, ← List.filterMap_append, List.takeWhile_append_dropWhile]

/-- Unrolling is off as long as no item turns it on. -/
theorem Describes.unrolling_eq_none_iff (h : p.Describes op items) :
    p.unrolling = none ↔ ∀ item ∈ items, (!item.isUnroll) = true := by
  rw [h.unrolling, List.getLast?_eq_none_iff, List.filterMap_eq_nil_iff]
  simp [Item.isUnroll]

/-- Where one more index goes: to the plain loops if unrolling is off. -/
theorem Describes.loops_append (h : p.Describes op items) (item : Item) :
    ((items ++ [item]).takeWhile (!·.isUnroll)).filterMap Item.index? =
      p.reduction.loops ++ if p.unrolling = none then item.index?.toList else [] := by
  split
  · rename_i hoff
    have hplain := h.unrolling_eq_none_iff.1 hoff
    rw [List.takeWhile_append_of_pos hplain, List.filterMap_append, h.loops, List.takeWhile_eq_self_iff.2 hplain]
    cases item <;> rfl
  · rename_i hon
    rw [h.unrolling_eq_none_iff] at hon
    rw [List.takeWhile_append, if_neg, h.loops, List.append_nil]
    intro hlength
    exact hon (List.takeWhile_eq_self_iff.1 ((List.takeWhile_prefix _).eq_of_length hlength))

theorem Describes.unrolled_append (h : p.Describes op items) (item : Item) :
    ((items ++ [item]).dropWhile (!·.isUnroll)).filterMap Item.index? =
      p.reduction.unrolled.map Prod.fst ++ if p.unrolling = none then [] else item.index?.toList := by
  split
  · rename_i hoff
    have hplain := h.unrolling_eq_none_iff.1 hoff
    rw [List.dropWhile_append_of_pos hplain, h.unrolled, List.dropWhile_eq_nil_iff.2 hplain]
    cases item <;> rfl
  · rename_i hon
    rw [h.unrolling_eq_none_iff] at hon
    rw [List.dropWhile_append, if_neg, List.filterMap_append, h.unrolled, List.filterMap_cons]
    · cases item <;> rfl
    · rwa [List.isEmpty_iff, List.dropWhile_eq_nil_iff]

/-- Indices that were listed before keep their width. -/
theorem Describes.width_append (h : p.Describes op items) {item : Item} (unrolled : List (String × Nat))
    (hnew : ∀ i, item.index? = some i → i ∉ p.reduction.order)
    (hkeep : ∀ i ∈ p.reduction.order, unrolled.lookup i = p.reduction.unrolled.lookup i)
    (hlast : ∀ i, item.index? = some i → unrolled.lookup i = p.unrolling) (n : Nat) (i : String)
    (bound : Option Axis) (hn : (items ++ [item])[n]? = some (.index i bound)) :
    unrolled.lookup i = (((items ++ [item]).take n).filterMap Item.width?).getLast? := by
  rcases Nat.lt_trichotomy n items.length with hlt | rfl | hgt
  · rw [List.getElem?_append_left hlt] at hn
    rw [List.take_append_of_le_length (Nat.le_of_lt hlt), ← h.width n i bound hn]
    refine hkeep i ?_
    rw [h.order]
    exact List.mem_filterMap.2 ⟨_, List.mem_of_getElem? hn, rfl⟩
  · rw [List.getElem?_concat_length] at hn
    cases hn
    rw [List.take_left', hlast i rfl, h.unrolling]
    rfl
  · rw [List.getElem?_eq_none (by simpa using Nat.succ_le_of_lt hgt)] at hn
    cases hn

/-- The step: an item adds what it says. -/
theorem Describes.take (h : p.Describes op items) {item : Item}
    (hnew : ∀ i, item.index? = some i → i ∉ p.reduction.order) :
    (p.take item).Describes op (items ++ [item]) := by
  have hloops := (h.loops_append item).symm
  have hunrolled := (h.unrolled_append item).symm
  have hwidth (unrolled : List (String × Nat)) := h.width_append unrolled hnew
  have hbounds : p.bounds ++ item.bound?.toList = (items ++ [item]).filterMap Item.bound? := by
    rw [List.filterMap_append, h.bounds]
    cases hb : item.bound? <;> simp [hb]
  have hlast {β : Type} (f : Item → Option β) : ((items ++ [item]).filterMap f).getLast? =
      (f item).or (items.filterMap f).getLast? := by simp
  have hinit := (hlast Item.init?).symm
  have hunrolling := (hlast Item.width?).symm
  rw [← h.init] at hinit
  rw [← h.unrolling] at hunrolling
  cases item with
  | unroll width =>
    simp only [Item.index?, Option.toList_none, ite_self, List.append_nil] at hloops hunrolled
    refine ⟨h.op_eq, hloops, hunrolled, hwidth _ (fun _ _ => rfl) (by simp [Item.index?]), hinit, ?_, hunrolling⟩
    simpa [Item.bound?, Partial.take] using hbounds
  | init value =>
    simp only [Item.index?, Option.toList_none, ite_self, List.append_nil] at hloops hunrolled
    refine ⟨h.op_eq, hloops, hunrolled, hwidth _ (fun _ _ => rfl) (by simp [Item.index?]), hinit, ?_, hunrolling⟩
    simpa [Item.bound?, Partial.take] using hbounds
  | index j bound =>
    have hj : j ∉ p.reduction.order := hnew j rfl
    have hfree : p.reduction.unrolled.lookup j = none := by
      rw [← Option.not_isSome_iff_eq_none, Env.lookup_isSome]
      exact fun hmem => hj (List.mem_append_right _ hmem)
    unfold Partial.take
    cases hmode : p.unrolling with
    | none =>
      rw [hmode] at hloops hunrolled hunrolling
      refine ⟨h.op_eq, hloops, by simpa using hunrolled, hwidth _ (fun _ _ => rfl) fun i hi => ?_, hinit,
        hbounds, hunrolling⟩
      cases hi
      rw [hfree, hmode]
    | some width =>
      rw [hmode] at hloops hunrolled hunrolling
      refine ⟨h.op_eq, by simpa using hloops, by simpa [Item.index?] using hunrolled,
        hwidth _ (fun i hi => ?_) fun i hi => ?_, hinit, hbounds, hunrolling⟩
      · have hne : i ≠ j := fun e => hj (e ▸ hi)
        rw [List.lookup_append, List.lookup_cons, beq_false_of_ne hne]
        simp
      · cases hi
        rw [List.lookup_append, hfree, hmode]
        simp

/-- The run: items that make sense and list no index twice are read to their end. -/
theorem Describes.read_items {site : Site} (h : p.Describes op items) {es : List Expr} {rest : List Item}
    (hspell : List.Forall₂ Says es rest) (hnodup : ((items ++ rest).filterMap Item.index?).Nodup) :
    ∃ p', p.items site es = (p', none) ∧ p'.Describes op (items ++ rest) := by
  induction hspell generalizing p items with
  | nil => exact ⟨p, rfl, by rwa [List.append_nil]⟩
  | @cons e item es rest he _ ih =>
    have hnew (i : String) (hi : item.index? = some i) : i ∉ p.reduction.order := by
      rw [List.filterMap_append, List.filterMap_cons_some hi] at hnodup
      rw [h.order]
      exact fun hmem => (List.nodup_append.1 hnodup).2.2 i hmem i (.head _) rfl
    rw [List.append_cons] at hnodup ⊢
    rw [Partial.items, item_iff.2 ⟨item, he, hnew, rfl⟩]
    exact ih (h.take hnew) hnodup

/-- Items that are read to their end make sense and list no index twice. -/
theorem Describes.says_items {site : Site} (h : p.Describes op items)
    (hnodup : (items.filterMap Item.index?).Nodup) {es : List Expr} {p' : Partial}
    (hes : p.items site es = (p', none)) :
    ∃ rest, List.Forall₂ Says es rest ∧ ((items ++ rest).filterMap Item.index?).Nodup := by
  induction es generalizing p items with
  | nil => exact ⟨[], .nil, by rwa [List.append_nil]⟩
  | cons e es ih =>
    rw [Partial.items] at hes
    rcases hitem : p.item site e with ⟨q, _ | err⟩
    · rw [hitem] at hes
      obtain ⟨item, he, hnew, rfl⟩ := item_iff.1 hitem
      have hnodup' : ((items ++ [item]).filterMap Item.index?).Nodup := by
        rw [List.filterMap_append]
        cases hi : item.index? with
        | none => simpa [hi] using hnodup
        | some i =>
          have := hnew i hi
          rw [h.order] at this
          rw [List.filterMap_cons_some hi, List.filterMap_nil]
          exact List.nodup_append.2 ⟨hnodup, List.nodup_singleton i, fun a ha b hb e => by
            obtain rfl := List.mem_singleton.1 hb
            exact this (e ▸ ha)⟩
      obtain ⟨rest, hrest, hall⟩ := ih (h.take hnew) hnodup' hes
      exact ⟨item :: rest, .cons he hrest, by rwa [List.append_cons]⟩
    · simp [hitem] at hes

end Partial

theorem Says.unique {e : Expr} {a b : Item} (ha : Says e a) (hb : Says e b) : a = b := by
  cases ha <;> cases hb <;> first | rfl | contradiction

/-- A clause that is read gives what its items give, and notes whether indices are listed. -/
theorem read_eq_iff {source : String} {clause : ReductionClause} {p : Partial} :
    read source (some clause) = (p, none) ↔ clause.op ∉ rejected ∧ ∃ q,
      Partial.items ⟨source, clause.source⟩ { reduction := { op := clause.op } } clause.items = (q, none) ∧
      p = { q with reduction := { q.reduction with explicit := !q.reduction.order.isEmpty } } := by
  unfold read
  dsimp only
  by_cases hop : clause.op ∈ rejected
  · simp [hop]
  · rcases Partial.items ⟨source, clause.source⟩ { reduction := { op := clause.op } } clause.items with ⟨q, _ | e⟩
    · simp [hop, eq_comm]
    · simp [hop]

/-- A clause is read exactly if its operator is one for reductions, its items make sense, and no index
is listed twice. -/
theorem read_iff (source : String) {clause : ReductionClause} :
    (∃ p, read source (some clause) = (p, none)) ↔ clause.op ∉ rejected ∧
      ∃ items, List.Forall₂ Says clause.items items ∧ (items.filterMap Item.index?).Nodup := by
  have hstart := Partial.describes_start clause.op
  constructor
  · rintro ⟨p, h⟩
    obtain ⟨hop, q, hitems, -⟩ := read_eq_iff.1 h
    exact ⟨hop, hstart.says_items List.nodup_nil hitems⟩
  · rintro ⟨hop, items, hspell, hnodup⟩
    obtain ⟨q, hitems, -⟩ := hstart.read_items hspell hnodup
    exact ⟨_, read_eq_iff.2 ⟨hop, q, hitems, rfl⟩⟩

/-- What is read is what the items say. -/
theorem read_describes {source : String} {clause : ReductionClause} {p : Partial}
    (h : read source (some clause) = (p, none)) {items : List Item} (hspell : List.Forall₂ Says clause.items items) :
    p.Describes clause.op items ∧ (items.filterMap Item.index?).Nodup ∧
      (p.reduction.explicit = true ↔ ∃ i, i ∈ items.filterMap Item.index?) := by
  have hstart := Partial.describes_start clause.op
  obtain ⟨-, q, hitems, rfl⟩ := read_eq_iff.1 h
  obtain ⟨items', hspell', hnodup⟩ := hstart.says_items List.nodup_nil hitems
  obtain rfl : items = items' := Relator.RightUnique.forall₂ (R := Says) (fun _ _ _ => Says.unique) hspell hspell'
  obtain ⟨q', hitems', hq⟩ := hstart.read_items hspell hnodup
  obtain rfl : q = q' := (Prod.mk.inj (hitems.symm.trans hitems')).1
  refine ⟨⟨hq.op_eq, hq.loops, hq.unrolled, hq.width, hq.init, hq.bounds, hq.unrolling⟩, hnodup, ?_⟩
  have horder : q.reduction.order = items.filterMap Item.index? := hq.order
  rw [horder]
  cases items.filterMap Item.index? <;> simp

end Reduction

/-! ## The schedule -/

namespace Kernel

/-- Reading succeeds if the clause can be read, and gives the catalog of its bounds. -/
theorem exec_readReduction_of_read {s : Statement} {p : Reduction.Partial}
    (h : Reduction.read s.source s.reduction = (p, none)) (log : Log) :
    (exec (readReduction s) log).1 = .ok (p.reduction, Catalog.empty.bindAll p.bounds) := by
  simp only [readReduction, h]
  cases s.reduction <;> rfl

/-- **The schedule of a clause.** Reading a reduction clause succeeds exactly if its operator is one for
reductions, all its items make sense and no index is listed twice. Then the loops are those of the
listed indices in their order: plain ones up to the first item that unrolls, unrolled ones after it,
each with the width of the last such item before it. The last start value counts, and exactly the
indices with bounds have axes so far, those of their bounds. -/
theorem readReduction_lists (s : Statement) (clause : ReductionClause) (log : Log) :
    let read := (exec (readReduction { s with reduction := some clause }) log).1
    ((∃ r, read = .ok r) ↔ clause.op ∉ ["-", "/", "//", "%"] ∧
      ∃ items, List.Forall₂ Reduction.Says clause.items items ∧ (items.filterMap Item.index?).Nodup) ∧
    ∀ r c items, read = .ok (r, c) → List.Forall₂ Reduction.Says clause.items items →
      r.op = clause.op ∧
      r.order = items.filterMap Item.index? ∧
      r.loops = (items.takeWhile (!·.isUnroll)).filterMap Item.index? ∧
      r.unrolled.map Prod.fst = (items.dropWhile (!·.isUnroll)).filterMap Item.index? ∧
      (∀ n i bound, items[n]? = some (.index i bound) →
        r.unrolled.lookup i = ((items.take n).filterMap Item.width?).getLast?) ∧
      r.init = (items.filterMap Item.init?).getLast? ∧
      (r.explicit = true ↔ ∃ i, i ∈ items.filterMap Item.index?) ∧
      c.axes = items.filterMap Item.bound? ∧ c.checks = [] := by
  intro read
  have hread (r : Reduction × Catalog) : read = .ok r ↔ ∃ p,
      Reduction.read s.source (some clause) = (p, none) ∧ r = (p.reduction, Catalog.empty.bindAll p.bounds) := by
    constructor
    · intro h
      obtain ⟨p, hp, hr, hc⟩ := readReduction_eq_ok (r := r.1) (c := r.2) (Prod.ext h rfl)
      exact ⟨p, hp, Prod.ext hr hc⟩
    · rintro ⟨p, hp, rfl⟩
      exact exec_readReduction_of_read hp log
  refine ⟨?_, fun r c items h hspell => ?_⟩
  · refine Iff.trans ?_ (Reduction.read_iff s.source)
    constructor
    · rintro ⟨r, hr⟩
      obtain ⟨p, hp, -⟩ := (hread r).1 hr
      exact ⟨p, hp⟩
    · rintro ⟨p, hp⟩
      exact ⟨_, (hread _).2 ⟨p, hp, rfl⟩⟩
  · obtain ⟨p, hp, heq⟩ := (hread _).1 h
    obtain ⟨rfl, rfl⟩ := Prod.mk.inj heq
    obtain ⟨hdescribes, -, hexplicit⟩ := Reduction.read_describes hp hspell
    have hsound := (Reduction.sound_of_read hp).1
    rw [Catalog.bindAll_of_nodup hsound.bounds_nodup]
    exact ⟨hdescribes.op_eq, hdescribes.order, hdescribes.loops, hdescribes.unrolled, hdescribes.width,
      hdescribes.init, hexplicit, hdescribes.bounds, rfl⟩

/-- A statement with nothing in it. -/
def blankStatement : Statement := ⟨⟨none, [], none⟩, .define, .hole, none, none, "", none⟩

/-- `(f, j, unroll(4), k <= 9, init=2, unroll, l', init=1)` -/
def mixedClause : ReductionClause where
  op := "f"
  items := [.name "j" none, .call "unroll" [.number (.int 4) none] none,
    .compare [.name "k" none, .number (.int 9) none] none, .keyword "init" (.number (.int 2) none) none,
    .name "unroll" none, .name "l\x27" none, .keyword "init" (.number (.int 1) none) none]
  source := ""
  pos := none

/-- All kinds of items, with two that unroll and two start values. -/
theorem readReduction_lists_mixed : ∃ r c,
    (exec (readReduction { blankStatement with reduction := some mixedClause }) []).1 = .ok (r, c) ∧
    r.order = ["j", "k", "l′"] ∧ r.loops = ["j"] ∧ r.unrolled.lookup "k" = some 4 ∧
    r.unrolled.lookup "l′" = some 0 ∧ r.init = some (.number (.int 1) none) ∧
    c.axes = [("k", .between none (.number (.int 9) none))] := by
  have hcanonical : canonicalIndex "j" = "j" ∧ canonicalIndex "k" = "k" ∧ canonicalIndex "l\x27" = "l′" := by
    decide +kernel
  have hspell : List.Forall₂ Reduction.Says mixedClause.items [.index "j" none, .unroll 4,
      .index "k" (some (.between none (.number (.int 9) none))), .init (.number (.int 2) none), .unroll 0,
      .index "l′" none, .init (.number (.int 1) none)] := by
    rw [← hcanonical.1, ← hcanonical.2.1, ← hcanonical.2.2]
    exact .cons (.index (by decide) _) (.cons (.width (by decide) _ _) (.cons (.upTo _ _ _ _) (.cons (.init _ _)
      (.cons (.unroll _) (.cons (.index (by decide) _) (.cons (.init _ _) .nil))))))
  obtain ⟨hiff, hlists⟩ := readReduction_lists blankStatement mixedClause []
  obtain ⟨⟨r, c⟩, h⟩ := hiff.2 ⟨by decide, _, hspell, by decide⟩
  obtain ⟨-, horder, hloops, -, hwidth, hinit, -, haxes, -⟩ := hlists r c _ h hspell
  exact ⟨r, c, h, horder, hloops, hwidth 2 "k" _ rfl, hwidth 5 "l′" _ rfl, hinit, haxes⟩

end Kernel
end IndexNotation
