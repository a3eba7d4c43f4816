import IndexNotation.Proofs.Sums

/-!
# Indices into nested lists

A list of lists is measured level by level: dimension `d` of it has as many positions as its first
item at depth `d`. An index in a second bracket runs over the first item of what stands in front of
the first bracket, however many indices the first bracket has. So it runs over the second level of
the list, and only after a bracket with a single index is this the level that it stands for.
-/

namespace IndexNotation

open Run (exec)

namespace Value

/-- A list of lists to some depth, with items `lengths` many at its levels. Nothing is said about the
items of the last level. -/
def Nested (h : Heap) (v : Value) : List Nat → Prop
  | [] => True
  | n :: lengths => ∃ b, v = .list b ∧ (h.block b).size = n ∧ ∀ x ∈ (h.block b).toList, x.Nested h lengths

section

variable {v : Value} {w : World} {n : Nat} {lengths : List Nat}

theorem exec_first_of_nested (h : v.Nested w.heap (n :: lengths)) (hn : 0 < n) :
    ∃ x, exec v.first w = (.ok x, w) ∧ x.Nested w.heap lengths := by
  obtain ⟨b, rfl, hsize, hitems⟩ := h
  cases hblock : (w.heap.block b).toList with
  | nil =>
    rw [← Array.length_toList, hblock] at hsize
    exact absurd hsize (Nat.ne_of_lt hn)
  | cons x xs =>
    refine ⟨x, ?_, hitems x (by simp [hblock])⟩
    have hflat : exec (field? (.list b) "flat") w = (.ok Option.none, w) := rfl
    rw [first, Run.exec_bind_ok hflat, Run.exec_bind_ok (Run.exec_heap w)]
    simp only [sequence?, hblock]
    rfl

/-- The outermost dimension of a list. -/
theorem exec_axisRange_of_nested (h : v.Nested w.heap (n :: lengths)) :
    exec (v.axisRange 0) w = (.ok (.upTo n), w) := by
  obtain ⟨b, rfl, hsize, -⟩ := h
  have hshape : exec (field? (.list b) "shape") w = (.ok Option.none, w) := rfl
  have hfirst : exec ((List.range 0).foldlM (fun v _ => first v) (.list b)) w = (.ok (.list b), w) := rfl
  rw [axisRange, Run.exec_bind_ok hshape, Run.exec_bind_ok hfirst, Run.exec_bind_ok (Run.exec_heap w), ← hsize]
  rfl

theorem exec_item_of_nested (h : v.Nested w.heap (n :: lengths)) {k : Int} (hk : 0 ≤ k ∧ k < n) :
    ∃ x, exec (v.item (.int k)) w = (.ok x, w) ∧ x.Nested w.heap lengths := by
  obtain ⟨b, rfl, rfl, hitems⟩ := h
  have hlt : k.toNat < (w.heap.block b).toList.length := by
    rw [Array.length_toList]
    omega
  refine ⟨(w.heap.block b).toList[k.toNat], ?_, hitems _ (List.getElem_mem hlt)⟩
  rw [item, Run.exec_bind_ok (Run.exec_heap w)]
  simp [itemOf, position?, resolvePosition, hk.1, hk.2, Except.mapError, List.getD_eq_getElem?_getD,
    Int.toNat_lt hk.1]

/-- Positions at the outer levels lead to an item at the level below. -/
theorem exec_get_of_nested {outer : List Nat} (h : v.Nested w.heap (outer ++ lengths)) {keys : List Int}
    (hkeys : List.Forall₂ (fun (k : Int) (d : Nat) => 0 ≤ k ∧ k < d) keys outer) (hne : outer ≠ []) :
    ∃ x, exec (v.get (keys.map .int)) w = (.ok x, w) ∧ x.Nested w.heap lengths := by
  have hget : v.get (keys.map .int) = v.items (keys.map .int) := by
    obtain _ | ⟨d, outer⟩ := outer
    · exact absurd rfl hne
    · obtain ⟨b, rfl, -⟩ := h
      rfl
  rw [hget]
  clear hget hne
  induction hkeys generalizing v with
  | nil => exact ⟨v, rfl, h⟩
  | @cons k d keys outer hk _ ih =>
    obtain ⟨x, hx, hnested⟩ := exec_item_of_nested h hk
    obtain ⟨y, hy, hrest⟩ := ih hnested
    refine ⟨y, ?_, hrest⟩
    rw [List.map_cons, items, List.foldlM_cons, Run.exec_bind_ok hx]
    exact hy

end

end Value

namespace Reference

variable {name : String} {keys : List String} {base : Expr}

/-- Behind a bracket with names in it, the first item is measured. -/
theorem axes_after_bracket (hbase : base.Reads name keys) (hkeys : keys ≠ []) (i : String) (pos : Option Pos) :
    ∃ pos', (ofIndex base [.name i pos]).axes = [(i, .array (.first (.name name pos') none) 0)] := by
  obtain ⟨pos', entries, pos'', rfl, hentries⟩ := hbase
  refine ⟨pos', ?_⟩
  have hnamed : entries.any Expr.mentionsName = true := by
    obtain _ | ⟨key, keys⟩ := keys
    · exact absurd rfl hkeys
    obtain _ | ⟨entry, entries⟩ := entries
    · cases hentries
    obtain ⟨_, rfl⟩ := Expr.eq_name_of_name? (List.cons.inj hentries).1
    rfl
  simp [axes, ofIndex, axesFrom, Expr.axisSource, hnamed]

/-- The range of an index `i` in `X[k, …][i]`, where the levels of the nested list `X` have `ds` and
then `p` items. All items that `X[k, …]` can be have `p` positions. The range is that of the second
level, so these are the values of `i` if the first bracket has one index or the second level has `p`
items too, and not otherwise. -/
theorem range_after_bracket {scope : Scope} {indices : List String} (hname : name ∉ indices) {v : Value}
    (hlookup : scope.lookup name = .ok v) {w : World} {ds : List Nat} {p : Nat}
    (hnested : v.Nested w.heap (ds ++ [p])) (hds : ∀ d ∈ ds, 0 < d) (hne : ds ≠ [])
    (hbase : base.Reads name keys) (hlen : keys.length = ds.length) (i : String) (pos : Option Pos) :
    ∃ axis r, (ofIndex base [.name i pos]).axes = [(i, axis)] ∧
      exec (axis.resolve scope indices) w = (.ok r, w) ∧ r = .upTo (ds.getD 1 p) ∧
      (r = .upTo p ↔ ds.length = 1 ∨ ds[1]? = some p) ∧
      ∀ ks : List Int, List.Forall₂ (fun (k : Int) (d : Nat) => 0 ≤ k ∧ k < d) ks ds →
        ∃ x, exec (v.get (ks.map .int)) w = (.ok x, w) ∧ exec (x.axisRange 0) w = (.ok (.upTo p), w) := by
  have hkeys : keys ≠ [] := fun e => hne (List.length_eq_zero_iff.1 (by rw [← hlen, e]; rfl))
  obtain ⟨pos', haxes⟩ := axes_after_bracket hbase hkeys i pos
  refine ⟨_, _, haxes, ?_, rfl, ?_, fun ks hks => ?_⟩
  · obtain ⟨rest, hlengths⟩ : ∃ rest, ds ++ [p] = ds.headD 0 :: ds.getD 1 p :: rest := by
      obtain _ | ⟨d, _ | ⟨d', ds⟩⟩ := ds
      · exact absurd rfl hne
      · exact ⟨[], rfl⟩
      · exact ⟨ds ++ [p], rfl⟩
    have hhead : 0 < ds.headD 0 := by
      obtain _ | ⟨d, ds⟩ := ds
      · exact absurd rfl hne
      · exact hds d (.head _)
    rw [hlengths] at hnested
    obtain ⟨x, hx, hinner⟩ := Value.exec_first_of_nested hnested hhead
    have hcode : (Expr.first (.name name pos') none).resolve scope indices = .ok (.first (.value v)) := by
      have hfree : indices.contains name = false := by simpa using hname
      simp only [Expr.resolve, hfree, hlookup]
      rfl
    have heval : exec ((Expr.first (.name name pos') none).eval scope indices []) w = (.ok x, w) := by
      rw [Expr.eval, hcode]
      exact hx
    rw [Axis.resolve, Run.exec_bind_ok heval]
    exact Value.exec_axisRange_of_nested hinner
  · obtain _ | ⟨d, _ | ⟨d', ds⟩⟩ := ds
    · exact absurd rfl hne
    · simp
    · simp [Range.upTo]
  · obtain ⟨x, hx, hlast⟩ := Value.exec_get_of_nested hnested hks hne
    exact ⟨x, hx, Value.exec_axisRange_of_nested hlast⟩

/-- One table of two rows and three columns, as a list of lists of lists. -/
def tables : Scope := { bindings := [("X", .list 3)] }

def tablesWorld : World :=
  { heap := #[#[.int 1, .int 2, .int 3], #[.int 4, .int 5, .int 6], #[.list 0, .list 1], #[.list 2]] }

theorem nested_tables : (Value.list 3).Nested tablesWorld.heap [1, 2, 3] := by
  simp [Value.Nested, tablesWorld, Heap.block]

theorem range_after_bracket_tables :
    ∃ axis, (ofIndex (.index (.name "X" none) [.name "i" none, .name "j" none] none)
        [.name "n" none]).axes = [("n", axis)] ∧
      exec (axis.resolve tables ["i", "j", "n"]) tablesWorld = (.ok (.upTo 2), tablesWorld) ∧
      ∃ x, exec ((Value.list 3).get [.int 0, .int 1]) tablesWorld = (.ok x, tablesWorld) ∧
        exec (x.axisRange 0) tablesWorld = (.ok (.upTo 3), tablesWorld) := by
  have hnested : (Value.list 3).Nested tablesWorld.heap ([1, 2] ++ [3]) := nested_tables
  have hbase : (Expr.index (.name "X" none) [.name "i" none, .name "j" none] none).Reads "X" ["i", "j"] :=
    ⟨none, _, none, rfl, rfl⟩
  obtain ⟨axis, r, haxes, hr, hrange, -, helements⟩ := range_after_bracket
    (by decide : "X" ∉ ["i", "j", "n"]) (rfl : tables.lookup "X" = .ok (.list 3)) hnested (by decide)
    (by decide) hbase rfl "n" none
  exact ⟨axis, haxes, hr.trans (by rw [hrange]; rfl), helements [0, 1] (by simp)⟩

end Reference

namespace Kernel

open Reference (tables tablesWorld nested_tables)

/-- In `X[i, j][n]` the index `n` stands for the three columns, but it runs over the two rows. -/
theorem range_of_columns :
    (Value.list 3).Nested tablesWorld.heap [1, 2, 3] ∧
    ∃ k rs, Compiles {} "A[i] := X[i, j][n]" k ∧
      (exec (k.analysis.catalog.ranges tables k.analysis.indexNames) tablesWorld).1 = .ok rs ∧
      rs.get "j" = .upTo 2 ∧ rs.get "n" = .upTo 2 := by
  refine ⟨nested_tables, ?_⟩
  obtain ⟨k, hk, hcheck⟩ := exists_compiles {} "A[i] := X[i, j][n]"
    (fun k => (exec (k.analysis.catalog.ranges tables k.analysis.indexNames) tablesWorld).1.toOption.any
      fun rs => rs.get "j" == .upTo 2 && rs.get "n" == .upTo 2) (by decide +kernel)
  obtain ⟨rs, w', hrs, hboth⟩ := Run.exists_of_any hcheck
  exact ⟨k, rs, hk, by rw [hrs], by simpa using hboth⟩

end Kernel

end IndexNotation
