import IndexNotation.Proofs.Preparation

/-!
# The cells of the left-hand side

The left-hand side says where a value is stored: every entry is an index, which gives its value, or
an integer. All indices of the output occur in it, so different values of them are different cells
of an array that does not overlap itself. A new array has a cell for all of them.
-/

namespace IndexNotation

open Run (exec)

/-- Every cell of an array is one place of its block. -/
structure View.Solid (a : View) (h : Heap) : Prop where
  exists_block : a.block < h.size
  nodup : a.places.Nodup
  bounds : ∀ p ∈ a.places, p < (h.block a.block).size

theorem View.Solid.place_inj {a : View} {h : Heap} (ha : a.Solid h) {keys keys' : List Int} {p : Nat}
    (hp : a.place keys = some p) (hp' : a.place keys' = some p)
    (hkeys : List.Forall₂ (fun k k' => k = k' ∨ 0 ≤ k ∧ 0 ≤ k') keys keys') : keys = keys' := by
  obtain ⟨steps, hsteps, hp⟩ := Option.map_eq_some_iff.1 hp
  obtain ⟨steps', hsteps', hp'⟩ := Option.map_eq_some_iff.1 hp'
  exact IndexNotation.place_inj ha.nodup hsteps hsteps' hkeys (hp.trans hp'.symm)

theorem View.Solid.place_lt {a : View} {h : Heap} (ha : a.Solid h) {keys : List Int} {p : Nat}
    (hp : a.place keys = some p) : p < (h.block a.block).size := by
  obtain ⟨steps, hsteps, rfl⟩ := Option.map_eq_some_iff.1 hp
  exact ha.bounds _ (mem_places _ hsteps)

theorem View.Solid.mono {a : View} {w w' : World} (ha : a.Solid w.heap) (h : w.Keeps w') :
    a.Solid w'.heap :=
  ⟨Nat.lt_of_lt_of_le ha.exists_block h.1, ha.nodup, by
    rw [h.2 _ ha.exists_block]
    exact ha.bounds⟩

theorem Kernel.Fresh.solid {a : View} {shape : List Nat} {w w' : World} (h : Fresh a shape w w') :
    a.Solid w'.heap := by
  have hplaces : a.places = List.range' 0 (cellCount shape) := by
    rw [View.places, h.shape_eq, h.strides, h.offset]
    exact places_rowMajor shape 0
  refine ⟨h.exists_block, ?_, fun p hp => ?_⟩
  · rw [hplaces]
    exact List.nodup_range'
  · rw [hplaces] at hp
    rw [h.blank, List.size_toArray, List.length_replicate]
    have := List.mem_range'_1.1 hp
    omega

namespace Kernel

/-- The position that an entry of the left-hand side stands for. -/
def position (env : Env) : Expr → Int
  | .name id _ => (env.lookup id).getD 0
  | .number (.int n) _ => n
  | _ => 0

/-- The positions of the cell that the left-hand side has for values of the indices. -/
def positions (k : Kernel) (env : Env) : List Int :=
  k.statement.target.indices.map (position env)

/-- The extent of a new array along an entry of the left-hand side. -/
def extent (rs : Ranges) : Expr → Nat
  | .name id _ => (rs.get id).length
  | _ => 1

theorem mem_outputIndices {k : Kernel} {i : String} :
    i ∈ k.outputIndices ↔ ∃ pos, .name i pos ∈ k.statement.target.indices := by
  change i ∈ (symbolNames k.statement.target.indices).eraseDups ↔ _
  rw [List.mem_eraseDups, symbolNames, List.mem_filterMap]
  constructor
  · rintro ⟨e, he, hname⟩
    cases e <;> cases hname
    exact ⟨_, he⟩
  · rintro ⟨pos, hpos⟩
    exact ⟨_, hpos, rfl⟩

theorem nodup_outputIndices (k : Kernel) : k.outputIndices.Nodup := nodup_eraseDups _

/-- The cell depends on the output indices only. -/
theorem positions_congr {k : Kernel} {env env' : Env}
    (h : env.cell k.outputIndices = env'.cell k.outputIndices) : k.positions env = k.positions env' := by
  refine List.map_congr_left fun e he => ?_
  cases e with
  | name i pos =>
    have hi := mem_outputIndices.2 ⟨pos, he⟩
    exact List.map_inj_left.1 h i hi
  | number l pos => cases l <;> rfl
  | _ => rfl

/-- Different values of the output indices are different cells. -/
theorem cell_eq_of_positions_eq {k : Kernel} {env env' : Env} (h : k.positions env = k.positions env') :
    env.cell k.outputIndices = env'.cell k.outputIndices := by
  refine List.map_congr_left fun i hi => ?_
  obtain ⟨pos, hpos⟩ := mem_outputIndices.1 hi
  exact List.map_inj_left.1 h _ hpos

namespace Planned

variable {k : Kernel} {read : Reduction.Partial} (h : k.Planned read)

include h

theorem entry_cases {e : Expr} (he : e ∈ k.statement.target.indices) :
    (∃ i pos, e = .name i pos) ∨
      ∃ n pos, e = .number (.int n) pos ∧ (k.statement.allocates → n = 0) := by
  have hcheck : checkEntry k.statement e = .ok () := by
    have htarget := h.target
    unfold checkTarget at htarget
    generalize k.statement.target.indices = es at htarget he
    induction es with
    | nil => simp at he
    | cons e' es ih =>
      obtain ⟨_, hhead, htail⟩ := bind_eq_ok htarget
      rcases List.mem_cons.1 he with rfl | he
      · exact hhead
      · exact ih htail he
  unfold checkEntry at hcheck
  split at hcheck
  · exact .inl ⟨_, _, rfl⟩
  · rename_i n pos
    refine .inr ⟨n, pos, rfl, fun hs => ?_⟩
    split at hcheck
    · simp at hcheck
    · rename_i hn
      simpa [hs] using hn
  · simp at hcheck

theorem keys_eq (env : Env) : k.keys env = (k.positions env).map .int := by
  rw [keys, positions, List.map_map]
  refine List.map_congr_left fun e he => ?_
  rcases h.entry_cases he with ⟨i, pos, rfl⟩ | ⟨n, pos, rfl, -⟩ <;> rfl

/-- A value that is stored is converted and put at its place. -/
theorem store_eq_ok {scope : Scope} {s : Setup} {a : View} (hout : s.out = .array a)
    (hrank : k.statement.target.indices.length = a.shape.length) {c : Env} {v : Value} {u u' : World}
    (hv : exec ((s.machine k scope).store c v) u = (.ok ⟨⟩, u')) :
    ∃ p cell, a.place (k.positions c) = some p ∧ a.type.accept u.heap v = .ok cell ∧
      u'.heap = u.heap.modify a.block (·.setIfInBounds p cell) := by
  have hv : exec (s.out.set (k.keys c) v) u = (.ok ⟨⟩, u') := hv
  rw [hout, h.keys_eq, Value.exec_set_ints (by simp [positions, hrank])] at hv
  cases hplace : a.place (k.positions c) with
  | none => simp [hplace] at hv
  | some p =>
    cases haccept : a.type.accept u.heap v with
    | error f => simp [hplace, haccept] at hv
    | ok cell =>
      simp only [hplace, haccept, Prod.mk.injEq, true_and] at hv
      exact ⟨p, cell, rfl, rfl, by rw [← hv]⟩

/-- Where nothing can be stored, nothing changes. -/
theorem store_eq_error {scope : Scope} {s : Setup} {a : View} (hout : s.out = .array a)
    (hrank : k.statement.target.indices.length = a.shape.length) {c : Env} {v : Value} {u u' : World}
    {e : Error} (hv : exec ((s.machine k scope).store c v) u = (.error e, u')) : u' = u := by
  have hv : exec (s.out.set (k.keys c) v) u = (.error e, u') := hv
  rw [hout, h.keys_eq, Value.exec_set_ints (by simp [positions, hrank])] at hv
  cases hplace : a.place (k.positions c) with
  | none =>
    rw [hplace] at hv
    exact (congrArg Prod.snd hv).symm
  | some p =>
    rw [hplace] at hv
    cases haccept : a.type.accept u.heap v with
    | error f =>
      rw [haccept] at hv
      exact (congrArg Prod.snd hv).symm
    | ok cell => simp [haccept] at hv

variable {scope : Scope} {w : World} {rs : Ranges}
  (hrs : k.analysis.catalog.Resolved scope k.analysis.indexNames w rs)

include hrs

/-- Values of the output indices are not negative, so cells can be compared by their positions. -/
theorem comparable {env env' : Env} (henv : env.Covers rs k.outputIndices)
    (henv' : env'.Covers rs k.outputIndices) :
    List.Forall₂ (fun k k' => k = k' ∨ 0 ≤ k ∧ 0 ≤ k') (k.positions env) (k.positions env') := by
  have hpos {env : Env} (henv : env.Covers rs k.outputIndices) {i : String} (hi : i ∈ k.outputIndices) :
      0 ≤ (env.lookup i).getD 0 := by
    obtain ⟨v, hv, hmem⟩ := henv.lookup hi
    obtain ⟨n, hn⟩ := h.range_of_output hrs hi
    rw [hn, Range.mem_upTo] at hmem
    rw [hv]
    exact hmem.1
  rw [positions, positions, List.forall₂_map_left_iff, List.forall₂_map_right_iff,
    List.forall₂_same]
  intro e he
  rcases h.entry_cases he with ⟨i, pos, rfl⟩ | ⟨n, pos, rfl, -⟩
  · have hi := mem_outputIndices.2 ⟨pos, he⟩
    exact .inr ⟨hpos henv hi, hpos henv' hi⟩
  · exact .inl rfl

/-- Different values of the output indices have different places. -/
theorem place_ne {a : View} {heap : Heap} (ha : a.Solid heap) {c c' : Env}
    (hc : c ∈ rs.points k.outputIndices) (hc' : c' ∈ rs.points k.outputIndices) (hne : c ≠ c') (p : Nat)
    (hp : a.place (k.positions c) = some p) : a.place (k.positions c') ≠ some p := by
  intro hp'
  have hpositions := ha.place_inj hp hp' (h.comparable hrs (Ranges.covers_of_mem_points hc)
    (Ranges.covers_of_mem_points hc'))
  exact hne (Ranges.eq_of_cell_eq k.nodup_outputIndices hc hc' (cell_eq_of_positions_eq hpositions))

/-- A new array has a cell for all values of the output indices. -/
theorem exists_place (hs : k.statement.allocates = true) {a : View} {w₀ w₁ : World}
    (ha : Fresh a (k.newShape rs) w₀ w₁) {env : Env} (henv : env.Covers rs k.outputIndices) :
    ∃ p, a.place (k.positions env) = some p := by
  refine View.exists_place (by rw [ha.strides, ha.shape_eq, length_rowMajor]) ?_
  change List.Forall₂ _ (k.statement.target.indices.map (position env)) _
  rw [ha.shape_eq, show k.newShape rs = k.statement.target.indices.map (extent rs) from rfl,
    List.forall₂_map_left_iff, List.forall₂_map_right_iff, List.forall₂_same]
  intro e he
  rcases h.entry_cases he with ⟨i, pos, rfl⟩ | ⟨n, pos, rfl, hn⟩
  · have hi := mem_outputIndices.2 ⟨pos, he⟩
    obtain ⟨v, hv, hmem⟩ := henv.lookup hi
    obtain ⟨n, hn⟩ := h.range_of_output hrs hi
    rw [hn, Range.mem_upTo] at hmem
    simp only [position, hv, extent, hn, Range.length_upTo, Option.getD_some]
    omega
  · simp [position, extent, hn hs]

end Planned
end Kernel
end IndexNotation
