import IndexNotation.Proofs.Axes
import IndexNotation.Proofs.Layout

/-!
# References and the ranges of their indices

Every bracket of the right-hand side, however deep it stands, is collected, and every plain name in
it has its axis in the catalog. Written bounds are bounds of reduction indices, so an index of the
left-hand side always runs from zero.
-/

namespace IndexNotation

open Run (exec Yields Determined)

/-- A bracket with the keys `keys` after `base` stands in an expression. -/
inductive Expr.Refers (base : Expr) (keys : List Expr) : Expr → Prop where
  | here (pos : Option Pos) : Refers base keys (.index base keys pos)
  | base {b : Expr} (is : List Expr) (pos : Option Pos) : Refers base keys b →
      Refers base keys (.index b is pos)
  | key {e : Expr} (b : Expr) {is : List Expr} (pos : Option Pos) : e ∈ is → Refers base keys e →
      Refers base keys (.index b is pos)
  | field {b : Expr} (name : String) (pos : Option Pos) : Refers base keys b →
      Refers base keys (.field b name pos)
  | arg {e : Expr} (f : String) {args : List Expr} (pos : Option Pos) : e ∈ args →
      Refers base keys e → Refers base keys (.call f args pos)
  | left {l : Expr} (op : BinaryOp) (r : Expr) (pos : Option Pos) : Refers base keys l →
      Refers base keys (.binary l op r pos)
  | right (l : Expr) (op : BinaryOp) {r : Expr} (pos : Option Pos) : Refers base keys r →
      Refers base keys (.binary l op r pos)
  | operand (op : UnaryOp) {e : Expr} (pos : Option Pos) : Refers base keys e →
      Refers base keys (.unary op e pos)

theorem Expr.mem_allReferences {r : Reference} {e : Expr} {es : List Expr} (he : e ∈ es)
    (hr : r ∈ e.references) : r ∈ references.allReferences es := by
  induction es with
  | nil => simp at he
  | cons e' es ih =>
    rw [references.allReferences, List.mem_append]
    rcases List.mem_cons.1 he with rfl | he
    · exact .inl hr
    · exact .inr (ih he)

/-- Every bracket is collected. -/
theorem Expr.Refers.mem_references {base : Expr} {keys : List Expr} {e : Expr}
    (h : Refers base keys e) : Reference.ofIndex base keys ∈ e.references := by
  induction h with
  | here pos => simp [references]
  | base is pos _ ih => simp [references, ih]
  | key b pos he _ ih => simp [references, mem_allReferences he ih]
  | field name pos _ ih => simpa [references] using ih
  | arg f pos he _ ih => simpa [references] using mem_allReferences he ih
  | left op r pos _ ih => simp [references, ih]
  | right l op pos _ ih => simp [references, ih]
  | operand op pos _ ih => simpa [references] using ih

theorem Reference.mem_axesFrom (source : Expr) (dim : Nat) {d : Nat} {es : List Expr} {i : String}
    {pos : Option Pos} (h : es[d]? = some (.name i pos)) :
    (i, .array source (dim + d)) ∈ axesFrom source dim es := by
  induction es generalizing dim d with
  | nil => simp at h
  | cons e es ih =>
    cases d with
    | zero =>
      obtain rfl : e = .name i pos := by simpa using h
      exact .head _
    | succ d =>
      have hmem := ih (dim + 1) (by simpa using h)
      rw [show dim + 1 + d = dim + (d + 1) by omega] at hmem
      cases e <;> first | exact .tail _ hmem | exact hmem

theorem Reference.eq_array_of_mem_axesFrom {source : Expr} {dim : Nat} {es : List Expr} {i : String}
    {axis : Axis} (h : (i, axis) ∈ axesFrom source dim es) : ∃ d, axis = .array source d := by
  induction es generalizing dim with
  | nil => simp [axesFrom] at h
  | cons e es ih =>
    unfold axesFrom at h
    split at h
    · simp at h
    · rename_i heq
      cases heq
      rcases List.mem_cons.1 h with h | h
      · cases h
        exact ⟨_, rfl⟩
      · exact ih h
    · rename_i heq
      cases heq
      exact ih h

namespace Catalog

variable {c : Catalog} {i : String} {a : Axis}

theorem get?_bind_cases {j : String} {b : Axis} (h : (c.bind j b).get? i = some a) :
    c.get? i = some a ∨ (i = j ∧ a = b) := by
  rcases c.bind_cases j b with ⟨-, e⟩ | ⟨_, -, e, -⟩ | ⟨_, -, e⟩
  · rw [e] at h
    have h : (c.axes ++ [(j, b)]).lookup i = some a := h
    rw [List.lookup_append, Option.or_eq_some_iff] at h
    rcases h with h | ⟨-, h⟩
    · exact .inl h
    · obtain ⟨rfl, rfl⟩ : i = j ∧ a = b := by simpa using Env.mem_of_lookup h
      exact .inr ⟨rfl, rfl⟩
  · exact .inl (e ▸ h)
  · rw [e] at h
    exact .inl h

theorem get?_bindAll_cases {axes : List (String × Axis)} (h : (c.bindAll axes).get? i = some a) :
    c.get? i = some a ∨ (i, a) ∈ axes := by
  induction axes generalizing c with
  | nil => exact .inl h
  | cons p axes ih =>
    rcases ih (c := c.bind p.1 p.2) h with h | h
    · rcases get?_bind_cases h with h | ⟨rfl, rfl⟩
      · exact .inl h
      · exact .inr (.head _)
    · exact .inr (.tail _ h)

end Catalog

namespace Kernel.Planned

variable {k : Kernel} {read : Reduction.Partial} (h : k.Planned read)

include h

theorem sound_catalog : k.analysis.catalog.Sound := by
  rw [h.catalog]
  exact ((Catalog.sound_empty.bindAll _).bindAll _).bindAll _

/-- A plain name in a bracket after a name has an axis that is answered. -/
theorem answers_reference {name i : String} {pos pos' : Option Pos} {keys : List Expr} {d : Nat}
    (hr : Expr.Refers (.name name pos) keys k.statement.rhs) (hd : keys[d]? = some (.name i pos')) :
    k.analysis.catalog.Answers i (.array (.name name pos) d) := by
  rw [h.catalog, h.collection]
  refine (Catalog.answers_bindAll ?_ _).bindAll _
  refine List.mem_flatMap.2 ⟨_, hr.mem_references, ?_⟩
  have := Reference.mem_axesFrom (.name name pos) 0 hd
  rwa [Nat.zero_add] at this

/-- So has a plain name of the left-hand side, where it says where to write. -/
theorem answers_target {name i : String} {pos : Option Pos} {d : Nat}
    (hs : k.statement.allocates = false) (hname : k.statement.target.name = some name)
    (hd : k.statement.target.indices[d]? = some (.name i pos)) :
    k.analysis.catalog.Answers i (.array (.name name none) d) := by
  rw [h.catalog, hs]
  refine Catalog.answers_bindAll ?_ _
  simp only [Bool.false_eq_true, if_false, Target.axes, hname]
  have := Reference.mem_axesFrom (.name name none) 0 hd
  rwa [Nat.zero_add] at this

/-- Written bounds are bounds of reduction indices. -/
theorem mem_order_of_explicit {i : String} {axis : Axis}
    (hi : k.analysis.catalog.get? i = some axis) (hx : axis.isExplicit) :
    i ∈ k.analysis.reduction.order := by
  have hsound := Reduction.sound_of_read h.clause
  have harray {source : Expr} {dim : Nat} {es : List Expr}
      (hmem : (i, axis) ∈ Reference.axesFrom source dim es) : False := by
    obtain ⟨d, rfl⟩ := Reference.eq_array_of_mem_axesFrom hmem
    simp [Axis.isExplicit] at hx
  rw [h.catalog] at hi
  rcases Catalog.get?_bindAll_cases hi with hi | hi
  · rcases Catalog.get?_bindAll_cases hi with hi | hi
    · rcases Catalog.get?_bindAll_cases hi with hi | hi
      · simp [Catalog.empty, Catalog.get?] at hi
      · have hmem := hsound.1.bounds_mem _ hi
        rcases h.reduction_cases with ⟨hempty, -, -⟩ | ⟨-, -, heq⟩
        · exact absurd hempty (List.ne_nil_of_mem hmem)
        · rwa [heq]
    · obtain ⟨r, -, hr⟩ := List.mem_flatMap.1 hi
      exact (harray hr).elim
  · split at hi
    · simp at hi
    · unfold Target.axes at hi
      split at hi
      · simp at hi
      · exact (harray hi).elim

/-- An index of the left-hand side runs over a dimension of a value. -/
theorem axis_of_output {i : String} (hi : i ∈ k.outputIndices) :
    ∃ source dim, k.analysis.catalog.get? i = some (.array source dim) := by
  obtain ⟨axis, haxis⟩ := h.exists_axis (List.mem_append_left _ hi)
  cases axis with
  | array source dim => exact ⟨source, dim, haxis⟩
  | between lower upper => exact absurd hi (h.notMem_outputs (h.mem_order_of_explicit haxis rfl))

/-- So it runs from zero. -/
theorem range_of_output {scope : Scope} {w : World} {rs : Ranges}
    (hrs : k.analysis.catalog.Resolved scope k.analysis.indexNames w rs) {i : String}
    (hi : i ∈ k.outputIndices) : ∃ n, rs.get i = .upTo n := by
  obtain ⟨source, dim, haxis⟩ := h.axis_of_output hi
  obtain ⟨u, u', -, hr⟩ := hrs.get haxis
  exact Axis.resolve_array hr

end Kernel.Planned

end IndexNotation
