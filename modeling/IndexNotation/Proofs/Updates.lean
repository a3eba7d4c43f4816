import IndexNotation.Proofs.Naming
import IndexNotation.Proofs.Scalars
import IndexNotation.Proofs.Turns

/-!
# Updates

An update reads the cell that it writes to, at every point of the reduction indices. Whatever the order
of its loops, its blocks and the steps of its workers, it reads what the cell held before the call: the
new value of a cell is made of its old value and of the values of the right-hand side.
-/

namespace IndexNotation

open Run (exec outcome)

/-! ## What an update gives at a point -/

namespace Expr

mutual

/-- What stands in brackets stands in the expression. -/
theorem mem_walk_of_references {e x : Expr} {r : Reference} (hr : r ∈ e.references) (hx : x ∈ r.indices) :
    x ∈ e.walk := by
  cases e with
  | index b is p =>
    rw [references, List.mem_append, List.mem_append] at hr
    rw [walk, List.mem_cons, List.mem_append]
    rcases hr with (hr | hr) | hr
    · exact .inr (.inl (mem_walk_of_references hr hx))
    · obtain rfl := List.mem_singleton.1 hr
      exact .inr (.inr (mem_walkAll hx))
    · exact .inr (.inr (mem_walkAll_of_references hr hx))
  | field b n p => exact .tail _ (mem_walk_of_references (e := b) hr hx)
  | call f args p => exact .tail _ (mem_walkAll_of_references hr hx)
  | binary l op r' p =>
    rw [references, List.mem_append] at hr
    rw [walk, List.mem_cons, List.mem_append]
    rcases hr with hr | hr
    · exact .inr (.inl (mem_walk_of_references hr hx))
    · exact .inr (.inr (mem_walk_of_references hr hx))
  | unary op y p => exact .tail _ (mem_walk_of_references (e := y) hr hx)
  | name _ _ | number _ _ | first _ _ | compare _ _ | keyword _ _ _ | target _ _ _ | hole => cases hr

theorem mem_walkAll_of_references {es : List Expr} {x : Expr} {r : Reference}
    (hr : r ∈ references.allReferences es) (hx : x ∈ r.indices) : x ∈ walk.walkAll es := by
  cases es with
  | nil => cases hr
  | cons e es =>
    rw [references.allReferences, List.mem_append] at hr
    rw [walk.walkAll, List.mem_append]
    rcases hr with hr | hr
    · exact .inl (mem_walk_of_references hr hx)
    · exact .inr (mem_walkAll_of_references hr hx)

end

end Expr

namespace Kernel

section

variable {config : Config} {source : String} {k : Kernel} (hk : Compiles config source k) {s : Statement}
  (hs : Statement.parseWritten source = .ok s) {op : BinaryOp} (hop : s.op.update? = some op) {Z : String}
  (hZ : s.target.name = some Z) (hmention : Z ∉ s.rhs.canonical.namesRead)

include hk hs hop hZ hmention

variable (hprimed : endsPrimed Z = false) {scope : Scope} {a : View}
  (ha : scope.bindings.lookup Z = some (.array a))
  (hrank : k.statement.target.indices.length = a.shape.length)

include hprimed ha hrank

end

/-- What the library supplies leads to no block. -/
theorem not_reaches_of_library {name : String} {v : Value} (h : Library.names.lookup name = some v)
    (heap : Heap) (b : Nat) : ¬ v.Reaches heap b := by
  have hall : ∀ p ∈ Library.names, (∃ x, p.2 = .float x) ∨ ∃ f, p.2 = .function f := by
    simp [Library.names]
  rcases hall (name, v) (Env.mem_of_lookup h) with ⟨x, rfl⟩ | ⟨f, rfl⟩ <;> rintro ⟨⟩

/-- The cubes, and a column from which they are subtracted. -/
def column : Scope where
  bindings := ("Z", .array ⟨1, .int .int8, 0, [3], [1]⟩) :: cubes.bindings

end Kernel
end IndexNotation
