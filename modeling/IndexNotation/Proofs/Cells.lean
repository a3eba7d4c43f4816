import IndexNotation.Element.Code
import IndexNotation.Proofs.World
import IndexNotation.Value.Assign
import Mathlib.Data.List.Nodup
import Mathlib.Data.List.Range
import Mathlib.Tactic.Ring

/-!
# The cells of arrays

An array that is given one integer for each of its dimensions gives one cell, for reading and for
storing alike. Different positions are different cells, as they are in every array that does not
overlap itself; a new array does not.
-/

namespace IndexNotation

open Run (exec)

/-- How far to go along each dimension to the cell at `keys`; there is one only if every key is a
position of its dimension. -/
def stepsTo : (shape : List Nat) → (strides : List Int) → (keys : List Int) → Option (List Int)
  | [], _, [] => some []
  | n :: shape, s :: strides, k :: keys => do
    let p ← resolvePosition n k
    let rest ← stepsTo shape strides keys
    return p * s :: rest
  | _, _, _ => none

/-- The place of the cell at `keys` in the block of an array. -/
def View.place (v : View) (keys : List Int) : Option Nat :=
  (stepsTo v.shape v.strides keys).map fun steps => ((v.offset : Int) + steps.sum).toNat

namespace Value

/-! ## Selecting one cell -/

theorem subscript_int (h : Heap) (n : Nat) (shape : List Nat) (s : Int) (strides : List Int) (k : Int) :
    subscript h (n :: shape) (s :: strides) (.int k) =
      match resolvePosition n k with
      | some p => .ok (.pick true [] [p * s], shape, strides)
      | Option.none => .error .outOfBounds := by
  simp only [subscript, stepsAlong, List.mapM_cons, List.mapM_nil]
  cases resolvePosition n k <;> rfl

theorem addPicks_single (x y : Int) : addPicks ([], [x]) ([], [y]) = .ok ([], [x + y]) := rfl

theorem foldlM_addPicks (x : Int) (ys : List Int) :
    (ys.map fun y => (([] : List Nat), [y])).foldlM addPicks ([], [x]) = .ok ([], [x + ys.sum]) := by
  induction ys generalizing x with
  | nil => simp; rfl
  | cons y ys ih =>
    rw [List.map_cons, List.foldlM_cons, addPicks_single]
    change List.foldlM addPicks ([], [x + y]) _ = _
    rw [ih, List.sum_cons, Int.add_assoc]

/-- One integer for each dimension picks one cell. -/
theorem subscripts_ints (h : Heap) (shape : List Nat) (strides : List Int) {keys : List Int}
    (hlen : keys.length = shape.length) :
    subscripts h shape strides (keys.map .int) =
      match stepsTo shape strides keys with
      | some steps => .ok (steps.map (.pick true [] [·]), [], strides.drop shape.length)
      | Option.none => .error .outOfBounds := by
  induction shape generalizing strides keys with
  | nil =>
    obtain rfl := List.length_eq_zero_iff.1 hlen
    rfl
  | cons n shape ih =>
    obtain _ | ⟨k, keys⟩ := keys
    · simp at hlen
    · cases strides with
      | nil => rfl
      | cons s strides =>
        simp only [stepsTo, List.map_cons, subscripts, subscript_int]
        cases resolvePosition n k with
        | none => rfl
        | some p =>
          simp only [bind, Except.bind, Option.bind]
          rw [ih strides (by simpa using hlen)]
          cases stepsTo shape strides keys <;> rfl

theorem select_ints (h : Heap) {a : View} {keys : List Int} (hlen : keys.length = a.shape.length) :
    match stepsTo a.shape a.strides keys with
    | some steps => ∃ s, select h a (keys.map .int) = .ok s ∧ s.shape = [] ∧ s.steps = [steps.sum] ∧
        s.pickShape = Option.none
    | Option.none => select h a (keys.map .int) = .error .outOfBounds := by
  unfold select
  rw [subscripts_ints h a.shape a.strides hlen]
  cases stepsTo a.shape a.strides keys with
  | none => rfl
  | some steps =>
    have hnews : (steps.map fun x => Subscript.pick true [] [x]).filter contiguous.isNew = [] := by
      simp [contiguous.isNew]
    simp only [bind, Except.bind, List.filterMap_map, List.any_map, Function.comp_def, hnews,
      List.filterMap_eq_map', foldlM_addPicks]
    exact ⟨_, rfl, rfl, by simp, by simp⟩

/-- Reading at one integer for each dimension gives the cell. -/
theorem exec_get_ints {a : View} {keys : List Int} (hlen : keys.length = a.shape.length) (w : World) :
    exec (get (.array a) (keys.map .int)) w = match a.place keys with
      | some p => (.ok ((w.heap.block a.block).getD p none), w)
      | Option.none => (.error (.fault .outOfBounds), w) := by
  have hselect := select_ints w.heap hlen
  change exec (arrayItem a (keys.map .int)) w = _
  rw [arrayItem, Run.exec_bind_ok (Run.exec_heap w), Run.exec_bind, Run.exec_ofFault, View.place]
  generalize stepsTo a.shape a.strides keys = found at hselect
  cases found with
  | none =>
    rw [show select w.heap a (keys.map .int) = _ from hselect]
    rfl
  | some steps =>
    obtain ⟨s, hs, hshape, hsteps, hpick⟩ := hselect
    rw [hs]
    simp [Except.mapError, hshape, hsteps, hpick]

/-- Storing at one integer for each dimension changes one cell, if the value is accepted. -/
theorem exec_set_ints {a : View} {keys : List Int} (hlen : keys.length = a.shape.length) (v : Value)
    (w : World) :
    exec (set (.array a) (keys.map .int) v) w = match a.place keys with
      | some p =>
        match a.type.accept w.heap v with
        | .ok cell => (.ok ⟨⟩, { w with heap := w.heap.modify a.block (·.setIfInBounds p cell) })
        | .error f => (.error (.fault f), w)
      | Option.none => (.error (.fault .outOfBounds), w) := by
  have hselect := select_ints w.heap hlen
  change exec (setArray a (keys.map .int) v) w = _
  rw [setArray, Run.exec_bind_ok (Run.exec_heap w), Run.exec_bind, Run.exec_ofFault, View.place]
  generalize stepsTo a.shape a.strides keys = found at hselect
  cases found with
  | none =>
    rw [show select w.heap a (keys.map .int) = _ from hselect]
    rfl
  | some steps =>
    obtain ⟨s, hs, hshape, hsteps, hpick⟩ := hselect
    rw [hs]
    simp only [Except.mapError, hshape, hsteps, hpick, List.headD_cons, Option.map_some]
    rw [Run.exec_bind, Run.exec_ofFault]
    cases a.type.accept w.heap v <;> rfl

end Value

/-! ## References -/

/-- The cell of an array at the values of some indices, one for each dimension. -/
def View.readAt (a : View) (h : Heap) (indices : List String) (env : Env) : Except Error Value :=
  match indices.mapM fun i => List.lookup i env with
  | some vs =>
    match a.place vs with
    | some p => .ok ((h.block a.block).getD p .none)
    | none => .error (.fault .outOfBounds)
  | none => .error (.fault .missingKey)

namespace Code

variable {scope : Scope} {env : Env}

theorem length_of_mapM_lookup {indices : List String} {vs : List Int}
    (h : indices.mapM (fun i => List.lookup i env) = some vs) : vs.length = indices.length := by
  induction indices generalizing vs with
  | nil =>
    cases h
    rfl
  | cons i indices ih =>
    rw [List.mapM_cons] at h
    obtain ⟨v, -, h⟩ := Option.bind_eq_some_iff.1 h
    obtain ⟨vs', hvs, h⟩ := Option.bind_eq_some_iff.1 h
    cases h
    rw [List.length_cons, List.length_cons, ih hvs]

theorem exec_runAll_indices (indices : List String) (w : World) :
    exec (run.runAll scope env (indices.map .index)) w =
      match indices.mapM (fun i => List.lookup i env) with
      | some vs => (.ok (vs.map .int), w)
      | none => (.error (.fault .missingKey), w) := by
  induction indices with
  | nil => rfl
  | cons i indices ih =>
    rw [List.map_cons, run.runAll, run, List.mapM_cons]
    cases List.lookup i env with
    | none => rfl
    | some v =>
      rw [Run.exec_bind_ok (Run.exec_pure _ w), Run.exec_bind, ih]
      simp only [bind, Option.bind]
      cases indices.mapM (fun i => List.lookup i env) <;> rfl

/-- A reference to an array by plain indices, one for each dimension, reads one cell and nothing
else. -/
theorem exec_run_reference {a : View} {indices : List String}
    (h : indices.length = a.shape.length) (w : World) :
    exec (run scope env (.get (.value (.array a)) (indices.map .index))) w =
      (a.readAt w.heap indices env, w) := by
  unfold View.readAt
  rw [run, run, Run.exec_bind_ok (Run.exec_pure _ w), Run.exec_bind, exec_runAll_indices]
  cases hvs : indices.mapM (fun i => List.lookup i env) with
  | none => rfl
  | some vs =>
    have hlen : vs.length = a.shape.length := (length_of_mapM_lookup hvs).trans h
    have hget : exec (Value.arrayItem a (vs.map .int)) w = _ := Value.exec_get_ints hlen w
    refine Eq.trans ?_ (hget.trans ?_)
    · rcases vs with _ | ⟨v, _ | ⟨v', vs⟩⟩ <;> rfl
    · dsimp only
      cases a.place vs <;> rfl

end Code

/-! ## Places -/

theorem resolvePosition_lt {n : Nat} {k : Int} {p : Nat} (h : resolvePosition n k = some p) :
    p < n := by
  unfold resolvePosition at h
  split at h <;> split at h <;> simp at h <;> omega

/-- Keys that are within the shape lead to a cell. -/
theorem exists_stepsTo {shape : List Nat} {strides keys : List Int}
    (hlen : strides.length = shape.length)
    (hkeys : List.Forall₂ (fun (k : Int) (n : Nat) => 0 ≤ k ∧ k < n) keys shape) :
    ∃ steps, stepsTo shape strides keys = some steps := by
  induction hkeys generalizing strides with
  | nil => exact ⟨[], rfl⟩
  | cons hk _ ih =>
    obtain _ | ⟨s, strides⟩ := strides
    · simp at hlen
    · obtain ⟨steps, hsteps⟩ := ih (by simpa using hlen)
      simp [stepsTo, resolvePosition, hk, hsteps]

theorem View.exists_place {a : View} {keys : List Int} (hlen : a.strides.length = a.shape.length)
    (hkeys : List.Forall₂ (fun (k : Int) (n : Nat) => 0 ≤ k ∧ k < n) keys a.shape) :
    ∃ p, a.place keys = some p := by
  obtain ⟨steps, hsteps⟩ := exists_stepsTo hlen hkeys
  exact ⟨_, Option.map_eq_some_iff.2 ⟨steps, hsteps, rfl⟩⟩

theorem mem_places {shape : List Nat} {strides : List Int} {keys steps : List Int} (start : Int)
    (h : stepsTo shape strides keys = some steps) :
    (start + steps.sum).toNat ∈ places shape strides start := by
  induction shape generalizing strides keys steps start with
  | nil =>
    cases keys with
    | nil =>
      cases h
      simp [places]
    | cons => simp [stepsTo] at h
  | cons n shape ih =>
    cases strides with
    | nil => simp [stepsTo] at h
    | cons s strides =>
      cases keys with
      | nil => simp [stepsTo] at h
      | cons k keys =>
        simp only [stepsTo, Option.bind_eq_bind, Option.bind_eq_some_iff] at h
        obtain ⟨p, hp, rest, hrest, h⟩ := h
        cases h
        rw [places]
        refine List.mem_flatMap.2 ⟨p, List.mem_range.2 (resolvePosition_lt hp), ?_⟩
        rw [List.sum_cons, ← Int.add_assoc]
        exact ih _ hrest

theorem resolvePosition_inj {n : Nat} {k k' : Int} {p : Nat} (hk : k = k' ∨ 0 ≤ k ∧ 0 ≤ k')
    (h : resolvePosition n k = some p) (h' : resolvePosition n k' = some p) : k = k' := by
  rcases hk with hk | ⟨hk, hk'⟩
  · exact hk
  · simp only [resolvePosition, hk, hk', if_true] at h h'
    split at h <;> split at h' <;> simp at h h'
    omega

/-- Where no cell is met twice, different positions have different places. A negative key counts
from the end, so keys are compared only where they agree or none of them is negative. -/
theorem place_inj {shape : List Nat} {strides : List Int} {keys keys' steps steps' : List Int}
    {start : Int} (hnodup : (places shape strides start).Nodup)
    (h : stepsTo shape strides keys = some steps) (h' : stepsTo shape strides keys' = some steps')
    (hkeys : List.Forall₂ (fun k k' => k = k' ∨ 0 ≤ k ∧ 0 ≤ k') keys keys')
    (heq : (start + steps.sum).toNat = (start + steps'.sum).toNat) : keys = keys' := by
  induction shape generalizing strides keys keys' steps steps' start with
  | nil =>
    cases hkeys with
    | nil => rfl
    | cons => simp [stepsTo] at h
  | cons n shape ih =>
    cases strides with
    | nil => simp [stepsTo] at h
    | cons s strides =>
      cases hkeys with
      | nil => rfl
      | @cons k k' keys keys' hk hkeys =>
        simp only [stepsTo, Option.bind_eq_bind, Option.bind_eq_some_iff] at h h'
        obtain ⟨p, hp, rest, hrest, h⟩ := h
        obtain ⟨p', hp', rest', hrest', h'⟩ := h'
        cases h
        cases h'
        rw [List.sum_cons, List.sum_cons, ← Int.add_assoc, ← Int.add_assoc] at heq
        rw [places, List.nodup_flatMap] at hnodup
        have hmem := List.mem_range.2 (resolvePosition_lt hp)
        have hmem' := List.mem_range.2 (resolvePosition_lt hp')
        have hpp : p = p' := by
          have hdisjoint {i j : Nat} (hj : j < n) (hij : i < j) :
              List.Disjoint (places shape strides (start + i * s))
                (places shape strides (start + j * s)) := by
            have := List.pairwise_iff_getElem.1 hnodup.2 i j (by simp; omega) (by simpa) hij
            simpa using this
          rcases Nat.lt_trichotomy p p' with hlt | heq' | hlt
          · exact (hdisjoint (List.mem_range.1 hmem') hlt (mem_places _ hrest)
              (heq ▸ mem_places _ hrest')).elim
          · exact heq'
          · exact (hdisjoint (List.mem_range.1 hmem) hlt (mem_places _ hrest')
              (heq ▸ mem_places _ hrest)).elim
        subst hpp
        rw [resolvePosition_inj hk hp hp', ih (hnodup.1 p hmem) hrest hrest' hkeys heq]

theorem cellCount_cons (n : Nat) (shape : List Nat) :
    cellCount (n :: shape) = n * cellCount shape := by
  have hfold (shape : List Nat) (m : Nat) : shape.foldl (· * ·) m = m * shape.foldl (· * ·) 1 := by
    induction shape generalizing m with
    | nil => simp
    | cons k shape ih => rw [List.foldl_cons, List.foldl_cons, ih, ih (1 * k), Nat.one_mul, Nat.mul_assoc]
  rw [cellCount, List.foldl_cons, hfold, Nat.one_mul]
  rfl

theorem length_rowMajor (shape : List Nat) : (rowMajor shape).length = shape.length := by
  induction shape with
  | nil => rfl
  | cons n shape ih => simp [rowMajor, ih]

/-- A new array has its cells side by side. -/
theorem places_rowMajor (shape : List Nat) (start : Nat) :
    places shape (rowMajor shape) start = List.range' start (cellCount shape) := by
  induction shape generalizing start with
  | nil => simp [places, cellCount]
  | cons n shape ih =>
    simp only [places, rowMajor, List.tail_cons, List.headD_cons, cellCount_cons]
    have hpiece (k : Nat) : places shape (rowMajor shape) (start + k * cellCount shape) =
        List.range' (start + k * cellCount shape) (cellCount shape) := by
      rw [← ih]
      push_cast
      rfl
    simp only [hpiece]
    induction n with
    | zero => simp
    | succ n ihn =>
      rw [List.range_succ, List.flatMap_append, ihn, List.flatMap_singleton, List.range'_append_1,
        Nat.succ_mul]

end IndexNotation
