import IndexNotation.Exec.Loops
import Mathlib.Data.List.Nodup
import Mathlib.Data.List.Range
import Mathlib.Tactic.Ring

/-!
# Ranges and their pieces

A range is understood by the list of its elements. Cutting it into pieces, dividing it among workers
and unrolling a loop over it do not change that list, and two ranges that count as the same have it
in common.
-/

namespace IndexNotation

namespace Range

theorem length_toList (r : Range) : r.toList.length = r.length := by
  simp [toList]

/-- Between multiples of the step there are as many elements as multiples. -/
theorem length_multiples (start step : Int) (i j : Nat) (h : step ≠ 0) :
    length ⟨start + i * step, start + j * step, step⟩ = j - i := by
  have key (s : Int) (hs : 0 < s) : ((j - i : Int) * s + (s - 1)) / s = j - i := by
    rw [Int.add_comm, Int.add_mul_ediv_right _ _ (Int.ne_of_gt hs),
      Int.ediv_eq_zero_of_lt (by omega) (by omega), Int.zero_add]
  simp only [length]
  split
  · rename_i hs
    rw [show start + j * step - (start + i * step) + step - 1 = (j - i : Int) * step + (step - 1) by ring,
      key step hs]
    omega
  · rw [if_pos (by omega), show start + i * step - (start + j * step) - step - 1 =
      (j - i : Int) * (-step) + (-step - 1) by ring, key (-step) (by omega)]
    omega

theorem length_slice (r : Range) (i j : Nat) :
    (r.slice i j).length = min j r.length - min i r.length := by
  by_cases h : r.step = 0
  · simp [slice, length, h]
  · exact length_multiples _ _ _ _ h

/-- A slice of a range has the slice of its elements. -/
theorem toList_slice (r : Range) (i j : Nat) :
    (r.slice i j).toList = (r.toList.take j).drop i := by
  apply List.ext_getElem
  · simp only [length_toList, length_slice, List.length_drop, List.length_take]
    omega
  · intro k hk _
    have hlen : k < min j r.length - min i r.length := by
      rwa [length_toList, length_slice] at hk
    have hi : min i r.length = i := by omega
    simp only [toList, List.getElem_map, List.getElem_range, List.getElem_drop, List.getElem_take,
      element, slice, hi]
    push_cast
    ring

theorem flatMap_take_drop {α : Type} (xs : List α) {size : Nat} (hsize : 0 < size) (n : Nat) :
    (List.range n).flatMap (fun k => (xs.take (k * size + size)).drop (k * size)) =
      xs.take (n * size) := by
  induction n with
  | zero => simp
  | succ n ih =>
    have hsplit := List.take_append_drop (n * size) (xs.take (n * size + size))
    rw [List.take_take, Nat.min_eq_left (by omega)] at hsplit
    rw [List.range_succ, List.flatMap_append, ih, List.flatMap_singleton, hsplit, Nat.succ_mul]

/-- The pieces of a range make up the range. -/
theorem flatMap_pieces (r : Range) {size : Nat} (hsize : 0 < size) :
    (r.pieces size).flatMap toList = r.toList := by
  have hall : r.length ≤ (r.length + size - 1) / size * size := by
    have := Nat.lt_div_mul_add (a := r.length + size - 1) hsize
    omega
  simp only [pieces, cuts, beq_iff_eq, Nat.ne_of_gt hsize, if_false, List.map_map, List.flatMap_map,
    Function.comp_apply, toList_slice]
  rw [flatMap_take_drop _ hsize, List.take_of_length_le (by rwa [length_toList])]

/-- The chunks of the workers make up the range. -/
theorem flatMap_partition (r : Range) (workers : Int) :
    (r.partition workers).flatMap toList = r.toList := by
  simp only [partition]
  rcases Nat.eq_zero_or_pos ((r.length + (max workers 1).toNat - 1) / (max workers 1).toNat)
    with hsize | hsize
  · have hempty : r.length = 0 := by
      rcases Nat.div_eq_zero_iff.1 hsize with h | h <;> omega
    simp [pieces, cuts, toList, hempty]
  · exact r.flatMap_pieces hsize

theorem step_of_mem_pieces {r s : Range} {size : Nat} (h : s ∈ r.pieces size) : s.step = r.step := by
  obtain ⟨k, -, rfl⟩ := List.mem_map.1 h
  rfl

theorem mem_of_mem_pieces {r s : Range} {size : Nat} (h : s ∈ r.pieces size) {v : Int}
    (hv : v ∈ s.toList) : v ∈ r.toList := by
  obtain ⟨k, -, rfl⟩ := List.mem_map.1 h
  rw [toList_slice] at hv
  exact List.mem_of_mem_take (List.mem_of_mem_drop hv)

theorem nodup_toList (r : Range) : r.toList.Nodup := by
  refine List.Nodup.map_on (fun i hi j _ h => ?_) List.nodup_range
  have hstep : r.step ≠ 0 := by
    intro h0
    simp [length, h0] at hi
  have := Int.eq_of_mul_eq_mul_right hstep (Int.add_left_cancel h)
  omega

/-- Ranges that count as the same have the same elements. -/
theorem toList_eq_of_same {r s : Range} (h : r.same s) : r.toList = s.toList := by
  simp only [same, Bool.and_eq_true, Bool.or_eq_true, beq_iff_eq] at h
  obtain ⟨hlen, hrest⟩ := h
  simp only [toList, ← hlen]
  refine List.map_congr_left fun k hk => ?_
  have hk : k < r.length := List.mem_range.1 hk
  rcases hrest with h0 | ⟨hstart, h1 | hstep⟩
  · omega
  · obtain rfl : k = 0 := by omega
    simp [element, hstart]
  · simp [element, hstart, hstep]

/-- Ranges count as the same exactly if they have the same elements. -/
theorem same_iff_toList_eq {r s : Range} : r.same s ↔ r.toList = s.toList := by
  refine ⟨toList_eq_of_same, fun h => ?_⟩
  have hlen : r.length = s.length := by rw [← length_toList, h, length_toList]
  have helement {k : Nat} (hk : k < r.length) : r.element k = s.element k := by
    have hk' : r.toList[k]? = s.toList[k]? := by rw [h]
    simpa [toList, hk, hlen ▸ hk] using hk'
  simp only [same, Bool.and_eq_true, Bool.or_eq_true, beq_iff_eq]
  refine ⟨hlen, ?_⟩
  by_cases h0 : r.length = 0
  · exact .inl h0
  have hstart : r.start = s.start := by simpa [element] using helement (k := 0) (by omega)
  by_cases h1 : r.length = 1
  · exact .inr ⟨hstart, .inl h1⟩
  · have hnext := helement (k := 1) (by omega)
    simp only [element] at hnext
    exact .inr ⟨hstart, .inr (by omega)⟩

/-! ## Ranges without gaps -/

theorem length_of_step_one {r : Range} (h : r.step = 1) : r.length = (r.stop - r.start).toNat := by
  simp [length, h]

theorem mem_toList {r : Range} (h : r.step = 1) {v : Int} :
    v ∈ r.toList ↔ r.start ≤ v ∧ v < r.stop := by
  simp only [toList, List.mem_map, List.mem_range, length_of_step_one h, element, h, Int.mul_one]
  constructor
  · rintro ⟨k, hk, rfl⟩
    omega
  · rintro ⟨h₁, h₂⟩
    exact ⟨(v - r.start).toNat, by omega, by omega⟩

@[simp] theorem length_upTo (n : Int) : (upTo n).length = n.toNat := by
  rw [length_of_step_one rfl, upTo, Int.sub_zero]

theorem mem_upTo {n v : Int} : v ∈ (upTo n).toList ↔ 0 ≤ v ∧ v < n :=
  mem_toList rfl

/-- Unrolling a loop over a range without gaps does not change what it runs through. -/
theorem unrolledElements_eq {r : Range} (h : r.step = 1) (width : Nat) :
    unrolledElements r width = r.toList := by
  simp only [unrolledElements]
  generalize hw : (if width == 0 then min r.length maxUnroll else width) = w
  split
  · rename_i h0
    have hempty : r.length = 0 := by
      simp only [beq_iff_eq] at h0 hw
      split at hw
      · simp only [maxUnroll] at hw
        omega
      · omega
    simp [toList, hempty]
  · have hpiece (k : Nat) : ((List.range w).map fun (offset : Nat) => r.element (k * w) + offset) =
        (List.range' (k * w) w).map r.element := by
      rw [List.range'_eq_map_range, List.map_map]
      refine List.map_congr_left fun offset _ => ?_
      simp only [Function.comp_apply, element, h, Nat.cast_add, Int.mul_one]
      ring
    simp only [hpiece, ← List.map_flatMap, ← List.map_append, toList]
    congr 1
    rw [show (List.range (r.length / w)).flatMap (fun k => List.range' (k * w) w) =
      List.range' 0 (r.length / w * w) from ?_, List.range_eq_range']
    · have := Nat.div_add_mod' r.length w
      conv => rhs; rw [← this, ← List.range'_append_1]
      simp
    · induction r.length / w with
      | zero => simp
      | succ n ih =>
        rw [List.range_succ, List.flatMap_append, ih, List.flatMap_singleton, Nat.succ_mul,
          ← List.range'_append_1, Nat.zero_add]

end Range

/-- The loops over the values of a cell run through the ranges, unrolled or not. -/
theorem InnerLoop.values_eq {l : InnerLoop} {rs : Ranges} (h : (rs.get l.index).step = 1) :
    l.values rs = (rs.get l.index).toList := by
  unfold InnerLoop.values
  split
  · rfl
  · exact Range.unrolledElements_eq h _

end IndexNotation
