import IndexNotation.Proofs.Ranges

/-!
# Chunks of equal length

How long the pieces of a range are, and how many of them there are. The chunks for the workers are
pieces whose length is that of the range divided by the number of workers, rounded up: so there are
never more chunks than workers, and no worker gets an empty one.
-/

namespace IndexNotation

namespace Range

/-! ## Pieces -/

/-- There is a piece number `k` exactly if the range reaches beyond the pieces before it. -/
theorem lt_length_pieces {r : Range} {size k : Nat} :
    k < (r.pieces size).length ↔ 0 < size ∧ k * size < r.length := by
  rcases Nat.eq_zero_or_pos size with rfl | hsize
  · simp [pieces, cuts]
  · have hlength : (r.pieces size).length = (r.length + size - 1) / size := by
      simp [pieces, cuts, Nat.ne_of_gt hsize]
    rw [hlength, Nat.lt_div_iff_mul_lt hsize, Nat.mul_comm]
    omega

/-- Piece number `k` has the elements from `k * size` on, `size` of them if there are so many. -/
theorem length_getElem_pieces {r : Range} {size k : Nat} (hk : k < (r.pieces size).length) :
    (r.pieces size)[k].length = min size (r.length - k * size) := by
  have hsize : size ≠ 0 := Nat.ne_of_gt (lt_length_pieces.1 hk).1
  simp only [pieces, cuts, beq_iff_eq, hsize, if_false, List.map_map, List.getElem_map, List.getElem_range,
    Function.comp_apply, length_slice]
  omega

theorem length_le_of_mem_pieces {r c : Range} {size : Nat} (h : c ∈ r.pieces size) : c.length ≤ size := by
  obtain ⟨k, hk, rfl⟩ := List.getElem_of_mem h
  rw [length_getElem_pieces]
  exact Nat.min_le_left _ _

theorem length_pos_of_mem_pieces {r c : Range} {size : Nat} (h : c ∈ r.pieces size) : 0 < c.length := by
  obtain ⟨k, hk, rfl⟩ := List.getElem_of_mem h
  obtain ⟨hsize, hstart⟩ := lt_length_pieces.1 hk
  rw [length_getElem_pieces]
  omega

/-- Only the last piece may be short. -/
theorem length_of_mem_dropLast_pieces {r c : Range} {size : Nat} (h : c ∈ (r.pieces size).dropLast) :
    c.length = size := by
  obtain ⟨k, hk, rfl⟩ := List.getElem_of_mem h
  rw [List.length_dropLast] at hk
  -- The next piece has an element, so this one is full.
  obtain ⟨-, hnext⟩ : 0 < size ∧ (k + 1) * size < r.length := lt_length_pieces.1 (by omega)
  rw [Nat.succ_mul] at hnext
  rw [List.getElem_dropLast, length_getElem_pieces]
  omega

/-- If `count` pieces are enough for all elements, there are no more than that. -/
theorem length_pieces_le {r : Range} {size count : Nat} (h : r.length ≤ count * size) :
    (r.pieces size).length ≤ count := by
  by_contra hmore
  obtain ⟨-, hbeyond⟩ := lt_length_pieces.1 (Nat.lt_of_not_le hmore)
  omega

/-! ## Chunks -/

/-- The length of a chunk for a number of workers. -/
def share (r : Range) (workers : Nat) : Nat :=
  (r.length + workers - 1) / workers

theorem partition_eq (r : Range) {workers : Int} (h : 1 ≤ workers) :
    r.partition workers = r.pieces (r.share workers.toNat) := by
  rw [partition, Int.max_eq_left h]
  rfl

/-- The shares of all workers are enough for the range. -/
theorem length_le_mul_share (r : Range) {workers : Nat} (h : 0 < workers) :
    r.length ≤ workers * r.share workers := by
  have hdiv := Nat.lt_mul_div_succ (r.length + workers - 1) h
  rw [Nat.mul_add, Nat.mul_one] at hdiv
  unfold share
  omega

/-- A range is divided among the workers into chunks: at most one for each of them, none of them empty,
all of the same length except that the last one may be shorter. One after the other they make up the
range, and only a range without elements has no chunk. -/
theorem partition_chunks (r : Range) {workers : Int} (h : 1 ≤ workers) :
    (r.partition workers).length ≤ workers ∧
      (∀ c ∈ r.partition workers, c.toList ≠ []) ∧
      (∃ size, (∀ c ∈ (r.partition workers).dropLast, c.toList.length = size) ∧
        ∀ c ∈ r.partition workers, c.toList.length ≤ size) ∧
      (r.partition workers).flatMap toList = r.toList ∧
      (r.partition workers = [] ↔ r.toList = []) := by
  have hcover := r.flatMap_partition workers
  simp only [length_toList]
  rw [r.partition_eq h] at hcover ⊢
  have hfull : ∀ c ∈ r.pieces (r.share workers.toNat), c.toList ≠ [] := by
    intro c hc hempty
    have hpos := length_pos_of_mem_pieces hc
    rw [← length_toList, hempty] at hpos
    exact Nat.lt_irrefl _ hpos
  refine ⟨?_, hfull, ⟨r.share workers.toNat, ?_, ?_⟩, hcover, ?_⟩
  · have hworkers : 0 < workers.toNat := by omega
    have hcount := length_pieces_le (r.length_le_mul_share hworkers)
    omega
  · exact fun c hc => length_of_mem_dropLast_pieces hc
  · exact fun c hc => length_le_of_mem_pieces hc
  · constructor
    · intro hnone
      rw [← hcover, hnone, List.flatMap_nil]
    · intro hempty
      rw [hempty, List.flatMap_eq_nil_iff] at hcover
      exact List.eq_nil_iff_forall_not_mem.2 fun c hc => hfull c hc (hcover c hc)

/-- Seven elements for four workers: three chunks of two elements, and one of one. -/
theorem partition_chunks_seven :
    (1 : Int) ≤ 4 ∧
      (partition ⟨-5, 16, 3⟩ 4).map toList = [[-5, -2], [1, 4], [7, 10], [13]] ∧
      (partition ⟨-5, 16, 3⟩ 4).flatMap toList = toList ⟨-5, 16, 3⟩ := by
  have hworkers : (1 : Int) ≤ 4 := by decide
  obtain ⟨-, -, -, hcover, -⟩ := partition_chunks ⟨-5, 16, 3⟩ hworkers
  exact ⟨hworkers, by decide, hcover⟩

end Range
end IndexNotation
