import IndexNotation.Proofs.Partition
import IndexNotation.Proofs.Points
import Mathlib.Algebra.Order.Ring.Int

/-!
# Integer roots

The width of a block is found from an estimate by two loops, one that goes down while the width is
too great and one that goes up while there is room. Both end, and wherever they start from they end
at the integer root of the size. So no block has more points than the size that its clause gives.
-/

namespace IndexNotation

/-! ## Loops that end -/

/-- A loop that takes steps as long as a test holds, from `a` to where it ends. -/
inductive HaltsAt {α : Type} (test : α → Prop) (step : α → α) : α → α → Prop
  | stop {a : α} (h : ¬ test a) : HaltsAt test step a a
  | again {a b : α} (h : test a) (rest : HaltsAt test step (step a) b) : HaltsAt test step a b

/-- What a step keeps holds where the loop ends, and the test fails there. -/
theorem HaltsAt.keeps {α : Type} {test : α → Prop} {step : α → α} {a b : α} (h : HaltsAt test step a b) {P : α → Prop}
    (hstep : ∀ x, test x → P x → P (step x)) (ha : P a) : P b ∧ ¬ test b := by
  induction h with
  | stop hstop => exact ⟨ha, hstop⟩
  | again htest _ ih => exact ih (hstep _ htest ha)

namespace Root

/-! ## The loops of a width -/

/-- The width is too great. -/
def TooGreat (size group : Nat) (w : Int) : Prop := (size : Int) < w ^ group

/-- There is room for a greater width. -/
def HasRoom (size group : Nat) (w : Int) : Prop := (w + 1) ^ group ≤ (size : Int)

variable {size group : Nat}

theorem tooGreat_natCast {w : Nat} : TooGreat size group w ↔ size < w ^ group := by
  unfold TooGreat
  exact_mod_cast Iff.rfl

theorem hasRoom_natCast {w : Nat} : HasRoom size group w ↔ (w + 1) ^ group ≤ size := by
  unfold HasRoom
  exact_mod_cast Iff.rfl

/-- The way down ends: at zero at the latest. -/
theorem haltsAt_lower (hgroup : 1 ≤ group) (w : Nat) :
    HaltsAt (TooGreat size group) (· - 1) w (lower size group w) := by
  induction w with
  | zero =>
    refine .stop fun hgreat => ?_
    rw [tooGreat_natCast, Nat.zero_pow hgroup] at hgreat
    exact Nat.not_lt_zero _ hgreat
  | succ w ih =>
    rw [lower]
    split
    · rename_i hgreat
      refine .again (tooGreat_natCast.2 hgreat) ?_
      simpa using ih
    · rename_i hfits
      exact .stop (tooGreat_natCast.not.2 hfits)

/-- The way up ends, since no width beyond `size` has room. -/
theorem haltsAt_raise (hgroup : 1 ≤ group) {fuel w : Nat} (hfuel : size ≤ fuel + w) :
    HaltsAt (HasRoom size group) (· + 1) w (raise size group fuel w) := by
  induction fuel generalizing w with
  | zero =>
    refine .stop fun hroom => ?_
    have hpow := Nat.le_self_pow (Nat.ne_of_gt hgroup) (w + 1)
    have := hpow.trans (hasRoom_natCast.1 hroom)
    omega
  | succ fuel ih =>
    rw [raise]
    split
    · rename_i hroom
      refine .again (hasRoom_natCast.2 hroom) ?_
      exact ih (w := w + 1) (by omega)
    · rename_i hfull
      exact .stop (hasRoom_natCast.not.2 hfull)

/-! ## The root -/

/-- The integer root of `size`, for a group of `group` indices. -/
structure IsRoot (size group : Nat) (w : Int) : Prop where
  pos : 1 ≤ w
  le : w ^ group ≤ size
  lt : size < (w + 1) ^ group

/-- There is one root at most, since powers grow with their base. -/
theorem IsRoot.unique {v w : Int} (hv : IsRoot size group v) (hw : IsRoot size group w) : v = w := by
  have hle {v w : Int} (hv : IsRoot size group v) (hw : IsRoot size group w) : v ≤ w := by
    by_contra hlt
    have hpos := hw.pos
    have hpow : (w + 1) ^ group ≤ v ^ group := pow_le_pow_left₀ (by omega) (by omega) group
    exact absurd (hpow.trans hv.le) (not_le.2 hw.lt)
  exact le_antisymm (hle hv hw) (hle hw hv)

/-- From any width the two loops come to the root. The first one stops at one at the latest; the
second one leaves alone what the first has reached, since it goes only where there is room. -/
theorem IsRoot.of_haltsAt (hsize : 1 ≤ size) {a v w : Int} (ha : 1 ≤ a)
    (hdown : HaltsAt (TooGreat size group) (· - 1) a v) (hup : HaltsAt (HasRoom size group) (· + 1) v w) :
    IsRoot size group w := by
  have hone (x : Int) (hgreat : TooGreat size group x) (hx : 1 ≤ x) : 1 ≤ x - 1 := by
    rcases hx.eq_or_lt with rfl | hx
    · simp only [TooGreat, one_pow] at hgreat
      omega
    · omega
  obtain ⟨hv, hfits⟩ := hdown.keeps hone ha
  have hroot (x : Int) (hroom : HasRoom size group x) (hx : 1 ≤ x ∧ x ^ group ≤ size) :
      1 ≤ x + 1 ∧ (x + 1) ^ group ≤ size := ⟨by omega, hroom⟩
  obtain ⟨⟨hw, hle⟩, hfull⟩ := hup.keeps hroot ⟨hv, not_lt.1 hfits⟩
  exact ⟨hw, hle, not_le.1 hfull⟩

/-- What is found from an estimate is where the loops end. -/
theorem haltsAt_settle (hsize : 1 ≤ size) (hgroup : 1 ≤ group) (estimate : Int) :
    ∃ v, HaltsAt (TooGreat size group) (· - 1) (max estimate 1) v ∧
      HaltsAt (HasRoom size group) (· + 1) v (settle size group estimate.toNat) := by
  have hstart : max estimate 1 = ((max 1 estimate.toNat : Nat) : Int) := by omega
  have hdown : HaltsAt (TooGreat size group) (· - 1) _ _ := haltsAt_lower hgroup (max 1 estimate.toNat)
  have hup := haltsAt_raise (w := lower size group (max 1 estimate.toNat)) hgroup (Nat.le_add_right size _)
  have hpos := (IsRoot.of_haltsAt hsize (by omega) hdown hup).pos
  have hsettle : settle size group estimate.toNat =
      raise size group size (lower size group (max 1 estimate.toNat)) := Nat.max_eq_right (by exact_mod_cast hpos)
  rw [hstart, hsettle]
  exact ⟨_, hdown, hup⟩

theorem isRoot_settle (hsize : 1 ≤ size) (hgroup : 1 ≤ group) (estimate : Int) :
    IsRoot size group (settle size group estimate.toNat) := by
  obtain ⟨v, hdown, hup⟩ := haltsAt_settle hsize hgroup estimate
  exact .of_haltsAt hsize (le_max_right _ _) hdown hup

end Root

theorem tileWidth_eq {size group : Nat} (hgroup : 1 ≤ group) {x : Float} (hx : Number.ofInt? size = some x) :
    tileWidth size group = .ok (Root.settle size group (Root.estimate x group)) := by
  rw [tileWidth, if_neg (by omega), hx]
  simp only [Int.toNat_natCast]
  rw [if_neg (by omega)]

/-! ## Blocks -/

/-- The points of some indices, if no range has more than `width` elements. -/
theorem length_points_le {loops : List (String × List Int)} {width : Nat}
    (h : ∀ l ∈ loops, l.2.length ≤ width) : (points loops).length ≤ width ^ loops.length := by
  induction loops with
  | nil => simp [points]
  | cons l loops ih =>
    obtain ⟨index, values⟩ := l
    have hcount : (points ((index, values) :: loops)).length = values.length * (points loops).length := by
      simp [points, List.length_flatMap]
    rw [hcount, List.length_cons, Nat.pow_succ']
    exact Nat.mul_le_mul (h _ (.head _)) (ih fun l hl => h l (.tail _ hl))

namespace Ranges

/-- Within a block, the range of an index of the group is no longer than the block is wide. -/
theorem length_get_rebind_le {rs : Ranges} {indices : List String} {width : Nat} {block : List Range}
    (h : block ∈ combinations (indices.map fun i => (rs.get i).pieces width)) {i : String} (hi : i ∈ indices) :
    ((rs.rebind indices block).get i).length ≤ width := by
  rw [mem_combinations] at h
  induction indices generalizing block with
  | nil => cases hi
  | cons j indices ih =>
    rcases h with _ | @⟨r, _, block, _, hr, hrest⟩
    rw [rebind_cons, get_cons]
    cases hij : i == j with
    | true => exact Range.length_le_of_mem_pieces hr
    | false =>
      have hne : i ≠ j := ne_of_beq_false hij
      exact ih hrest ((List.mem_cons.1 hi).resolve_left hne)

end Ranges

/-- Blocks of the width of the root have no more points than the size. -/
theorem length_points_block_le {size group : Nat} {w : Int} (hw : Root.IsRoot size group w) {rs : Ranges}
    {indices : List String} (hindices : indices.length = group) :
    ∃ blocks, tileBlocks (indices.map rs.get) (indices.map fun _ => w) = .ok blocks ∧
      ∀ block ∈ blocks, ((rs.rebind indices block).points indices).length ≤ size := by
  obtain ⟨w, rfl⟩ := Int.eq_ofNat_of_zero_le (by have := hw.pos; omega : 0 ≤ w)
  have hpos := hw.pos
  refine ⟨_, tileBlocks_eq rs indices (by omega), fun block hblock => ?_⟩
  have hlengths : ∀ l ∈ indices.map fun i => (i, ((rs.rebind indices block).get i).toList), l.2.length ≤ w := by
    intro l hl
    obtain ⟨i, hi, rfl⟩ := List.mem_map.1 hl
    rw [Range.length_toList]
    exact Ranges.length_get_rebind_le hblock hi
  have hpoints := length_points_le hlengths
  rw [List.length_map, hindices] at hpoints
  exact hpoints.trans (by exact_mod_cast hw.le)

/-- The width of a block is the integer root of its size, and nothing else is. From every estimate,
taken as one if it is less, the loop down and the loop up both end and come to the root, so it is the
width whenever there is an estimate at all; and a block of that width has no more points than the size
allows. -/
theorem width_is_root {size group : Nat} (hsize : 1 ≤ size) (hgroup : 1 ≤ group) :
    ∃ w : Int, (∀ v : Int, 1 ≤ v ∧ v ^ group ≤ size ∧ size < (v + 1) ^ group ↔ v = w) ∧
      (∀ estimate : Int,
        (∃ v, HaltsAt (fun x : Int => size < x ^ group) (fun x => x - 1) (max estimate 1) v ∧
          HaltsAt (fun x : Int => (x + 1) ^ group ≤ size) (fun x => x + 1) v w) ∧
        Root.settle size group estimate.toNat = w) ∧
      (∀ x, Number.ofInt? size = some x → tileWidth size group = .ok w) ∧
      ∀ (rs : Ranges) (indices : List String), indices.length = group →
        ∃ blocks, tileBlocks (indices.map rs.get) (indices.map fun _ => w) = .ok blocks ∧
          ∀ block ∈ blocks, ((rs.rebind indices block).points indices).length ≤ size := by
  have hroot := Root.isRoot_settle hsize hgroup 1
  have hsettle (estimate : Int) : Root.settle size group estimate.toNat = Root.settle size group 1 := by
    exact_mod_cast (Root.isRoot_settle hsize hgroup estimate).unique hroot
  refine ⟨Root.settle size group 1, fun v => ⟨?_, ?_⟩, fun estimate => ⟨?_, ?_⟩, fun x hx => ?_, ?_⟩
  · rintro ⟨hpos, hle, hlt⟩
    exact Root.IsRoot.unique ⟨hpos, hle, hlt⟩ hroot
  · rintro rfl
    exact ⟨hroot.pos, hroot.le, hroot.lt⟩
  · obtain ⟨v, hdown, hup⟩ := Root.haltsAt_settle hsize hgroup estimate
    rw [hsettle] at hup
    exact ⟨v, hdown, hup⟩
  · rw [hsettle]
  · rw [tileWidth_eq hgroup hx]
    exact congrArg (fun n : Nat => Except.ok (n : Int)) (hsettle (Root.estimate x group))
  · exact fun rs indices hindices => length_points_block_le hroot hindices

/-- Blocks of at most 512 points over two indices are 22 wide. -/
theorem width_is_root_square :
    (∀ estimate : Int, Root.settle 512 2 estimate.toNat = 22) ∧ tileWidth 512 2 = .ok 22 := by
  obtain ⟨w, hroot, hloops, hwidth, -⟩ := width_is_root (show 1 ≤ 512 by decide) (show 1 ≤ 2 by decide)
  obtain rfl : 22 = w := (hroot 22).1 (by decide)
  have hfinite : (Number.ofInt? 512).isSome = true := by decide +kernel
  obtain ⟨x, hx⟩ := Option.isSome_iff_exists.1 hfinite
  exact ⟨fun estimate => by exact_mod_cast (hloops estimate).2, hwidth x hx⟩

end IndexNotation
