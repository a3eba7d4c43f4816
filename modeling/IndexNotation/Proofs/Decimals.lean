import IndexNotation.Number.Reader
import IndexNotation.Proofs.Doubles

/-!
# Shortest decimals

The decimal that is printed for a double lies no farther from it than half way to its neighbours,
so that reading it gives the double back. Seventeen digits are always enough: on their grid, the
neighbours of a number are closer to it than half the gap between doubles.
-/

namespace IndexNotation.Number

/-! ## Decimals as quotients -/

theorem scaledTen_den_pos (n : Nat) (e : Int) : 0 < (scaledTen n e).2 := by
  unfold scaledTen
  split
  · exact Nat.one_pos
  · exact Nat.pow_pos (by decide)

theorem scaledTen_div (n : Nat) (e : Int) :
    ((scaledTen n e).1 / (scaledTen n e).2 : ℚ) = n * 10 ^ e := by
  unfold scaledTen
  split
  · next he =>
    lift e to Nat using he
    simp
  · next he =>
    obtain ⟨k, rfl⟩ : ∃ k : Nat, e = -k := ⟨(-e).toNat, by omega⟩
    simp [div_eq_mul_inv]

/-- The number that a decimal stands for. -/
def Decimal.value (d : Decimal) : ℚ :=
  d.digits * 10 ^ d.exponent

theorem Decimal.value_strip (fuel : Nat) (d : Decimal) : (d.strip fuel).value = d.value := by
  induction fuel generalizing d with
  | zero => rfl
  | succ fuel ih =>
    rw [strip]
    split
    · next h =>
      rw [Bool.and_eq_true, beq_iff_eq] at h
      obtain ⟨k, hk⟩ := Nat.dvd_of_mod_eq_zero h.2
      rw [ih, value, value, hk, Nat.mul_div_cancel_left k (by decide), Nat.cast_mul,
        zpow_add_one₀ (by norm_num)]
      push_cast
      ring
    · rfl

theorem digitCount_pos (n : Nat) : 0 < digitCount n :=
  List.length_pos_iff.2 Nat.toDigits_ne_nil

theorem lt_ten_pow_digitCount (n : Nat) : n < 10 ^ digitCount n :=
  (Nat.length_toDigits_le_iff (by decide) (digitCount_pos n)).1 (Nat.le_refl _)

theorem ten_pow_digitCount_le {n : Nat} (hn : 0 < n) : 10 ^ (digitCount n - 1) ≤ n := by
  rcases Nat.eq_or_lt_of_le (digitCount_pos n) with hone | hmore
  · rw [← hone]
    exact hn
  · by_contra hlt
    have := (Nat.length_toDigits_le_iff (b := 10) (by decide) (by omega)).2 (not_le.1 hlt)
    simp only [digitCount] at hmore this
    omega

/-- The leading digit of a decimal is one place below its digit count. -/
theorem value_bounds {n : Nat} (hn : 0 < n) (e : Int) :
    (10 : ℚ) ^ (e + digitCount n - 1) ≤ n * 10 ^ e ∧ (n * 10 ^ e : ℚ) < 10 ^ (e + digitCount n) := by
  have hpow (k : Nat) : (10 : ℚ) ^ (e + k) = 10 ^ k * 10 ^ e := by
    rw [zpow_add₀ (by norm_num), zpow_natCast, mul_comm]
  have hpos := digitCount_pos n
  constructor
  · have hplace : e + digitCount n - 1 = e + (digitCount n - 1 : Nat) := by omega
    rw [hplace, hpow]
    gcongr
    exact_mod_cast ten_pow_digitCount_le hn
  · rw [hpow]
    gcongr
    exact_mod_cast lt_ten_pow_digitCount n

/-- The leading digit of a quotient is not below the place that was found for it. -/
theorem leadingPlace_le {num den : Nat} (hnum : 0 < num) (hden : 0 < den) :
    (10 : ℚ) ^ leadingPlace num den ≤ num / den := by
  have hpos : (0 : ℚ) < den := by exact_mod_cast hden
  have hten : (0 : ℚ) < (scaledTen 1 ((digitCount num : Int) - digitCount den)).2 := by
    exact_mod_cast scaledTen_den_pos _ _
  have hscaled := scaledTen_div 1 ((digitCount num : Int) - digitCount den)
  rw [leadingPlace]
  split
  · next hle =>
    rw [Nat.cast_one, one_mul] at hscaled
    rw [← hscaled, div_le_div_iff₀ hten hpos]
    exact_mod_cast hle
  · rw [le_div_iff₀ hpos]
    have hnumlow := (value_bounds hnum 0).1
    have hdenhigh := (value_bounds hden 0).2
    simp only [zero_add, zpow_zero, mul_one] at hnumlow hdenhigh
    calc (10 : ℚ) ^ ((digitCount num : Int) - digitCount den - 1) * den
        ≤ 10 ^ ((digitCount num : Int) - digitCount den - 1) * 10 ^ (digitCount den : Int) := by gcongr
      _ = 10 ^ ((digitCount num : Int) - 1) := by
          rw [← zpow_add₀ (by norm_num)]
          congr 1
          omega
      _ ≤ num := hnumlow

/-! ## The search -/

variable {m : Nat} {e : Int} {d : Decimal} {i : Interval}

/-- The test for an interval compares with its bounds, in quarters of `2 ^ e`. -/
theorem holds_eq_true_iff : i.holds e d = true ↔
    if i.closed then (i.low / 4 : ℚ) ≤ d.value / 2 ^ e ∧ d.value / 2 ^ e ≤ i.high / 4
    else (i.low / 4 : ℚ) < d.value / 2 ^ e ∧ d.value / 2 ^ e < i.high / 4 := by
  have hten : (0 : ℚ) < (scaledTen d.digits d.exponent).2 := by
    exact_mod_cast scaledTen_den_pos _ _
  have htwo : (0 : ℚ) < (scaled 1 (e - 2)).2 := by exact_mod_cast scaled_den_pos _ _
  have hvalue : d.value = (scaledTen d.digits d.exponent).1 / (scaledTen d.digits d.exponent).2 :=
    (scaledTen_div _ _).symm
  have hunit : (2 : ℚ) ^ e / 4 = (scaled 1 (e - 2)).1 / (scaled 1 (e - 2)).2 := by
    rw [scaled_div, zpow_sub₀ two_ne_zero]
    norm_num
  -- Both sides of each comparison are brought over the denominators of decimal and unit.
  have hle (a : Nat) : (a / 4 : ℚ) ≤ d.value / 2 ^ e ↔ a * (scaled 1 (e - 2)).1 *
      (scaledTen d.digits d.exponent).2 ≤ (scaledTen d.digits d.exponent).1 * (scaled 1 (e - 2)).2 := by
    rw [le_div_iff₀ (by positivity), div_mul_eq_mul_div, mul_div_assoc, hunit, hvalue,
      ← mul_div_assoc, div_le_div_iff₀ htwo hten]
    norm_cast
  have hge (a : Nat) : d.value / 2 ^ e ≤ (a / 4 : ℚ) ↔ (scaledTen d.digits d.exponent).1 *
      (scaled 1 (e - 2)).2 ≤ a * (scaled 1 (e - 2)).1 * (scaledTen d.digits d.exponent).2 := by
    rw [div_le_iff₀ (by positivity), div_mul_eq_mul_div, mul_div_assoc, hunit, hvalue,
      ← mul_div_assoc, div_le_div_iff₀ hten htwo]
    norm_cast
  unfold Interval.holds
  dsimp only
  split
  · next hclosed =>
    rw [Bool.and_eq_true, decide_eq_true_eq, decide_eq_true_eq, hle, hge]
  · next hopen =>
    rw [Bool.and_eq_true, decide_eq_true_eq, decide_eq_true_eq, ← not_le, ← not_le, ← hle, ← hge,
      not_le, not_le]

/-- Whether the neighbour below is half as far away as the one above. -/
def isNarrow (m : Nat) (e : Int) : Bool :=
  m == 2 ^ 52 && decide (-1074 < e)

theorem low_around (hm : 0 < m) (narrow : Bool) :
    ((Interval.around m narrow).low / 4 : ℚ) = m - if narrow then 1 / 4 else 1 / 2 := by
  have hle : (if narrow then 1 else 2) ≤ 4 * m := by split <;> omega
  rw [Interval.around, Nat.cast_sub hle]
  split <;> push_cast <;> ring

theorem high_around (narrow : Bool) : ((Interval.around m narrow).high / 4 : ℚ) = m + 1 / 2 := by
  rw [Interval.around]
  push_cast
  ring

theorem nearby_of_holds (hm : 0 < m) (h : (Interval.around m (isNarrow m e)).holds e d = true) :
    Nearby m e d.value := by
  rw [holds_eq_true_iff, low_around hm, high_around] at h
  have hnarrow : (isNarrow m e = true) = (m = 2 ^ 52 ∧ -1074 < e) := by simp [isNarrow]
  simp only [hnarrow] at h
  split at h
  · next hclosed =>
    refine ⟨h.1, h.2, fun hodd => ?_⟩
    simp only [Interval.around, beq_iff_eq] at hclosed
    omega
  · refine ⟨h.1.le, h.2.le, fun hodd => ?_⟩
    rw [if_neg (by omega)] at h
    exact h

/-- Whatever lies close enough is in the interval. -/
theorem holds_of_close (hm : 0 < m) {narrow : Bool}
    (h : |d.value / 2 ^ e - m| < if narrow then 1 / 4 else 1 / 2) :
    (Interval.around m narrow).holds e d = true := by
  obtain ⟨hlow, hhigh⟩ := abs_lt.1 h
  have hhalf : (if narrow then 1 / 4 else 1 / 2 : ℚ) ≤ 1 / 2 := by split <;> norm_num
  rw [holds_eq_true_iff, low_around hm, high_around]
  split
  · exact ⟨by linarith, by linarith⟩
  · exact ⟨by linarith, by linarith⟩

/-- What is found on a grid lies in the interval. -/
theorem holds_of_candidate {top : Int} {places : Nat} (h : candidate m e i top places = some d) :
    i.holds e d = true := by
  unfold candidate at h
  dsimp only at h
  split at h
  · cases h
    assumption
  · split at h
    · cases h
      assumption
    · split at h
      · cases h
        assumption
      · cases h

theorem holds_search {top : Int} (fuel places : Nat)
    (h : ∃ d, candidate m e i top (places + fuel) = some d) :
    i.holds e (search m e i top fuel places) = true := by
  induction fuel generalizing places with
  | zero =>
    obtain ⟨d, hd⟩ := h
    rw [search, show candidate m e i top places = some d from hd]
    exact holds_of_candidate hd
  | succ fuel ih =>
    rw [search]
    split
    · next d hd => exact holds_of_candidate hd
    · exact ih (places + 1) (by rwa [Nat.add_right_comm, Nat.add_assoc])

theorem scaledTen_one_pos (e : Int) : 0 < (scaledTen 1 e).1 := by
  unfold scaledTen
  split
  · exact Nat.mul_pos Nat.one_pos (Nat.pow_pos (by decide))
  · exact Nat.one_pos

/-- The decimal of a grid that is nearest to a number is no farther from it than half a step. -/
theorem nearest_on_grid (m : Nat) (e grid : Int) :
    |(roundQuotient ((scaled m e).1 * (scaledTen 1 grid).2) ((scaled m e).2 * (scaledTen 1 grid).1) *
      10 ^ grid / 2 ^ e - m : ℚ)| ≤ 10 ^ grid / 2 ^ e / 2 := by
  have hden : 0 < (scaled m e).2 * (scaledTen 1 grid).1 :=
    Nat.mul_pos (scaled_den_pos m e) (scaledTen_one_pos grid)
  have hnear := (@rounds_roundQuotient ((scaled m e).1 * (scaledTen 1 grid).2) _ hden).near
  have hquotient : (((scaled m e).1 * (scaledTen 1 grid).2 : Nat) /
      ((scaled m e).2 * (scaledTen 1 grid).1 : Nat) : ℚ) = m * 2 ^ e / 10 ^ grid := by
    have hscaled := scaled_div m e
    have hten := scaledTen_div 1 grid
    rw [Nat.cast_one, one_mul] at hten
    rw [← hscaled, ← hten, Nat.cast_mul, Nat.cast_mul, div_div_div_eq]
  rw [hquotient] at hnear
  generalize roundQuotient _ _ = n at hnear ⊢
  have htwo : (0 : ℚ) < 2 ^ e := by positivity
  have hten : (0 : ℚ) < 10 ^ grid := by positivity
  have hfactor : (n * 10 ^ grid / 2 ^ e - m : ℚ) = -(m * 2 ^ e / 10 ^ grid - n) * (10 ^ grid / 2 ^ e) := by
    field_simp
    ring
  rw [hfactor, abs_mul, abs_neg, abs_of_pos (div_pos hten htwo), div_eq_mul_one_div _ (2 : ℚ), mul_comm]
  gcongr

/-- Seventeen digits are enough. -/
theorem exists_candidate (hm : 0 < m) (hlt : m < 2 ^ 53) :
    ∃ d, candidate m e (.around m (isNarrow m e)) (leadingPlace (scaled m e).1 (scaled m e).2) 17 = some d := by
  have hnum : 0 < (scaled m e).1 := by
    unfold scaled
    split
    · exact Nat.mul_pos hm (Nat.two_pow_pos _)
    · exact hm
  have hlead := leadingPlace_le hnum (scaled_den_pos m e)
  rw [scaled_div] at hlead
  generalize leadingPlace _ _ = top at hlead ⊢
  have htwo : (0 : ℚ) < 2 ^ e := by positivity
  -- A step of the grid is sixteen places below the leading digit.
  have hstep : (10 : ℚ) ^ (top + 1 - (17 : Nat)) / 2 ^ e / 2 ≤ m / (2 * 10 ^ 16) := by
    have hgrid : (10 : ℚ) ^ (top + 1 - (17 : Nat)) = 10 ^ top / 10 ^ 16 := by
      rw [show top + 1 - (17 : Nat) = top - (16 : Nat) by push_cast; ring, zpow_sub₀ (by norm_num), zpow_natCast]
    rw [hgrid, div_div, div_div, div_le_div_iff₀ (by positivity) (by positivity)]
    calc (10 : ℚ) ^ top * (2 * 10 ^ 16) ≤ (m : ℚ) * 2 ^ e * (2 * 10 ^ 16) := by gcongr
      _ = (m : ℚ) * (10 ^ 16 * (2 ^ e * 2)) := by ring
  have hclose : (m / (2 * 10 ^ 16) : ℚ) < if isNarrow m e then 1 / 4 else 1 / 2 := by
    split
    · next hnarrow =>
      obtain ⟨rfl, -⟩ : m = 2 ^ 52 ∧ -1074 < e := by simpa [isNarrow] using hnarrow
      norm_num
    · have : (m : ℚ) < 2 ^ 53 := by exact_mod_cast hlt
      rw [div_lt_iff₀ (by positivity)]
      linarith
  have hholds := holds_of_close (d := ⟨_, top + 1 - (17 : Nat)⟩) hm
    ((nearest_on_grid m e (top + 1 - (17 : Nat))).trans_lt (hstep.trans_lt hclose))
  exact ⟨_, if_pos hholds⟩

/-! ## Doubles and their decimals -/

/-- The decimal of a positive double lies no farther from it than half way to its neighbours. -/
theorem nearby_shortest (hc : Canonical m e) (hm : 0 < m) :
    Nearby m e (Format.double.shortest m e).value := by
  -- The mantissa of a double has the right length already.
  have hshift : max (Format.double.least - e) ((m.log2 : Int) + 1 - Format.double.precision) = 0 := by
    have hlt : m.log2 < 53 := (Nat.log2_lt hm.ne').2 hc.mantissa
    have hleast := hc.least
    simp only [Format.double]
    rcases hc.normal with hlead | hleast'
    · have hlog : 52 ≤ m.log2 := (Nat.le_log2 hm.ne').2 hlead
      omega
    · omega
  have hshortest : Format.double.shortest m e = (search m e (.around m (isNarrow m e))
      (leadingPlace (scaled m e).1 (scaled m e).2) 16 1).strip 20 := by
    simp only [Format.shortest, hshift]
    simp [isNarrow, Format.double, twoTo_eq]
  rw [hshortest, Decimal.value_strip]
  exact nearby_of_holds hm (holds_search 16 1 (exists_candidate hm hc.mantissa))

theorem Nearby.bounds {q : ℚ} (h : Nearby m e q) (hc : Canonical m e) (hm : 0 < m) :
    (2 : ℚ) ^ (-1075 : Int) ≤ q ∧ q < 2 ^ 1024 := by
  have htwo : (0 : ℚ) < 2 ^ e := by positivity
  have hone : (1 : ℚ) ≤ m := by exact_mod_cast hm
  have hmantissa : (m : ℚ) + 1 ≤ 2 ^ 53 := by exact_mod_cast Nat.succ_le_of_lt hc.mantissa
  constructor
  · have hhalf : 1 / 2 ≤ q / 2 ^ e := by
      refine le_trans ?_ h.low
      split <;> linarith
    calc (2 : ℚ) ^ (-1075 : Int) ≤ 2 ^ (e - 1) := zpow_le_zpow_right₀ one_le_two (by have := hc.least; omega)
      _ = 1 / 2 * 2 ^ e := by rw [zpow_sub_one₀ two_ne_zero]; ring
      _ ≤ q := (le_div_iff₀ htwo).1 hhalf
  · have hbelow : q / 2 ^ e < 2 ^ 53 := by linarith [h.high]
    calc q < 2 ^ 53 * 2 ^ e := (div_lt_iff₀ htwo).1 hbelow
      _ ≤ 2 ^ 53 * 2 ^ (971 : Int) := by
          gcongr
          · exact one_le_two
          · exact hc.greatest
      _ = 2 ^ 1024 := by
          rw [← zpow_natCast, ← zpow_natCast, ← zpow_add₀ two_ne_zero]
          rfl

/-- Whatever lies near a positive double is read as the double. -/
theorem ofDecimal_of_nearby {x : Float} (h : exact x = .finite false m e) (hm : 0 < m) {digits : Nat}
    {exponent : Int} (hnear : Nearby m e (digits * 10 ^ exponent)) : ofDecimal false digits exponent = x := by
  obtain ⟨hc, -⟩ := bits_of_exact h
  have hdigits : 0 < digits := by
    rw [pos_iff_ne_zero]
    rintro rfl
    simpa using hnear.pos hm
  obtain ⟨hlow, hhigh⟩ := hnear.bounds hc hm
  obtain ⟨hplace, hplace'⟩ := value_bounds hdigits exponent
  have hleast : ¬ exponent + digitCount digits < -330 := by
    intro hlt
    have hsmall : (10 : ℚ) ^ (exponent + digitCount digits) ≤ 10 ^ (-330 : Int) :=
      zpow_le_zpow_right₀ (by norm_num) hlt.le
    have hgap : (10 : ℚ) ^ (-330 : Int) < 2 ^ (-1075 : Int) := by
      have hpow : 2 ^ 1075 < 10 ^ 330 := by decide +kernel
      rw [zpow_neg, zpow_neg, inv_lt_inv₀ (by positivity) (by positivity)]
      exact_mod_cast hpow
    exact absurd (hlow.trans (hplace'.le.trans hsmall)) (not_le.2 hgap)
  have hgreatest : ¬ 320 < exponent + digitCount digits := by
    intro hlt
    have hlarge : (10 : ℚ) ^ (320 : Int) ≤ 10 ^ (exponent + digitCount digits - 1) :=
      zpow_le_zpow_right₀ (by norm_num) (by omega)
    have hgap : (2 : ℚ) ^ 1024 < 10 ^ (320 : Int) := by
      have hpow : 2 ^ 1024 < 10 ^ 320 := by decide +kernel
      exact_mod_cast hpow
    exact absurd (hlarge.trans hplace) (not_le.2 (hhigh.trans hgap))
  have hvalue := scaledTen_div digits exponent
  rw [← hvalue] at hnear
  rw [ofDecimal]
  dsimp only
  rw [if_neg (by simpa using ⟨hdigits.ne', not_lt.1 hleast⟩), if_neg hgreatest,
    nearest_of_nearby hc hm (scaledTen_den_pos digits exponent) hnear, assemble_of_exact h]

end IndexNotation.Number
