import IndexNotation.Number.Binary
import Mathlib

/-!
# Doubles and quotients

A double is determined by its bits. A finite one that is not negative is put together from its
mantissa and exponent, and it is what a quotient of integers is rounded to if the quotient lies no
farther from it than half way to its neighbours.
-/

namespace IndexNotation.Number

/-! ## Bits -/

section

open Float.Model Float.Model.UnpackedFloat

theorem unpackExponent_toNat (b : BitVec Format.binary64.numBits) :
    (unpackExponent b).toNat = b.toNat / 2 ^ 52 % 2 ^ 11 := by
  simp [unpackExponent, BitVec.extractLsb, BitVec.extractLsb', Nat.shiftRight_eq_div_pow]

/-- A bit pattern that is not one of a NaN or an infinity is kept. -/
theorem toBits_ofBits {b : UInt64} (h : b.toNat / 2 ^ 52 % 2 ^ 11 ≠ 2047) :
    (Float.ofBits b).toBits = b := by
  have hv : Format.binary64.Valid b.toBitVec := by
    refine ⟨fun hones _ => absurd ?_ h⟩
    have := congrArg BitVec.toNat hones
    rwa [unpackExponent_toNat] at this
  have h : UnpackedFloat.pack .binary64 (unpack .binary64 b.toBitVec) = b.toBitVec :=
    pack_unpack_of_valid hv
  simp only [Float.ofBits, Float.toBits, Float.Model.ofBits, Float.Model.pack, h]

end

/-! ## Mantissas and exponents -/

@[simp] theorem twoTo_eq (n : Nat) : twoTo n = 2 ^ n := rfl

@[simp] theorem tenTo_eq (n : Nat) : tenTo n = 10 ^ n := rfl

theorem withSign_false (x : Float) : withSign false x = x := rfl

/-- The mantissas and exponents that doubles have. -/
structure Canonical (m : Nat) (e : Int) : Prop where
  mantissa : m < 2 ^ 53
  least : -1074 ≤ e
  greatest : e ≤ 971
  /-- A leading bit is missing at the least exponent only. -/
  normal : 2 ^ 52 ≤ m ∨ e = -1074

/-- The bits of the number `m * 2 ^ e`. The leading bit of the mantissa carries into the exponent,
so that one formula covers all numbers, and mantissas of one bit too many. -/
def bitsOf (m : Nat) (e : Int) : Nat :=
  (e + 1074).toNat * 2 ^ 52 + m

variable {x : Float} {negative : Bool} {m : Nat} {e : Int}

theorem bits_of_exact (h : exact x = .finite negative m e) :
    Canonical m e ∧ x.toBits.toNat = negative.toNat * 2 ^ 63 + bitsOf m e := by
  have hbits : x.toBits.toNat < 2 ^ 64 := x.toBits.toNat_lt
  have hsign : (x.toBits.toNat / 2 ^ 63 == 1) = negative →
      negative.toNat = x.toBits.toNat / 2 ^ 63 := by
    rintro rfl
    by_cases hone : x.toBits.toNat / 2 ^ 63 = 1
    · rw [hone]
      rfl
    · rw [beq_false_of_ne hone, Bool.toNat_false]
      omega
  simp only [exact] at h
  generalize x.toBits.toNat = bits at *
  split at h
  · split at h <;> cases h
  · next hones =>
    rw [beq_iff_eq, twoTo_eq, twoTo_eq] at hones
    split at h
    all_goals
      next hzero =>
      rw [beq_iff_eq, twoTo_eq, twoTo_eq] at hzero
      injection h with hneg hm he
      rw [twoTo_eq] at hm
      have := hsign hneg
      refine ⟨⟨?_, ?_, ?_, ?_⟩, ?_⟩ <;> (try simp only [bitsOf, twoTo_eq] at *) <;> omega

theorem assemble_eq (hm : m ≤ 2 ^ 53) (he : -1074 ≤ e) (hnormal : 2 ^ 52 ≤ m ∨ e = -1074) :
    assemble m e = Float.ofBits (bitsOf m e).toUInt64 := by
  unfold assemble bitsOf
  by_cases hzero : m = 0
  · subst hzero
    obtain rfl : e = -1074 := by omega
    rfl
  · rw [if_neg (by simpa using hzero)]
    dsimp only [twoTo_eq]
    by_cases hlead : 2 ^ 52 ≤ m
    · have hlog : 52 ≤ m.log2 := (Nat.le_log2 hzero).2 hlead
      rw [if_neg (by omega)]
      refine congrArg (fun n => Float.ofBits (Nat.toUInt64 n)) ?_
      rcases Nat.lt_or_eq_of_le hm with hlt | rfl
      · have hlog : m.log2 = 52 := (Nat.log2_eq_iff hzero).2 ⟨hlead, hlt⟩
        rw [hlog]
        omega
      · rw [Nat.log2_two_pow]
        omega
    · have hlog : m.log2 < 52 := (Nat.log2_lt hzero).2 (by omega)
      obtain rfl : e = -1074 := by omega
      rw [if_pos (by omega)]
      simp

theorem assemble_carry (he : -1074 < e) : assemble (2 ^ 53) (e - 1) = assemble (2 ^ 52) e := by
  have hcarry : bitsOf (2 ^ 53) (e - 1) = bitsOf (2 ^ 52) e := by
    unfold bitsOf
    omega
  rw [assemble_eq (Nat.le_refl _) (by omega) (.inl (by omega)),
    assemble_eq (by omega) he.le (.inl (Nat.le_refl _)), hcarry]

/-- A finite double that is not negative is put together from its mantissa and its exponent. -/
theorem assemble_of_exact (h : exact x = .finite false m e) : assemble m e = x := by
  obtain ⟨hc, hbits⟩ := bits_of_exact h
  rw [Bool.toNat_false, Nat.zero_mul, Nat.zero_add] at hbits
  rw [assemble_eq hc.mantissa.le hc.least hc.normal, ← hbits]
  exact (congrArg Float.ofBits (UInt64.ofNat_toNat)).trans (Float.ofBits_toBits x)

/-! ## Rounding -/

theorem scaled_den_pos (n : Nat) (e : Int) : 0 < (scaled n e).2 := by
  unfold scaled
  split
  · exact Nat.one_pos
  · exact Nat.two_pow_pos _

theorem scaled_div (n : Nat) (e : Int) : ((scaled n e).1 / (scaled n e).2 : ℚ) = n * 2 ^ e := by
  unfold scaled
  split
  · next he =>
    lift e to Nat using he
    simp
  · next he =>
    obtain ⟨k, rfl⟩ : ∃ k : Nat, e = -k := ⟨(-e).toNat, by omega⟩
    simp [div_eq_mul_inv]

/-- The integer `m` is nearest to `q`, and even if another one is as near. -/
structure Rounds (q : ℚ) (m : Nat) : Prop where
  near : |q - m| ≤ 1 / 2
  tie : m % 2 = 1 → |q - m| < 1 / 2

theorem Rounds.unique {q : ℚ} {m n : Nat} (hm : Rounds q m) (hn : Rounds q n) : m = n := by
  wlog hle : m ≤ n generalizing m n
  · exact (this hn hm (by omega)).symm
  rcases Nat.eq_or_lt_of_le hle with heq | hlt
  · exact heq
  have hm' := abs_le.1 hm.near
  have hn' := abs_le.1 hn.near
  have hone : n = m + 1 := by
    have : (n : ℚ) < m + 2 := by
      by_contra h
      have hgap : (m : ℚ) + 1 ≤ n := by exact_mod_cast hlt
      linarith
    have : n < m + 2 := by exact_mod_cast this
    omega
  subst hone
  -- Half way between two integers, one of which is odd.
  push_cast at hn'
  rcases Nat.mod_two_eq_zero_or_one m with hpar | hpar
  · have := abs_lt.1 (hn.tie (by omega))
    push_cast at this
    linarith
  · have := abs_lt.1 (hm.tie hpar)
    linarith

theorem rounds_roundQuotient {num den : Nat} (hden : 0 < den) :
    Rounds (num / den : ℚ) (roundQuotient num den) := by
  have hpos : (0 : ℚ) < den := by exact_mod_cast hden
  have hdiv : (num / den : ℚ) = (num / den : Nat) + (num % den : Nat) / den := by
    have hnum : (num : ℚ) = den * (num / den : Nat) + (num % den : Nat) := by
      exact_mod_cast (Nat.div_add_mod num den).symm
    rw [div_eq_iff hpos.ne', add_mul, div_mul_cancel₀ _ hpos.ne', mul_comm]
    exact hnum
  have hhalf : ((num % den : Nat) / den : ℚ) < 1 / 2 ↔ 2 * (num % den) < den := by
    rw [div_lt_div_iff₀ hpos two_pos]
    norm_cast
    omega
  have hhalf' : 1 / 2 < ((num % den : Nat) / den : ℚ) ↔ den < 2 * (num % den) := by
    rw [div_lt_div_iff₀ two_pos hpos]
    norm_cast
    omega
  have hfraction : 0 ≤ ((num % den : Nat) / den : ℚ) ∧ ((num % den : Nat) / den : ℚ) < 1 :=
    ⟨by positivity, (div_lt_one hpos).2 (by exact_mod_cast Nat.mod_lt num hden)⟩
  rw [hdiv]
  unfold roundQuotient
  dsimp only
  generalize num % den = r, num / den = q at *
  generalize (r / den : ℚ) = t at *
  split
  · next hlt =>
    have := hhalf.2 hlt
    have habs : |(q + t - q : ℚ)| < 1 / 2 := abs_lt.2 ⟨by linarith, by linarith⟩
    exact ⟨habs.le, fun _ => habs⟩
  · next hge =>
    have hge := not_lt.1 (mt hhalf.1 hge)
    split
    · next hgt =>
      have := hhalf'.2 hgt
      have habs : |(q + t - (q + 1 : Nat) : ℚ)| < 1 / 2 := by
        push_cast
        exact abs_lt.2 ⟨by linarith, by linarith⟩
      exact ⟨habs.le, fun _ => habs⟩
    · next hle =>
      have hle := not_lt.1 (mt hhalf'.1 hle)
      split
      · next heven =>
        rw [beq_iff_eq] at heven
        exact ⟨abs_le.2 ⟨by linarith, by linarith⟩, fun hodd => by omega⟩
      · next hodd =>
        rw [beq_iff_eq] at hodd
        refine ⟨abs_le.2 ?_, fun h => by omega⟩
        push_cast
        exact ⟨by linarith, by linarith⟩

section

variable {num den : Nat}

theorem log2_bounds {n : Nat} (hn : 0 < n) :
    (2 : ℚ) ^ (n.log2 : Int) ≤ n ∧ (n : ℚ) < 2 ^ (n.log2 + 1 : Int) := by
  constructor
  · exact_mod_cast Nat.log2_self_le hn.ne'
  · exact_mod_cast Nat.lt_log2_self

/-- The leading bits of numerator and denominator give the place of the quotient's, or the one
above it. -/
theorem quotient_bounds (hnum : 0 < num) (hden : 0 < den) :
    (2 : ℚ) ^ (num.log2 - den.log2 - 1 : Int) < num / den ∧
      (num / den : ℚ) < 2 ^ (num.log2 - den.log2 + 1 : Int) := by
  obtain ⟨hnlow, hnhigh⟩ := log2_bounds hnum
  obtain ⟨hdlow, hdhigh⟩ := log2_bounds hden
  have hpos : (0 : ℚ) < den := by exact_mod_cast hden
  constructor
  · rw [lt_div_iff₀ hpos]
    calc (2 : ℚ) ^ (num.log2 - den.log2 - 1 : Int) * den
        < 2 ^ (num.log2 - den.log2 - 1 : Int) * 2 ^ (den.log2 + 1 : Int) := by gcongr
      _ = 2 ^ (num.log2 : Int) := by rw [← zpow_add₀ two_ne_zero]; congr 1; omega
      _ ≤ num := hnlow
  · rw [div_lt_iff₀ hpos]
    calc (num : ℚ) < 2 ^ (num.log2 + 1 : Int) := hnhigh
      _ = 2 ^ (num.log2 - den.log2 + 1 : Int) * 2 ^ (den.log2 : Int) := by
          rw [← zpow_add₀ two_ne_zero]; congr 1; omega
      _ ≤ 2 ^ (num.log2 - den.log2 + 1 : Int) * den := by gcongr

theorem scaled_quotient (num den : Nat) (k : Int) :
    ((scaled num (-k)).1 / (den * (scaled num (-k)).2 : Nat) : ℚ) = num / den / 2 ^ k := by
  rw [Nat.cast_mul, mul_comm, ← div_div, scaled_div, zpow_neg, div_div, ← div_eq_mul_inv, div_div,
    mul_comm]

/-- Comparing a scaled quotient with a power of two finds the place of its leading bit. -/
theorem twoTo_le_scaled (hden : 0 < den) (n : Nat) (k : Int) :
    twoTo n * (den * (scaled num (-k)).2) ≤ (scaled num (-k)).1 ↔
      (2 : ℚ) ^ (k + n) ≤ num / den := by
  have hpos : (0 : ℚ) < (den * (scaled num (-k)).2 : Nat) := by
    exact_mod_cast Nat.mul_pos hden (scaled_den_pos num (-k))
  rw [← Nat.cast_le (α := ℚ), Nat.cast_mul, ← le_div_iff₀ hpos, scaled_quotient,
    le_div_iff₀ (by positivity), twoTo_eq, Nat.cast_pow, Nat.cast_ofNat, ← zpow_natCast,
    ← zpow_add₀ two_ne_zero, add_comm]

/-- A quotient whose leading bit is at place `k + 52` is rounded to a multiple of `2 ^ k`, or of
the least number if that is more. -/
theorem nearest_eq (hnum : 0 < num) (hden : 0 < den) {k : Int} (hlow : 2 ^ (k + 52) ≤ (num / den : ℚ))
    (hhigh : (num / den : ℚ) < 2 ^ (k + 53)) {m : Nat}
    (hm : Rounds (num / den / 2 ^ max (-1074) k) m) :
    Format.double.nearest negative num den =
      if 1023 < max (-1074) k + m.log2 then withSign negative infinity
      else withSign negative (assemble m (max (-1074) k)) := by
  obtain ⟨habove, hbelow⟩ := quotient_bounds hnum hden
  have hk : k + 52 < num.log2 - den.log2 + 1 :=
    (zpow_lt_zpow_iff_right₀ one_lt_two).1 (hlow.trans_lt hbelow)
  have hk' : (num.log2 - den.log2 - 1 : Int) < k + 53 :=
    (zpow_lt_zpow_iff_right₀ one_lt_two).1 (habove.trans hhigh)
  -- The leading bit is at the place that the leading bits say, or one below it.
  have hplace (j : Int) (hj : j = (num.log2 : Int) - den.log2 - 53) :
      (if (decide ((scaled num (-(j + 1))).1 < twoTo 53 * (den * (scaled num (-(j + 1))).2)) &&
        decide (twoTo 52 * (den * (scaled num (-(j + 1))).2) ≤ (scaled num (-(j + 1))).1)) = true
        then j + 1 else j) = k := by
    simp only [Bool.and_eq_true, decide_eq_true_eq, ← not_le (a := twoTo _ * _),
      twoTo_le_scaled hden]
    obtain rfl | rfl : k = j ∨ k = j + 1 := by omega
    · refine if_neg fun h => absurd h.2 (not_le.2 ?_)
      rwa [add_assoc]
    · exact if_pos ⟨not_le.2 hhigh, hlow⟩
  let result (k : Int) : Float :=
    let m := roundQuotient (scaled num (-k)).1 (den * (scaled num (-k)).2)
    if 1023 < k + m.log2 then withSign negative infinity else withSign negative (assemble m k)
  have hresult : Format.double.nearest negative num den = result (max (-1074) k) := by
    rw [← hplace _ rfl, Format.nearest, if_neg (by simpa using hnum.ne')]
    rfl
  have hround : Rounds (num / den / 2 ^ max (-1074) k)
      (roundQuotient (scaled num (-max (-1074) k)).1 (den * (scaled num (-max (-1074) k)).2)) := by
    rw [← scaled_quotient]
    exact rounds_roundQuotient (Nat.mul_pos hden (scaled_den_pos num _))
  rw [hresult]
  simp only [result, hround.unique hm]

/-- The quotients that lie no farther from `m * 2 ^ e` than half way to its neighbours, and less far
if the mantissa is odd. Where the mantissa is the least with a leading bit, the neighbour below is
half as far away as the one above. -/
structure Nearby (m : Nat) (e : Int) (q : ℚ) : Prop where
  low : m - (if m = 2 ^ 52 ∧ -1074 < e then 1 / 4 else 1 / 2) ≤ q / 2 ^ e
  high : q / 2 ^ e ≤ m + 1 / 2
  tie : m % 2 = 1 → (m - 1 / 2 : ℚ) < q / 2 ^ e ∧ q / 2 ^ e < m + 1 / 2

variable {q : ℚ}

theorem Nearby.pos (h : Nearby m e q) (hm : 0 < m) : 0 < q := by
  have hone : (1 : ℚ) ≤ m := by exact_mod_cast hm
  have hlow : (m - 1 / 2 : ℚ) ≤ q / 2 ^ e := by
    refine le_trans ?_ h.low
    split <;> linarith
  have hpos : 0 < q / 2 ^ e := by linarith
  rwa [div_pos_iff_of_pos_right (by positivity)] at hpos

/-- Away from the narrow side, the integer nearest to a nearby quotient is the mantissa. -/
theorem Nearby.rounds (h : Nearby m e q) : Rounds (q / 2 ^ e) m := by
  have hlow : (m - 1 / 2 : ℚ) ≤ q / 2 ^ e := by
    refine le_trans ?_ h.low
    split <;> linarith
  refine ⟨abs_le.2 ⟨by linarith, by linarith [h.high]⟩, fun hodd => ?_⟩
  obtain ⟨hlow, hhigh⟩ := h.tie hodd
  exact abs_lt.2 ⟨by linarith, by linarith⟩

/-- The place of the leading bit of a quotient. -/
theorem exists_place (hq : 0 < q) : ∃ k : Int, (2 : ℚ) ^ (k + 52) ≤ q ∧ q < 2 ^ (k + 53) := by
  have hlow : (2 : ℚ) ^ Int.log 2 q ≤ q := by exact_mod_cast Int.zpow_log_le_self one_lt_two hq
  have hhigh : q < (2 : ℚ) ^ (Int.log 2 q + 1) := by
    exact_mod_cast Int.lt_zpow_succ_log_self one_lt_two q
  refine ⟨Int.log 2 q - 52, ?_, ?_⟩
  · rwa [sub_add_cancel]
  · rwa [sub_add_eq_add_sub, add_sub_assoc]

/-- A nearby quotient is rounded to the double. -/
theorem nearest_of_nearby (hc : Canonical m e) (hm : 0 < m) (hden : 0 < den)
    (h : Nearby m e (num / den)) : Format.double.nearest false num den = assemble m e := by
  have hq := h.pos hm
  have hnum : 0 < num := by
    rw [pos_iff_ne_zero]
    rintro rfl
    simp at hq
  have hscale : (0 : ℚ) < 2 ^ e := by positivity
  have hpow (n : Nat) : (2 : ℚ) ^ (e + n) = 2 ^ n * 2 ^ e := by
    rw [zpow_add₀ two_ne_zero, zpow_natCast, mul_comm]
  obtain ⟨k, hlow, hhigh⟩ := exists_place hq
  have hle : k ≤ e := by
    have hupper : (num / den : ℚ) < 2 ^ (e + (53 : Nat)) := by
      have hmantissa : (m : ℚ) + 1 ≤ 2 ^ 53 := by exact_mod_cast Nat.succ_le_of_lt hc.mantissa
      rw [hpow 53, ← div_lt_iff₀ hscale]
      linarith [h.high]
    have := (zpow_lt_zpow_iff_right₀ one_lt_two).1 (hlow.trans_lt hupper)
    omega
  by_cases hexponent : max (-1074) k = e
  · have hlog : m.log2 < 53 := (Nat.log2_lt hm.ne').2 hc.mantissa
    have := hc.greatest
    rw [nearest_eq hnum hden hlow hhigh (hexponent.symm ▸ h.rounds), hexponent, if_neg (by omega),
      withSign_false]
  · -- The quotient is below the least number with this exponent, which is what it is rounded to.
    have hnarrow : -1074 < e := by have := hc.least; omega
    have hnormal : 2 ^ 52 ≤ m := by have := hc.normal; omega
    have hbelow : (num / den / 2 ^ e : ℚ) < 2 ^ 52 := by
      rw [div_lt_iff₀ hscale, ← hpow 52]
      exact hhigh.trans_le (zpow_le_zpow_right₀ one_le_two (by push_cast; omega))
    have hleast : m = 2 ^ 52 := by
      by_contra hne
      have hmore : (2 : ℚ) ^ 52 + 1 ≤ m := by
        exact_mod_cast (show 2 ^ 52 + 1 ≤ m by omega)
      have := h.low
      rw [if_neg fun h => hne h.1] at this
      linarith
    have hquarter := h.low
    rw [if_pos ⟨hleast, hnarrow⟩, hleast] at hquarter
    push_cast at hquarter
    have hk : k = e - 1 := by
      have hlower : (2 : ℚ) ^ (e + (51 : Nat)) ≤ num / den := by
        rw [hpow 51, ← le_div_iff₀ hscale]
        linarith
      have := (zpow_lt_zpow_iff_right₀ one_lt_two).1 (hlower.trans_lt hhigh)
      omega
    have hdouble : (num / den / 2 ^ (e - 1) : ℚ) = 2 * (num / den / 2 ^ e) := by
      rw [zpow_sub_one₀ two_ne_zero]
      field_simp
    have hrounds : Rounds (num / den / 2 ^ max (-1074) k) (2 ^ 53) := by
      rw [max_eq_right (by omega), hk, hdouble]
      refine ⟨abs_le.2 ⟨?_, ?_⟩, fun hodd => by omega⟩
      all_goals
        push_cast
        linarith
    have := hc.greatest
    rw [nearest_eq hnum hden hlow hhigh hrounds, max_eq_right (by omega), hk, Nat.log2_two_pow,
      if_neg (by push_cast; omega), withSign_false, hleast, assemble_carry hnarrow]

/-- Rounding gives infinity, or a double that is put together within range. -/
theorem nearest_cases (hden : 0 < den) : Format.double.nearest false num den = infinity ∨
    ∃ m e, Format.double.nearest false num den = assemble m e ∧ m ≤ 2 ^ 53 ∧ -1074 ≤ e ∧
      (2 ^ 52 ≤ m ∨ e = -1074) ∧ bitsOf m e < 2047 * 2 ^ 52 := by
  rcases Nat.eq_zero_or_pos num with rfl | hnum
  · refine .inr ⟨0, -1074, ?_, by omega, by omega, .inr rfl, by simp [bitsOf]⟩
    simp [Format.nearest, assemble, withSign_false]
  have hq : (0 : ℚ) < num / den := by positivity
  obtain ⟨k, hlow, hhigh⟩ := exists_place hq
  have hround : Rounds (num / den / 2 ^ max (-1074) k)
      (roundQuotient (scaled num (-max (-1074) k)).1 (den * (scaled num (-max (-1074) k)).2)) := by
    rw [← scaled_quotient]
    exact rounds_roundQuotient (Nat.mul_pos hden (scaled_den_pos num _))
  rw [nearest_eq hnum hden hlow hhigh hround]
  generalize roundQuotient _ _ = m at hround ⊢
  obtain ⟨hmlow, hmhigh⟩ := abs_le.1 hround.near
  have hscale (k : Int) : (0 : ℚ) < 2 ^ k := by positivity
  have hpow (k : Int) (n : Nat) : (2 : ℚ) ^ (k + n) = 2 ^ n * 2 ^ k := by
    rw [zpow_add₀ two_ne_zero, zpow_natCast, mul_comm]
  have hmax : m ≤ 2 ^ 53 := by
    have : (num / den / 2 ^ max (-1074) k : ℚ) < 2 ^ 53 := by
      rw [div_lt_iff₀ (hscale _), ← hpow _ 53]
      exact hhigh.trans_le (zpow_le_zpow_right₀ one_le_two (by push_cast; omega))
    have : m < 2 ^ 53 + 1 := by
      rw [← Nat.cast_lt (α := ℚ)]
      push_cast
      linarith
    omega
  have hnormal : 2 ^ 52 ≤ m ∨ max (-1074) k = -1074 := by
    refine or_iff_not_imp_right.2 fun hleast => ?_
    have hmaxk : max (-1074) k = k := by omega
    have : (2 ^ 52 : ℚ) ≤ num / den / 2 ^ max (-1074) k := by
      rw [hmaxk, le_div_iff₀ (hscale _), ← hpow _ 52]
      exact hlow
    have : 2 ^ 52 < m + 1 := by
      rw [← Nat.cast_lt (α := ℚ)]
      push_cast
      linarith
    omega
  rw [withSign_false, withSign_false]
  split
  · exact .inl rfl
  · next hle =>
    refine .inr ⟨m, _, rfl, hmax, by omega, hnormal, ?_⟩
    generalize max (-1074) k = e at hle hnormal ⊢
    unfold bitsOf
    by_cases hlead : 2 ^ 52 ≤ m
    · rcases Nat.lt_or_eq_of_le hmax with hlt | heq
      · have hlog : m.log2 = 52 := (Nat.log2_eq_iff (by omega)).2 ⟨hlead, hlt⟩
        omega
      · have hlog : m.log2 = 53 := by rw [heq, Nat.log2_two_pow]
        omega
    · omega

theorem exact_infinity : exact infinity = .infinite false := by
  decide +kernel

/-- A quotient is not rounded to a negative number. -/
theorem nearest_nonneg (num : Nat) (hden : 0 < den)
    (h : exact (Format.double.nearest false num den) = .finite negative m e) : negative = false := by
  rcases @nearest_cases num den hden with hinf | ⟨m', e', heq, hm, he, hnormal, hbits⟩
  · rw [hinf] at h
    cases exact_infinity.symm.trans h
  · rw [heq] at h
    obtain ⟨-, htotal⟩ := bits_of_exact h
    have hsmall : (bitsOf m' e').toUInt64.toNat = bitsOf m' e' :=
      UInt64.toNat_ofNat_of_lt' (by simp only [UInt64.size]; omega)
    have hfield : (bitsOf m' e').toUInt64.toNat / 2 ^ 52 % 2 ^ 11 ≠ 2047 := by
      rw [hsmall]
      omega
    rw [assemble_eq hm he hnormal, toBits_ofBits hfield, hsmall] at htotal
    cases negative with
    | false => rfl
    | true =>
      rw [Bool.toNat_true] at htotal
      omega

end

end IndexNotation.Number
