import IndexNotation.Proofs.Decimals
import IndexNotation.Proofs.Numerals

/-!
# Texts of doubles

A double is written as digits with a point, with a power of ten, or with both. Whatever of these it
is, the text is one number of the grammar, and reading it takes the digits without the point to the
power that is left, so the double comes back from the shortest decimal for it.
-/

namespace IndexNotation

open Number Terminal Text

/-! ## Digits -/

namespace Text

theorem digitsToNat_append (a b : List Char) :
    digitsToNat (a ++ b) = digitsToNat a * 10 ^ b.length + digitsToNat b := by
  suffices ∀ init, b.foldl (fun n c => 10 * n + (digitValue? c).getD 0) init =
      init * 10 ^ b.length + digitsToNat b by
    rw [digitsToNat, List.foldl_append, this]
    rfl
  induction b with
  | nil => simp [digitsToNat]
  | cons c b ih =>
    intro init
    rw [digitsToNat, List.foldl_cons, List.foldl_cons, ih, ih, List.length_cons, pow_succ]
    ring

theorem digitsToNat_replicate_zero (n : Nat) : digitsToNat (List.replicate n '0') = 0 := by
  induction n with
  | zero => rfl
  | succ n ih =>
    rw [List.replicate_succ', digitsToNat_append, ih]
    rfl

theorem isDigit_of_isAsciiDigit {c : Char} (h : isAsciiDigit c) : c.isDigit := by
  simpa [Char.isDigit, isAsciiDigit, Char.le_def] using h

theorem digitsToNat_lt {cs : List Char} (h : ∀ c ∈ cs, isAsciiDigit c) :
    digitsToNat cs < 10 ^ cs.length := by
  induction cs using List.reverseRecOn with
  | nil => exact Nat.one_pos
  | append_singleton cs c ih =>
    simp only [List.mem_append, List.mem_singleton] at h
    have hc : c.isDigit := isDigit_of_isAsciiDigit (h c (.inr rfl))
    have hle : c.toNat ≤ 57 := by
      simp only [Char.isDigit, Bool.and_eq_true, decide_eq_true_eq, UInt32.le_iff_toNat_le] at hc
      exact hc.2
    have hlast : digitsToNat [c] = c.toNat - 48 := by
      simp [digitsToNat, digitValue?_of_isDigit hc]
    have := ih fun c hc => h c (.inl hc)
    rw [digitsToNat_append, hlast, List.length_append, List.length_singleton, pow_one, pow_succ]
    omega

theorem isBlank_of_isDigit {c : Char} (h : c.isDigit) : isBlank c = false := by
  have hle : 48 ≤ c.toNat ∧ c.toNat ≤ 57 := by
    simpa [Char.isDigit, UInt32.le_iff_toNat_le] using h
  unfold isBlank
  simp only [Bool.or_eq_false_iff, Bool.and_eq_false_iff, decide_eq_false_iff_not, beq_eq_false_iff_ne]
  omega

theorem ne_of_isDigit {c d : Char} (h : c.isDigit) (hd : d.isDigit = false) : c ≠ d := by
  rintro rfl
  exact absurd h (by simp [hd])

theorem toLower_of_isDigit {c : Char} (h : c.isDigit) : c.toLower = c := by
  have hle : 48 ≤ c.val.toNat ∧ c.val.toNat ≤ 57 := by
    simpa [Char.isDigit, UInt32.le_iff_toNat_le] using h
  have hupper : ¬ c.val ≥ 'A'.val := by
    rw [ge_iff_le, UInt32.le_iff_toNat_le]
    have : 'A'.val.toNat = 65 := rfl
    omega
  exact dif_neg fun h => hupper h.1

theorem trimChars_eq_self {cs : List Char} (h : ∀ c ∈ cs, isBlank c = false) : trimChars cs = cs := by
  have hdrop : ∀ ds : List Char, (∀ c ∈ ds, isBlank c = false) → ds.dropWhile isBlank = ds := by
    intro ds hds
    cases ds with
    | nil => rfl
    | cons c ds => simp [hds c (by simp)]
  rw [trimChars, hdrop cs h, hdrop cs.reverse (by simpa using h), List.reverse_reverse]

end Text

/-! ## Decimals in writing -/

namespace Number

theorem joinDigits_eq {cs : List Char} (h : ∀ c ∈ cs, c.isDigit) (after : Bool) :
    joinDigits after cs = some cs := by
  induction cs generalizing after with
  | nil => rfl
  | cons c cs ih =>
    rw [List.forall_mem_cons] at h
    have hc : c ≠ '_' := ne_of_isDigit h.1 (by decide)
    rw [joinDigits.eq_def]
    split
    · next heq => cases heq
    · next heq => exact absurd (List.cons.inj heq).1 hc
    · next heq =>
      obtain ⟨rfl, rfl⟩ := List.cons.inj heq
      rw [if_pos (isDigit_of_isDigit h.1), ih h.2]
      rfl

theorem readDigits?_eq {cs : List Char} (hne : cs ≠ []) (h : ∀ c ∈ cs, c.isDigit) :
    readDigits? cs = some (digitsToNat cs, cs.length) := by
  obtain ⟨c, cs, rfl⟩ := List.exists_cons_of_ne_nil hne
  rw [readDigits?, joinDigits_eq h]
  rfl

/-- A decimal as it is written: digits, a point with digits behind it, and a power of ten with its
sign. No digits behind the point means no point, and no digits of the power no power. -/
structure Notated where
  whole : List Char
  fraction : List Char
  negative : Bool
  power : List Char
  whole_ne_nil : whole ≠ []
  digits : ∀ c ∈ whole ++ fraction ++ power, c.isDigit

namespace Notated

variable (n : Notated)

/-- The point and what is behind it. -/
def point : List Char :=
  if n.fraction = [] then [] else '.' :: n.fraction

/-- The letter of the power and what is behind it. -/
def scale : List Char :=
  if n.power = [] then [] else 'e' :: (if n.negative then '-' else '+') :: n.power

def text : List Char :=
  n.whole ++ (n.point ++ n.scale)

/-- The power of ten that the last digit stands for. -/
def exponent : Int :=
  (if n.negative then -(digitsToNat n.power : Int) else digitsToNat n.power) - n.fraction.length

theorem isDigit_whole : ∀ c ∈ n.whole, c.isDigit := fun c hc =>
  n.digits c (by simp [hc])

theorem isDigit_fraction : ∀ c ∈ n.fraction, c.isDigit := fun c hc =>
  n.digits c (by simp [hc])

theorem isDigit_power : ∀ c ∈ n.power, c.isDigit := fun c hc =>
  n.digits c (by simp [hc])

theorem readExponent?_scale : readExponent? n.scale =
    some (if n.negative then -(digitsToNat n.power : Int) else digitsToNat n.power) := by
  unfold scale
  split
  · next h => simp [h, readExponent?, digitsToNat]
  · next h =>
    have hread := readDigits?_eq h n.isDigit_power
    cases hn : n.negative <;> simp [readExponent?, takeSign, hread]

theorem head_scale {y : Char} (h : y ∈ n.scale.head?) : y = 'e' ∧ n.power ≠ [] := by
  unfold scale at h
  split at h
  · cases h
  · next hp => exact ⟨by simpa using h.symm, hp⟩

/-- What follows the digits starts with a point or with the letter of a power. -/
theorem head_point_scale {y : Char} (h : y ∈ (n.point ++ n.scale).head?) :
    y = '.' ∧ n.fraction ≠ [] ∨ y = 'e' ∧ n.fraction = [] ∧ n.power ≠ [] := by
  unfold point at h
  split at h
  · next hf =>
    obtain ⟨rfl, hp⟩ := n.head_scale h
    exact .inr ⟨rfl, hf, hp⟩
  · next hf => exact .inl ⟨by simpa using h.symm, hf⟩

theorem readUnsigned?_text : readUnsigned? false n.text =
    some (ofDecimal false (digitsToNat (n.whole ++ n.fraction)) n.exponent) := by
  -- Digits are taken as far as they go; neither the point nor the letter is one.
  have hpart : ∀ cs : List Char, (∀ c ∈ cs, c.isDigit) → ∀ c ∈ cs, (isDigit c || c == '_') = true :=
    fun cs hcs c hc => by simp [isDigit_of_isDigit (hcs c hc)]
  have hstop : ∀ y ∈ (n.point ++ n.scale).head?, (isDigit y || y == '_') = false := by
    intro y hy
    rcases n.head_point_scale hy with ⟨rfl, -⟩ | ⟨rfl, -⟩ <;> decide
  have hstop' : ∀ y ∈ n.scale.head?, (isDigit y || y == '_') = false := by
    intro y hy
    rw [(n.head_scale hy).1]
    decide
  have hwhole := readDigits?_eq n.whole_ne_nil n.isDigit_whole
  have hempty : n.whole.isEmpty = false := by simpa using n.whole_ne_nil
  unfold readUnsigned? text
  dsimp only
  rw [takeWhile_append_of_stop (hpart _ n.isDigit_whole) hstop,
    dropWhile_append_of_stop (hpart _ n.isDigit_whole) hstop]
  by_cases hf : n.fraction = []
  · have hnil : n.point = [] := if_pos hf
    have hscale : readExponent? n.scale = some n.exponent := by
      rw [n.readExponent?_scale, exponent, hf]
      simp
    rw [hnil, List.nil_append]
    split
    · next heq => exact absurd (n.head_scale (by rw [heq]; rfl)).1 (by decide)
    · rw [hwhole, hscale, hf, List.append_nil]
      rfl
  · have hcons : n.point = '.' :: n.fraction := if_neg hf
    have hfraction := readDigits?_eq hf n.isDigit_fraction
    have hempty' : n.fraction.isEmpty = false := by simpa using hf
    rw [hcons, List.cons_append]
    split
    · next heq =>
      obtain ⟨-, rfl⟩ := List.cons.inj heq
      rw [takeWhile_append_of_stop (hpart _ n.isDigit_fraction) hstop',
        dropWhile_append_of_stop (hpart _ n.isDigit_fraction) hstop', hempty, Bool.false_and,
        if_neg Bool.false_ne_true, readFraction?, readFraction?, hempty, hempty',
        if_neg Bool.false_ne_true, if_neg Bool.false_ne_true, hwhole, hfraction,
        n.readExponent?_scale, digitsToNat_append]
      rfl
    · next hne => exact absurd rfl (hne _)

/-- No character of a written decimal is a blank or a digit of another script. -/
theorem plain_of_mem {c : Char} (h : c ∈ n.text) :
    isBlank c = false ∧ (isDigit c && !isAsciiDigit c) = false := by
  have hdigit : ∀ c : Char, c.isDigit → isBlank c = false ∧ (isDigit c && !isAsciiDigit c) = false :=
    fun c hc => ⟨isBlank_of_isDigit hc, by simp [isAsciiDigit_of_isDigit hc]⟩
  have hmark : ∀ c ∈ ['.', 'e', '+', '-'],
      isBlank c = false ∧ (isDigit c && !isAsciiDigit c) = false := by decide
  have hsplit : c ∈ n.whole ++ n.fraction ++ n.power ∨ c ∈ ['.', 'e', '+', '-'] := by
    have hpoint : c ∈ n.point → c ∈ n.fraction ∨ c = '.' := by
      unfold point
      split
      · simp
      · exact fun h => (List.mem_cons.1 h).symm
    have hscale : c ∈ n.scale → c ∈ n.power ∨ c = 'e' ∨ c = '+' ∨ c = '-' := by
      unfold scale
      split
      · simp
      · intro hmem
        rcases List.mem_cons.1 hmem with rfl | hmem
        · exact .inr (.inl rfl)
        rcases List.mem_cons.1 hmem with rfl | hmem
        · cases n.negative
          · exact .inr (.inr (.inl rfl))
          · exact .inr (.inr (.inr rfl))
        · exact .inl hmem
    simp only [text, List.mem_append, List.mem_cons, List.not_mem_nil, or_false] at h ⊢
    rcases h with h | h | h
    · exact .inl (.inl (.inl h))
    · rcases hpoint h with h | h
      · exact .inl (.inl (.inr h))
      · exact .inr (.inl h)
    · rcases hscale h with h | h
      · exact .inl (.inr h)
      · exact .inr (.inr h)
  exact hsplit.elim (fun h => hdigit c (n.digits c h)) (hmark c)

variable {n}

theorem readFloat?_text : readFloat? (String.ofList n.text) =
    some (ofDecimal false (digitsToNat (n.whole ++ n.fraction)) n.exponent) := by
  obtain ⟨c, cs, hw⟩ := List.exists_cons_of_ne_nil n.whole_ne_nil
  have hc : c.isDigit := n.isDigit_whole c (by simp [hw])
  have htext : n.text = c :: (cs ++ (n.point ++ n.scale)) := by rw [text, hw, List.cons_append]
  have hsign : takeSign n.text = (false, n.text) := by
    rw [htext]
    unfold takeSign
    split
    · next heq => exact absurd (List.cons.inj heq).1 (ne_of_isDigit hc (by decide))
    · next heq => exact absurd (List.cons.inj heq).1 (ne_of_isDigit hc (by decide))
    · rfl
  have hne (w : String) (hw : w ∈ ["inf", "infinity", "nan"]) :
      (String.ofList (n.text.map Char.toLower) == w) = false := by
    rw [beq_eq_false_iff_ne]
    rintro rfl
    rw [htext] at hw
    simp [← String.toList_inj, toLower_of_isDigit hc, ne_of_isDigit hc] at hw
  rw [readFloat?, String.toList_ofList, trimChars_eq_self fun c hc => (n.plain_of_mem hc).1, hsign]
  dsimp only
  rw [hne "inf" (by simp), hne "infinity" (by simp), hne "nan" (by simp)]
  exact n.readUnsigned?_text

/-- A decimal with a point or a power is read as a double. -/
theorem read_text (h : n.fraction ≠ [] ∨ n.power ≠ []) : Numeral.read (String.ofList n.text) =
    .ok (.float (ofDecimal false (digitsToNat (n.whole ++ n.fraction)) n.exponent)) := by
  obtain ⟨c, cs, hw⟩ := List.exists_cons_of_ne_nil n.whole_ne_nil
  have hc : c.isDigit := n.isDigit_whole c (by simp [hw])
  have hstart : Numeral.strangeStart? n.text = none := by
    rw [text, hw, List.cons_append]
    exact Numeral.strangeStart?_of_isDigit hc
  have hascii : ∀ c ∈ n.whole, isAsciiDigit c := fun c hc =>
    isAsciiDigit_of_isDigit (n.isDigit_whole c hc)
  -- The character after the digits is there, and it is no digit.
  obtain ⟨y, hy⟩ : ∃ y, (n.point ++ n.scale).head? = some y := by
    refine Option.isSome_iff_exists.1 ?_
    unfold point scale
    rcases h with h | h <;> simp [h]
  have hmark : (y == '.' || y == 'e' || y == 'E') = true := by
    rcases n.head_point_scale hy with ⟨rfl, -⟩ | ⟨rfl, -⟩ <;> rfl
  have hafter : isAsciiDigit y = false := by
    rcases n.head_point_scale hy with ⟨rfl, -⟩ | ⟨rfl, -⟩ <;> rfl
  have hstop : ∀ x ∈ (n.point ++ n.scale).head?, isAsciiDigit x = false := by
    intro x hx
    cases Option.mem_unique hx hy
    exact hafter
  have hzeros : Numeral.hasLeadingZeros n.text = false := by
    rw [Numeral.hasLeadingZeros, text, takeWhile_append_of_stop hascii hstop,
      dropWhile_append_of_stop hascii hstop, hy, Option.any_some, hmark]
    simp
  have hstrange : n.text.any (fun c => isDigit c && !isAsciiDigit c) = false := by
    rw [List.any_eq_false]
    intro x hx
    rw [(n.plain_of_mem hx).2]
    exact Bool.false_ne_true
  have hall : n.text.all isAsciiDigit = false := by
    rw [List.all_eq_false]
    refine ⟨y, ?_, by simp [hafter]⟩
    exact List.mem_append_right _ (List.mem_of_mem_head? hy)
  rw [Numeral.read, String.toList_ofList, hstart, readFloat?_text]
  simp only [hzeros, hstrange, hall, if_false, Bool.false_eq_true, Option.getD_some]

theorem mem_number : n.text ∈ Lexicon.number := by
  have hdigit {cs : List Char} (h : ∀ c ∈ cs, c.isDigit) : ∀ c ∈ cs, isDigit c := fun c hc =>
    isDigit_of_isDigit (h c hc)
  refine ⟨n.whole ++ n.point, Lexicon.mem_mantissa.2 ?_, n.scale, ?_, by simp [text]⟩
  · unfold point
    split
    · exact .inr (by simpa using ⟨n.whole_ne_nil, hdigit n.isDigit_whole⟩)
    · exact .inl ⟨n.whole, n.fraction, rfl, hdigit n.isDigit_whole, hdigit n.isDigit_fraction,
        .inl n.whole_ne_nil⟩
  · unfold scale
    split
    · exact .inl rfl
    · next hp =>
      refine .inr (Lexicon.mem_exponent.2 ⟨'e', [if n.negative then '-' else '+'], n.power, rfl,
        .inl rfl, ?_, hp, hdigit n.isDigit_power⟩)
      cases n.negative <;> simp

theorem exponent_scale {rest : List Char}
    (hrest : ∀ y ∈ rest.head?, isDigit y = false ∧ y ≠ 'e' ∧ y ≠ 'E') :
    Terminal.exponent (n.scale ++ rest) = n.scale.length := by
  unfold scale
  split
  · exact exponent_eq_zero fun y hy => (hrest y hy).2
  · next hp =>
    have hsign : ∀ negative : Bool, ((if negative then '-' else '+') == '+' ||
        (if negative then '-' else '+') == '-') = true := by decide
    have htake : (n.power ++ rest).takeWhile isDigit = n.power :=
      takeWhile_append_of_stop (fun c hc => isDigit_of_isDigit (n.isDigit_power c hc))
        fun y hy => (hrest y hy).1
    have hpos : 0 < n.power.length := List.length_pos_iff.2 hp
    simp only [List.cons_append, Terminal.exponent, List.head?_cons, Option.any_some, hsign,
      beq_self_eq_true, Bool.true_or, if_true, List.drop_succ_cons, List.drop_zero, htake,
      beq_iff_eq, List.length_cons]
    rw [if_neg hpos.ne']
    omega

/-- A decimal with a point or a power ends where no digit and no power follow. -/
theorem number_text (h : n.fraction ≠ [] ∨ n.power ≠ []) {rest : List Char}
    (hrest : ∀ y ∈ rest.head?, isDigit y = false ∧ y ≠ 'e' ∧ y ≠ 'E') :
    Terminal.number (n.text ++ rest) = n.text.length := by
  have hdigit {cs : List Char} (h : ∀ c ∈ cs, c.isDigit) : ∀ c ∈ cs, isDigit c := fun c hc =>
    isDigit_of_isDigit (h c hc)
  have hscale : ∀ y ∈ (n.scale ++ rest).head?, isDigit y = false := by
    intro y hy
    cases hs : n.scale with
    | nil => exact (hrest y (by simpa [hs] using hy)).1
    | cons x xs =>
      obtain rfl : x = y := by simpa [hs] using hy
      obtain ⟨rfl, -⟩ := n.head_scale (y := x) (by rw [hs]; rfl)
      decide
  have hmantissa : Terminal.mantissa (n.text ++ rest) = (n.whole ++ n.point).length := by
    have hassoc : n.text ++ rest = n.whole ++ (n.point ++ (n.scale ++ rest)) := by simp [text]
    rw [hassoc]
    by_cases hf : n.fraction = []
    · have hnil : n.point = [] := if_pos hf
      rw [hnil, List.nil_append, List.append_nil, mantissa_of_no_point,
        takeWhile_append_of_stop (hdigit n.isDigit_whole) hscale]
      rw [dropWhile_append_of_stop (hdigit n.isDigit_whole) hscale]
      have hp := h.resolve_left fun h => h hf
      simp [scale, hp]
    · have hcons : n.point = '.' :: n.fraction := if_neg hf
      have hdot : ∀ y ∈ ('.' :: (n.fraction ++ (n.scale ++ rest))).head?, isDigit y = false := by
        simpa using (by decide : isDigit '.' = false)
      rw [hcons, List.cons_append, mantissa_of_point
        (dropWhile_append_of_stop (hdigit n.isDigit_whole) hdot),
        takeWhile_append_of_stop (hdigit n.isDigit_whole) hdot,
        takeWhile_append_of_stop (hdigit n.isDigit_fraction) hscale, if_neg fun h => hf h.2]
  have hpos : 0 < n.whole.length := List.length_pos_iff.2 n.whole_ne_nil
  have hdrop : (n.text ++ rest).drop (n.whole ++ n.point).length = n.scale ++ rest := by
    have hassoc : n.text ++ rest = (n.whole ++ n.point) ++ (n.scale ++ rest) := by simp [text]
    rw [hassoc, List.drop_left]
  rw [number_eq, hmantissa, if_neg (by rw [List.length_append]; omega), hdrop, exponent_scale hrest]
  simp [text, Nat.add_assoc]

end Notated

/-! ## Layouts -/

/-- A written decimal stands for the number that it is the layout of. -/
structure Notated.Shows (n : Notated) (d : Decimal) : Prop where
  marked : n.fraction ≠ [] ∨ n.power ≠ []
  value : (digitsToNat (n.whole ++ n.fraction) : ℚ) * 10 ^ n.exponent = d.value

theorem isDigit_padded {k n : Nat} {c : Char} (h : c ∈ List.replicate k '0' ++ Nat.toDigits 10 n) :
    c.isDigit := by
  rcases List.mem_append.1 h with h | h
  · rw [List.eq_of_mem_replicate h]
    rfl
  · exact isDigit_of_mem_toDigits h

theorem digitsToNat_padded (k n : Nat) :
    digitsToNat (List.replicate k '0' ++ Nat.toDigits 10 n) = n := by
  rw [digitsToNat_append, digitsToNat_replicate_zero, digitsToNat_toDigits, Nat.zero_mul, Nat.zero_add]

theorem exists_shows_positional (d : Decimal) :
    ∃ n : Notated, n.Shows d ∧ positional d = String.ofList n.text := by
  unfold positional
  dsimp only
  split
  · next hexp =>
    obtain ⟨k, hk⟩ := Int.eq_ofNat_of_zero_le hexp
    let n : Notated :=
      { whole := Nat.toDigits 10 d.digits ++ List.replicate d.exponent.toNat '0'
        fraction := ['0']
        negative := false
        power := []
        whole_ne_nil := by simp [Nat.toDigits_ne_nil]
        digits := by
          intro c hc
          simp only [List.append_nil, List.mem_append, List.mem_replicate, List.mem_singleton] at hc
          rcases hc with (h | ⟨-, rfl⟩) | rfl
          · exact isDigit_of_mem_toDigits h
          · rfl
          · rfl }
    refine ⟨n, ⟨.inl (by simp [n]), ?_⟩, ?_⟩
    · have hvalue : digitsToNat (n.whole ++ n.fraction) = d.digits * 10 ^ k * 10 := by
        have hzero : digitsToNat ['0'] = 0 := digitsToNat_replicate_zero 1
        simp only [n, digitsToNat_append, digitsToNat_replicate_zero, digitsToNat_toDigits, hzero, hk,
          List.length_replicate, List.length_singleton, Int.toNat_natCast, Nat.add_zero, pow_one]
      have hexponent : n.exponent = -1 := rfl
      rw [hvalue, hexponent, Decimal.value, hk]
      push_cast
      rw [zpow_natCast, zpow_neg_one]
      ring
    · rw [← String.toList_inj]
      simp [Notated.text, Notated.point, Notated.scale, n]
  · next hexp =>
    obtain ⟨k, hk⟩ : ∃ k : Nat, d.exponent = -(k + 1 : Nat) := ⟨(-d.exponent).toNat - 1, by omega⟩
    have hplaces : (-d.exponent).toNat = k + 1 := by omega
    rw [hplaces]
    generalize hpadded : List.replicate (k + 1 + 1 - (Nat.toDigits 10 d.digits).length) '0' ++
      Nat.toDigits 10 d.digits = padded
    have hlength : k + 2 ≤ padded.length := by
      rw [← hpadded, List.length_append, List.length_replicate]
      omega
    let n : Notated :=
      { whole := padded.take (padded.length - (k + 1))
        fraction := padded.drop (padded.length - (k + 1))
        negative := false
        power := []
        whole_ne_nil := by
          rw [← List.length_pos_iff, List.length_take]
          omega
        digits := by
          intro c hc
          rw [List.take_append_drop, List.append_nil, ← hpadded] at hc
          exact isDigit_padded hc }
    have hfraction : n.fraction.length = k + 1 := by
      simp only [n, List.length_drop]
      omega
    have hne : n.fraction ≠ [] := by
      rw [← List.length_pos_iff, hfraction]
      omega
    refine ⟨n, ⟨.inl hne, ?_⟩, ?_⟩
    · have hvalue : digitsToNat (n.whole ++ n.fraction) = d.digits := by
        simp only [n, List.take_append_drop, ← hpadded, digitsToNat_padded]
      have hexponent : n.exponent = d.exponent := by
        rw [Notated.exponent, hfraction, hk]
        rfl
      rw [hvalue, hexponent, Decimal.value]
    · have hpoint : n.point = '.' :: n.fraction := if_neg hne
      rw [← String.toList_inj, Notated.text, hpoint]
      simp [Notated.scale, n]

theorem exists_shows_scientific (st : Style) (d : Decimal) :
    ∃ n : Notated, n.Shows d ∧ st.scientific d = String.ofList n.text := by
  unfold Style.scientific
  dsimp only
  generalize hplace : d.exponent + ((Nat.toDigits 10 d.digits).length - 1 : Nat) = place
  generalize hpad : st.exponentWidth - (Nat.toDigits 10 place.natAbs).length = pad
  let n : Notated :=
    { whole := (Nat.toDigits 10 d.digits).take 1
      fraction := (Nat.toDigits 10 d.digits).drop 1
      negative := decide (place < 0)
      power := List.replicate pad '0' ++ Nat.toDigits 10 place.natAbs
      whole_ne_nil := by simp [Nat.toDigits_ne_nil]
      digits := by
        intro c hc
        rw [List.take_append_drop] at hc
        exact (List.mem_append.1 hc).elim isDigit_of_mem_toDigits isDigit_padded }
  have hpower : n.power ≠ [] := by simp [n, Nat.toDigits_ne_nil]
  refine ⟨n, ⟨.inr hpower, ?_⟩, ?_⟩
  · have hvalue : digitsToNat (n.whole ++ n.fraction) = d.digits := by
      simp only [n, List.take_append_drop, digitsToNat_toDigits]
    have hexponent : n.exponent = d.exponent := by
      simp only [Notated.exponent, n, digitsToNat_padded, List.length_drop, decide_eq_true_eq]
      split <;> omega
    rw [hvalue, hexponent, Decimal.value]
  · have hpoint : (if ((Nat.toDigits 10 d.digits).drop 1).isEmpty then ""
        else "." ++ String.ofList ((Nat.toDigits 10 d.digits).drop 1)).toList = n.point := by
      rw [Notated.point]
      simp only [List.isEmpty_iff]
      split
      · rfl
      · simp [n]
    have hscale : (if place < 0 then "e-" else "e+").toList ++ n.power = n.scale := by
      rw [Notated.scale, if_neg hpower]
      simp only [n, decide_eq_true_eq]
      split <;> rfl
    rw [← String.toList_inj, String.toList_append, String.toList_append, String.toList_append, hpoint,
      String.toList_ofList, String.toList_ofList, String.toList_ofList, List.append_assoc, hscale,
      List.append_assoc]
    rfl

theorem exists_shows_decimal (st : Style) (d : Decimal) :
    ∃ n : Notated, n.Shows d ∧ st.decimal d = String.ofList n.text := by
  rw [Style.decimal]
  split
  · exact exists_shows_positional d
  · exact exists_shows_scientific st d

end Number

/-- The text of a double that is finite and not negative is read as the double. -/
theorem Literal.legible_float {x : Float} {m : Nat} {e : Int} (h : exact x = .finite false m e) :
    (Literal.float x).Legible := by
  obtain ⟨n, hmarked, htext, hread⟩ : ∃ n : Notated, (n.fraction ≠ [] ∨ n.power ≠ []) ∧
      (Literal.float x).toText = String.ofList n.text ∧
      ofDecimal false (digitsToNat (n.whole ++ n.fraction)) n.exponent = x := by
    rw [Literal.toText, floatText, h]
    rcases Nat.eq_zero_or_pos m with rfl | hm
    · refine ⟨⟨['0'], ['0'], false, [], by simp, by decide⟩, .inl (by simp), rfl, ?_⟩
      have hzero : digitsToNat (['0'] ++ ['0']) = 0 := digitsToNat_replicate_zero 2
      rw [← assemble_of_exact h, hzero]
      simp [ofDecimal, assemble, withSign]
    · obtain ⟨n, hn, htext⟩ := exists_shows_decimal .plain (Format.double.shortest m e)
      refine ⟨n, hn.marked, ?_, ofDecimal_of_nearby h hm ?_⟩
      · dsimp only
        rw [← htext, beq_eq_false_iff_ne.2 hm.ne']
        rfl
      · rw [hn.value]
        exact nearby_shortest (bits_of_exact h).1 hm
  constructor
  · rw [htext, String.toList_ofList]
    exact n.mem_number
  · rw [htext, n.read_text hmarked, hread]
  · intro rest hrest
    rw [htext, String.toList_ofList]
    have hstop : ∀ y ∈ [' ', ')', ']', ',', '[', '.'],
        Text.isDigit y = false ∧ y ≠ 'e' ∧ y ≠ 'E' := by decide
    refine n.number_text hmarked fun y hy => hstop y ?_
    rcases hrest y hy with hy | ⟨rfl, -⟩
    · simp only [List.mem_cons] at hy ⊢
      tauto
    · simp

/-! ## Numbers that have been read -/

namespace Number

theorem exact_notANumber : exact notANumber = .nan := by
  decide +kernel

theorem ofDecimal_nonneg {digits : Nat} {exponent : Int} {negative : Bool} {m : Nat} {e : Int}
    (h : exact (ofDecimal false digits exponent) = .finite negative m e) : negative = false := by
  unfold ofDecimal at h
  dsimp only at h
  split at h
  · exact nearest_nonneg 0 Nat.one_pos h
  · split at h
    · cases exact_infinity.symm.trans h
    · exact nearest_nonneg _ (scaledTen_den_pos _ _) h

theorem readUnsigned?_eq_some {cs : List Char} {x : Float} (h : readUnsigned? false cs = some x) :
    ∃ digits exponent, x = ofDecimal false digits exponent := by
  unfold readUnsigned? at h
  dsimp only at h
  split at h
  · split at h
    · cases h
    · obtain ⟨w, -, h⟩ := Option.bind_eq_some_iff.1 h
      obtain ⟨f, -, h⟩ := Option.bind_eq_some_iff.1 h
      obtain ⟨e, -, h⟩ := Option.bind_eq_some_iff.1 h
      exact ⟨_, _, (Option.some.inj h).symm⟩
  · obtain ⟨w, -, h⟩ := Option.bind_eq_some_iff.1 h
    obtain ⟨e, -, h⟩ := Option.bind_eq_some_iff.1 h
    exact ⟨_, _, (Option.some.inj h).symm⟩

end Number

namespace Numeral

theorem trimChars_cons {c : Char} (h : isBlank c = false) (cs : List Char) :
    ∃ t, trimChars (c :: cs) = c :: t := by
  rw [trimChars, List.dropWhile_cons_of_neg (by simp [h]), List.reverse_cons, List.dropWhile_append]
  split
  · exact ⟨[], by simp [h]⟩
  · exact ⟨_, by rw [List.reverse_append]; rfl⟩

/-- A number text has no sign in front. -/
theorem takeSign_trimChars {cs : List Char} (h : strangeStart? cs = none) :
    (takeSign (trimChars cs)).1 = false := by
  cases cs with
  | nil => rfl
  | cons c cs =>
    have hc : isAsciiDigit c = true ∨ c = '.' := by
      by_contra hne
      rw [not_or, Bool.not_eq_true] at hne
      unfold strangeStart? at h
      split at h
      · next heq => exact hne.2 (List.cons.inj heq).1
      · next heq =>
        obtain ⟨rfl, -⟩ := List.cons.inj heq
        simp [hne] at h
      · next heq => cases heq
    have hplain : isBlank c = false ∧ c ≠ '-' ∧ c ≠ '+' := by
      rcases hc with hc | rfl
      · have hdigit := isDigit_of_isAsciiDigit hc
        exact ⟨isBlank_of_isDigit hdigit, ne_of_isDigit hdigit rfl, ne_of_isDigit hdigit rfl⟩
      · decide
    obtain ⟨t, ht⟩ := trimChars_cons hplain.1 cs
    rw [ht]
    unfold takeSign
    split
    · next heq => exact absurd (List.cons.inj heq).1 hplain.2.1
    · rfl
    · rfl

/-- What a number text is read as. -/
theorem read_eq_ok {s : String} {v : Literal} (h : read s = .ok v) :
    strangeStart? s.toList = none ∧
      (v = .int 0 ∨ (s.toList.all isAsciiDigit ∧ s.toList.length ≤ maxDigits ∧
        v = .int (digitsToNat s.toList)) ∨ v = .float ((readFloat? s).getD 0.0)) := by
  unfold read at h
  dsimp only at h
  split at h
  · cases h
  · next hstart =>
    refine ⟨hstart, ?_⟩
    split at h
    · cases h
    split at h
    · cases h
    split at h
    · next hall =>
      split at h
      · cases h
        exact .inl rfl
      split at h
      · cases h
      · next hlength =>
        cases h
        exact .inr (.inl ⟨hall, not_lt.1 hlength, rfl⟩)
    · cases h
      exact .inr (.inr rfl)

/-- The double that a number text is read as is not negative. -/
theorem nonneg_of_read {s : String} {x : Float} (h : read s = .ok (.float x)) {negative : Bool} {m : Nat}
    {e : Int} (hx : exact x = .finite negative m e) : negative = false := by
  obtain ⟨hstart, hv | ⟨-, -, hv⟩ | hv⟩ := read_eq_ok h
  · cases hv
  · cases hv
  · obtain rfl := Literal.float.inj hv
    have hsign := takeSign_trimChars hstart
    cases hread : readFloat? s with
    | none =>
      rw [hread, Option.getD_none] at hx
      exact nearest_nonneg 0 Nat.one_pos hx
    | some x =>
      rw [hread, Option.getD_some] at hx
      unfold readFloat? at hread
      dsimp only at hread
      rw [hsign] at hread
      split at hread
      · cases hread
        cases exact_infinity.symm.trans hx
      split at hread
      · cases hread
        cases exact_notANumber.symm.trans hx
      · obtain ⟨digits, exponent, rfl⟩ := readUnsigned?_eq_some hread
        exact ofDecimal_nonneg hx

/-- The integer that a number text is read as is not negative, and not too long. -/
theorem natural_of_read {s : String} {n : Int} (h : read s = .ok (.int n)) :
    ∃ k : Nat, n = k ∧ k < 10 ^ maxDigits := by
  obtain ⟨-, hv | ⟨hall, hlength, hv⟩ | hv⟩ := read_eq_ok h
  · cases hv
    exact ⟨0, rfl, Nat.pow_pos (by decide)⟩
  · cases hv
    exact ⟨_, rfl, (digitsToNat_lt (List.all_eq_true.1 hall)).trans_le
      (Nat.pow_le_pow_right (by decide) hlength)⟩
  · cases hv

end Numeral

namespace Literal

/-- Not infinity and not NaN. -/
def IsFinite : Literal → Prop
  | float x => ∃ negative m e, exact x = .finite negative m e
  | _ => True

/-- What a number text is read as can be written and read again. -/
theorem legible_of_read {s : String} {v : Literal} (h : Numeral.read s = .ok v) (hv : v.IsFinite) :
    v.Legible := by
  obtain ⟨-, rfl | ⟨-, -, rfl⟩ | rfl⟩ := Numeral.read_eq_ok h
  · exact legible_int (n := 0) (Nat.pow_pos (by decide))
  · obtain ⟨k, hk, hlt⟩ := Numeral.natural_of_read h
    rw [hk]
    exact legible_int hlt
  · obtain ⟨negative, m, e, hx⟩ := hv
    obtain rfl := Numeral.nonneg_of_read h hx
    exact legible_float hx

end Literal

end IndexNotation
