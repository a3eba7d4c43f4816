import IndexNotation.Proofs.Recognition

/-!
# Number texts

The text of an integer is a word of the grammar's numbers, and reading it gives the integer back.
-/

namespace IndexNotation

open Terminal

/-! ## Digits -/

namespace Text

theorem digitValue?_of_isDigit {c : Char} (h : c.isDigit) : digitValue? c = some (c.toNat - 48) := by
  have hle : 48 ≤ c.toNat ∧ c.toNat ≤ 57 := by
    simp only [Char.isDigit, Bool.and_eq_true, decide_eq_true_eq, ge_iff_le,
      UInt32.le_iff_toNat_le] at h
    exact h
  have hfind : zeroDigits.find? (fun z => z ≤ c.toNat && c.toNat ≤ z + 9) = some 48 :=
    List.find?_cons_of_pos (by simpa using hle)
  rw [digitValue?, hfind]
  rfl

theorem isDigit_of_isDigit {c : Char} (h : c.isDigit) : isDigit c := by
  rw [isDigit, digitValue?_of_isDigit h]
  rfl

theorem isAsciiDigit_of_isDigit {c : Char} (h : c.isDigit) : isAsciiDigit c := by
  simpa [Char.isDigit, isAsciiDigit, Char.le_def] using h

theorem digitsToNat_eq_ofDigitChars {cs : List Char} (h : ∀ c ∈ cs, c.isDigit) :
    digitsToNat cs = Nat.ofDigitChars 10 cs 0 := by
  rw [digitsToNat, Nat.ofDigitChars_eq_foldl]
  suffices ∀ init, cs.foldl (fun n c => 10 * n + (digitValue? c).getD 0) init =
      cs.foldl (fun n c => 10 * n + (c.toNat - '0'.toNat)) init from this 0
  induction cs with
  | nil => exact fun _ => rfl
  | cons c cs ih =>
    rw [List.forall_mem_cons] at h
    intro init
    rw [List.foldl_cons, List.foldl_cons, digitValue?_of_isDigit h.1]
    exact ih h.2 _

theorem isDigit_of_mem_toDigits {n : Nat} {c : Char} (h : c ∈ Nat.toDigits 10 n) : c.isDigit :=
  Nat.isDigit_of_mem_toDigits (by decide) (by decide) h

theorem digitsToNat_toDigits (n : Nat) : digitsToNat (Nat.toDigits 10 n) = n := by
  rw [digitsToNat_eq_ofDigitChars fun c hc => isDigit_of_mem_toDigits hc,
    Nat.ofDigitChars_ten_toDigits]

end Text

/-! ## Where a number ends -/

namespace Terminal

variable {p : Char → Bool} {w rest : List Char}

theorem takeWhile_append_of_stop (hw : ∀ c ∈ w, p c) (hrest : ∀ y ∈ rest.head?, p y = false) :
    (w ++ rest).takeWhile p = w := by
  rw [List.takeWhile_append_of_pos hw]
  cases rest with
  | nil => simp
  | cons y rest => simp [hrest y rfl]

theorem dropWhile_append_of_stop (hw : ∀ c ∈ w, p c) (hrest : ∀ y ∈ rest.head?, p y = false) :
    (w ++ rest).dropWhile p = rest := by
  rw [List.dropWhile_append_of_pos hw]
  cases rest with
  | nil => simp
  | cons y rest => simp [hrest y rfl]

theorem exponent_eq_zero (h : ∀ y ∈ rest.head?, y ≠ 'e' ∧ y ≠ 'E') : exponent rest = 0 := by
  cases rest with
  | nil => rfl
  | cons y rest => exact exponent_of_ne (by simpa using h y rfl) rest

/-- Digits are a number of their own if nothing follows that would continue it. -/
theorem number_digits (hne : w ≠ []) (hw : ∀ c ∈ w, Text.isDigit c)
    (hrest : ∀ y ∈ rest.head?, Text.isDigit y = false ∧ y ≠ '.' ∧ y ≠ 'e' ∧ y ≠ 'E') :
    number (w ++ rest) = w.length := by
  have hmantissa : mantissa (w ++ rest) = w.length := by
    rw [mantissa_of_no_point, takeWhile_append_of_stop hw fun y hy => (hrest y hy).1]
    rw [dropWhile_append_of_stop hw fun y hy => (hrest y hy).1]
    exact fun h => (hrest _ h).2.1 rfl
  have hpos : 0 < w.length := List.length_pos_iff.2 hne
  rw [number_eq, hmantissa, if_neg (by omega), List.drop_left,
    exponent_eq_zero fun y hy => (hrest y hy).2.2]
  omega

end Terminal

/-! ## Integers -/

namespace Numeral

open Text

theorem head_toDigits {n : Nat} (hn : 0 < n) : (Nat.toDigits 10 n).head? ≠ some '0' := by
  induction n using Nat.strongRecOn with
  | ind n ih =>
    by_cases hlt : n < 10
    · have hdigit : ∀ m < 10, 0 < m → Nat.digitChar m ≠ '0' := by decide
      rw [Nat.toDigits_of_lt_base hlt, List.head?_cons, Ne, Option.some_inj]
      exact hdigit n hlt hn
    · rw [Nat.toDigits_of_base_le (by decide) (by omega),
        List.head?_append_of_ne_nil _ Nat.toDigits_ne_nil]
      exact ih (n / 10) (by omega) (by omega)

theorem strangeStart?_of_isDigit {c : Char} {cs : List Char} (h : c.isDigit) :
    strangeStart? (c :: cs) = none := by
  have hascii := isAsciiDigit_of_isDigit h
  unfold strangeStart?
  split
  · next heq =>
    obtain ⟨rfl, -⟩ := List.cons.inj heq
    exact absurd h (by decide)
  · next heq =>
    obtain ⟨rfl, -⟩ := List.cons.inj heq
    rw [hascii]
    rfl
  · rfl

/-- Digits without a zero in front are read as an integer. -/
theorem read_digits {c : Char} {cs : List Char} (hdigits : ∀ x ∈ c :: cs, x.isDigit) (hc : c ≠ '0')
    (hlength : (c :: cs).length ≤ maxDigits) :
    read (String.ofList (c :: cs)) = .ok (.int (digitsToNat (c :: cs))) := by
  have hascii : (c :: cs).all isAsciiDigit :=
    List.all_eq_true.2 fun x hx => isAsciiDigit_of_isDigit (hdigits x hx)
  have hzeros : hasLeadingZeros (c :: cs) = false := by
    have hfirst := isAsciiDigit_of_isDigit (hdigits c (by simp))
    simp [hasLeadingZeros, hfirst, hc]
  have hstrange : (c :: cs).any (fun c => isDigit c && !isAsciiDigit c) = false := by
    rw [List.any_eq_false]
    intro x hx
    simp [isAsciiDigit_of_isDigit (hdigits x hx)]
  have hzero : (c :: cs).all (· == '0') = false := by simp [hc]
  simp only [read, String.toList_ofList]
  rw [strangeStart?_of_isDigit (hdigits c (by simp))]
  simp only [hzeros, hstrange, hascii, hzero, if_true, if_false, Bool.false_eq_true]
  rw [if_neg (by omega)]

theorem read_toDigits {n : Nat} (hn : n < 10 ^ maxDigits) :
    read (String.ofList (Nat.toDigits 10 n)) = .ok (.int n) := by
  rcases Nat.eq_zero_or_pos n with rfl | hpos
  · rfl
  · obtain ⟨c, cs, heq⟩ := List.exists_cons_of_ne_nil (Nat.toDigits_ne_nil (n := n) (b := 10))
    have hdigits : ∀ x ∈ c :: cs, x.isDigit := fun x hx => isDigit_of_mem_toDigits (heq ▸ hx)
    have hhead : c ≠ '0' := by simpa [heq] using head_toDigits hpos
    have hlength : (c :: cs).length ≤ maxDigits := by
      rw [← heq, Nat.length_toDigits_le_iff (by decide) (by decide)]
      exact hn
    rw [heq, read_digits hdigits hhead hlength, ← heq, digitsToNat_toDigits]

end Numeral

/-- A number text that is read as the literal it was written for, and that ends where it was
written to end. After an integer no point may follow, as it would belong to the number. -/
structure Literal.Legible (l : Literal) : Prop where
  mem : l.toText.toList ∈ Lexicon.number
  read : Numeral.read l.toText = .ok l
  ends : ∀ rest : List Char,
    (∀ y ∈ rest.head?, y ∈ [' ', ')', ']', ',', '['] ∨ y = '.' ∧ l.integer? = Option.none) →
    Terminal.number (l.toText.toList ++ rest) = l.toText.toList.length

theorem Literal.legible_int {n : Nat} (hn : n < 10 ^ maxDigits) : (Literal.int n).Legible := by
  have htext : (Literal.int n).toText = String.ofList (Nat.toDigits 10 n) := rfl
  have hdigits : ∀ c ∈ Nat.toDigits 10 n, Text.isDigit c := fun c hc =>
    Text.isDigit_of_isDigit (Text.isDigit_of_mem_toDigits hc)
  constructor
  · rw [htext, String.toList_ofList]
    exact ⟨_, Lexicon.mem_mantissa.2 (.inr ⟨Nat.toDigits_ne_nil, hdigits⟩), [], .inl rfl, by simp⟩
  · rw [htext]
    exact Numeral.read_toDigits hn
  · intro rest hrest
    rw [htext, String.toList_ofList]
    refine number_digits Nat.toDigits_ne_nil hdigits fun y hy => ?_
    have hstop : ∀ y ∈ [' ', ')', ']', ',', '['],
        Text.isDigit y = false ∧ y ≠ '.' ∧ y ≠ 'e' ∧ y ≠ 'E' := by decide
    rcases hrest y hy with hy | ⟨-, hint⟩
    · exact hstop y hy
    · cases hint

end IndexNotation
