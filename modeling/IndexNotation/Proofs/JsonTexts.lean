import IndexNotation.Format.Json
import IndexNotation.Proofs.Numerals

/-!
# Integers and lists in data files

A value of nested lists of integers is read back from its text, however deep it stands and whatever
follows it. An item ends at a comma or at a line break, and neither belongs to a number.
-/

namespace IndexNotation.Json

open Text Terminal

/-- Integers, and lists of such values. -/
inductive Nested : Json → Prop
  | int (n : Int) : Nested (.int n)
  | list {vs : List Json} (h : ∀ v ∈ vs, Nested v) : Nested (.list vs)

/-- What follows an item: a comma, a line break, or nothing. -/
def Stops (rest : List Char) : Prop := ∀ y ∈ rest.head?, y = ',' ∨ y = '\n'

/-! ## Integers -/

section

variable {rest : List Char} (h : Stops rest)
include h

theorem Stops.not_digit : ∀ y ∈ rest.head?, isAsciiDigit y = false := by
  intro y hy
  rcases h y hy with rfl | rfl <;> rfl

theorem fractionPart_of_stops : fractionPart rest = ([], rest) := by
  unfold fractionPart
  split
  · rcases h '.' rfl with hpoint | hpoint <;> cases hpoint
  · rfl

theorem exponentPart_of_stops : exponentPart rest = ([], rest) := by
  unfold exponentPart
  split
  · next e more =>
    rw [if_neg]
    rcases h e rfl with rfl | rfl <;> decide
  · rfl

theorem wholePart_digits (n : Nat) : wholePart (Nat.toDigits 10 n ++ rest) = some (Nat.toDigits 10 n, rest) := by
  rcases Nat.eq_zero_or_pos n with rfl | hn
  · rfl
  have hdigits : ∀ c ∈ Nat.toDigits 10 n, isAsciiDigit c := fun c hc =>
    isAsciiDigit_of_isDigit (isDigit_of_mem_toDigits hc)
  obtain ⟨c, cs, hcs⟩ := List.exists_cons_of_ne_nil (Nat.toDigits_ne_nil (n := n) (b := 10))
  have hc : c ≠ '0' := by simpa [hcs] using Numeral.head_toDigits hn
  have htake := takeWhile_append_of_stop hdigits h.not_digit
  have hdrop := dropWhile_append_of_stop hdigits h.not_digit
  rw [hcs] at htake hdrop ⊢
  unfold wholePart
  split
  · next heq => exact absurd (List.cons.inj heq).1 hc
  · rw [htake, hdrop]

theorem number_digits (negative : Bool) (n : Nat) :
    number negative (Nat.toDigits 10 n ++ rest) = some (.int (if negative then -n else n), rest) := by
  simp [number, wholePart_digits h, fractionPart_of_stops h, exponentPart_of_stops h, digitsToNat_toDigits]

end

/-- A value that starts neither as a text nor as a list or an object. -/
theorem value_eq_atom {c : Char} (h : c ∉ ['\x22', '[', '\x7b']) (fuel : Nat) (cs : List Char) :
    value (fuel + 1) (c :: cs) = atom (c :: cs) := by
  rw [value]
  all_goals
    rintro cs' heq
    cases heq
    simp at h

theorem atom_of_isDigit {c : Char} (h : c.isDigit) (cs : List Char) : atom (c :: cs) = number false (c :: cs) := by
  rw [atom]
  all_goals
    rintro cs' heq
    cases heq
    cases h

theorem atom_minus {c : Char} (h : c.isDigit) (cs : List Char) :
    atom ('-' :: c :: cs) = number true (c :: cs) := by
  have hword : afterWord? "Infinity".toList (c :: cs) = none := by
    refine if_neg fun heq => ?_
    obtain rfl := eq_of_beq heq
    cases h
  rw [atom, hword]

/-- The text of an integer: its digits, or a sign and digits. -/
theorem toList_toString (n : Int) : ∃ c cs, Nat.toDigits 10 n.natAbs = c :: cs ∧ c.isDigit ∧
    (toString n).toList = if n < 0 then '-' :: c :: cs else c :: cs := by
  obtain ⟨c, cs, hcs⟩ := List.exists_cons_of_ne_nil (Nat.toDigits_ne_nil (n := n.natAbs) (b := 10))
  refine ⟨c, cs, hcs, isDigit_of_mem_toDigits (hcs ▸ List.mem_cons_self), ?_⟩
  have hnat (m : Nat) : (toString m).toList = Nat.toDigits 10 m := String.toList_ofList
  rw [← hcs]
  cases n with
  | ofNat n => exact hnat n
  | negSucc n =>
    rw [if_pos (Int.negSucc_lt_zero n)]
    exact String.toList_append.trans (congrArg ('-' :: ·) (hnat (n + 1)))

theorem value_int {rest : List Char} (h : Stops rest) (n : Int) (fuel : Nat) :
    value (fuel + 1) ((toString n).toList ++ rest) = some (.int n, rest) := by
  obtain ⟨c, cs, hcs, hc, htext⟩ := toList_toString n
  have hnumber (negative : Bool) := number_digits h negative n.natAbs
  rw [hcs, List.cons_append] at hnumber
  rw [htext]
  split
  · rename_i hneg
    rw [List.cons_append, List.cons_append, value_eq_atom (by decide), atom_minus hc, hnumber, if_pos rfl,
      Int.ofNat_natAbs_of_nonpos (Int.le_of_lt hneg), Int.neg_neg]
  · rename_i hpos
    have hopening : ∀ y ∈ ['\x22', '[', '\x7b'], y.isDigit = false := by decide
    have hplain : c ∉ ['\x22', '[', '\x7b'] := fun hmem => by simp [hopening c hmem] at hc
    rw [List.cons_append, value_eq_atom hplain, atom_of_isDigit hc, hnumber, if_neg (by decide),
      Int.natAbs_of_nonneg (Int.not_lt.1 hpos)]

/-! ## Lists -/

section

variable {fuel : Nat} {cs rest rest' : List Char} {v : Json} {vs : List Json}

theorem items_last (hvalue : value fuel cs = some (v, rest')) (hskip : skipSpace rest' = ']' :: rest) :
    items (fuel + 1) cs = some ([v], rest) := by
  rw [items, hvalue]
  simp [hskip]

theorem items_more {more : List Char} (hvalue : value fuel cs = some (v, rest'))
    (hskip : skipSpace rest' = ',' :: more) (hmore : items fuel (skipSpace more) = some (vs, rest)) :
    items (fuel + 1) cs = some (v :: vs, rest) := by
  rw [items, hvalue]
  simp [hskip, hmore]

theorem value_list {more : List Char} (hskip : skipSpace cs = more) (hmore : more.head? ≠ some ']')
    (hitems : items fuel more = some (vs, rest)) : value (fuel + 1) ('[' :: cs) = some (.list vs, rest) := by
  rw [value, hskip]
  split
  · exact absurd rfl hmore
  · rw [hitems]
    rfl

end

theorem toList_newLine (depth : Nat) : (newLine depth).toList = '\n' :: List.replicate (2 * depth) ' ' := by
  simp [newLine]

theorem skipSpace_newLine {c : Char} (hc : isSpace c = false) (depth : Nat) (cs : List Char) :
    skipSpace ((newLine depth).toList ++ c :: cs) = c :: cs := by
  rw [toList_newLine]
  refine dropWhile_append_of_stop ?_ ?_
  · intro y hy
    rcases List.mem_cons.1 hy with rfl | hy
    · rfl
    · rw [List.eq_of_mem_replicate hy]
      rfl
  · intro y hy
    cases hy
    exact hc

/-- The text of an item starts with what is neither blank nor the end of a list. -/
theorem exists_head_render {v : Json} (h : v.Nested) (depth : Nat) :
    ∃ c cs, (render depth v).toList = c :: cs ∧ isSpace c = false ∧ c ≠ ']' := by
  cases h with
  | int n =>
    obtain ⟨c, cs, -, hc, htext⟩ := toList_toString n
    rw [render, htext]
    split
    · exact ⟨'-', _, rfl, by decide, by decide⟩
    · have hothers : ∀ y ∈ [' ', '\t', '\n', '\r', ']'], y.isDigit = false := by decide
      have hne : c ∉ [' ', '\t', '\n', '\r', ']'] := fun hmem => by simp [hothers c hmem] at hc
      simp only [List.mem_cons, List.not_mem_nil, or_false, not_or] at hne
      exact ⟨c, _, rfl, by simp [isSpace, hne], hne.2.2.2.2⟩
  | @list vs h =>
    cases vs with
    | nil => exact ⟨'[', [']'], by simp [render], by decide, by decide⟩
    | cons v vs => exact ⟨'[', _, by simp only [render, String.toList_append]; rfl, by decide, by decide⟩

theorem skipSpace_item {v : Json} (h : v.Nested) (depth : Nat) (tail : List Char) :
    skipSpace ((newLine depth).toList ++ ((render depth v).toList ++ tail)) = (render depth v).toList ++ tail := by
  obtain ⟨c, cs, htext, hc, -⟩ := exists_head_render h depth
  rw [htext, List.cons_append]
  exact skipSpace_newLine hc depth _

/-- A value that is read back from its text, whatever follows. -/
def Readable (v : Json) : Prop :=
  ∀ depth fuel rest, Stops rest → (render depth v).length ≤ fuel →
    value fuel ((render depth v).toList ++ rest) = some (v, rest)

/-- The items of a list are read back up to the bracket that closes it. -/
theorem items_render {vs : List Json} (hvs : ∀ v ∈ vs, v.Nested ∧ v.Readable) {v : Json} (hv : v.Readable)
    (depth outer : Nat) (rest : List Char) {fuel : Nat}
    (hfuel : (render depth v).length + (render.renderMore depth vs).length < fuel) :
    items fuel ((render depth v).toList ++ ((render.renderMore depth vs).toList ++
      ((newLine outer).toList ++ ']' :: rest))) = some (v :: vs, rest) := by
  induction vs generalizing v fuel with
  | nil =>
    obtain ⟨fuel, rfl⟩ := Nat.exists_eq_add_one_of_ne_zero (Nat.ne_zero_of_lt hfuel)
    have hstops : Stops ((newLine outer).toList ++ ']' :: rest) := by simp [Stops, toList_newLine]
    exact items_last (hv depth fuel _ hstops (by omega)) (skipSpace_newLine (by decide) outer rest)
  | cons w ws ih =>
    obtain ⟨fuel, rfl⟩ := Nat.exists_eq_add_one_of_ne_zero (Nat.ne_zero_of_lt hfuel)
    obtain ⟨hw, hws⟩ := List.forall_mem_cons.1 hvs
    have hcomma : ",".length = 1 := rfl
    simp only [render.renderMore, String.length_append] at hfuel
    have hlength : (render depth w).length + (render.renderMore depth ws).length < fuel := by omega
    have hmore := ih hws hw.2 hlength
    rw [← skipSpace_item hw.1] at hmore
    simp only [render.renderMore, String.toList_append, List.append_assoc]
    exact items_more (hv depth fuel _ (by simp [Stops]) (by omega)) rfl hmore

/-- **Nested lists of integers are read back from their text.** -/
theorem Nested.readable {v : Json} (h : v.Nested) : v.Readable := by
  induction h with
  | int n =>
    intro depth fuel rest hrest hfuel
    obtain ⟨c, cs, htext, -, -⟩ := exists_head_render (.int n) depth
    rw [← String.length_toList, htext, List.length_cons] at hfuel
    obtain ⟨fuel, rfl⟩ := Nat.exists_eq_add_one_of_ne_zero (Nat.ne_zero_of_lt hfuel)
    exact value_int hrest n fuel
  | @list vs hvs ih =>
    intro depth fuel rest hrest hfuel
    cases vs with
    | nil =>
      simp only [render] at hfuel ⊢
      obtain ⟨fuel, rfl⟩ := Nat.exists_eq_add_one_of_ne_zero (Nat.ne_zero_of_lt hfuel)
      rfl
    | cons v vs =>
      have hopen : "[".length = 1 := rfl
      have hclose : "]".length = 1 := rfl
      simp only [render, String.length_append] at hfuel
      obtain ⟨fuel, rfl⟩ := Nat.exists_eq_add_one_of_ne_zero (show fuel ≠ 0 by omega)
      have hv : v.Nested := hvs v (.head _)
      have hmore : ∀ w ∈ vs, w.Nested ∧ w.Readable := fun w hw => ⟨hvs w (.tail _ hw), ih w (.tail _ hw)⟩
      have hitems := items_render hmore (ih v (.head _)) (depth + 1) depth rest (show _ < fuel by omega)
      obtain ⟨c, cs, htext, -, hc⟩ := exists_head_render hv (depth + 1)
      simp only [render, String.toList_append, List.append_assoc]
      refine value_list (skipSpace_item hv (depth + 1) _) ?_ hitems
      rw [htext]
      simpa using hc

/-- The text of a value of nested lists of integers stands for the value. -/
theorem Nested.read?_render {v : Json} (h : v.Nested) : read? (v.render 0) = some v := by
  obtain ⟨c, cs, htext, hc, -⟩ := exists_head_render h 0
  have hskip : skipSpace (v.render 0).toList = (v.render 0).toList := by
    rw [htext, skipSpace, List.dropWhile_cons_of_neg (by simp [hc])]
  have hlength : (v.render 0).length ≤ (v.render 0).toList.length + 1 := by
    rw [String.length_toList]
    exact Nat.le_succ _
  have hvalue := h.readable 0 _ [] (by simp [Stops]) hlength
  rw [List.append_nil] at hvalue
  simp only [read?, hskip, hvalue]
  rfl

end IndexNotation.Json
