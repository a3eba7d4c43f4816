import IndexNotation.Proofs.Grafts

/-!
# Counting points

A point in a text either belongs to a number or stands in front of the name of a field. Names and
numbers take as much of the text as they can, so the text alone tells which points are which. Where
a field of an integer is printed, its point is lost to the number, and the text has fewer points
than the tree has fields; so the text is not one of that tree.
-/

namespace IndexNotation

open Grammar Terminal Cursor

/-! ## Points of a text -/

/-- The length of the number, the name or the other character at the front of a text. -/
def wordLength (cs : List Char) : Nat :=
  if number cs ≠ 0 then number cs else if name cs ≠ 0 then name cs else 1

/-- The number of points in a text that belong to no number. -/
def dots (cs : List Char) : Nat :=
  match cs with
  | [] => 0
  | c :: cs =>
    dots (cs.drop (wordLength (c :: cs) - 1)) + if c = '.' ∧ number (c :: cs) = 0 then 1 else 0
termination_by cs.length
decreasing_by
  simp only [List.length_cons, List.length_drop]
  omega

theorem wordLength_pos (cs : List Char) : 0 < wordLength cs := by
  unfold wordLength
  split
  · omega
  · split <;> omega

section

variable {c : Char} {w rest : List Char}

theorem Terminal.number_of_other (hd : Text.isDigit c = false) (hp : c ≠ '.') :
    number (c :: rest) = 0 := by
  by_contra hne
  obtain ⟨w, hw, hpre, -⟩ := scans_number.found _ (Nat.pos_of_ne_zero hne)
  obtain ⟨x, v, rfl, hx⟩ := head_of_mem_number hw
  obtain ⟨rfl, -⟩ := List.cons_prefix_cons.1 hpre
  simp [hd, hp] at hx

theorem Terminal.number_of_point (h : ∀ y ∈ rest.head?, Text.isDigit y = false) :
    number ('.' :: rest) = 0 := by
  have hdot : Text.isDigit '.' = false := by decide
  have htake : rest.takeWhile Text.isDigit = [] := by
    cases rest with
    | nil => rfl
    | cons y rest => simp [h y rfl]
  have hmantissa : mantissa ('.' :: rest) = 0 := by
    rw [@mantissa_of_point _ rest (by simp [hdot]), htake]
    simp [hdot]
  rw [number_eq, if_pos hmantissa]

theorem Terminal.name_of_other (h : isNameStart c = false) : name (c :: rest) = 0 := by
  simp [name, h]

theorem dots_nil : dots [] = 0 := by
  rw [dots]

theorem dots_cons : dots (c :: rest) = dots ((c :: rest).drop (wordLength (c :: rest))) +
    if c = '.' ∧ number (c :: rest) = 0 then 1 else 0 := by
  obtain ⟨n, hn⟩ := Nat.exists_eq_add_of_lt (wordLength_pos (c :: rest))
  rw [dots, hn, Nat.zero_add, Nat.add_sub_cancel, List.drop_succ_cons]

theorem dots_other (hd : Text.isDigit c = false) (hp : c ≠ '.') (hn : isNameStart c = false) :
    dots (c :: rest) = dots rest := by
  rw [dots_cons]
  simp [wordLength, number_of_other hd hp, name_of_other hn, hp]

theorem dots_point (h : ∀ y ∈ rest.head?, Text.isDigit y = false) :
    dots ('.' :: rest) = dots rest + 1 := by
  have hn : isNameStart '.' = false := by decide
  rw [dots_cons]
  simp [wordLength, number_of_point h, name_of_other hn]

theorem dots_number (hw : w ≠ []) (h : number (w ++ rest) = w.length) :
    dots (w ++ rest) = dots rest := by
  obtain ⟨c, w, rfl⟩ := List.exists_cons_of_ne_nil hw
  rw [List.cons_append] at h ⊢
  rw [dots_cons, wordLength, h]
  simp

theorem dots_name (hw : w ≠ []) (h : name (w ++ rest) = w.length) :
    dots (w ++ rest) = dots rest := by
  obtain ⟨c, w, rfl⟩ := List.exists_cons_of_ne_nil hw
  rw [List.cons_append] at h ⊢
  have hstart : isNameStart c = true := by
    by_contra hne
    rw [name_of_other (by simpa using hne)] at h
    cases h
  have hpoint : c ≠ '.' := by
    rintro rfl
    exact absurd hstart (by decide)
  have hnumber : number (c :: (w ++ rest)) = 0 := by
    refine number_of_other ?_ hpoint
    by_contra hd
    rw [isNameStart_of_isDigit (by simpa using hd)] at hstart
    cases hstart
  rw [dots_cons, wordLength, hnumber, h]
  simp [hpoint]

/-- A text without digits, names and points. -/
theorem dots_append_of_other
    (hw : ∀ c ∈ w, Text.isDigit c = false ∧ c ≠ '.' ∧ isNameStart c = false) :
    dots (w ++ rest) = dots rest := by
  induction w with
  | nil => rfl
  | cons c w ih =>
    rw [List.forall_mem_cons] at hw
    rw [List.cons_append, dots_other hw.1.1 hw.1.2.1 hw.1.2.2, ih hw.2]

end

/-! ## Fields of a derivation -/

namespace Expr

def isField : Expr → Bool
  | field .. => true
  | _ => false

/-- The number of fields in a tree. -/
def fields (e : Expr) : Nat :=
  e.walk.countP isField

def allFields (es : List Expr) : Nat :=
  (walk.walkAll es).countP isField

section

variable {b l r x : Expr} {es : List Expr} {o : BinaryOp} {o' : UnaryOp} {n : String} {v : Literal}
  {p : Option Pos}

theorem fields_name : (name n p).fields = 0 := rfl

theorem fields_number : (number v p).fields = 0 := rfl

theorem fields_index : (index b es p).fields = b.fields + allFields es := by
  simp [fields, allFields, walk, isField]

theorem fields_field : (field b n p).fields = b.fields + 1 := by
  rw [fields, walk, List.countP_cons_of_pos rfl, fields]

theorem fields_call : (call n es p).fields = allFields es := by
  simp [fields, allFields, walk, isField]

theorem fields_binary : (binary l o r p).fields = l.fields + r.fields := by
  simp [fields, walk, isField]

theorem fields_unary : (unary o' x p).fields = x.fields := by
  simp [fields, walk, isField]

theorem allFields_nil : allFields [] = 0 := rfl

theorem allFields_cons : allFields (x :: es) = x.fields + allFields es := by
  simp [fields, allFields, walk.walkAll]

end

end Expr

section

variable {t : Terminal} {L : Language Char} {c c' : Cursor} {tok : Token}

theorem Cursor.Blank.dots_eq (h : c.Blank c') : dots c.rest = dots c'.rest := by
  obtain ⟨w, hr, hspace⟩ := h
  rw [hr.rest]
  refine dots_append_of_other fun x hx => ?_
  have hx := hspace x hx
  refine ⟨?_, ?_, ?_⟩
  · by_contra hd
    simp [isSpace_of_isDigit (by simpa using hd)] at hx
  · rintro rfl
    exact absurd hx (by decide)
  · by_contra hn
    simp [isSpace_of_isNameStart (by simpa using hn)] at hx

/-- A terminal takes all of the text that it can. -/
theorem Stands.length_eq (ht : t.Scans L) (h : Stands L c tok c') :
    ∃ c₁ w, c.Blank c₁ ∧ c₁.rest = w ++ c'.rest ∧ w ≠ [] ∧ t (w ++ c'.rest) = w.length := by
  obtain @⟨c₁, _, w, hb, hr, hw, hlongest⟩ := h
  obtain ⟨x, v, rfl, -⟩ := ht.solid _ hw
  have hle := ht.longest (x :: v ++ c'.rest) _ hw (List.prefix_append _ _)
  refine ⟨c₁, x :: v, hb, hr.rest, by simp, ?_⟩
  obtain ⟨u, hu, hpre, hlen⟩ := ht.found _ (Nat.lt_of_lt_of_le (by simp) hle)
  exact Nat.le_antisymm (hlen ▸ hlongest u hu (hr.rest ▸ hpre)) hle

theorem Stands.dots_number (h : Stands Lexicon.number c tok c') : dots c.rest = dots c'.rest := by
  obtain ⟨c₁, w, hb, hr, hw, hlen⟩ := h.length_eq scans_number
  rw [hb.dots_eq, hr, IndexNotation.dots_number hw hlen]

theorem Stands.dots_name (h : Stands Lexicon.name c tok c') : dots c.rest = dots c'.rest := by
  obtain ⟨c₁, w, hb, hr, hw, hlen⟩ := h.length_eq scans_name
  rw [hb.dots_eq, hr, IndexNotation.dots_name hw hlen]

theorem Stands.dots_symbols {ss : List String} (h : Stands (Lexicon.symbols ss) c tok c')
    (hss : ∀ s ∈ ss, ∀ x ∈ s.toList, Text.isDigit x = false ∧ x ≠ '.' ∧ isNameStart x = false) :
    dots c.rest = dots c'.rest := by
  obtain ⟨hb, hr, ⟨s, hs, rfl⟩, -⟩ := h
  rw [hb.dots_eq, hr.rest, dots_append_of_other (hss s hs)]

/-- The point in front of a name. -/
theorem Stands.dots_dot {c₁ : Cursor} {n : Token} (h : Stands (Lexicon.symbol ".") c tok c₁)
    (hn : Stands Lexicon.name c₁ n c') : dots c.rest = dots c'.rest + 1 := by
  obtain ⟨c₂, hb, hr⟩ := h.reads_symbol
  -- A space or the start of the name stands behind the point, and neither is a digit.
  have hhead : ∀ y ∈ c₁.rest.head?, Text.isDigit y = false := by
    obtain ⟨⟨b, hbr, hspace⟩, hnr, hw, -⟩ := hn
    obtain ⟨x, u, v, rfl, hx, -⟩ := Lexicon.mem_name.1 hw
    rw [hbr.rest, hnr.rest]
    cases b with
    | nil =>
      rintro _ ⟨⟩
      by_contra hd
      simp [isNameStart_of_isDigit (by simpa using hd)] at hx
    | cons z b =>
      rintro _ ⟨⟩
      by_contra hd
      simpa [isSpace_of_isDigit (by simpa using hd)] using hspace z (by simp)
  rw [hb.dots_eq, hr.rest, ← hn.dots_name]
  exact dots_point hhead

end

/-- The points of a phrase's text are the fields of its trees. Items of clauses are left out. -/
def Phrase.Pointed : Phrase → Cursor → Cursor → Prop
  | expr _ x, c, c' => dots c.rest = x.expr.fields + dots c'.rest
  | list xs, c, c' => dots c.rest = Expr.allFields xs + dots c'.rest
  | item _, _, _ | items _, _, _ => True

theorem Derives.pointed {ph : Phrase} {c c' : Cursor} (h : Derives ph c c') : ph.Pointed c c' := by
  induction h with
  | product _ ih | unary _ ih | power _ ih | access _ ih | atom _ ih => exact ih
  | add _ hop _ ih₁ ih₂ | mul _ hop _ ih₁ ih₂ | pow _ hop _ ih₁ ih₂ =>
    have := hop.dots_symbols (by decide)
    simp only [Phrase.Pointed, Expr.fields_binary] at ih₁ ih₂ ⊢
    omega
  | sign hop _ ih =>
    have := hop.dots_symbols (by decide)
    simp only [Phrase.Pointed, Expr.fields_unary] at ih ⊢
    omega
  | index _ hl _ hr ih₁ ih₂ =>
    have := hl.dots_symbols (by decide)
    have := hr.dots_symbols (by decide)
    simp only [Phrase.Pointed, Expr.fields_index] at ih₁ ih₂ ⊢
    omega
  | field _ hd hn ih =>
    have := hd.dots_dot hn
    simp only [Phrase.Pointed, Expr.fields_field] at ih ⊢
    omega
  | number hn =>
    rw [Phrase.Pointed, hn.dots_number, Expr.fields_number, Nat.zero_add]
  | name hn => rw [Phrase.Pointed, hn.dots_name, Expr.fields_name, Nat.zero_add]
  | call hn hl _ hr ih =>
    have := hn.dots_name
    have := hl.dots_symbols (by decide)
    have := hr.dots_symbols (by decide)
    simp only [Phrase.Pointed, Expr.fields_call] at ih ⊢
    omega
  | callNone hn hl hr =>
    have := hn.dots_name
    have := hl.dots_symbols (by decide)
    have := hr.dots_symbols (by decide)
    simp only [Phrase.Pointed, Expr.fields_call, Expr.allFields_nil]
    omega
  | paren hl _ hr ih =>
    have := hl.dots_symbols (by decide)
    have := hr.dots_symbols (by decide)
    simp only [Phrase.Pointed] at ih ⊢
    omega
  | one _ ih =>
    simp only [Phrase.Pointed, Expr.allFields_cons, Expr.allFields_nil] at ih ⊢
    omega
  | cons _ hk _ ih₁ ih₂ =>
    have := hk.dots_symbols (by decide)
    simp only [Phrase.Pointed, Expr.allFields_cons] at ih₁ ih₂ ⊢
    omega
  | plain | atMost | between | keyword | done | more => trivial

/-! ## Points of a printed tree -/

/-- A word that does not go on with the next character ends before it. -/
theorem length_le_of_prefix {u w rest : List Char} (h : u <+: w ++ rest)
    (hne : ∀ y ∈ rest.head?, ∀ t, u ≠ w ++ y :: t) : u.length ≤ w.length := by
  obtain ⟨s, hs⟩ := h
  rcases List.append_eq_append_iff.1 hs with ⟨as, rfl, -⟩ | ⟨bs, rfl, hbs⟩
  · simp
  · cases bs with
    | nil => simp
    | cons y t => exact absurd rfl (hne y (by rw [hbs]; rfl) t)

namespace Lexicon

theorem mem_of_mem_number {w : List Char} (hw : w ∈ number) {c : Char} (hc : c ∈ w) :
    Text.isDigit c ∨ c ∈ ['.', 'e', 'E', '+', '-'] := by
  obtain ⟨m, hm, x, hx, rfl⟩ := Language.mem_mul.1 hw
  rcases List.mem_append.1 hc with hc | hc
  · rcases mem_mantissa.1 hm with ⟨a, b, rfl, ha, hb, -⟩ | ⟨-, hd⟩
    · rcases List.mem_append.1 hc with hc | hc
      · exact .inl (ha c hc)
      · rcases List.mem_cons.1 hc with rfl | hc
        · exact .inr (by decide)
        · exact .inl (hb c hc)
    · exact .inl (hd c hc)
  · rcases (Language.mem_add ..).1 hx with hx | hx
    · rw [(Language.mem_one x).1 hx] at hc
      cases hc
    · obtain ⟨z, s, d, rfl, hz, hs, -, hd⟩ := mem_exponent.1 hx
      rcases List.mem_cons.1 hc with rfl | hc
      · exact .inr (by rcases hz with rfl | rfl <;> decide)
      · rcases List.mem_append.1 hc with hc | hc
        · refine .inr ?_
          rcases hs with rfl | rfl | rfl
          · cases hc
          · rw [List.mem_singleton.1 hc]
            decide
          · rw [List.mem_singleton.1 hc]
            decide
        · exact .inl (hd c hc)

theorem count_point_of_digits {d : List Char} (hd : ∀ c ∈ d, Text.isDigit c) : d.count '.' = 0 :=
  List.count_eq_zero_of_not_mem fun h => absurd (hd _ h) (by decide)

theorem count_point_number {w : List Char} (hw : w ∈ number) : w.count '.' ≤ 1 := by
  obtain ⟨m, hm, x, hx, rfl⟩ := Language.mem_mul.1 hw
  have hmantissa : m.count '.' ≤ 1 := by
    rcases mem_mantissa.1 hm with ⟨a, b, rfl, ha, hb, -⟩ | ⟨-, hd⟩
    · simp [count_point_of_digits ha, count_point_of_digits hb]
    · simp [count_point_of_digits hd]
  have hexponent : x.count '.' = 0 := by
    rcases (Language.mem_add ..).1 hx with hx | hx
    · simp [(Language.mem_one x).1 hx]
    · obtain ⟨z, s, d, rfl, hz, hs, -, hd⟩ := mem_exponent.1 hx
      rcases hz with rfl | rfl <;> rcases hs with rfl | rfl | rfl <;> simp [count_point_of_digits hd]
  rw [List.count_append]
  omega

theorem mem_of_mem_name {w : List Char} (hw : w ∈ name) {c : Char} (hc : c ∈ w) :
    isNamePart c ∨ isPrime c := by
  obtain ⟨x, a, b, rfl, hx, ha, hb⟩ := mem_name.1 hw
  rcases List.mem_cons.1 hc with rfl | hc
  · refine .inl ?_
    simp only [isNameStart, isNamePart, Char.isAlphanum, Bool.or_eq_true] at hx ⊢
    tauto
  · exact (List.mem_append.1 hc).imp (ha c) (hb c)

end Lexicon

section

variable {w v rest : List Char} {ns : List String}

/-- The characters that end names and numbers, but for points. -/
def stops : List Char := [' ', ')', ']', ',', '[', '(']

theorem number_le (hrest : ∀ y ∈ rest.head?, y ∈ stops) : number (w ++ rest) ≤ w.length := by
  rcases Nat.eq_zero_or_pos (number (w ++ rest)) with hzero | hpos
  · omega
  · obtain ⟨u, hu, hpre, hlen⟩ := scans_number.found _ hpos
    rw [← hlen]
    refine length_le_of_prefix hpre fun y hy t heq => ?_
    have hstop : ∀ y ∈ stops, Text.isDigit y = false ∧ y ∉ ['.', 'e', 'E', '+', '-'] := by decide
    have := Lexicon.mem_of_mem_number hu (c := y) (by simp [heq])
    simp [hstop y (hrest y hy)] at this

theorem number_le_of_point (hrest : ∀ y ∈ rest.head?, y = '.' ∨ y ∈ stops) :
    number (w ++ '.' :: (v ++ rest)) ≤ w.length + 1 + v.length := by
  have hassoc : w ++ '.' :: (v ++ rest) = (w ++ '.' :: v) ++ rest := by simp
  have hlength : w.length + 1 + v.length = (w ++ '.' :: v).length := by simp; omega
  rw [hassoc, hlength]
  rcases Nat.eq_zero_or_pos (number ((w ++ '.' :: v) ++ rest)) with hzero | hpos
  · omega
  · obtain ⟨u, hu, hpre, hlen⟩ := scans_number.found _ hpos
    rw [← hlen]
    refine length_le_of_prefix hpre fun y hy t heq => ?_
    rcases hrest y hy with rfl | hy
    · have := Lexicon.count_point_number hu
      simp only [heq, List.count_append, List.count_cons_self] at this
      omega
    · have hstop : ∀ y ∈ stops, Text.isDigit y = false ∧ y ∉ ['.', 'e', 'E', '+', '-'] := by decide
      have := Lexicon.mem_of_mem_number hu (c := y) (by simp [heq])
      simp [hstop y hy] at this

theorem name_le (hrest : ∀ y ∈ rest.head?, y = '.' ∨ y ∈ stops) : name (w ++ rest) ≤ w.length := by
  rcases Nat.eq_zero_or_pos (name (w ++ rest)) with hzero | hpos
  · omega
  · obtain ⟨u, hu, hpre, hlen⟩ := scans_name.found _ hpos
    rw [← hlen]
    refine length_le_of_prefix hpre fun y hy t heq => ?_
    have hstop : ∀ y ∈ '.' :: stops, isNamePart y = false ∧ isPrime y = false := by decide
    have := Lexicon.mem_of_mem_name hu (c := y) (by simp [heq])
    simp [hstop y (List.mem_cons.2 (hrest y hy))] at this

theorem notMem_point_name {n : List Char} (hn : n ∈ Lexicon.name) : '.' ∉ n := fun h => by
  rcases Lexicon.mem_of_mem_name hn h with h | h <;> exact absurd h (by decide)

/-- Names, each after a point. -/
def trail (ns : List String) : List Char :=
  ns.flatMap fun n => '.' :: n.toList

theorem head_trail (hrest : ∀ y ∈ rest.head?, y ∈ stops) (ns : List String) :
    ∀ y ∈ (trail ns ++ rest).head?, y = '.' ∨ y ∈ stops := by
  cases ns with
  | nil => exact fun y hy => .inr (hrest y hy)
  | cons n ns =>
    rintro _ ⟨⟩
    exact .inl rfl

theorem dots_drop (hw : '.' ∉ w) (hne : w ≠ []) (hlen : wordLength (w ++ rest) ≤ w.length) :
    dots (w ++ rest) = dots (w.drop (wordLength (w ++ rest)) ++ rest) := by
  obtain ⟨c, w, rfl⟩ := List.exists_cons_of_ne_nil hne
  have hc : c ≠ '.' := fun h => hw (by simp [h])
  rw [List.cons_append, dots_cons, if_neg fun h => hc h.1, Nat.add_zero, ← List.cons_append,
    List.drop_append_of_le_length hlen]

theorem notMem_drop {x : Char} (h : x ∉ w) (k : Nat) : x ∉ w.drop k :=
  fun hmem => h (List.mem_of_mem_drop hmem)

/-- A text without points has none, if what follows ends its last word. -/
theorem dots_le_rest (hrest : ∀ y ∈ rest.head?, y ∈ stops) (hw : '.' ∉ w) :
    dots (w ++ rest) ≤ dots rest := by
  induction hn : w.length using Nat.strongRecOn generalizing w with
  | ind n ih =>
    by_cases hnil : w = []
    · rw [hnil, List.nil_append]
    · have hpos := List.length_pos_iff.2 hnil
      have hlen : wordLength (w ++ rest) ≤ w.length := by
        have hnumber := number_le (w := w) hrest
        have hname := name_le (w := w) fun y hy => .inr (hrest y hy)
        unfold wordLength
        split
        · exact hnumber
        · split <;> omega
      have hdrop := wordLength_pos (w ++ rest)
      rw [dots_drop hw hnil hlen]
      exact ih _ (by rw [List.length_drop]; omega) (notMem_drop hw _) rfl

theorem dots_le_of_stop {y : Char} (hy : y ∈ stops) (hw : '.' ∉ w) (rest : List Char) :
    dots (w ++ y :: rest) ≤ dots rest := by
  have hother : ∀ y ∈ stops, Text.isDigit y = false ∧ y ≠ '.' ∧ isNameStart y = false := by decide
  obtain ⟨hd, hp, hn⟩ := hother y hy
  have hhead : ∀ z ∈ (y :: rest).head?, z ∈ stops := by
    rintro _ ⟨⟩
    exact hy
  have := dots_le_rest hhead hw
  rwa [dots_other hd hp hn] at this

theorem not_isDigit_of_mem_name {n : List Char} (hn : n ∈ Lexicon.name) :
    ∀ y ∈ (n ++ rest).head?, Text.isDigit y = false := by
  obtain ⟨x, a, b, rfl, hx, -⟩ := Lexicon.mem_name.1 hn
  rintro _ ⟨⟩
  by_contra hd
  simp [isNameStart_of_isDigit (by simpa using hd)] at hx

/-- A number that takes a point takes a part of the name behind it, and no more. -/
theorem dots_of_lt_number {n : List Char} (hw : '.' ∉ w) (hn : n ∈ Lexicon.name)
    (hrest : ∀ y ∈ rest.head?, y = '.' ∨ y ∈ stops)
    (hlong : w.length < number (w ++ '.' :: (n ++ rest))) :
    ∃ k, dots (w ++ '.' :: (n ++ rest)) = dots (n.drop k ++ rest) := by
  have hlen := number_le_of_point (w := w) (v := n) hrest
  cases w with
  | nil =>
    rw [List.nil_append, number_of_point (not_isDigit_of_mem_name hn)] at hlong
    cases hlong
  | cons c w =>
    have hc : c ≠ '.' := fun h => hw (by simp [h])
    rw [List.cons_append] at hlong hlen ⊢
    have hword : wordLength (c :: (w ++ '.' :: (n ++ rest))) =
        number (c :: (w ++ '.' :: (n ++ rest))) := if_pos (by omega)
    refine ⟨number (c :: (w ++ '.' :: (n ++ rest))) - ((c :: w).length + 1), ?_⟩
    rw [dots_cons, if_neg fun h => hc h.1, Nat.add_zero, hword]
    generalize number (c :: (w ++ '.' :: (n ++ rest))) = len at *
    have hassoc : c :: (w ++ '.' :: (n ++ rest)) = (c :: w ++ ['.']) ++ (n ++ rest) := by simp
    obtain ⟨k, rfl⟩ := Nat.exists_eq_add_of_le (Nat.succ_le_of_lt hlong)
    rw [hassoc, Nat.succ_eq_add_one, Nat.add_sub_cancel_left, ← List.drop_drop, 
      List.drop_left' (by simp), List.drop_append_of_le_length (by omega)]

theorem dots_le (hns : ∀ n ∈ ns, n.toList ∈ Lexicon.name) (hrest : ∀ y ∈ rest.head?, y ∈ stops)
    (hw : '.' ∉ w) : dots (w ++ (trail ns ++ rest)) ≤ ns.length + dots rest := by
  induction ns generalizing w with
  | nil => simpa [trail] using dots_le_rest hrest hw
  | cons n ns ih =>
    rw [List.forall_mem_cons] at hns
    have htrail : trail (n :: ns) ++ rest = '.' :: (n.toList ++ (trail ns ++ rest)) := by simp [trail]
    have hpoint := notMem_point_name hns.1
    have hhead := head_trail hrest ns
    rw [htrail, List.length_cons]
    induction hn : w.length using Nat.strongRecOn generalizing w with
    | ind k ih' =>
      by_cases hnil : w = []
      · have := ih hns.2 hpoint
        rw [hnil, List.nil_append, dots_point (not_isDigit_of_mem_name hns.1)]
        omega
      by_cases hlong : w.length < number (w ++ '.' :: (n.toList ++ (trail ns ++ rest)))
      · obtain ⟨k, hk⟩ := dots_of_lt_number hw hns.1 hhead hlong
        have := ih hns.2 (notMem_drop hpoint k)
        omega
      · have hpos := List.length_pos_iff.2 hnil
        have hname : name (w ++ '.' :: (n.toList ++ (trail ns ++ rest))) ≤ w.length :=
          name_le (by rintro _ ⟨⟩; exact .inl rfl)
        have hlen : wordLength (w ++ '.' :: (n.toList ++ (trail ns ++ rest))) ≤ w.length := by
          unfold wordLength
          split
          · omega
          · split <;> omega
        have hdrop := wordLength_pos (w ++ '.' :: (n.toList ++ (trail ns ++ rest)))
        rw [dots_drop hw hnil hlen]
        exact ih' _ (by rw [List.length_drop]; omega) (notMem_drop hw _) rfl

/-- The digits of an integer take the point behind them. -/
theorem dots_lt_of_digits (hns : ∀ n ∈ ns, n.toList ∈ Lexicon.name) (hne : ns ≠ [])
    (hrest : ∀ y ∈ rest.head?, y ∈ stops) (hw : w ≠ []) (hdigits : ∀ c ∈ w, Text.isDigit c) :
    dots (w ++ (trail ns ++ rest)) < ns.length + dots rest := by
  obtain ⟨n, ns, rfl⟩ := List.exists_cons_of_ne_nil hne
  rw [List.forall_mem_cons] at hns
  have htrail : trail (n :: ns) ++ rest = '.' :: (n.toList ++ (trail ns ++ rest)) := by simp [trail]
  have hpoint : '.' ∉ w := fun h => absurd (hdigits _ h) (by decide)
  have hmem : w ++ ['.'] ∈ Lexicon.number :=
    ⟨_, Lexicon.mem_mantissa.2 (.inl ⟨w, [], rfl, hdigits, by simp, .inl hw⟩), [], .inl rfl, by simp⟩
  have hlong := scans_number.longest (w ++ '.' :: (n.toList ++ (trail ns ++ rest))) _ hmem
    ⟨n.toList ++ (trail ns ++ rest), by simp⟩
  rw [List.length_append, List.length_singleton] at hlong
  obtain ⟨k, hk⟩ := dots_of_lt_number hpoint hns.1 (head_trail hrest ns) hlong
  have := dots_le hns.2 hrest (notMem_drop (notMem_point_name hns.1) k)
  rw [htrail, hk, List.length_cons]
  omega

end

/-- The text of an integer is made of digits. -/
theorem Literal.Legible.digits {v : Literal} (hv : v.Legible) (h : v.integer?.isSome) :
    ∀ c ∈ v.toText.toList, Text.isDigit c := by
  cases v with
  | int n =>
    cases n with
    | ofNat n =>
      have htext : (int (.ofNat n)).toText = String.ofList (Nat.toDigits 10 n) := rfl
      rw [htext, String.toList_ofList]
      exact fun c hc => Text.isDigit_of_isDigit (Text.isDigit_of_mem_toDigits hc)
    | negSucc n =>
      have htext : (int (.negSucc n)).toText = "-" ++ String.ofList (Nat.toDigits 10 (n + 1)) := rfl
      obtain ⟨x, w, heq, hx⟩ := head_of_mem_number hv.mem
      rw [htext, String.toList_append] at heq
      obtain ⟨rfl, -⟩ := List.cons.inj heq
      exact absurd hx (by decide)
  | bool b =>
    obtain ⟨x, w, heq, hx⟩ := head_of_mem_number hv.mem
    cases b <;> obtain ⟨rfl, -⟩ := List.cons.inj heq <;> exact absurd hx (by decide)
  | float | complex | text | none | numeral => cases h

namespace Expr

/-- The number of fields whose point is lost to a number. -/
def crowded (e : Expr) : Nat :=
  e.walk.countP fun y => !y.spaced

def allCrowded (es : List Expr) : Nat :=
  (walk.walkAll es).countP fun y => !y.spaced

section

variable {b l r x : Expr} {es : List Expr} {o : BinaryOp} {o' : UnaryOp} {n : String} {v : Literal}
  {p : Option Pos}

theorem crowded_name : (name n p).crowded = 0 := rfl

theorem crowded_number : (number v p).crowded = 0 := rfl

theorem crowded_index : (index b es p).crowded = b.crowded + allCrowded es := by
  simp [crowded, allCrowded, walk, spaced]

theorem crowded_field :
    (field b n p).crowded = b.crowded + if b.endsInInteger 5 then 1 else 0 := by
  simp [crowded, walk, List.countP_cons, spaced]

theorem crowded_call : (call n es p).crowded = allCrowded es := by
  simp [crowded, allCrowded, walk, spaced]

theorem crowded_binary : (binary l o r p).crowded = l.crowded + r.crowded := by
  simp [crowded, walk, spaced]

theorem crowded_unary : (unary o' x p).crowded = x.crowded := by
  simp [crowded, walk, spaced]

theorem allCrowded_nil : allCrowded [] = 0 := rfl

theorem allCrowded_cons : allCrowded (x :: es) = x.crowded + allCrowded es := by
  simp [crowded, allCrowded, walk.walkAll]

end

/-- A printed tree, with the names of fields behind it, has no more points than there are fields; and
it has fewer where a point follows an integer. -/
def Dotted (parent : Nat) (e : Expr) : Prop :=
  ∀ (ns : List String) (rest : List Char), (∀ n ∈ ns, n.toList ∈ Lexicon.name) →
    (∀ y ∈ rest.head?, y ∈ [' ', ')', ']', ',', '[']) →
    dots ((e.toText parent).toList ++ (trail ns ++ rest)) + e.crowded +
      (if e.endsInInteger parent = true ∧ ns ≠ [] then 1 else 0) ≤ e.fields + ns.length + dots rest

def DottedAll (es : List Expr) : Prop :=
  ∀ rest : List Char, (∀ y ∈ rest.head?, y ∈ [')', ']']) →
    dots ((", ".intercalate (toText.texts es)).toList ++ rest) + allCrowded es ≤
      allFields es + dots rest

variable {parent : Nat} {e b l r : Expr} {p : Option Pos}

theorem Dotted.plain (h : e.Dotted parent) {y : Char} (rest : List Char)
    (hy : y ∈ [' ', ')', ']', ',', '[']) :
    dots ((e.toText parent).toList ++ y :: rest) + e.crowded ≤ e.fields + dots (y :: rest) := by
  have := h [] (y :: rest) (by simp) (by rintro _ ⟨⟩; exact hy)
  simpa [trail] using this

theorem head_stops {rest : List Char} (h : ∀ y ∈ rest.head?, y ∈ [' ', ')', ']', ',', '[']) :
    ∀ y ∈ rest.head?, y ∈ stops :=
  fun y hy => List.mem_append_left ['('] (h y hy)

theorem dots_trail {ns : List String} {rest : List Char} (hns : ∀ n ∈ ns, n.toList ∈ Lexicon.name)
    (hrest : ∀ y ∈ rest.head?, y ∈ [' ', ')', ']', ',', '[']) :
    dots (trail ns ++ rest) ≤ ns.length + dots rest :=
  dots_le (w := []) hns (head_stops hrest) (by simp)

theorem dotted_of_name {id : String} (hid : id.toList ∈ Lexicon.name) : (name id p).Dotted parent := by
  intro ns rest hns hrest
  have := dots_le hns (head_stops hrest) (notMem_point_name hid)
  simpa [toText, crowded_name, fields_name, endsInInteger] using this

theorem dotted_of_number {v : Literal} (hv : v.Legible) : (number v p).Dotted parent := by
  intro ns rest hns hrest
  have hne : v.toText.toList ≠ [] := by
    obtain ⟨x, w, heq, -⟩ := head_of_mem_number hv.mem
    simp [heq]
  rw [toText, crowded_number, fields_number, endsInInteger]
  cases hint : v.integer? with
  | some n =>
    have hdigits := hv.digits (by simp [hint])
    by_cases hnil : ns = []
    · have := dots_le hns (head_stops hrest) fun h => absurd (hdigits _ h) (by decide)
      simpa [hnil] using this
    · have := dots_lt_of_digits hns hnil (head_stops hrest) hne hdigits
      rw [if_pos ⟨rfl, hnil⟩]
      omega
  | none =>
    have hends := hv.ends (trail ns ++ rest) fun y hy => by
      cases ns with
      | nil => exact .inl (hrest y hy)
      | cons n ns =>
        cases hy
        exact .inr ⟨rfl, hint⟩
    rw [dots_number hne hends]
    simpa using dots_trail hns hrest

theorem dotted_of_index {is : List Expr} (hb : b.Dotted 5) (his : DottedAll is) :
    (index b is p).Dotted parent := by
  intro ns rest hns hrest
  have htext : ((index b is p).toText parent).toList ++ (trail ns ++ rest) = (b.toText 5).toList ++
      '[' :: ((", ".intercalate (toText.texts is)).toList ++ ']' :: (trail ns ++ rest)) := by
    simp [toText]
  have htrail := dots_trail hns hrest
  have hlist := his (']' :: (trail ns ++ rest)) (by rintro _ ⟨⟩; decide)
  have hbase := hb.plain (y := '[') ((", ".intercalate (toText.texts is)).toList ++
    ']' :: (trail ns ++ rest)) (by decide)
  rw [dots_other (by decide) (by decide) (by decide)] at hlist hbase
  rw [htext, crowded_index, fields_index, if_neg (by simp [endsInInteger])]
  omega

/-- The name of the field joins those that follow. -/
theorem dotted_of_field {n : String} (hb : b.Dotted 5) (hn : n.toList ∈ Lexicon.name) :
    (field b n p).Dotted parent := by
  intro ns rest hns hrest
  have htext : ((field b n p).toText parent).toList ++ (trail ns ++ rest) = (b.toText 5).toList ++
      (trail (n :: ns) ++ rest) := by
    simp [toText, trail]
  have hbase := hb (n :: ns) rest (List.forall_mem_cons.2 ⟨hn, hns⟩) hrest
  simp only [ne_eq, reduceCtorEq, not_false_eq_true, and_true, List.length_cons] at hbase
  have hnone : (if (field b n p).endsInInteger parent = true ∧ ns ≠ [] then 1 else 0) = 0 :=
    if_neg (by simp [endsInInteger])
  rw [htext, hnone, crowded_field, fields_field]
  omega

theorem dotted_of_call {f : String} {xs : List Expr} (hf : f.toList ∈ Lexicon.name)
    (hxs : DottedAll xs) : (call f xs p).Dotted parent := by
  intro ns rest hns hrest
  have htext : ((call f xs p).toText parent).toList ++ (trail ns ++ rest) = f.toList ++
      '(' :: ((", ".intercalate (toText.texts xs)).toList ++ ')' :: (trail ns ++ rest)) := by
    simp [toText]
  have htrail := dots_trail hns hrest
  have hlist := hxs (')' :: (trail ns ++ rest)) (by rintro _ ⟨⟩; decide)
  have hname := dots_le_of_stop (y := '(') (by decide) (notMem_point_name hf)
    ((", ".intercalate (toText.texts xs)).toList ++ ')' :: (trail ns ++ rest))
  rw [dots_other (by decide) (by decide) (by decide)] at hlist
  rw [htext, crowded_call, fields_call, if_neg (by simp [endsInInteger])]
  omega

theorem dotted_of_unary {o : UnaryOp} {x : Expr} (ho : o ∈ [.neg, .pos]) (hx : x.Dotted 3) :
    (unary o x p).Dotted parent := by
  intro ns rest hns hrest
  have hsymbol : ∀ o ∈ [UnaryOp.neg, .pos], ∀ c ∈ o.symbol.toList,
    Text.isDigit c = false ∧ c ≠ '.' ∧ isNameStart c = false := by decide
  have hoperand := hx ns rest hns hrest
  rw [toText, String.toList_append, List.append_assoc, dots_append_of_other (hsymbol o ho),
    crowded_unary, fields_unary, endsInInteger]
  exact hoperand

/-- An operator has no points. -/
theorem dots_operator {o : BinaryOp} (ho : o ∈ [.add, .sub, .mul, .div, .floorDiv, .mod, .pow])
    (rest : List Char) : dots (' ' :: (o.symbol.toList ++ ' ' :: rest)) = dots rest := by
  have hsymbol : ∀ o ∈ [BinaryOp.add, .sub, .mul, .div, .floorDiv, .mod, .pow], ∀ c ∈ o.symbol.toList,
    Text.isDigit c = false ∧ c ≠ '.' ∧ isNameStart c = false := by decide
  rw [dots_other (by decide) (by decide) (by decide), dots_append_of_other (hsymbol o ho),
    dots_other (by decide) (by decide) (by decide)]

theorem dotted_of_binary {o : BinaryOp} (ho : o ∈ [.add, .sub, .mul, .div, .floorDiv, .mod, .pow])
    (hl : l.Dotted o.precedence) (hr : r.Dotted (o.precedence + 1)) :
    (binary l o r p).Dotted parent := by
  intro ns rest hns hrest
  have htrail := dots_trail hns hrest
  have hleft (w : List Char) := hl.plain (y := ' ') (o.symbol.toList ++ ' ' :: w) (by decide)
  simp only [dots_operator ho] at hleft
  rw [crowded_binary, fields_binary, endsInInteger]
  by_cases hparen : o.precedence < parent
  · have htext : ((binary l o r p).toText parent).toList ++ (trail ns ++ rest) =
        '(' :: ((l.toText o.precedence).toList ++ ' ' :: (o.symbol.toList ++
          ' ' :: ((r.toText (o.precedence + 1)).toList ++ ')' :: (trail ns ++ rest)))) := by
      simp [toText, hparen]
    have hright := hr.plain (y := ')') (trail ns ++ rest) (by decide)
    have := hleft ((r.toText (o.precedence + 1)).toList ++ ')' :: (trail ns ++ rest))
    rw [dots_other (by decide) (by decide) (by decide)] at hright
    rw [htext, dots_other (by decide) (by decide) (by decide), if_pos hparen, if_neg (by simp)]
    omega
  · have htext : ((binary l o r p).toText parent).toList ++ (trail ns ++ rest) =
        (l.toText o.precedence).toList ++ ' ' :: (o.symbol.toList ++
          ' ' :: ((r.toText (o.precedence + 1)).toList ++ (trail ns ++ rest))) := by
      simp [toText, hparen]
    have hright := hr ns rest hns hrest
    have := hleft ((r.toText (o.precedence + 1)).toList ++ (trail ns ++ rest))
    rw [htext, if_neg hparen]
    omega

theorem dottedAll_nil : DottedAll [] := by
  intro rest hrest
  simp [toText.texts, allCrowded_nil, allFields_nil]

theorem dottedAll_one (h : e.Dotted 0) : DottedAll [e] := by
  intro rest hrest
  have := h [] rest (by simp) fun y hy => by
    have hsub : ∀ y ∈ [')', ']'], y ∈ [' ', ')', ']', ',', '['] := by decide
    exact hsub y (hrest y hy)
  simp only [trail, List.flatMap_nil, List.nil_append, ne_eq, not_true, and_false, if_false,
    List.length_nil, Nat.add_zero] at this
  simpa [toText.texts, allCrowded_cons, allFields_cons, allCrowded_nil, allFields_nil] using this

theorem dottedAll_cons {e' : Expr} {es : List Expr} (h : e.Dotted 0) (hes : DottedAll (e' :: es)) :
    DottedAll (e :: e' :: es) := by
  intro rest hrest
  have htext : (", ".intercalate (toText.texts (e :: e' :: es))).toList ++ rest = (e.toText 0).toList ++
      ',' :: ' ' :: ((", ".intercalate (toText.texts (e' :: es))).toList ++ rest) := by
    simp [toText.texts, String.intercalate_cons_cons]
  have hhead := h.plain (y := ',') (' ' :: ((", ".intercalate (toText.texts (e' :: es))).toList ++ rest))
    (by decide)
  have htail := hes rest hrest
  rw [dots_other (by decide) (by decide) (by decide), dots_other (by decide) (by decide) (by decide)]
    at hhead
  rw [htext, allCrowded_cons, allFields_cons]
  omega

mutual

theorem dotted_of_walk (e : Expr) (h : ∀ y ∈ e.walk, y.IsNode Literal.Legible) (parent : Nat) :
    e.Dotted parent := by
  have hself := h e (self_mem_walk e)
  match e with
  | name id p => exact dotted_of_name hself
  | number v p => exact dotted_of_number hself
  | index b is p =>
    simp only [walk, List.forall_mem_cons, List.forall_mem_append] at h
    exact dotted_of_index (dotted_of_walk b h.2.1 5) (dottedAll_of_walk is h.2.2)
  | field b n p =>
    simp only [walk, List.forall_mem_cons] at h
    exact dotted_of_field (dotted_of_walk b h.2 5) hself
  | call f xs p =>
    simp only [walk, List.forall_mem_cons] at h
    exact dotted_of_call hself (dottedAll_of_walk xs h.2)
  | binary l o r p =>
    simp only [walk, List.forall_mem_cons, List.forall_mem_append] at h
    exact dotted_of_binary hself (dotted_of_walk l h.2.1 _) (dotted_of_walk r h.2.2 _)
  | unary o x p =>
    simp only [walk, List.forall_mem_cons] at h
    exact dotted_of_unary hself (dotted_of_walk x h.2 3)
  | first .. | compare .. | keyword .. | target .. | hole => exact hself.elim

theorem dottedAll_of_walk (es : List Expr) (h : ∀ y ∈ walk.walkAll es, y.IsNode Literal.Legible) :
    DottedAll es := by
  match es with
  | [] => exact dottedAll_nil
  | [e] =>
    simp only [walk.walkAll, List.append_nil] at h
    exact dottedAll_one (dotted_of_walk e h 0)
  | e :: e' :: es =>
    rw [walk.walkAll, List.forall_mem_append] at h
    exact dottedAll_cons (dotted_of_walk e h.1 0) (dottedAll_of_walk (e' :: es) h.2)

end

end Expr

end IndexNotation
