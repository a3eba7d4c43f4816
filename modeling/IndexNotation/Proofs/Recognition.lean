import IndexNotation.Proofs.Derivations

/-!
# The parser finds every derivation

Reading is guided by the next character. Where a phrase ends, the next character is none that would
continue it, so the functions of the grammar stop exactly where the derivation does. There is one
choice that the next character does not make: a name with an opening parenthesis behind it at the
end of the right-hand side. It is a call unless a reduction clause can be read there; as the
parenthesis that closes is the same in both readings, the clause is the last but for a tiling
clause.
-/

namespace IndexNotation

open Grammar Terminal Cursor

/-! ## The next character -/

namespace Cursor

variable {c c' : Cursor} {t : Terminal} {tok : Token} {ss : List String} {ys : List Char}

/-- The next character is one of these. -/
def PeekIn (c : Cursor) (ys : List Char) : Prop := ∃ y ∈ c.peek, y ∈ ys

theorem PeekIn.mono {zs : List Char} (h : c.PeekIn ys) (hsub : ∀ y ∈ ys, y ∈ zs) : c.PeekIn zs := by
  obtain ⟨y, hy, hys⟩ := h
  exact ⟨y, hy, hsub y hys⟩

theorem PeekIn.not_peekIn {zs : List Char} (h : c.PeekIn ys) (hne : ∀ y ∈ ys, y ∉ zs) :
    ¬ c.PeekIn zs := by
  rintro ⟨z, hz, hzs⟩
  obtain ⟨y, hy, hys⟩ := h
  cases Option.mem_unique hy hz
  exact hne _ hys hzs

theorem take?_eq_none_of_peek (ht : t.Scans (Lexicon.symbols ss))
    (h : ∀ y ∈ c.peek, y ∉ ss.filterMap (·.toList.head?)) : c.take? t = none := by
  cases htake : c.take? t with
  | none => rfl
  | some r =>
    obtain ⟨y, hy, hmem⟩ := ((take?_eq_some_iff ht).1 htake).peek_symbols ht
    exact absurd hmem (h y hy)

theorem PeekIn.take?_eq_none (h : c.PeekIn ys) (ht : t.Scans (Lexicon.symbols ss))
    (hne : ∀ y ∈ ys, y ∉ ss.filterMap (·.toList.head?)) : c.take? t = none := by
  obtain ⟨y, hy, hys⟩ := h
  refine take?_eq_none_of_peek ht fun z hz => ?_
  cases Option.mem_unique hy hz
  exact hne y hys

theorem PeekIn.take?_name (h : c.PeekIn ys) (hne : ∀ y ∈ ys, isNameStart y = false) :
    c.take? Terminal.name = none := by
  cases htake : c.take? Terminal.name with
  | none => rfl
  | some r =>
    obtain ⟨y, hy, hys⟩ := h
    obtain ⟨z, hz, hstart⟩ := ((take?_eq_some_iff scans_name).1 htake).peek_name
    cases Option.mem_unique hy hz
    simp [hne _ hys] at hstart

/-- No operator and no access follows. -/
def Quits (c : Cursor) : Prop := ∀ y ∈ c.peek, y ∉ ['[', '.', '*', '^', '/', '%', '+', '-']

theorem PeekIn.quits (h : c.PeekIn ys)
    (hne : ∀ y ∈ ys, y ∉ ['[', '.', '*', '^', '/', '%', '+', '-']) : c.Quits := by
  obtain ⟨y, hy, hys⟩ := h
  intro z hz
  cases Option.mem_unique hy hz
  exact hne y hys

theorem Quits.take?_eq_none (h : c.Quits) (ht : t.Scans (Lexicon.symbols ss))
    (hss : ∀ y ∈ ss.filterMap (·.toList.head?), y ∈ ['[', '.', '*', '^', '/', '%', '+', '-']) :
    c.take? t = none :=
  take?_eq_none_of_peek ht fun y hy hmem => h y hy (hss y hmem)

end Cursor

/-- Digits are no letters, in whatever script. -/
theorem isNameStart_of_isDigit {x : Char} (h : Text.isDigit x) : isNameStart x = false := by
  obtain ⟨z, hz⟩ : ∃ z, Text.zeroDigits.find? (fun z => z ≤ x.toNat && x.toNat ≤ z + 9) = some z := by
    simpa [Text.isDigit, Text.digitValue?, Option.isSome_iff_exists] using h
  have hle : z ≤ x.toNat ∧ x.toNat ≤ z + 9 := by simpa using List.find?_some hz
  have hzero : ∀ z ∈ Text.zeroDigits, z = 48 ∨ 1632 ≤ z := by decide
  have := hzero z (List.mem_of_find?_eq_some hz)
  rw [Bool.eq_false_iff]
  intro hstart
  have hletter : 65 ≤ x.toNat ∧ x.toNat ≤ 122 := by
    change ((decide (x.val ≥ 'A'.val ∧ x.val ≤ 'Z'.val) ||
      decide (x.val ≥ 'a'.val) && decide (x.val ≤ 'z'.val)) || x == '_') = true at hstart
    simp only [Bool.or_eq_true, Bool.and_eq_true, decide_eq_true_eq, beq_iff_eq, ge_iff_le,
      UInt32.le_iff_toNat_le] at hstart
    simp only [Char.toNat]
    rcases hstart with (h | h) | rfl
    · simp at h; omega
    · simp at h; omega
    · decide
  omega

theorem Cursor.peek_cons {c : Cursor} {x : Char} {v : List Char} (h : c.rest = x :: v)
    (hx : isSpace x = false) : c.peek = some x := by
  have hskip := (reads_skip c).rest
  rw [h, List.takeWhile_cons_of_neg (by simp [hx]), List.nil_append] at hskip
  simp [peek, ← hskip]

/-- A terminal that no expression starts with does not stand in front of one. -/
theorem Derives.take?_eq_none {ph : Phrase} {l : Layer} {c c' : Cursor} {t : Terminal}
    {ss : List String} (h : Derives ph c c') (hl : ph.layer? = some l)
    (ht : t.Scans (Lexicon.symbols ss))
    (hss : ∀ y ∈ ss.filterMap (·.toList.head?), l.opens y = false) : c.take? t = none := by
  obtain ⟨z, hz, hopens⟩ := h.peek l hl
  refine take?_eq_none_of_peek ht fun w hw hmem => ?_
  cases Option.mem_unique hz hw
  simp [hss _ hmem] at hopens

/-- A star that multiplies is not the start of a power. -/
theorem Stands.take?_powOp {c c' : Cursor} {op : Token} (h : Stands Lexicon.mulOp c op c')
    (hne : ¬ c'.PeekIn ['*']) : c.take? powOp = none := by
  cases htake : c.take? powOp with
  | none => rfl
  | some r =>
    exfalso
    obtain ⟨k, d⟩ := r
    obtain ⟨hb, hr, hw, -⟩ := h
    cases scans_mulOp.eq_skip hw hb hr
    obtain ⟨hb', hr', hw', -⟩ := (take?_eq_some_iff scans_powOp).1 htake
    cases scans_powOp.eq_skip hw' hb' hr'
    have hrest := hr.rest.symm.trans hr'.rest
    simp only [Lexicon.powOp, Lexicon.mulOp, Lexicon.mem_symbols, List.mem_cons, List.not_mem_nil,
      or_false, exists_eq_or_imp, exists_eq_left] at hw hw'
    rcases hw with rfl | rfl | rfl | rfl <;> rcases hw' with rfl | rfl <;> simp at hrest
    -- What is left is one star for the product, and two for the power.
    exact hne ⟨'*', peek_cons hrest (by decide), by simp⟩

/-- A name that is followed by an equals sign is no part of a longer expression. -/
theorem Derives.eq_of_keyword {ph : Phrase} {c c₁ c' : Cursor} {n : Token} (h : Derives ph c c')
    (hn : Stands Lexicon.name c n c₁) (heq : c₁.PeekIn ['=']) :
    (∃ l x, ph = .expr l x) → c' = c₁ := by
  have clash : ∀ {t : Terminal} {ss : List String} {k : Token} {d : Cursor},
      t.Scans (Lexicon.symbols ss) → '=' ∉ ss.filterMap (·.toList.head?) →
      ¬ Stands (Lexicon.symbols ss) c₁ k d := by
    intro t ss k d ht hne hk
    have := heq.take?_eq_none ht (by simpa using hne)
    rw [(take?_eq_some_iff ht).2 hk] at this
    cases this
  obtain ⟨y, hy, hstart⟩ := hn.peek_name
  induction h with
  | product _ ih | unary _ ih | power _ ih | access _ ih | atom _ ih =>
    exact fun _ => ih hn hy ⟨_, _, rfl⟩
  | add _ hop _ ih =>
    cases ih hn hy ⟨_, _, rfl⟩
    exact absurd hop (clash scans_addOp (by decide))
  | mul _ hop _ ih =>
    cases ih hn hy ⟨_, _, rfl⟩
    exact absurd hop (clash scans_mulOp (by decide))
  | pow _ hop _ ih =>
    cases ih hn hy ⟨_, _, rfl⟩
    exact absurd hop (clash scans_powOp (by decide))
  | index _ hl _ _ ih =>
    cases ih hn hy ⟨_, _, rfl⟩
    exact absurd hl (clash scans_openBracket (by decide))
  | field _ hd _ ih =>
    cases ih hn hy ⟨_, _, rfl⟩
    exact absurd hd (clash scans_dot (by decide))
  | sign hop =>
    obtain ⟨z, hz, hmem⟩ := hop.peek_symbols scans_addOp
    cases Option.mem_unique hy hz
    have : y = '+' ∨ y = '-' := by simpa using hmem
    rcases this with rfl | rfl <;> exact absurd hstart (by decide)
  | number hk =>
    obtain ⟨z, hz, hdigit⟩ := hk.peek_number
    cases Option.mem_unique hy hz
    rcases hdigit with hdigit | rfl
    · simp [isNameStart_of_isDigit hdigit] at hstart
    · exact absurd hstart (by decide)
  | name hk => exact fun _ => (hk.unique scans_name hn).2
  | call hk hl =>
    cases (hk.unique scans_name hn).2
    exact absurd hl (clash scans_openParen (by decide))
  | callNone hk hl =>
    cases (hk.unique scans_name hn).2
    exact absurd hl (clash scans_openParen (by decide))
  | paren hl =>
    obtain ⟨z, hz, hmem⟩ := hl.peek_symbols scans_openParen
    cases Option.mem_unique hy hz
    have : y = '(' := by simpa using hmem
    subst this
    exact absurd hstart (by decide)
  | _ => rintro ⟨_, _, ⟨⟩⟩

/-! ## Fuel -/

/-- How deep the functions go before they read a character. -/
def Layer.depth : Layer → Nat
  | .sum => 5
  | .product => 4
  | .unary => 3
  | .power => 2
  | .access => 1
  | .atom => 1

/-- A reduction clause stands next, and after it the statement ends. -/
def Cursor.HasClause (c : Cursor) : Prop :=
  ∃ r t c', DerivesClause r c c' ∧ DerivesEnd t c'

/-- Nothing but a tiling clause is left. -/
def Cursor.AtEnd (c : Cursor) : Prop := c.peek = none ∨ c.peek = some '\x7b'

theorem Cursor.peek_eq_none {c : Cursor} (h : ∀ x ∈ c.rest, isSpace x) : c.peek = none := by
  have hskip := (reads_skip c).rest
  rw [List.takeWhile_eq_self_iff.2 h] at hskip
  have hnil : c.skip.rest = [] := by simpa using hskip
  rw [peek, hnil, List.head?_nil]

theorem DerivesEnd.atEnd {t : Option TilingClause} {c : Cursor} (h : DerivesEnd t c) : c.AtEnd := by
  cases h with
  | bare hspace => exact .inl (peek_eq_none hspace)
  | tiled ht =>
    right
    obtain ⟨hl, -⟩ := ht
    obtain ⟨y, hy, hmem⟩ := hl.peek_symbols scans_openBrace
    have : y = '\x7b' := by simpa using hmem
    exact this ▸ hy

/-- What stands after a phrase: an opening parenthesis only if it starts a clause and the phrase
ends the right-hand side; and if nothing but tiles follows the right-hand side, there is no other
way to read it that leaves a clause. -/
structure Tail (l : Layer) (final : Bool) (c c' : Cursor) : Prop where
  paren : c'.peek = some '(' → final = true ∧ c'.HasClause
  ends : final = true → c'.AtEnd → ∀ x d, Derives (.expr l x) c d → ¬ d.HasClause

/-- What may not stand after a phrase, as it would belong to it. -/
def Layer.Stops : Layer → Cursor → Prop
  | .atom, _ | .access, _ => True
  | .power, c | .unary, c | .product, c =>
    c.take? openBracket = none ∧ c.take? dot = none ∧ c.take? powOp = none
  | .sum, c =>
    (c.take? openBracket = none ∧ c.take? dot = none ∧ c.take? powOp = none) ∧ c.take? mulOp = none

/-- The parser recognizes clauses, where it looks for them. -/
def Ready (final : Bool) : Prop :=
  final = true → ∀ c : Cursor, c.HasClause → ∀ fuel, 10 * c.rest.length + 2 ≤ fuel →
    ∃ r, clauses fuel c = .ok r

/-- The parser recognizes an expression: it goes on behind it with the tree in hand. -/
def Recognized (final : Bool) (x : Located) (c c' : Cursor) (fuel : Nat) : Layer → Prop
  | .sum => ∃ fuel', 10 * c'.rest.length + 1 ≤ fuel' ∧
    sum fuel final c = sumRest fuel' final x c'
  | .product => ∃ fuel', 10 * c'.rest.length + 1 ≤ fuel' ∧
    product fuel final c = productRest fuel' final x c'
  | .unary => unary fuel final c = .ok (x, c')
  | .power => power fuel final c = .ok (x, c')
  | .access => ∃ fuel', 10 * c'.rest.length + 1 ≤ fuel' ∧
    (atom fuel final c >>= fun r => accesses fuel r.1 r.2) = accesses fuel' x c'
  | .atom => atom fuel final c = .ok (x, c')

/-- The parser returns a phrase, given enough fuel and an end to the phrase. -/
def Returned : Phrase → Cursor → Cursor → Prop
  | .expr l x, c, c' => ∀ final, Ready final → Tail l final c c' → l.Stops c' →
    ∀ fuel, 10 * c.rest.length + l.depth ≤ fuel → Recognized final x c c' fuel l
  | .list xs, c, c' => c'.PeekIn [')', ']', '\x7d'] →
    ∀ fuel, 10 * c.rest.length + 6 ≤ fuel → list fuel c = .ok (xs, c')
  | .item x, c, c' => c'.PeekIn [',', ')'] →
    ∀ fuel, 10 * c.rest.length + 6 ≤ fuel → item fuel c = .ok (x, c')
  | .items xs, c, c' => c'.PeekIn [')'] →
    ∀ fuel, 10 * c.rest.length + 1 ≤ fuel → items fuel c = .ok (xs, c')

section

variable {l : Layer} {final : Bool} {x y : Located} {xs : List Expr} {c c₁ c₂ c₃ c' : Cursor}
  {op n k left right : Token} {ys : List Char} {fuel : Nat}

/-! ## What follows -/

theorem Tail.of_peekIn (h : c'.PeekIn ys) (hne : ∀ y ∈ ys, y ≠ '(' ∧ y ≠ '\x7b') :
    Tail l final c c' := by
  obtain ⟨y, hy, hys⟩ := h
  rw [Option.mem_def] at hy
  refine ⟨fun hp => ?_, fun _ hend => ?_⟩
  · rw [hy, Option.some_inj] at hp
    exact absurd hp (hne y hys).1
  · rw [AtEnd, hy, Option.some_inj] at hend
    rcases hend with hend | hend
    · cases hend
    · exact absurd hend (hne y hys).2

/-- A phrase at the end of a longer one is followed by what follows the longer one. -/
theorem Tail.part {l' : Layer} (h : Tail l final c c')
    (hpart : ∀ x d, Derives (.expr l' x) c₁ d → ∃ y, Derives (.expr l y) c d) :
    Tail l' final c₁ c' where
  paren := h.paren
  ends hf he x d hx hd := by
    obtain ⟨y, hy⟩ := hpart x d hx
    exact h.ends hf he y d hy hd

theorem Stands.peekIn {t : Terminal} {ss : List String} (hs : Stands (Lexicon.symbols ss) c k c')
    (ht : t.Scans (Lexicon.symbols ss)) : c.PeekIn (ss.filterMap (·.toList.head?)) :=
  hs.peek_symbols ht

theorem Cursor.Quits.stops (h : c.Quits) : l.Stops c := by
  have hb := h.take?_eq_none scans_openBracket (by decide)
  have hd := h.take?_eq_none scans_dot (by decide)
  have hp := h.take?_eq_none scans_powOp (by decide)
  have hm := h.take?_eq_none scans_mulOp (by decide)
  cases l <;> simp [Layer.Stops, hb, hd, hp, hm]

/-! ## Whole expressions -/

theorem sumRest_eq_ok (h : c.take? addOp = none) (hfuel : 1 ≤ fuel) :
    sumRest fuel final x c = .ok (x, c) := by
  obtain ⟨m, rfl⟩ := Nat.exists_eq_add_of_le' hfuel
  rw [sumRest, h]

theorem productRest_eq_ok (h : c.take? mulOp = none) (hfuel : 1 ≤ fuel) :
    productRest fuel final x c = .ok (x, c) := by
  obtain ⟨m, rfl⟩ := Nat.exists_eq_add_of_le' hfuel
  rw [productRest, h]

theorem accesses_eq_ok (hb : c.take? openBracket = none) (hd : c.take? dot = none)
    (hfuel : 1 ≤ fuel) : accesses fuel x c = .ok (x, c) := by
  obtain ⟨m, rfl⟩ := Nat.exists_eq_add_of_le' hfuel
  rw [accesses, hb, hd]

theorem Returned.product_eq_ok (h : Returned (.expr .product x) c c') (hready : Ready final)
    (htail : Tail .product final c c') (hstop : Layer.sum.Stops c')
    (hfuel : 10 * c.rest.length + 4 ≤ fuel) : product fuel final c = .ok (x, c') := by
  obtain ⟨fuel', hfuel', heq⟩ := h final hready htail hstop.1 fuel hfuel
  rw [heq, productRest_eq_ok hstop.2 (by omega)]

theorem Returned.sum_eq_ok (h : Returned (.expr .sum x) c c') (hready : Ready final)
    (htail : Tail .sum final c c') (hquit : c'.Quits) (hfuel : 10 * c.rest.length + 5 ≤ fuel) :
    sum fuel final c = .ok (x, c') := by
  obtain ⟨fuel', hfuel', heq⟩ := h final hready htail hquit.stops fuel hfuel
  rw [heq, sumRest_eq_ok (hquit.take?_eq_none scans_addOp (by decide)) (by omega)]

/-- Inside of a statement an expression ends at one of these. -/
theorem Returned.sum_eq_ok_of_peekIn (h : Returned (.expr .sum x) c c')
    (hpeek : c'.PeekIn [',', ')', ']', '\x7d', '<']) (hfuel : 10 * c.rest.length + 5 ≤ fuel) :
    sum fuel false c = .ok (x, c') :=
  h.sum_eq_ok (fun hf => by cases hf) (.of_peekIn hpeek (by decide)) (hpeek.quits (by decide)) hfuel

namespace Returned

/-! ## Operators -/

theorem product (hx : Derives (.expr .product x) c c') (ih : Returned (.expr .product x) c c') :
    Returned (.expr .sum x) c c' := by
  intro final hready htail hstop fuel hfuel
  simp only [Layer.depth] at hfuel
  obtain ⟨m, rfl⟩ := Nat.exists_eq_add_of_le' (show 1 ≤ fuel by omega)
  have hlen := hx.length_le
  have hok : Grammar.product m final c = .ok (x, c') :=
    ih.product_eq_ok hready (htail.part fun x d hx => ⟨x, .product hx⟩) hstop (by omega)
  refine ⟨m, by omega, ?_⟩
  rw [sum, hok]
  rfl

theorem add (hx : Derives (.expr .sum x) c c₁) (hop : Stands Lexicon.addOp c₁ op c₂)
    (hy : Derives (.expr .product y) c₂ c') (ihx : Returned (.expr .sum x) c c₁)
    (ihy : Returned (.expr .product y) c₂ c') :
    Returned (.expr .sum ⟨.binary x.expr (.ofSymbol op.text) y.expr op.pos, x.start⟩) c c' := by
  intro final hready htail hstop fuel hfuel
  have hpeek := hop.peekIn scans_addOp
  have hstop₁ : Layer.sum.Stops c₁ :=
    ⟨⟨hpeek.take?_eq_none scans_openBracket (by decide), hpeek.take?_eq_none scans_dot (by decide),
      hpeek.take?_eq_none scans_powOp (by decide)⟩, hpeek.take?_eq_none scans_mulOp (by decide)⟩
  obtain ⟨fuel', hfuel', heq⟩ := ihx final hready (.of_peekIn hpeek (by decide)) hstop₁ fuel hfuel
  obtain ⟨m, rfl⟩ := Nat.exists_eq_add_of_le' (show 1 ≤ fuel' by omega)
  have hlen := hop.length_lt scans_addOp
  have hlen' := hy.length_le
  have hok : Grammar.product m final c₂ = .ok (y, c') :=
    ihy.product_eq_ok hready (htail.part fun z d hz => ⟨_, .add hx hop hz⟩) hstop (by omega)
  refine ⟨m, by omega, ?_⟩
  rw [heq, sumRest, (take?_eq_some_iff scans_addOp).2 hop]
  simp only [hok]
  rfl

theorem unary (hx : Derives (.expr .unary x) c c') (ih : Returned (.expr .unary x) c c') :
    Returned (.expr .product x) c c' := by
  intro final hready htail hstop fuel hfuel
  simp only [Layer.depth] at hfuel
  obtain ⟨m, rfl⟩ := Nat.exists_eq_add_of_le' (show 1 ≤ fuel by omega)
  have hlen := hx.length_le
  have hok : Grammar.unary m final c = .ok (x, c') :=
    ih final hready (htail.part fun x d hx => ⟨x, .unary hx⟩) hstop m
      (by simp only [Layer.depth]; omega)
  refine ⟨m, by omega, ?_⟩
  rw [Grammar.product, hok]
  rfl

theorem mul (hx : Derives (.expr .product x) c c₁) (hop : Stands Lexicon.mulOp c₁ op c₂)
    (hy : Derives (.expr .unary y) c₂ c') (ihx : Returned (.expr .product x) c c₁)
    (ihy : Returned (.expr .unary y) c₂ c') :
    Returned (.expr .product ⟨.binary x.expr (.ofSymbol op.text) y.expr op.pos, x.start⟩) c c' := by
  intro final hready htail hstop fuel hfuel
  have hpeek := hop.peekIn scans_mulOp
  have hstar : ¬ c₂.PeekIn ['*'] := by
    rintro ⟨z, hz, hmem⟩
    obtain ⟨w, hw, hopens⟩ := hy.peek _ rfl
    cases Option.mem_unique hz hw
    cases List.mem_singleton.1 hmem
    exact absurd hopens (by decide)
  have hstop₁ : Layer.product.Stops c₁ :=
    ⟨hpeek.take?_eq_none scans_openBracket (by decide), hpeek.take?_eq_none scans_dot (by decide),
      hop.take?_powOp hstar⟩
  obtain ⟨fuel', hfuel', heq⟩ := ihx final hready (.of_peekIn hpeek (by decide)) hstop₁ fuel hfuel
  obtain ⟨m, rfl⟩ := Nat.exists_eq_add_of_le' (show 1 ≤ fuel' by omega)
  have hlen := hop.length_lt scans_mulOp
  have hlen' := hy.length_le
  have hok : Grammar.unary m final c₂ = .ok (y, c') :=
    ihy final hready (htail.part fun z d hz => ⟨_, .mul hx hop hz⟩) hstop m
      (by simp only [Layer.depth]; omega)
  refine ⟨m, by omega, ?_⟩
  rw [heq, productRest, (take?_eq_some_iff scans_mulOp).2 hop]
  simp only [hok]
  rfl

theorem power (hx : Derives (.expr .power x) c c') (ih : Returned (.expr .power x) c c') :
    Returned (.expr .unary x) c c' := by
  intro final hready htail hstop fuel hfuel
  simp only [Layer.depth] at hfuel
  obtain ⟨m, rfl⟩ := Nat.exists_eq_add_of_le' (show 1 ≤ fuel by omega)
  have hsign : c.take? addOp = none := hx.take?_eq_none rfl scans_addOp (by decide)
  show Grammar.unary (m + 1) final c = .ok (x, c')
  rw [Grammar.unary, hsign]
  exact ih final hready (htail.part fun x d hx => ⟨x, .power hx⟩) hstop m
    (by simp only [Layer.depth]; omega)

theorem sign (hop : Stands Lexicon.addOp c op c₁) (ih : Returned (.expr .unary x) c₁ c') :
    Returned (.expr .unary ⟨.unary (.ofSymbol op.text) x.expr op.pos, op.pos⟩) c c' := by
  intro final hready htail hstop fuel hfuel
  simp only [Layer.depth] at hfuel
  obtain ⟨m, rfl⟩ := Nat.exists_eq_add_of_le' (show 1 ≤ fuel by omega)
  have hlen := hop.length_lt scans_addOp
  have hok : Grammar.unary m final c₁ = .ok (x, c') :=
    ih final hready (htail.part fun z d hz => ⟨_, .sign hop hz⟩) hstop m
      (by simp only [Layer.depth]; omega)
  show Grammar.unary (m + 1) final c = _
  rw [Grammar.unary, (take?_eq_some_iff scans_addOp).2 hop]
  simp only [hok]
  rfl

theorem power_succ (m : Nat) (final : Bool) (c : Cursor) :
    Grammar.power (m + 1) final c = (Grammar.atom m final c >>= fun r => accesses m r.1 r.2) >>=
      fun r => match r.2.take? powOp with
        | none => .ok r
        | some (op, c) => Grammar.unary m final c >>= fun e =>
          .ok (⟨.binary r.1.expr .pow e.1.expr op.pos, r.1.start⟩, e.2) := by
  rw [Grammar.power]
  rcases Grammar.atom m final c with _ | ⟨a, c⟩
  · rfl
  · show (accesses m a c >>= _) = (accesses m a c >>= _)
    rcases accesses m a c with _ | ⟨b, c⟩ <;> rfl

theorem access (ih : Returned (.expr .access x) c c') : Returned (.expr .power x) c c' := by
  intro final hready htail hstop fuel hfuel
  simp only [Layer.depth] at hfuel
  obtain ⟨m, rfl⟩ := Nat.exists_eq_add_of_le' (show 1 ≤ fuel by omega)
  obtain ⟨fuel', hfuel', heq⟩ := ih final hready (htail.part fun x d hx => ⟨x, .access hx⟩)
    trivial m (by simp only [Layer.depth]; omega)
  show Grammar.power (m + 1) final c = _
  rw [power_succ, heq, accesses_eq_ok hstop.1 hstop.2.1 (by omega)]
  show (match c'.take? powOp with | none => _ | some (op, c) => _) = _
  rw [hstop.2.2]

theorem pow (hx : Derives (.expr .access x) c c₁) (hop : Stands Lexicon.powOp c₁ op c₂)
    (ihx : Returned (.expr .access x) c c₁) (ihy : Returned (.expr .unary y) c₂ c') :
    Returned (.expr .power ⟨.binary x.expr .pow y.expr op.pos, x.start⟩) c c' := by
  intro final hready htail hstop fuel hfuel
  simp only [Layer.depth] at hfuel
  obtain ⟨m, rfl⟩ := Nat.exists_eq_add_of_le' (show 1 ≤ fuel by omega)
  have hpeek := hop.peekIn scans_powOp
  obtain ⟨fuel', hfuel', heq⟩ := ihx final hready (.of_peekIn hpeek (by decide)) trivial m
    (by simp only [Layer.depth]; omega)
  have hlen := hx.length_le
  have hlen' := hop.length_lt scans_powOp
  have hok : Grammar.unary m final c₂ = .ok (y, c') :=
    ihy final hready (htail.part fun z d hz => ⟨_, .pow hx hop hz⟩) hstop m
      (by simp only [Layer.depth]; omega)
  show Grammar.power (m + 1) final c = _
  rw [power_succ, heq, accesses_eq_ok (hpeek.take?_eq_none scans_openBracket (by decide))
    (hpeek.take?_eq_none scans_dot (by decide)) (by omega)]
  show (match c₁.take? powOp with | none => _ | some (op, c) => _) = _
  rw [(take?_eq_some_iff scans_powOp).2 hop]
  simp only [hok]
  rfl

/-! ## Accesses -/

theorem atom (hx : Derives (.expr .atom x) c c') (ih : Returned (.expr .atom x) c c') :
    Returned (.expr .access x) c c' := by
  intro final hready htail hstop fuel hfuel
  simp only [Layer.depth] at hfuel
  have hlen := hx.length_le
  have hok : Grammar.atom fuel final c = .ok (x, c') :=
    ih final hready (htail.part fun z d hz => ⟨_, .atom hz⟩) trivial fuel hfuel
  refine ⟨fuel, by omega, ?_⟩
  rw [hok]
  rfl

theorem index (hl : Stands (Lexicon.symbol "[") c₁ left c₂) (hxs : Derives (.list xs) c₂ c₃)
    (hr : Stands (Lexicon.symbol "]") c₃ right c') (ihx : Returned (.expr .access x) c c₁)
    (ihxs : Returned (.list xs) c₂ c₃) :
    Returned (.expr .access ⟨.index x.expr xs x.start, x.start⟩) c c' := by
  intro final hready htail hstop fuel hfuel
  obtain ⟨fuel', hfuel', heq⟩ := ihx final hready
    (.of_peekIn (hl.peekIn scans_openBracket) (by decide)) trivial fuel hfuel
  obtain ⟨m, rfl⟩ := Nat.exists_eq_add_of_le' (show 1 ≤ fuel' by omega)
  have hlen := hl.length_lt scans_openBracket
  have hlen' := hxs.length_le
  have hlen'' := hr.length_lt scans_closeBracket
  have hclose : c₃.PeekIn [')', ']', '\x7d'] := (hr.peekIn scans_closeBracket).mono (by decide)
  have hok : Grammar.list m c₂ = .ok (xs, c₃) := ihxs hclose m (by omega)
  refine ⟨m, by omega, ?_⟩
  rw [heq, accesses, (take?_eq_some_iff scans_openBracket).2 hl]
  simp only [hok]
  show (c₃.take closeBracket >>= _) = _
  rw [(take_eq_ok_iff scans_closeBracket).2 hr]
  rfl

theorem field (hdot : Stands (Lexicon.symbol ".") c₁ k c₂) (hn : Stands Lexicon.name c₂ n c')
    (ihx : Returned (.expr .access x) c c₁) :
    Returned (.expr .access ⟨.field x.expr n.text x.start, x.start⟩) c c' := by
  intro final hready htail hstop fuel hfuel
  have hpeek := hdot.peekIn scans_dot
  obtain ⟨fuel', hfuel', heq⟩ := ihx final hready (.of_peekIn hpeek (by decide)) trivial fuel hfuel
  obtain ⟨m, rfl⟩ := Nat.exists_eq_add_of_le' (show 1 ≤ fuel' by omega)
  have hlen := hdot.length_lt scans_dot
  have hlen' := hn.length_lt scans_name
  refine ⟨m, by omega, ?_⟩
  rw [heq, accesses, hpeek.take?_eq_none scans_openBracket (by decide),
    (take?_eq_some_iff scans_dot).2 hdot]
  simp only [(take_eq_ok_iff scans_name).2 hn]
  rfl

/-! ## Atoms -/

theorem number (hn : Stands Lexicon.number c n c') :
    Returned (.expr .atom ⟨.number (.numeral n.text) n.pos, n.pos⟩) c c' := by
  intro final hready htail hstop fuel hfuel
  simp only [Layer.depth] at hfuel
  obtain ⟨m, rfl⟩ := Nat.exists_eq_add_of_le' (show 1 ≤ fuel by omega)
  have hparen : c.take? openParen = none := by
    obtain ⟨z, hz, hdigit⟩ := hn.peek_number
    refine take?_eq_none_of_peek scans_openParen fun w hw hmem => ?_
    cases Option.mem_unique hz hw
    have : z = '(' := by simpa using hmem
    subst this
    rcases hdigit with hdigit | hdigit
    · exact absurd hdigit (by decide)
    · cases hdigit
  show Grammar.atom (m + 1) final c = _
  rw [Grammar.atom, hparen, (take?_eq_some_iff scans_number).2 hn]

/-- An atom that starts with a name is neither in parentheses nor a number. -/
theorem atom_of_name (hn : Stands Lexicon.name c n c₁) (m : Nat) (final : Bool) :
    Grammar.atom (m + 1) final c =
      if c₁.sees openParen then
        if final then
          match clauses m c₁ with
          | .ok _ => .ok (⟨.name n.text n.pos, n.pos⟩, c₁)
          | .error stop =>
            match Grammar.call m n c₁ with
            | .ok r => .ok r
            | .error stop' => .error (stop.furthest stop')
        else Grammar.call m n c₁
      else .ok (⟨.name n.text n.pos, n.pos⟩, c₁) := by
  obtain ⟨z, hz, hstart⟩ := hn.peek_name
  have hparen : c.take? openParen = none := by
    refine take?_eq_none_of_peek scans_openParen fun w hw hmem => ?_
    cases Option.mem_unique hz hw
    have : z = '(' := by simpa using hmem
    subst this
    exact absurd hstart (by decide)
  have hnumber : c.take? Terminal.number = none := by
    cases htake : c.take? Terminal.number with
    | none => rfl
    | some r =>
      obtain ⟨w, hw, hdigit⟩ := ((take?_eq_some_iff scans_number).1 htake).peek_number
      cases Option.mem_unique hz hw
      rcases hdigit with hdigit | rfl
      · simp [isNameStart_of_isDigit hdigit] at hstart
      · exact absurd hstart (by decide)
  rw [Grammar.atom, hparen, hnumber]
  simp only [(take_eq_ok_iff scans_name).2 hn]
  rfl

theorem name (hn : Stands Lexicon.name c n c') :
    Returned (.expr .atom ⟨.name n.text n.pos, n.pos⟩) c c' := by
  intro final hready htail hstop fuel hfuel
  simp only [Layer.depth] at hfuel
  obtain ⟨m, rfl⟩ := Nat.exists_eq_add_of_le' (show 1 ≤ fuel by omega)
  have hlen := hn.length_lt scans_name
  show Grammar.atom (m + 1) final c = _
  rw [atom_of_name hn]
  split
  · next hsees =>
    -- A parenthesis follows, so this is the end of the right-hand side and the clause is read.
    obtain ⟨r, hr⟩ := Option.isSome_iff_exists.1 hsees
    obtain ⟨z, hz, hmem⟩ := ((take?_eq_some_iff scans_openParen).1 hr).peekIn scans_openParen
    have : z = '(' := by simpa using hmem
    subst this
    obtain ⟨rfl, hclause⟩ := htail.paren hz
    obtain ⟨r, hr⟩ := hready rfl c' hclause m (by omega)
    rw [if_pos rfl, hr]
  · rfl

/-- In front of a call there is no clause that the statement could end with, unless the call could
be read as this clause. -/
theorem clauses_of_call (hn : Stands Lexicon.name c n c₁) (hcall : c₁.Encloses c')
    (htail : Tail .atom true c c') {m : Nat} {r} : clauses m c₁ ≠ .ok r := by
  intro hr
  obtain ⟨⟨r, t⟩, c₂⟩ := r
  obtain ⟨d, hclause, hend⟩ := clauses_sound hr
  have hd : d = c' := by
    obtain ⟨hl, hop, hxs, hright, -⟩ := hclause
    refine (Cursor.Encloses.mk hl ?_ hright).unique hcall
    refine Closed.trans ?_ hxs.closed
    rcases hop with hop | hop | hop
    · exact hop.closed (Lexicon.notMem_symbols (by decide))
    · exact hop.closed (Lexicon.notMem_symbols (by decide))
    · exact hop.closed Lexicon.notMem_name
  subst hd
  exact htail.ends rfl hend.atEnd _ c₁ (.name hn) ⟨_, _, _, hclause, hend⟩

/-- An atom that starts like a call is one, if the arguments can be read. -/
theorem atom_eq_call (hn : Stands Lexicon.name c n c₁) (hl : Stands (Lexicon.symbol "(") c₁ left c₂)
    (hcall : c₁.Encloses c') (htail : Tail .atom final c c') {m : Nat}
    (hok : Grammar.call m n c₁ = .ok (x, c')) : Grammar.atom (m + 1) final c = .ok (x, c') := by
  have hsees : c₁.sees openParen = true := by
    rw [sees, (take?_eq_some_iff scans_openParen).2 hl]
    rfl
  rw [atom_of_name hn, if_pos hsees]
  split
  · next hfinal =>
    subst hfinal
    split
    · next heq => exact absurd heq (clauses_of_call hn hcall htail)
    · rw [hok]
  · exact hok

theorem call (hn : Stands Lexicon.name c n c₁) (hl : Stands (Lexicon.symbol "(") c₁ left c₂)
    (hxs : Derives (.list xs) c₂ c₃) (hr : Stands (Lexicon.symbol ")") c₃ right c')
    (ih : Returned (.list xs) c₂ c₃) :
    Returned (.expr .atom ⟨.call n.text xs n.pos, n.pos⟩) c c' := by
  intro final hready htail hstop fuel hfuel
  simp only [Layer.depth] at hfuel
  have hlen := hn.length_lt scans_name
  have hlen' := hl.length_lt scans_openParen
  obtain ⟨m, rfl⟩ := Nat.exists_eq_add_of_le' (show 2 ≤ fuel by omega)
  refine atom_eq_call hn hl (.mk hl hxs.closed hr) htail ?_
  have hsees : c₂.sees closeParen = false := by
    rw [sees, hxs.take?_eq_none rfl scans_closeParen (by decide)]
    rfl
  have hclose : c₃.PeekIn [')', ']', '\x7d'] := (hr.peekIn scans_closeParen).mono (by decide)
  have hok : Grammar.list m c₂ = .ok (xs, c₃) := ih hclose m (by omega)
  rw [Grammar.call, (take_eq_ok_iff scans_openParen).2 hl]
  show (if c₂.sees closeParen then _ else Grammar.list m c₂ >>= _) = _
  rw [if_neg (by simp [hsees]), hok]
  show (c₃.take closeParen >>= _) = _
  rw [(take_eq_ok_iff scans_closeParen).2 hr]
  rfl

theorem callNone (hn : Stands Lexicon.name c n c₁) (hl : Stands (Lexicon.symbol "(") c₁ left c₂)
    (hr : Stands (Lexicon.symbol ")") c₂ right c') :
    Returned (.expr .atom ⟨.call n.text [] n.pos, n.pos⟩) c c' := by
  intro final hready htail hstop fuel hfuel
  simp only [Layer.depth] at hfuel
  have hlen := hn.length_lt scans_name
  obtain ⟨m, rfl⟩ := Nat.exists_eq_add_of_le' (show 2 ≤ fuel by omega)
  refine atom_eq_call hn hl (.mk hl (.refl _) hr) htail ?_
  have hsees : c₂.sees closeParen = true := by
    rw [sees, (take?_eq_some_iff scans_closeParen).2 hr]
    rfl
  rw [Grammar.call, (take_eq_ok_iff scans_openParen).2 hl]
  show (if c₂.sees closeParen then _ else _) = _
  rw [if_pos hsees]
  show (c₂.take closeParen >>= _) = _
  rw [(take_eq_ok_iff scans_closeParen).2 hr]
  rfl

theorem paren (hl : Stands (Lexicon.symbol "(") c left c₁)
    (hr : Stands (Lexicon.symbol ")") c₂ right c') (ih : Returned (.expr .sum x) c₁ c₂) :
    Returned (.expr .atom ⟨x.expr, left.pos⟩) c c' := by
  intro final hready htail hstop fuel hfuel
  simp only [Layer.depth] at hfuel
  obtain ⟨m, rfl⟩ := Nat.exists_eq_add_of_le' (show 1 ≤ fuel by omega)
  have hlen := hl.length_lt scans_openParen
  have hclose : c₂.PeekIn [',', ')', ']', '\x7d', '<'] := (hr.peekIn scans_closeParen).mono (by decide)
  show Grammar.atom (m + 1) final c = _
  rw [Grammar.atom, (take?_eq_some_iff scans_openParen).2 hl]
  simp only [ih.sum_eq_ok_of_peekIn hclose (show 10 * c₁.rest.length + 5 ≤ m by omega)]
  show (c₂.take closeParen >>= _) = _
  rw [(take_eq_ok_iff scans_closeParen).2 hr]
  rfl

/-! ## Lists and items -/

theorem one (ih : Returned (.expr .sum x) c c') : Returned (.list [x.expr]) c c' := by
  intro hpeek fuel hfuel
  obtain ⟨m, rfl⟩ := Nat.exists_eq_add_of_le' (show 1 ≤ fuel by omega)
  rw [Grammar.list, ih.sum_eq_ok_of_peekIn (hpeek.mono (by decide)) (by omega)]
  show (match c'.take? comma with | none => _ | some (_, c) => _) = _
  rw [hpeek.take?_eq_none scans_comma (by decide)]
  rfl

theorem cons (hx : Derives (.expr .sum x) c c₁) (hk : Stands (Lexicon.symbol ",") c₁ k c₂)
    (ihx : Returned (.expr .sum x) c c₁) (ihxs : Returned (.list xs) c₂ c') :
    Returned (.list (x.expr :: xs)) c c' := by
  intro hpeek fuel hfuel
  obtain ⟨m, rfl⟩ := Nat.exists_eq_add_of_le' (show 1 ≤ fuel by omega)
  have hlen := hx.length_le
  have hlen' := hk.length_lt scans_comma
  have hok : Grammar.list m c₂ = .ok (xs, c') := ihxs hpeek m (by omega)
  rw [Grammar.list, ihx.sum_eq_ok_of_peekIn ((hk.peekIn scans_comma).mono (by decide)) (by omega)]
  show (match c₁.take? comma with | none => _ | some (_, c) => _) = _
  rw [(take?_eq_some_iff scans_comma).2 hk]
  simp only [hok]
  rfl

theorem keywordStart_eq_none (hx : Derives (.expr .sum x) c c₁) (hne : ¬ c₁.PeekIn ['=']) :
    item.keywordStart c = none := by
  unfold item.keywordStart
  split
  · rfl
  · next n d hn =>
    rw [Option.map_eq_none_iff]
    cases hk : d.take? equals with
    | none => rfl
    | some r =>
      have hpeek : d.PeekIn ['='] := ((take?_eq_some_iff scans_equals).1 hk).peekIn scans_equals
      have := hx.eq_of_keyword ((take?_eq_some_iff scans_name).1 hn) hpeek ⟨_, _, rfl⟩
      exact absurd (this ▸ hpeek) hne

/-- An item that is no keyword starts with an expression. -/
theorem item_succ (hx : Derives (.expr .sum x) c c₁) (ih : Returned (.expr .sum x) c c₁)
    (hpeek : c₁.PeekIn [',', ')', '<']) {m : Nat} (hfuel : 10 * c.rest.length + 5 ≤ m) :
    Grammar.item (m + 1) c = match c₁.take? atMost with
      | none => .ok (x.expr, c₁)
      | some (_, c) => do
        let (y, c) ← sum m false c
        match c.take? atMost with
        | none => return (.compare [x.expr, y.expr] x.start, c)
        | some (_, c) => do
          let (z, c) ← sum m false c
          return (.compare [x.expr, y.expr, z.expr] x.start, c) := by
  rw [Grammar.item, keywordStart_eq_none hx (hpeek.not_peekIn (by decide))]
  simp only [ih.sum_eq_ok_of_peekIn (hpeek.mono (by decide)) hfuel]
  rfl

theorem plain (hx : Derives (.expr .sum x) c c') (ih : Returned (.expr .sum x) c c') :
    Returned (.item x.expr) c c' := by
  intro hpeek fuel hfuel
  obtain ⟨m, rfl⟩ := Nat.exists_eq_add_of_le' (show 1 ≤ fuel by omega)
  rw [item_succ hx ih (hpeek.mono (by decide)) (by omega),
    hpeek.take?_eq_none scans_atMost (by decide)]

theorem atMost (hx : Derives (.expr .sum x) c c₁) (hk : Stands (Lexicon.symbol "<=") c₁ k c₂)
    (ihx : Returned (.expr .sum x) c c₁) (ihy : Returned (.expr .sum y) c₂ c') :
    Returned (.item (.compare [x.expr, y.expr] x.start)) c c' := by
  intro hpeek fuel hfuel
  obtain ⟨m, rfl⟩ := Nat.exists_eq_add_of_le' (show 1 ≤ fuel by omega)
  have hlen := hx.length_le
  have hlen' := hk.length_le
  have hok : sum m false c₂ = .ok (y, c') :=
    ihy.sum_eq_ok_of_peekIn (hpeek.mono (by decide)) (by omega)
  rw [item_succ hx ihx ((hk.peekIn scans_atMost).mono (by decide)) (by omega),
    (take?_eq_some_iff scans_atMost).2 hk]
  simp only [hok]
  show (match c'.take? Grammar.atMost with | none => _ | some (_, c) => _) = _
  rw [hpeek.take?_eq_none scans_atMost (by decide)]
  rfl

theorem between {z : Located} {c₄ : Cursor} {k' : Token} (hx : Derives (.expr .sum x) c c₁)
    (hk : Stands (Lexicon.symbol "<=") c₁ k c₂) (hy : Derives (.expr .sum y) c₂ c₃)
    (hk' : Stands (Lexicon.symbol "<=") c₃ k' c₄) (ihx : Returned (.expr .sum x) c c₁)
    (ihy : Returned (.expr .sum y) c₂ c₃) (ihz : Returned (.expr .sum z) c₄ c') :
    Returned (.item (.compare [x.expr, y.expr, z.expr] x.start)) c c' := by
  intro hpeek fuel hfuel
  obtain ⟨m, rfl⟩ := Nat.exists_eq_add_of_le' (show 1 ≤ fuel by omega)
  have hlen := hx.length_le
  have hlen₁ := hk.length_le
  have hlen₂ := hy.length_le
  have hlen₃ := hk'.length_le
  have hoky : sum m false c₂ = .ok (y, c₃) :=
    ihy.sum_eq_ok_of_peekIn ((hk'.peekIn scans_atMost).mono (by decide)) (by omega)
  have hokz : sum m false c₄ = .ok (z, c') :=
    ihz.sum_eq_ok_of_peekIn (hpeek.mono (by decide)) (by omega)
  rw [item_succ hx ihx ((hk.peekIn scans_atMost).mono (by decide)) (by omega),
    (take?_eq_some_iff scans_atMost).2 hk]
  simp only [hoky]
  show (match c₃.take? Grammar.atMost with | none => _ | some (_, c) => _) = _
  rw [(take?_eq_some_iff scans_atMost).2 hk']
  simp only [hokz]
  rfl

theorem keyword (hn : Stands Lexicon.name c n c₁) (hk : Stands (Lexicon.symbol "=") c₁ k c₂)
    (ih : Returned (.expr .sum x) c₂ c') : Returned (.item (.keyword n.text x.expr n.pos)) c c' := by
  intro hpeek fuel hfuel
  obtain ⟨m, rfl⟩ := Nat.exists_eq_add_of_le' (show 1 ≤ fuel by omega)
  have hlen := hn.length_le
  have hlen' := hk.length_le
  have hstart : item.keywordStart c = some (n, c₂) := by
    rw [item.keywordStart, (take?_eq_some_iff scans_name).2 hn]
    simp only [(take?_eq_some_iff scans_equals).2 hk]
    rfl
  rw [Grammar.item, hstart]
  simp only [ih.sum_eq_ok_of_peekIn (hpeek.mono (by decide))
    (show 10 * c₂.rest.length + 5 ≤ m by omega)]
  rfl

theorem done : Returned (.items []) c c := by
  intro hpeek fuel hfuel
  obtain ⟨m, rfl⟩ := Nat.exists_eq_add_of_le' (show 1 ≤ fuel by omega)
  rw [Grammar.items, hpeek.take?_eq_none scans_comma (by decide)]

theorem more {e : Expr} (hk : Stands (Lexicon.symbol ",") c k c₁) (hx : Derives (.item e) c₁ c₂)
    (hxs : Derives (.items xs) c₂ c') (ihx : Returned (.item e) c₁ c₂)
    (ihxs : Returned (.items xs) c₂ c') : Returned (.items (e :: xs)) c c' := by
  intro hpeek fuel hfuel
  obtain ⟨m, rfl⟩ := Nat.exists_eq_add_of_le' (show 1 ≤ fuel by omega)
  have hlen := hk.length_lt scans_comma
  have hlen' := hx.length_le
  have hnext : c₂.PeekIn [',', ')'] := by
    cases hxs with
    | done => exact hpeek.mono (by decide)
    | more hk' => exact (hk'.peekIn scans_comma).mono (by decide)
  have hokx : Grammar.item m c₁ = .ok (e, c₂) := ihx hnext m (by omega)
  have hokxs : Grammar.items m c₂ = .ok (xs, c') := ihxs hpeek m (by omega)
  rw [Grammar.items, (take?_eq_some_iff scans_comma).2 hk]
  simp only [hokx]
  show (Grammar.items m c₂ >>= _) = _
  rw [hokxs]
  rfl

end Returned

theorem Derives.returned {ph : Phrase} (h : Derives ph c c') : Returned ph c c' := by
  induction h with
  | product hx ih => exact .product hx ih
  | add hx hop hy ihx ihy => exact .add hx hop hy ihx ihy
  | unary hx ih => exact .unary hx ih
  | mul hx hop hy ihx ihy => exact .mul hx hop hy ihx ihy
  | power hx ih => exact .power hx ih
  | sign hop _ ih => exact .sign hop ih
  | access _ ih => exact .access ih
  | pow hx hop _ ihx ihy => exact .pow hx hop ihx ihy
  | atom hx ih => exact .atom hx ih
  | index _ hl hxs hr ihx ihxs => exact .index hl hxs hr ihx ihxs
  | field _ hd hn ih => exact .field hd hn ih
  | number hn => exact .number hn
  | name hn => exact .name hn
  | call hn hl hxs hr ih => exact .call hn hl hxs hr ih
  | callNone hn hl hr => exact .callNone hn hl hr
  | paren hl _ hr ih => exact .paren hl hr ih
  | one _ ih => exact .one ih
  | cons hx hk _ ihx ihxs => exact .cons hx hk ihx ihxs
  | plain hx ih => exact .plain hx ih
  | atMost hx hk _ ihx ihy => exact .atMost hx hk ihx ihy
  | between hx hk hy hk' _ ihx ihy ihz => exact .between hx hk hy hk' ihx ihy ihz
  | keyword hn hk _ ih => exact .keyword hn hk ih
  | done => exact .done
  | more hk hx hxs ihx ihxs => exact .more hk hx hxs ihx ihxs

end

end IndexNotation
