import IndexNotation.Proofs.Terminals
import IndexNotation.Proofs.World

/-!
# Derivations

The grammar as a relation between a phrase, the cursor in front of it and the cursor behind it, one
rule for each way to write the phrase. A phrase carries its tree. Repetitions are written as
recursion on the side to which they associate: `sum: product (ADD product)*` is a `product`, or a
`sum` followed by `ADD` and a `product`, so that the tree of a sum leans to the left.

Whatever the parser returns has a derivation.
-/

namespace IndexNotation

/-- The layers of an expression, each binding tighter than the one before. -/
inductive Layer where
  | sum | product | unary | power | access | atom
deriving Repr, DecidableEq

/-- What the rules derive, with its tree. -/
inductive Phrase where
  | expr (layer : Layer) (x : Located)
  /-- One or more expressions with commas between them. -/
  | list (xs : List Expr)
  | item (x : Expr)
  /-- Items of a clause, each after a comma. -/
  | items (xs : List Expr)

inductive Derives : Phrase → Cursor → Cursor → Prop
  | product {x c c'} : Derives (.expr .product x) c c' → Derives (.expr .sum x) c c'
  | add {x y op c c₁ c₂ c'} : Derives (.expr .sum x) c c₁ → Stands Lexicon.addOp c₁ op c₂ →
    Derives (.expr .product y) c₂ c' →
    Derives (.expr .sum ⟨.binary x.expr (.ofSymbol op.text) y.expr op.pos, x.start⟩) c c'
  | unary {x c c'} : Derives (.expr .unary x) c c' → Derives (.expr .product x) c c'
  | mul {x y op c c₁ c₂ c'} : Derives (.expr .product x) c c₁ → Stands Lexicon.mulOp c₁ op c₂ →
    Derives (.expr .unary y) c₂ c' →
    Derives (.expr .product ⟨.binary x.expr (.ofSymbol op.text) y.expr op.pos, x.start⟩) c c'
  | power {x c c'} : Derives (.expr .power x) c c' → Derives (.expr .unary x) c c'
  | sign {x op c c₁ c'} : Stands Lexicon.addOp c op c₁ → Derives (.expr .unary x) c₁ c' →
    Derives (.expr .unary ⟨.unary (.ofSymbol op.text) x.expr op.pos, op.pos⟩) c c'
  | access {x c c'} : Derives (.expr .access x) c c' → Derives (.expr .power x) c c'
  | pow {x y op c c₁ c₂ c'} : Derives (.expr .access x) c c₁ → Stands Lexicon.powOp c₁ op c₂ →
    Derives (.expr .unary y) c₂ c' →
    Derives (.expr .power ⟨.binary x.expr .pow y.expr op.pos, x.start⟩) c c'
  | atom {x c c'} : Derives (.expr .atom x) c c' → Derives (.expr .access x) c c'
  | index {x xs l r c c₁ c₂ c₃ c'} : Derives (.expr .access x) c c₁ →
    Stands (Lexicon.symbol "[") c₁ l c₂ → Derives (.list xs) c₂ c₃ →
    Stands (Lexicon.symbol "]") c₃ r c' →
    Derives (.expr .access ⟨.index x.expr xs x.start, x.start⟩) c c'
  | field {x n d c c₁ c₂ c'} : Derives (.expr .access x) c c₁ →
    Stands (Lexicon.symbol ".") c₁ d c₂ → Stands Lexicon.name c₂ n c' →
    Derives (.expr .access ⟨.field x.expr n.text x.start, x.start⟩) c c'
  | number {n c c'} : Stands Lexicon.number c n c' →
    Derives (.expr .atom ⟨.number (.numeral n.text) n.pos, n.pos⟩) c c'
  | name {n c c'} : Stands Lexicon.name c n c' →
    Derives (.expr .atom ⟨.name n.text n.pos, n.pos⟩) c c'
  | call {n xs l r c c₁ c₂ c₃ c'} : Stands Lexicon.name c n c₁ →
    Stands (Lexicon.symbol "(") c₁ l c₂ → Derives (.list xs) c₂ c₃ →
    Stands (Lexicon.symbol ")") c₃ r c' →
    Derives (.expr .atom ⟨.call n.text xs n.pos, n.pos⟩) c c'
  | callNone {n l r c c₁ c₂ c'} : Stands Lexicon.name c n c₁ →
    Stands (Lexicon.symbol "(") c₁ l c₂ → Stands (Lexicon.symbol ")") c₂ r c' →
    Derives (.expr .atom ⟨.call n.text [] n.pos, n.pos⟩) c c'
  | paren {x l r c c₁ c₂ c'} : Stands (Lexicon.symbol "(") c l c₁ → Derives (.expr .sum x) c₁ c₂ →
    Stands (Lexicon.symbol ")") c₂ r c' → Derives (.expr .atom ⟨x.expr, l.pos⟩) c c'
  | one {x c c'} : Derives (.expr .sum x) c c' → Derives (.list [x.expr]) c c'
  | cons {x xs k c c₁ c₂ c'} : Derives (.expr .sum x) c c₁ → Stands (Lexicon.symbol ",") c₁ k c₂ →
    Derives (.list xs) c₂ c' → Derives (.list (x.expr :: xs)) c c'
  | plain {x c c'} : Derives (.expr .sum x) c c' → Derives (.item x.expr) c c'
  | atMost {x y k c c₁ c₂ c'} : Derives (.expr .sum x) c c₁ →
    Stands (Lexicon.symbol "<=") c₁ k c₂ → Derives (.expr .sum y) c₂ c' →
    Derives (.item (.compare [x.expr, y.expr] x.start)) c c'
  | between {x y z k l c c₁ c₂ c₃ c₄ c'} : Derives (.expr .sum x) c c₁ →
    Stands (Lexicon.symbol "<=") c₁ k c₂ → Derives (.expr .sum y) c₂ c₃ →
    Stands (Lexicon.symbol "<=") c₃ l c₄ → Derives (.expr .sum z) c₄ c' →
    Derives (.item (.compare [x.expr, y.expr, z.expr] x.start)) c c'
  | keyword {n x k c c₁ c₂ c'} : Stands Lexicon.name c n c₁ → Stands (Lexicon.symbol "=") c₁ k c₂ →
    Derives (.expr .sum x) c₂ c' → Derives (.item (.keyword n.text x.expr n.pos)) c c'
  | done {c} : Derives (.items []) c c
  | more {x xs k c c₁ c₂ c'} : Stands (Lexicon.symbol ",") c k c₁ → Derives (.item x) c₁ c₂ →
    Derives (.items xs) c₂ c' → Derives (.items (x :: xs)) c c'

/-- `"(" (ADD | MUL | NAME) ("," item)* ")"` -/
inductive DerivesClause : ReductionClause → Cursor → Cursor → Prop
  | mk {op xs l r w c c₁ c₂ c₃ c'} : Stands (Lexicon.symbol "(") c l c₁ →
    (Stands Lexicon.addOp c₁ op c₂ ∨ Stands Lexicon.mulOp c₁ op c₂ ∨ Stands Lexicon.name c₁ op c₂) →
    Derives (.items xs) c₂ c₃ → Stands (Lexicon.symbol ")") c₃ r c' → c.skip.Reads w c' →
    DerivesClause ⟨op.text, xs, String.ofList w, l.pos⟩ c c'

/-- `"{" list "}"` -/
inductive DerivesTiling : TilingClause → Cursor → Cursor → Prop
  | mk {xs l r w c c₁ c₂ c'} : Stands (Lexicon.symbol "\x7b") c l c₁ → Derives (.list xs) c₁ c₂ →
    Stands (Lexicon.symbol "\x7d") c₂ r c' → c.skip.Reads w c' →
    DerivesTiling ⟨xs, String.ofList w, l.pos⟩ c c'

/-- A tiling clause if there is one, and the end of the text. -/
inductive DerivesEnd : Option TilingClause → Cursor → Prop
  | bare {c} : (∀ x ∈ c.rest, isSpace x) → DerivesEnd none c
  | tiled {t c c'} : DerivesTiling t c c' → (∀ x ∈ c'.rest, isSpace x) → DerivesEnd (some t) c

/-- `NAME? "[" list? "]"` -/
inductive DerivesTarget : Target → Cursor → Cursor → Prop
  | mk {n : Option String} {xs l r c c₁ c₂ c₃ c'} :
    (n = none ∧ c₁ = c ∨ ∃ tok, Stands Lexicon.name c tok c₁ ∧ n = some tok.text) →
    Stands (Lexicon.symbol "[") c₁ l c₂ → (xs = [] ∧ c₃ = c₂ ∨ Derives (.list xs) c₂ c₃) →
    Stands (Lexicon.symbol "]") c₃ r c' → DerivesTarget ⟨n, xs, c.skip.pos⟩ c c'

/-- A statement that a text spells, number texts unread: `target ASSIGN sum clause? tiling?`. -/
inductive Spells (text : String) : Statement → Prop
  | plain {target op k rhs tiles c₁ c₂ c₃} : DerivesTarget target (.ofText text) c₁ →
    Stands Lexicon.assign c₁ k c₂ → k.text = Assign.symbol op → Derives (.expr .sum rhs) c₂ c₃ →
    DerivesEnd tiles c₃ →
    Spells text ⟨target, op, rhs.expr, none, tiles, Text.trim text, target.pos⟩
  | reduced {target op k rhs reduction tiles c₁ c₂ c₃ c₄} :
    DerivesTarget target (.ofText text) c₁ → Stands Lexicon.assign c₁ k c₂ →
    k.text = Assign.symbol op → Derives (.expr .sum rhs) c₂ c₃ → DerivesClause reduction c₃ c₄ →
    DerivesEnd tiles c₄ →
    Spells text ⟨target, op, rhs.expr, some reduction, tiles, Text.trim text, target.pos⟩

/-! ## Terminals of the parser -/

namespace Grammar

theorem scans_comma : comma.Scans (Lexicon.symbol ",") := Terminal.scans_symbol (by decide)
theorem scans_openBracket : openBracket.Scans (Lexicon.symbol "[") := Terminal.scans_symbol (by decide)
theorem scans_closeBracket : closeBracket.Scans (Lexicon.symbol "]") :=
  Terminal.scans_symbol (by decide)
theorem scans_openParen : openParen.Scans (Lexicon.symbol "(") := Terminal.scans_symbol (by decide)
theorem scans_closeParen : closeParen.Scans (Lexicon.symbol ")") := Terminal.scans_symbol (by decide)
theorem scans_openBrace : openBrace.Scans (Lexicon.symbol "\x7b") := Terminal.scans_symbol (by decide)
theorem scans_closeBrace : closeBrace.Scans (Lexicon.symbol "\x7d") :=
  Terminal.scans_symbol (by decide)
theorem scans_dot : dot.Scans (Lexicon.symbol ".") := Terminal.scans_symbol (by decide)
theorem scans_atMost : atMost.Scans (Lexicon.symbol "<=") := Terminal.scans_symbol (by decide)
theorem scans_equals : equals.Scans (Lexicon.symbol "=") := Terminal.scans_symbol (by decide)

open Terminal Cursor

/-! ## What the parser returns has a derivation -/

/-- Soundness of the functions for expressions at some fuel. The functions that continue a phrase
are given what stands before. -/
structure Sound (fuel : Nat) : Prop where
  sum : ∀ {final c x c'}, sum fuel final c = .ok (x, c') → Derives (.expr .sum x) c c'
  sumRest : ∀ {final left c₀ c x c'}, Derives (.expr .sum left) c₀ c →
    sumRest fuel final left c = .ok (x, c') → Derives (.expr .sum x) c₀ c'
  product : ∀ {final c x c'}, product fuel final c = .ok (x, c') → Derives (.expr .product x) c c'
  productRest : ∀ {final left c₀ c x c'}, Derives (.expr .product left) c₀ c →
    productRest fuel final left c = .ok (x, c') → Derives (.expr .product x) c₀ c'
  unary : ∀ {final c x c'}, unary fuel final c = .ok (x, c') → Derives (.expr .unary x) c c'
  power : ∀ {final c x c'}, power fuel final c = .ok (x, c') → Derives (.expr .power x) c c'
  accesses : ∀ {base c₀ c x c'}, Derives (.expr .access base) c₀ c →
    accesses fuel base c = .ok (x, c') → Derives (.expr .access x) c₀ c'
  atom : ∀ {final c x c'}, atom fuel final c = .ok (x, c') → Derives (.expr .atom x) c c'
  call : ∀ {n c₀ c x c'}, Stands Lexicon.name c₀ n c → call fuel n c = .ok (x, c') →
    Derives (.expr .atom x) c₀ c'
  list : ∀ {c xs c'}, list fuel c = .ok (xs, c') → Derives (.list xs) c c'
  item : ∀ {c x c'}, item fuel c = .ok (x, c') → Derives (.item x) c c'
  items : ∀ {c xs c'}, items fuel c = .ok (xs, c') → Derives (.items xs) c c'

theorem sound_zero : Sound 0 := by
  constructor <;> intros <;> contradiction

theorem sound_succ {fuel : Nat} (ih : Sound fuel) : Sound (fuel + 1) where
  sum h := by
    rw [Grammar.sum] at h
    obtain ⟨⟨left, c₁⟩, hleft, h⟩ := bind_eq_ok h
    exact ih.sumRest (.product (ih.product hleft)) h
  sumRest hleft h := by
    rw [Grammar.sumRest] at h
    split at h
    · cases h
      exact hleft
    · next op c₁ hop =>
      obtain ⟨⟨right, c₂⟩, hright, h⟩ := bind_eq_ok h
      exact ih.sumRest (.add hleft ((take?_eq_some_iff scans_addOp).1 hop) (ih.product hright)) h
  product h := by
    rw [Grammar.product] at h
    obtain ⟨⟨left, c₁⟩, hleft, h⟩ := bind_eq_ok h
    exact ih.productRest (.unary (ih.unary hleft)) h
  productRest hleft h := by
    rw [Grammar.productRest] at h
    split at h
    · cases h
      exact hleft
    · next op c₁ hop =>
      obtain ⟨⟨right, c₂⟩, hright, h⟩ := bind_eq_ok h
      exact ih.productRest (.mul hleft ((take?_eq_some_iff scans_mulOp).1 hop) (ih.unary hright)) h
  unary h := by
    rw [Grammar.unary] at h
    split at h
    · exact .power (ih.power h)
    · next op c₁ hop =>
      obtain ⟨⟨x, c₂⟩, hx, h⟩ := bind_eq_ok h
      cases h
      exact .sign ((take?_eq_some_iff scans_addOp).1 hop) (ih.unary hx)
  power h := by
    rw [Grammar.power] at h
    obtain ⟨⟨a, c₁⟩, ha, h⟩ := bind_eq_ok h
    obtain ⟨⟨base, c₂⟩, hbase, h⟩ := bind_eq_ok h
    have hbase := ih.accesses (.atom (ih.atom ha)) hbase
    dsimp only at h
    split at h
    · cases h
      exact .access hbase
    · next op c₃ hop =>
      obtain ⟨⟨e, c₄⟩, he, h⟩ := bind_eq_ok h
      cases h
      exact .pow hbase ((take?_eq_some_iff scans_powOp).1 hop) (ih.unary he)
  accesses hbase h := by
    rw [Grammar.accesses] at h
    split at h
    · next l c₁ hl =>
      obtain ⟨⟨xs, c₂⟩, hxs, h⟩ := bind_eq_ok h
      obtain ⟨⟨r, c₃⟩, hr, h⟩ := bind_eq_ok h
      exact ih.accesses (.index hbase ((take?_eq_some_iff scans_openBracket).1 hl) (ih.list hxs)
        ((take_eq_ok_iff scans_closeBracket).1 hr)) h
    · split at h
      · next d c₁ hd =>
        obtain ⟨⟨n, c₂⟩, hn, h⟩ := bind_eq_ok h
        exact ih.accesses (.field hbase ((take?_eq_some_iff scans_dot).1 hd)
          ((take_eq_ok_iff scans_name).1 hn)) h
      · cases h
        exact hbase
  atom h := by
    rw [Grammar.atom] at h
    split at h
    · next l c₁ hl =>
      obtain ⟨⟨x, c₂⟩, hx, h⟩ := bind_eq_ok h
      obtain ⟨⟨r, c₃⟩, hr, h⟩ := bind_eq_ok h
      cases h
      exact .paren ((take?_eq_some_iff scans_openParen).1 hl) (ih.sum hx)
        ((take_eq_ok_iff scans_closeParen).1 hr)
    · split at h
      · next n c₁ hn =>
        cases h
        exact .number ((take?_eq_some_iff scans_number).1 hn)
      · obtain ⟨⟨n, c₁⟩, hn, h⟩ := bind_eq_ok h
        have hn := (take_eq_ok_iff scans_name).1 hn
        dsimp only at h
        split at h
        · split at h
          · split at h
            · cases h
              exact .name hn
            · split at h
              · next hcall =>
                cases h
                exact ih.call hn hcall
              · cases h
          · exact ih.call hn h
        · cases h
          exact .name hn
  call hn h := by
    rw [Grammar.call] at h
    obtain ⟨⟨l, c₁⟩, hl, h⟩ := bind_eq_ok h
    have hl := (take_eq_ok_iff scans_openParen).1 hl
    dsimp only at h
    split at h
    · obtain ⟨⟨xs, c₂⟩, hnil, h⟩ := bind_eq_ok h
      obtain ⟨⟨r, c₃⟩, hr, h⟩ := bind_eq_ok h
      cases hnil
      cases h
      exact .callNone hn hl ((take_eq_ok_iff scans_closeParen).1 hr)
    · obtain ⟨⟨xs, c₂⟩, hxs, h⟩ := bind_eq_ok h
      obtain ⟨⟨r, c₃⟩, hr, h⟩ := bind_eq_ok h
      cases h
      exact .call hn hl (ih.list hxs) ((take_eq_ok_iff scans_closeParen).1 hr)
  list h := by
    rw [Grammar.list] at h
    obtain ⟨⟨x, c₁⟩, hx, h⟩ := bind_eq_ok h
    dsimp only at h
    split at h
    · cases h
      exact .one (ih.sum hx)
    · next k c₂ hk =>
      obtain ⟨⟨xs, c₃⟩, hxs, h⟩ := bind_eq_ok h
      cases h
      exact .cons (ih.sum hx) ((take?_eq_some_iff scans_comma).1 hk) (ih.list hxs)
  item h := by
    rw [Grammar.item] at h
    split at h
    · next n c₁ hkey =>
      obtain ⟨⟨x, c₂⟩, hx, h⟩ := bind_eq_ok h
      cases h
      unfold item.keywordStart at hkey
      split at hkey
      · cases hkey
      · next n' c' hn =>
        obtain ⟨⟨k, c₃⟩, hk, heq⟩ := Option.map_eq_some_iff.1 hkey
        cases heq
        exact .keyword ((take?_eq_some_iff scans_name).1 hn)
          ((take?_eq_some_iff scans_equals).1 hk) (ih.sum hx)
    · obtain ⟨⟨x, c₁⟩, hx, h⟩ := bind_eq_ok h
      dsimp only at h
      split at h
      · cases h
        exact .plain (ih.sum hx)
      · next k c₂ hk =>
        obtain ⟨⟨y, c₃⟩, hy, h⟩ := bind_eq_ok h
        have hk := (take?_eq_some_iff scans_atMost).1 hk
        dsimp only at h
        split at h
        · cases h
          exact .atMost (ih.sum hx) hk (ih.sum hy)
        · next l c₄ hl =>
          obtain ⟨⟨z, c₅⟩, hz, h⟩ := bind_eq_ok h
          cases h
          exact .between (ih.sum hx) hk (ih.sum hy) ((take?_eq_some_iff scans_atMost).1 hl)
            (ih.sum hz)
  items h := by
    rw [Grammar.items] at h
    split at h
    · cases h
      exact .done
    · next k c₁ hk =>
      obtain ⟨⟨x, c₂⟩, hx, h⟩ := bind_eq_ok h
      obtain ⟨⟨xs, c₃⟩, hxs, h⟩ := bind_eq_ok h
      cases h
      exact .more ((take?_eq_some_iff scans_comma).1 hk) (ih.item hx) (ih.items hxs)

theorem sound (fuel : Nat) : Sound fuel := by
  induction fuel with
  | zero => exact sound_zero
  | succ fuel ih => exact sound_succ ih

end Grammar

/-! ## The text of a derivation -/

/-- Parentheses open before they close, and all of them close. -/
structure Balanced (w : List Char) : Prop where
  front : ∀ u t, w = u ++ t → u.count ')' ≤ u.count '('
  total : w.count '(' = w.count ')'

namespace Balanced

theorem of_notMem {w : List Char} (ho : '(' ∉ w) (hc : ')' ∉ w) : Balanced w where
  front u t h := by
    rw [List.count_eq_zero_of_not_mem fun hu => hc (h ▸ List.mem_append_left t hu)]
    exact Nat.zero_le _
  total := by rw [List.count_eq_zero_of_not_mem ho, List.count_eq_zero_of_not_mem hc]

theorem append {v w : List Char} (hv : Balanced v) (hw : Balanced w) : Balanced (v ++ w) where
  front u t h := by
    rcases List.append_eq_append_iff.1 h with ⟨as, rfl, rfl⟩ | ⟨bs, rfl, rfl⟩
    · have := hv.total
      have := hw.front as t rfl
      simp only [List.count_append]
      omega
    · exact hv.front u bs rfl
  total := by rw [List.count_append, List.count_append, hv.total, hw.total]

theorem paren {w : List Char} (hw : Balanced w) : Balanced ('(' :: (w ++ [')'])) where
  front u t h := by
    cases u with
    | nil => simp
    | cons x u =>
      rw [List.cons_append, List.cons.injEq] at h
      obtain ⟨rfl, h⟩ := h
      rcases List.append_eq_append_iff.1 h with ⟨as, rfl, has⟩ | ⟨bs, rfl, -⟩
      · have := hw.total
        have hle : as.count ')' ≤ 1 := by
          have := congrArg (List.count ')') has
          simp at this
          omega
        simp only [List.count_cons, List.count_append]
        simp
        omega
      · have := hw.front u bs rfl
        simp
        omega
  total := by simp [hw.total]

theorem not_closing_front {v t : List Char} (hv : Balanced v) : ¬ Balanced (v ++ ')' :: t) := by
  intro h
  have := h.front (v ++ [')']) t (by simp)
  have := hv.total
  simp at *
  omega

/-- The parenthesis that closes is determined by the text. -/
theorem unique {v w r s : List Char} (hv : Balanced v) (hw : Balanced w)
    (h : v ++ ')' :: r = w ++ ')' :: s) : v = w := by
  rcases List.append_eq_append_iff.1 h with ⟨as, rfl, has⟩ | ⟨bs, rfl, hbs⟩
  · cases as with
    | nil => simp
    | cons x as =>
      obtain ⟨rfl, -⟩ := List.cons.inj has
      exact absurd hw hv.not_closing_front
  · cases bs with
    | nil => simp
    | cons x bs =>
      obtain ⟨rfl, -⟩ := List.cons.inj hbs
      exact absurd hv hw.not_closing_front

end Balanced

section

variable {t : Terminal} {L : Language Char} {c c₁ c₂ c' : Cursor} {tok l r : Token}

/-- The text between two cursors has its parentheses in pairs. -/
def Cursor.Closed (c c' : Cursor) : Prop := ∃ w, c.Reads w c' ∧ Balanced w

/-- The text between two cursors is a pair of parentheses and what stands in them. -/
inductive Cursor.Encloses (c c' : Cursor) : Prop
  | mk {l r : Token} {c₁ c₂ : Cursor} (hl : Stands (Lexicon.symbol "(") c l c₁)
    (h : c₁.Closed c₂) (hr : Stands (Lexicon.symbol ")") c₂ r c')

namespace Cursor

theorem Closed.refl (c : Cursor) : c.Closed c :=
  ⟨[], .refl c, .of_notMem (by simp) (by simp)⟩

theorem Closed.trans (h₁ : c.Closed c₁) (h₂ : c₁.Closed c') : c.Closed c' := by
  obtain ⟨v, hv, hbv⟩ := h₁
  obtain ⟨w, hw, hbw⟩ := h₂
  exact ⟨v ++ w, hv.trans hw, hbv.append hbw⟩

theorem Blank.closed (h : c.Blank c') : c.Closed c' := by
  obtain ⟨w, hw, hspace⟩ := h
  exact ⟨w, hw, .of_notMem (fun h => absurd (hspace _ h) (by decide))
    fun h => absurd (hspace _ h) (by decide)⟩

end Cursor

theorem Stands.closed (hs : Stands L c tok c') (h : ∀ w ∈ L, '(' ∉ w ∧ ')' ∉ w) : c.Closed c' := by
  obtain ⟨hb, hr, hw, -⟩ := hs
  exact hb.closed.trans ⟨_, hr, .of_notMem (h _ hw).1 (h _ hw).2⟩

/-- The text up to the end of a symbol. -/
theorem Stands.reads_symbol {s : String} (hs : Stands (Lexicon.symbol s) c tok c') :
    ∃ c₁, c.Blank c₁ ∧ c₁.Reads s.toList c' := by
  obtain ⟨hb, hr, hw, -⟩ := hs
  rw [Lexicon.mem_symbol] at hw
  exact ⟨_, hb, hw ▸ hr⟩

theorem Cursor.Encloses.closed (h : c.Encloses c') : c.Closed c' := by
  obtain ⟨hl, h, hr⟩ := h
  obtain ⟨d, hd, hlr⟩ := hl.reads_symbol
  obtain ⟨d', hd', hrr⟩ := hr.reads_symbol
  obtain ⟨w, hw, hbal⟩ := h.trans hd'.closed
  exact hd.closed.trans ⟨_, hlr.trans (hw.trans hrr), hbal.paren⟩

/-- Where a pair of parentheses ends is determined by where it starts. -/
theorem Cursor.Encloses.unique (h₁ : c.Encloses c₁) (h₂ : c.Encloses c₂) : c₁ = c₂ := by
  obtain ⟨hl₁, h₁, hr₁⟩ := h₁
  obtain ⟨hl₂, h₂, hr₂⟩ := h₂
  obtain ⟨rfl, rfl⟩ := hl₁.unique Grammar.scans_openParen hl₂
  obtain ⟨d₁, hd₁, hrr₁⟩ := hr₁.reads_symbol
  obtain ⟨d₂, hd₂, hrr₂⟩ := hr₂.reads_symbol
  obtain ⟨v, hv, hbv⟩ := h₁.trans hd₁.closed
  obtain ⟨w, hw, hbw⟩ := h₂.trans hd₂.closed
  have htext : v ++ ')' :: c₁.rest = w ++ ')' :: c₂.rest := by
    simpa using (hv.trans hrr₁).rest.symm.trans (hw.trans hrr₂).rest
  cases hbv.unique hbw htext
  exact (hv.trans hrr₁).unique (hw.trans hrr₂)

end

namespace Lexicon

theorem notMem_symbols {ss : List String} (h : ∀ s ∈ ss, '(' ∉ s.toList ∧ ')' ∉ s.toList) :
    ∀ w ∈ symbols ss, '(' ∉ w ∧ ')' ∉ w := by
  rintro w ⟨s, hs, rfl⟩
  exact h s hs

theorem notMem_name : ∀ w ∈ name, '(' ∉ w ∧ ')' ∉ w := by
  intro w hw
  obtain ⟨c, a, b, rfl, hc, ha, hb⟩ := mem_name.1 hw
  simp only [List.mem_cons, List.mem_append, not_or]
  refine ⟨⟨?_, fun h => absurd (ha _ h) (by decide), fun h => absurd (hb _ h) (by decide)⟩,
    ?_, fun h => absurd (ha _ h) (by decide), fun h => absurd (hb _ h) (by decide)⟩
  all_goals
    rintro rfl
    exact absurd hc (by decide)

theorem notMem_number : ∀ w ∈ number, '(' ∉ w ∧ ')' ∉ w := by
  intro w hw
  obtain ⟨m, hm, x, hx, rfl⟩ := Language.mem_mul.1 hw
  have hdigit : ∀ {d : List Char}, (∀ c ∈ d, Text.isDigit c) → '(' ∉ d ∧ ')' ∉ d := fun hd =>
    ⟨fun h => absurd (hd _ h) (by decide), fun h => absurd (hd _ h) (by decide)⟩
  have hmantissa : '(' ∉ m ∧ ')' ∉ m := by
    rcases mem_mantissa.1 hm with ⟨a, b, rfl, ha, hb, -⟩ | ⟨-, hd⟩
    · simp [hdigit ha, hdigit hb]
    · exact hdigit hd
  have hexponent : '(' ∉ x ∧ ')' ∉ x := by
    rcases (Language.mem_add ..).1 hx with hx | hx
    · simp [(Language.mem_one x).1 hx]
    · obtain ⟨c, s, d, rfl, hc, hs, -, hd⟩ := mem_exponent.1 hx
      rcases hc with rfl | rfl <;> rcases hs with rfl | rfl | rfl <;> simp [hdigit hd]
  simp [hmantissa, hexponent]

end Lexicon

namespace Derives

variable {ph : Phrase} {c c' : Cursor}

theorem closed (h : Derives ph c c') : c.Closed c' := by
  induction h with
  | product _ ih | unary _ ih | power _ ih | access _ ih | atom _ ih | one _ ih | plain _ ih =>
    exact ih
  | add _ hop _ ih₁ ih₂ | mul _ hop _ ih₁ ih₂ | pow _ hop _ ih₁ ih₂ | cons _ hop _ ih₁ ih₂
  | atMost _ hop _ ih₁ ih₂ =>
    exact ih₁.trans ((hop.closed (Lexicon.notMem_symbols (by decide))).trans ih₂)
  | sign hop _ ih => exact (hop.closed (Lexicon.notMem_symbols (by decide))).trans ih
  | index _ hl _ hr ih₁ ih₂ =>
    exact ih₁.trans ((hl.closed (Lexicon.notMem_symbols (by decide))).trans
      (ih₂.trans (hr.closed (Lexicon.notMem_symbols (by decide)))))
  | field _ hd hn ih =>
    exact ih.trans ((hd.closed (Lexicon.notMem_symbols (by decide))).trans
      (hn.closed Lexicon.notMem_name))
  | number hn => exact hn.closed Lexicon.notMem_number
  | name hn => exact hn.closed Lexicon.notMem_name
  | call hn hl _ hr ih => exact (hn.closed Lexicon.notMem_name).trans (Cursor.Encloses.mk hl ih hr).closed
  | callNone hn hl hr =>
    exact (hn.closed Lexicon.notMem_name).trans (Cursor.Encloses.mk hl (.refl _) hr).closed
  | paren hl _ hr ih => exact (Cursor.Encloses.mk hl ih hr).closed
  | between _ hk _ hl _ ih₁ ih₂ ih₃ =>
    exact ih₁.trans ((hk.closed (Lexicon.notMem_symbols (by decide))).trans
      (ih₂.trans ((hl.closed (Lexicon.notMem_symbols (by decide))).trans ih₃)))
  | keyword hn hk _ ih =>
    exact (hn.closed Lexicon.notMem_name).trans
      ((hk.closed (Lexicon.notMem_symbols (by decide))).trans ih)
  | done => exact .refl _
  | more hk _ _ ih₁ ih₂ =>
    exact (hk.closed (Lexicon.notMem_symbols (by decide))).trans (ih₁.trans ih₂)

end Derives

/-! ## How phrases start -/

/-- The layer at which a phrase starts; a list of items may be empty. -/
def Phrase.layer? : Phrase → Option Layer
  | expr l _ => some l
  | list _ | item _ => some .sum
  | items _ => none

/-- The characters that an expression can start with. -/
def Layer.opens : Layer → Char → Bool
  | .sum, x | .product, x | .unary, x => x == '+' || x == '-' || opensAtom x
  | .power, x | .access, x | .atom, x => opensAtom x
where
  opensAtom (x : Char) : Bool :=
    x == '(' || x == '.' || Text.isDigit x || Terminal.isNameStart x

theorem Layer.opens_of_opensAtom {x : Char} (l : Layer) (h : opens.opensAtom x) : l.opens x := by
  cases l <;> simp [opens, h]

section

variable {c c' : Cursor} {tok : Token}

theorem Stands.peek_symbols {t : Terminal} {ss : List String} (ht : t.Scans (Lexicon.symbols ss))
    (h : Stands (Lexicon.symbols ss) c tok c') : ∃ x ∈ c.peek, x ∈ ss.filterMap (·.toList.head?) := by
  obtain ⟨x, v, hx, ⟨s, hs, hsv⟩, -⟩ := h.peek ht
  exact ⟨x, hx, List.mem_filterMap.2 ⟨s, hs, by rw [← hsv]; rfl⟩⟩

theorem Stands.text_mem {t : Terminal} {ss : List String}
    (ht : t.Scans (Lexicon.symbols ss)) (h : Stands (Lexicon.symbols ss) c tok c') :
    tok.text ∈ ss := by
  obtain ⟨x, v, -, ⟨s, hs, hsv⟩, htext⟩ := h.peek ht
  rw [htext, hsv, String.ofList_toList]
  exact hs

theorem Stands.peek_name (h : Stands Lexicon.name c tok c') :
    ∃ x ∈ c.peek, Terminal.isNameStart x := by
  obtain ⟨x, v, hx, hmem, -⟩ := h.peek Terminal.scans_name
  obtain ⟨y, a, b, heq, hy, -⟩ := Lexicon.mem_name.1 hmem
  exact ⟨x, hx, (List.cons.inj heq).1 ▸ hy⟩

theorem Stands.peek_number (h : Stands Lexicon.number c tok c') :
    ∃ x ∈ c.peek, Text.isDigit x ∨ x = '.' := by
  obtain ⟨x, v, hx, hmem, -⟩ := h.peek Terminal.scans_number
  obtain ⟨y, u, heq, hy⟩ := Terminal.head_of_mem_number hmem
  exact ⟨x, hx, (List.cons.inj heq).1 ▸ hy⟩

end

namespace Derives

variable {ph : Phrase} {c c' : Cursor}

theorem peek (h : Derives ph c c') : ∀ l ∈ ph.layer?, ∃ x ∈ c.peek, l.opens x := by
  have widen : ∀ {c : Cursor} {l : Layer}, (∃ x ∈ c.peek, Layer.opens.opensAtom x) →
      ∃ x ∈ c.peek, l.opens x :=
    fun ⟨x, hx, h⟩ => ⟨x, hx, Layer.opens_of_opensAtom _ h⟩
  have atName : ∀ {c c' : Cursor} {n : Token} {l : Layer}, Stands Lexicon.name c n c' →
      ∃ x ∈ c.peek, l.opens x := fun hn => widen <| by
    obtain ⟨x, hx, h⟩ := hn.peek_name
    exact ⟨x, hx, by simp [Layer.opens.opensAtom, h]⟩
  induction h with
  | product _ ih | unary _ ih | access _ ih | atom _ ih | one _ ih | plain _ ih | cons _ _ _ ih
  | atMost _ _ _ ih | between _ _ _ _ _ ih | add _ _ _ ih | mul _ _ _ ih | pow _ _ _ ih
  | index _ _ _ _ ih | field _ _ _ ih =>
    rintro _ ⟨⟩
    have := ih _ rfl
    exact this
  | power _ ih =>
    rintro _ ⟨⟩
    exact widen (ih _ rfl)
  | sign hop =>
    rintro _ ⟨⟩
    obtain ⟨x, hx, hmem⟩ := hop.peek_symbols Terminal.scans_addOp
    have : x = '+' ∨ x = '-' := by simpa using hmem
    exact ⟨x, hx, by rcases this with rfl | rfl <;> decide⟩
  | number hn =>
    rintro _ ⟨⟩
    obtain ⟨x, hx, h⟩ := hn.peek_number
    exact ⟨x, hx, by rcases h with h | rfl <;> simp [Layer.opens, Layer.opens.opensAtom, *]⟩
  | name hn | call hn | callNone hn | keyword hn =>
    rintro _ ⟨⟩
    exact atName hn
  | paren hl =>
    rintro _ ⟨⟩
    obtain ⟨x, hx, hmem⟩ := hl.peek_symbols Grammar.scans_openParen
    have : x = '(' := by simpa using hmem
    exact ⟨x, hx, by subst this; decide⟩
  | done | more => rintro _ ⟨⟩

/-- A phrase takes at least this much text. -/
def leastLength : Phrase → Nat
  | .items _ => 0
  | _ => 1

theorem length_le (h : Derives ph c c') : c'.rest.length + leastLength ph ≤ c.rest.length := by
  induction h with simp only [leastLength] at *
  | product _ ih | unary _ ih | power _ ih | access _ ih | atom _ ih | one _ ih | plain _ ih =>
    exact ih
  | add _ hop _ ih₁ ih₂ | mul _ hop _ ih₁ ih₂ | pow _ hop _ ih₁ ih₂ | cons _ hop _ ih₁ ih₂
  | atMost _ hop _ ih₁ ih₂ | more hop _ _ ih₁ ih₂ =>
    have := hop.length_le
    omega
  | sign hop _ ih =>
    have := hop.length_le
    omega
  | index _ hl _ hr ih₁ ih₂ =>
    have := hl.length_le
    have := hr.length_le
    omega
  | field _ hd hn ih =>
    have := hd.length_le
    have := hn.length_le
    omega
  | number hn => exact hn.length_lt Terminal.scans_number
  | name hn => exact hn.length_lt Terminal.scans_name
  | callNone hn hl hr =>
    have := hn.length_lt Terminal.scans_name
    have := hl.length_le
    have := hr.length_le
    omega
  | call hn hl _ hr ih =>
    have := hn.length_le
    have := hl.length_le
    have := hr.length_le
    omega
  | paren hl _ hr ih =>
    have := hl.length_le
    have := hr.length_le
    omega
  | between _ hk _ hl _ ih₁ ih₂ ih₃ =>
    have := hk.length_le
    have := hl.length_le
    omega
  | keyword hn hk _ ih =>
    have := hn.length_le
    have := hk.length_le
    omega
  | done => exact Nat.le_refl _

end Derives

/-! ## What the parser returns for clauses and statements -/

namespace Grammar

open Cursor Terminal

variable {fuel : Nat} {c c' : Cursor}

theorem clauseOp_sound {op : Token} (h : clauseOp c = .ok (op, c')) :
    Stands Lexicon.addOp c op c' ∨ Stands Lexicon.mulOp c op c' ∨ Stands Lexicon.name c op c' := by
  unfold clauseOp at h
  split at h
  · next r hop =>
    cases h
    exact .inl ((take?_eq_some_iff scans_addOp).1 hop)
  · split at h
    · next r hop =>
      cases h
      exact .inr (.inl ((take?_eq_some_iff scans_mulOp).1 hop))
    · exact .inr (.inr ((take_eq_ok_iff scans_name).1 h))

theorem clause_sound {r : ReductionClause} (h : clause fuel c = .ok (r, c')) :
    DerivesClause r c c' := by
  cases fuel with
  | zero => cases h
  | succ fuel =>
    rw [clause] at h
    obtain ⟨⟨l, c₁⟩, hl, h⟩ := bind_eq_ok h
    obtain ⟨⟨op, c₂⟩, hop, h⟩ := bind_eq_ok h
    obtain ⟨⟨xs, c₃⟩, hxs, h⟩ := bind_eq_ok h
    obtain ⟨⟨r, c₄⟩, hr, h⟩ := bind_eq_ok h
    cases h
    have hl := (take_eq_ok_iff scans_openParen).1 hl
    have hr := (take_eq_ok_iff scans_closeParen).1 hr
    have hop := clauseOp_sound hop
    have hxs := (sound fuel).items hxs
    obtain ⟨hpos, w₁, hw₁⟩ := hl.reads_skip scans_openParen
    obtain ⟨w₂, hw₂⟩ : ∃ w, c₁.Reads w c₂ := by
      rcases hop with hop | hop | hop <;> exact hop.reads
    obtain ⟨w₃, hw₃, -⟩ := hxs.closed
    obtain ⟨w₄, hw₄⟩ := hr.reads
    have hw := hw₁.trans (hw₂.trans (hw₃.trans hw₄))
    rw [hw.textTo, ← hpos]
    exact .mk hl hop hxs hr hw

theorem tiling_sound {t : TilingClause} (h : tiling fuel c = .ok (t, c')) :
    DerivesTiling t c c' := by
  cases fuel with
  | zero => cases h
  | succ fuel =>
    rw [tiling] at h
    obtain ⟨⟨l, c₁⟩, hl, h⟩ := bind_eq_ok h
    obtain ⟨⟨xs, c₂⟩, hxs, h⟩ := bind_eq_ok h
    obtain ⟨⟨r, c₃⟩, hr, h⟩ := bind_eq_ok h
    cases h
    have hl := (take_eq_ok_iff scans_openBrace).1 hl
    have hr := (take_eq_ok_iff scans_closeBrace).1 hr
    have hxs := (sound fuel).list hxs
    obtain ⟨hpos, w₁, hw₁⟩ := hl.reads_skip scans_openBrace
    obtain ⟨w₂, hw₂, -⟩ := hxs.closed
    obtain ⟨w₃, hw₃⟩ := hr.reads
    have hw := hw₁.trans (hw₂.trans hw₃)
    rw [hw.textTo, ← hpos]
    exact .mk hl hxs hr hw

theorem tilingEnd_sound {t : Option TilingClause} (h : tilingEnd fuel c = .ok (t, c')) :
    DerivesEnd t c := by
  cases fuel with
  | zero => cases h
  | succ fuel =>
    rw [tilingEnd] at h
    dsimp only at h
    split at h
    · obtain ⟨⟨t, c₁⟩, ht, h⟩ := bind_eq_ok h
      obtain ⟨⟨t', c₂⟩, hsome, h⟩ := bind_eq_ok h
      obtain ⟨⟨⟩, hfin, h⟩ := bind_eq_ok h
      cases hsome
      cases h
      exact .tiled (tiling_sound ht) (finish_eq_ok_iff.1 hfin)
    · obtain ⟨⟨t, c₁⟩, hnone, h⟩ := bind_eq_ok h
      obtain ⟨⟨⟩, hfin, h⟩ := bind_eq_ok h
      cases hnone
      cases h
      exact .bare (finish_eq_ok_iff.1 hfin)

theorem clauses_sound {r : ReductionClause} {t : Option TilingClause}
    (h : clauses fuel c = .ok ((r, t), c')) : ∃ c₁, DerivesClause r c c₁ ∧ DerivesEnd t c₁ := by
  cases fuel with
  | zero => cases h
  | succ fuel =>
    rw [clauses] at h
    obtain ⟨⟨r, c₁⟩, hr, h⟩ := bind_eq_ok h
    obtain ⟨⟨t, c₂⟩, ht, h⟩ := bind_eq_ok h
    cases h
    exact ⟨c₁, clause_sound hr, tilingEnd_sound ht⟩

theorem target_sound {t : Target} (h : target fuel c = .ok (t, c')) : DerivesTarget t c c' := by
  unfold target at h
  -- The name comes first, if there is one; what follows is the same in both cases.
  obtain ⟨n, c₁, hn, h⟩ : ∃ n c₁,
      (n = none ∧ c₁ = c ∨ ∃ tok, Stands Lexicon.name c tok c₁ ∧ n = some tok.text) ∧ (do
        let l ← c₁.take openBracket
        let xs ← if l.2.sees closeBracket then pure ([], l.2) else list fuel l.2
        let r ← xs.2.take closeBracket
        return (⟨n, xs.1, c.skip.pos⟩, r.2) : Except Cursor (Target × Cursor)) = .ok (t, c') := by
    cases hn : c.take? Terminal.name with
    | none =>
      rw [hn] at h
      exact ⟨none, c, .inl ⟨rfl, rfl⟩, h⟩
    | some r =>
      rw [hn] at h
      exact ⟨some r.1.text, r.2, .inr ⟨r.1, (take?_eq_some_iff scans_name).1 hn, rfl⟩, h⟩
  obtain ⟨⟨l, c₂⟩, hl, h⟩ := bind_eq_ok h
  have hl := (take_eq_ok_iff scans_openBracket).1 hl
  dsimp only at h
  split at h
  · obtain ⟨⟨xs, c₃⟩, hnil, h⟩ := bind_eq_ok h
    obtain ⟨⟨r, c₄⟩, hr, h⟩ := bind_eq_ok h
    cases hnil
    cases h
    exact .mk hn hl (.inl ⟨rfl, rfl⟩) ((take_eq_ok_iff scans_closeBracket).1 hr)
  · obtain ⟨⟨xs, c₃⟩, hxs, h⟩ := bind_eq_ok h
    obtain ⟨⟨r, c₄⟩, hr, h⟩ := bind_eq_ok h
    cases h
    exact .mk hn hl (.inr ((sound fuel).list hxs)) ((take_eq_ok_iff scans_closeBracket).1 hr)

theorem assign_sound {op : Assign} (h : assign c = .ok (op, c')) :
    ∃ k, Stands Lexicon.assign c k c' ∧ k.text = op.symbol := by
  obtain ⟨⟨k, c₁⟩, hk, h⟩ := bind_eq_ok h
  have hk := (take_eq_ok_iff scans_assign).1 hk
  have hmem := hk.text_mem scans_assign
  dsimp only at h
  cases h
  refine ⟨k, hk, ?_⟩
  simp only [List.mem_cons, List.not_mem_nil, or_false] at hmem
  rcases hmem with heq | heq | heq | heq | heq <;> simp [heq, Assign.symbol]

theorem statement_sound {text : String} {s : Statement} (h : statement fuel text = .ok s) :
    Spells text s := by
  obtain ⟨⟨target, c₁⟩, htarget, h⟩ := bind_eq_ok h
  obtain ⟨⟨op, c₂⟩, hop, h⟩ := bind_eq_ok h
  obtain ⟨⟨rhs, c₃⟩, hrhs, h⟩ := bind_eq_ok h
  obtain ⟨k, hk, htext⟩ := assign_sound hop
  have htarget := target_sound htarget
  have hrhs := (sound fuel).sum hrhs
  dsimp only at h
  split at h
  · obtain ⟨⟨⟨reduction, tiles⟩, c₄⟩, hclauses, h⟩ := bind_eq_ok h
    cases h
    obtain ⟨c₅, hred, htiles⟩ := clauses_sound hclauses
    exact .reduced htarget hk htext hrhs hred htiles
  · obtain ⟨⟨tiles, c₄⟩, htiles, h⟩ := bind_eq_ok h
    cases h
    exact .plain htarget hk htext hrhs (tilingEnd_sound htiles)

end Grammar

end IndexNotation
