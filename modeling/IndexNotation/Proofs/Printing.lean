import IndexNotation.Proofs.Numerals
import IndexNotation.Proofs.Parsing
import IndexNotation.Proofs.Positions

/-!
# Parsing undoes printing

An expression is printed as a part of one that binds with some strength. The text derives the tree
at the layer of that strength: operators that bind less are in parentheses, so that what remains is
tight enough for its place. The printer leaves parentheses out in three places where the grammar
needs them: around the left operand of a power that is a sign or a power itself, around the base of
an access that is a sign, and around an integer in front of a point. A tree without these is
printed so that parsing gives it back.
-/

namespace IndexNotation

open Grammar Terminal Cursor

/-! ## Expressions that print well -/

namespace Expr

def isUnary : Expr → Bool
  | unary .. => true
  | _ => false

def isPower : Expr → Bool
  | binary _ .pow _ _ => true
  | _ => false

def isInteger : Expr → Bool
  | number v _ => v.integer?.isSome
  | _ => false

/-- Names, numbers of some kind, calls, accesses and operators, but for the three shapes that lose
their parentheses. -/
def Printable (lit : Literal → Prop) : Expr → Prop
  | name id _ => id.toList ∈ Lexicon.name
  | number v _ => lit v
  | index b is _ => b.Printable lit ∧ b.isUnary = false ∧ is ≠ [] ∧ AllPrintable is
  | field b n _ => b.Printable lit ∧ b.isUnary = false ∧ b.isInteger = false ∧
    n.toList ∈ Lexicon.name
  | call f xs _ => f.toList ∈ Lexicon.name ∧ AllPrintable xs
  | binary l o r _ => l.Printable lit ∧ r.Printable lit ∧
    o ∈ [.add, .sub, .mul, .div, .floorDiv, .mod, .pow] ∧
    (o = .pow → l.isUnary = false ∧ l.isPower = false)
  | unary o x _ => o ∈ [.neg, .pos] ∧ x.Printable lit
  | first .. | compare .. | keyword .. | target .. | hole => False
where
  AllPrintable : List Expr → Prop
    | [] => True
    | e :: es => e.Printable lit ∧ AllPrintable es

/-- A node that stands in the grammar, with number literals of some kind. -/
def IsNode (lit : Literal → Prop) : Expr → Prop
  | name id _ => id.toList ∈ Lexicon.name
  | number v _ => lit v
  | index .. => True
  | field _ n _ => n.toList ∈ Lexicon.name
  | call f _ _ => f.toList ∈ Lexicon.name
  | binary _ o _ _ => o ∈ [.add, .sub, .mul, .div, .floorDiv, .mod, .pow]
  | unary o _ _ => o ∈ [.neg, .pos]
  | first .. | compare .. | keyword .. | target .. | hole => False

theorem Printable.isNode {lit : Literal → Prop} {e : Expr} (h : e.Printable lit) : e.IsNode lit := by
  cases e with
  | name | number => exact h
  | index => trivial
  | field => exact h.2.2.2
  | call | unary => exact h.1
  | binary => exact h.2.2.1
  | first | compare | keyword | target | hole => exact h.elim

end Expr

/-! ## Layers -/

namespace Layer

/-- How tightly a layer binds. -/
def tightness : Layer → Nat
  | sum => 0
  | product => 1
  | unary => 2
  | power => 3
  | access => 4
  | atom => 5

end Layer

/-- What is derived at a tight layer is derived at every looser one. -/
theorem Derives.loosen {l l' : Layer} {x : Located} {c c' : Cursor}
    (h : Derives (.expr l' x) c c') (hle : l.tightness ≤ l'.tightness) :
    Derives (.expr l x) c c' := by
  have step : ∀ m m' : Layer, m.tightness + 1 = m'.tightness → Derives (.expr m' x) c c' →
      Derives (.expr m x) c c' := by
    intro m m' hm h
    cases m <;> cases m' <;> simp only [Layer.tightness] at hm <;>
      first
      | omega
      | exact .product h
      | exact .unary h
      | exact .power h
      | exact .access h
      | exact .atom h
  obtain ⟨k, hk⟩ := Nat.exists_eq_add_of_le hle
  induction k generalizing l with
  | zero =>
    have : l = l' := by cases l <;> cases l' <;> first | rfl | exact absurd hk (by decide)
    exact this ▸ h
  | succ k ih =>
    obtain ⟨m, hm⟩ : ∃ m : Layer, m.tightness = l.tightness + 1 := by
      cases l with
      | sum => exact ⟨.product, rfl⟩
      | product => exact ⟨.unary, rfl⟩
      | unary => exact ⟨.power, rfl⟩
      | power => exact ⟨.access, rfl⟩
      | access => exact ⟨.atom, rfl⟩
      | atom =>
        have hle : l'.tightness ≤ 5 := by cases l' <;> decide
        have hatom : Layer.atom.tightness = 5 := rfl
        omega
    exact step l m hm.symm (ih (by omega) (by omega))

/-- The layers of an operation and of its two operands. -/
def BinaryOp.layer : BinaryOp → Layer
  | add | sub => .sum
  | pow => .power
  | _ => .product

def BinaryOp.left : BinaryOp → Layer
  | add | sub => .sum
  | pow => .access
  | _ => .product

def BinaryOp.right : BinaryOp → Layer
  | add | sub => .product
  | _ => .unary

namespace Expr

/-- The layer at which the text of an expression is derived. -/
def layer (parent : Nat) : Expr → Layer
  | unary .. => .unary
  | index .. | field .. => .access
  | binary _ o _ _ => if o.precedence < parent then .atom else o.layer
  | _ => .atom

variable {lit : Literal → Prop} {e : Expr} {parent : Nat}

/-- An operator that binds less than its place is in parentheses; the others are tight enough. -/
theorem le_tightness_layer {n : Nat} (h : e.IsNode lit) (hn : n ≤ 4)
    (hunary : e.isUnary → n ≤ 2)
    (hop : ∀ l o r p, e = binary l o r p → parent ≤ o.precedence → n ≤ o.layer.tightness) :
    n ≤ (e.layer parent).tightness := by
  cases e with
  | unary => exact hunary rfl
  | index | field => exact hn
  | binary l o r p =>
    rw [layer]
    split
    · exact hn.trans (by decide)
    · exact hop l o r p rfl (by omega)
  | name | number | call => exact Nat.le_succ_of_le hn
  | first | compare | keyword | target | hole => exact h.elim

theorem product_le_layer (h : e.IsNode lit) :
    Layer.product.tightness ≤ (e.layer 2).tightness := by
  refine le_tightness_layer h (by decide) (fun _ => by decide) ?_
  rintro l o r p rfl
  have hops : ∀ o ∈ [BinaryOp.add, .sub, .mul, .div, .floorDiv, .mod, .pow],
    2 ≤ o.precedence → Layer.product.tightness ≤ o.layer.tightness := by decide
  exact hops o h

theorem unary_le_layer (h : e.IsNode lit) (hp : 3 ≤ parent) :
    Layer.unary.tightness ≤ (e.layer parent).tightness := by
  refine le_tightness_layer h (by decide) (fun _ => by decide) ?_
  rintro l o r p rfl hle
  have hops : ∀ o ∈ [BinaryOp.add, .sub, .mul, .div, .floorDiv, .mod, .pow],
    3 ≤ o.precedence → Layer.unary.tightness ≤ o.layer.tightness := by decide
  exact hops o h (hp.trans hle)

theorem access_le_layer (h : e.IsNode lit) (hp : 4 ≤ parent) (hunary : e.isUnary = false)
    (hpow : parent = 4 → e.isPower = false) :
    Layer.access.tightness ≤ (e.layer parent).tightness := by
  refine le_tightness_layer h (by decide) (fun h => by simp [hunary] at h) ?_
  rintro l o r p rfl hle
  have hops : ∀ o ∈ [BinaryOp.add, .sub, .mul, .div, .floorDiv, .mod, .pow],
    4 ≤ o.precedence → o = .pow := by decide
  cases hops o h (hp.trans hle)
  cases hpow (Nat.le_antisymm hle hp)

end Expr

/-! ## Texts and trees -/

namespace Expr

/-- A tree with number texts stands for an expression: all texts are read, and but for positions it
is the expression. -/
def Back (x e : Expr) : Prop :=
  (∀ l ∈ x.literals, l.read.isOk) ∧ x.reading.bare = e.bare

def AllBack (xs es : List Expr) : Prop :=
  (∀ l ∈ literals.literalsAll xs, l.read.isOk) ∧
    bare.bareAll (reading.readingAll xs) = bare.bareAll es

section

variable {x y e e' : Expr} {xs es : List Expr}

theorem allBack_nil : AllBack [] [] := ⟨by simp [literals.literalsAll], rfl⟩

theorem Back.cons (h : x.Back e) (hs : AllBack xs es) : AllBack (x :: xs) (e :: es) := by
  refine ⟨?_, by simp only [reading.readingAll, bare.bareAll, h.2, hs.2]⟩
  rw [literals.literalsAll, List.forall_mem_append]
  exact ⟨h.1, hs.1⟩

theorem Back.index (h : x.Back e) (hs : AllBack xs es) (p p' : Option Pos) :
    (index x xs p).Back (index e es p') := by
  refine ⟨?_, by simp only [reading, bare, h.2, hs.2]⟩
  rw [literals, List.forall_mem_append]
  exact ⟨h.1, hs.1⟩

theorem Back.field (h : x.Back e) (n : String) (p p' : Option Pos) :
    (field x n p).Back (field e n p') :=
  ⟨h.1, by simp only [reading, bare, h.2]⟩

theorem AllBack.call (hs : AllBack xs es) (f : String) (p p' : Option Pos) :
    (call f xs p).Back (call f es p') :=
  ⟨hs.1, by simp only [reading, bare, hs.2]⟩

theorem Back.unary (h : x.Back e) (o : UnaryOp) (p p' : Option Pos) :
    (unary o x p).Back (unary o e p') :=
  ⟨h.1, by simp only [reading, bare, h.2]⟩

theorem Back.binary (h : x.Back e) (h' : y.Back e') (o : BinaryOp) (p p' : Option Pos) :
    (binary x o y p).Back (binary e o e' p') := by
  refine ⟨?_, by simp only [reading, bare, h.2, h'.2]⟩
  rw [literals, List.forall_mem_append]
  exact ⟨h.1, h'.1⟩

end

end Expr

/-! ## Terminals in a text -/

section

variable {t : Terminal} {L : Language Char} {c c₀ c₁ c' : Cursor} {v w : List Char}

theorem Cursor.Reads.split (h : c.Reads (v ++ w) c') : ∃ c₁, c.Reads v c₁ ∧ c₁.Reads w c' := by
  have hv : c.Reads v (c.advance v.length) := reads_advance (by rw [h.rest, List.append_assoc])
  refine ⟨_, hv, ?_, ?_⟩
  · have := hv.rest.symm.trans h.rest
    rw [List.append_assoc] at this
    exact List.append_cancel_left this
  · rw [h.pos, hv.pos, Pos.afterAll, Pos.afterAll, Pos.afterAll, List.foldl_append]

theorem Cursor.Blank.refl (c : Cursor) : c.Blank c := ⟨[], .refl c, by simp⟩

theorem Stands.of_reads (ht : t.Scans L) (hb : c.Blank c₀) (hr : c₀.Reads w c') (hw : w ∈ L)
    (hlen : t (w ++ c'.rest) = w.length) : Stands L c ⟨String.ofList w, c₀.pos⟩ c' :=
  .mk hb hr hw fun v hv hpre => by
    rw [← hlen, ← hr.rest]
    exact ht.longest _ v hv hpre

theorem Stands.of_symbol {s : String} (hb : c.Blank c₀) (hr : c₀.Reads s.toList c') :
    Stands (Lexicon.symbol s) c ⟨s, c₀.pos⟩ c' := by
  have := Stands.mk (L := Lexicon.symbol s) hb hr (by simp) fun v hv _ => by
    rw [Lexicon.mem_symbol.1 hv]
  simpa using this

/-- A name ends in front of a character that no name has. -/
theorem Terminal.name_append {rest : List Char} (hw : w ∈ Lexicon.name)
    (hrest : ∀ y ∈ rest.head?, isNamePart y = false ∧ isPrime y = false) :
    Terminal.name (w ++ rest) = w.length := by
  obtain ⟨x, a, b, rfl, hx, ha, hb⟩ := Lexicon.mem_name.1 hw
  have hpart : ∀ y ∈ (b ++ rest).head?, isNamePart y = false := by
    cases b with
    | nil => exact fun y hy => (hrest y hy).1
    | cons z b =>
      rintro y ⟨⟩
      exact isNamePart_of_isPrime (hb z (by simp))
  have htake := takeWhile_append_of_stop ha hpart
  have hdrop := dropWhile_append_of_stop ha hpart
  have hprime := takeWhile_append_of_stop hb fun y hy => (hrest y hy).2
  simp only [List.cons_append, List.append_assoc, Terminal.name, hx, if_true, htake, hdrop, hprime,
    List.length_cons, List.length_append]
  omega

/-- A text that is read as one name is a name. -/
theorem Terminal.mem_name_of_length (hpos : 0 < w.length) (hw : Terminal.name w = w.length) :
    w ∈ Lexicon.name := by
  obtain ⟨v, hv, hpre, hlen⟩ := scans_name.found w (hw ▸ hpos)
  rwa [← hpre.eq_of_length (hlen.trans hw)]

/-- An operator stands between two blanks. -/
theorem Stands.of_operator {s : String} (ht : t.Scans L) (hs : s.toList ∈ L)
    (hlen : ∀ rest, t (s.toList ++ ' ' :: rest) = s.toList.length)
    (hr : c.Reads (" " ++ s).toList c') (hrest : c'.rest.head? = some ' ') :
    ∃ pos, Stands L c ⟨s, pos⟩ c' := by
  rw [String.toList_append] at hr
  obtain ⟨c₁, hblank, hr⟩ := hr.split
  obtain ⟨rest, hrest⟩ := List.head?_eq_some_iff.1 hrest
  have := Stands.of_reads ht ⟨_, hblank, by decide⟩ hr hs (by rw [hrest]; exact hlen rest)
  rw [String.ofList_toList] at this
  exact ⟨_, this⟩

end

/-! ## Printed expressions -/

namespace Expr

/-- The characters that can follow the text of an expression. A point follows the base of a field
only. -/
def EndsAt (e : Expr) (parent : Nat) (rest : List Char) : Prop :=
  ∀ y ∈ rest.head?, y ∈ [' ', ')', ']', ',', '['] ∨
    y = '.' ∧ Layer.access.tightness ≤ (e.layer parent).tightness ∧ e.isInteger = false

/-- The text of an expression derives it. -/
def Prints (parent : Nat) (e : Expr) : Prop :=
  ∀ c c₀ c' : Cursor, c.Blank c₀ → c₀.Reads (e.toText parent).toList c' →
    e.EndsAt parent c'.rest →
    ∃ x, Derives (.expr (e.layer parent) x) c c' ∧ x.expr.Back e

variable {lit : Literal → Prop} {parent : Nat} {e b l r : Expr} {rest : List Char} {p : Option Pos}

theorem EndsAt.of_head {ys : List Char} (h : ∀ y ∈ rest.head?, y ∈ ys)
    (hys : ∀ y ∈ ys, y ∈ [' ', ')', ']', ',', '[']) : e.EndsAt parent rest :=
  fun y hy => .inl (hys y (h y hy))

theorem EndsAt.of_head_eq {y : Char} (h : rest.head? = some y)
    (hy : y ∈ [' ', ')', ']', ',', '[']) : e.EndsAt parent rest := by
  rw [EndsAt, h]
  rintro _ ⟨⟩
  exact .inl hy

theorem EndsAt.of_cons {y : Char} {v : List Char} (h : rest = y :: v)
    (hy : y ∈ [' ', ')', ']', ',', '[']) : e.EndsAt parent rest :=
  .of_head_eq (by rw [h]; rfl) hy

/-- Nothing but a tight expression is followed by a point. -/
theorem EndsAt.part (h : e.EndsAt parent rest)
    (hloose : (e.layer parent).tightness < Layer.access.tightness) (b : Expr) (parent' : Nat) :
    b.EndsAt parent' rest := by
  intro y hy
  rcases h y hy with hy | ⟨-, htight, -⟩
  · exact .inl hy
  · omega

theorem EndsAt.name (h : e.EndsAt parent rest) :
    ∀ y ∈ rest.head?, isNamePart y = false ∧ isPrime y = false := by
  have hends : ∀ y ∈ [' ', ')', ']', ',', '[', '.'], isNamePart y = false ∧ isPrime y = false := by
    decide
  intro y hy
  refine hends y ?_
  rcases h y hy with hy | ⟨rfl, -⟩
  · exact List.mem_append_left ['.'] hy
  · decide

theorem prints_name {id : String} (hid : id.toList ∈ Lexicon.name) : (name id p).Prints parent := by
  intro c c₀ c' hb hr hends
  have := Stands.of_reads scans_name hb hr hid (name_append hid hends.name)
  rw [toText, String.ofList_toList] at this
  exact ⟨_, .name this, by simp [Back, literals, reading, bare]⟩

theorem prints_number {v : Literal} (hv : v.Legible) : (number v p).Prints parent := by
  intro c c₀ c' hb hr hends
  have hstop : ∀ y ∈ c'.rest.head?,
      y ∈ [' ', ')', ']', ',', '['] ∨ y = '.' ∧ v.integer? = Option.none := by
    intro y hy
    rcases hends y hy with hy | ⟨rfl, -, hint⟩
    · exact .inl hy
    · exact .inr ⟨rfl, by simpa [isInteger] using hint⟩
  have := Stands.of_reads scans_number hb hr hv.mem (hv.ends _ hstop)
  rw [toText, String.ofList_toList] at this
  refine ⟨_, .number this, ?_, ?_⟩
  · simp [literals, Literal.read, hv.read, Except.isOk, Except.toBool]
  · simp [reading, Literal.reading, Literal.read, hv.read, bare]

/-- The texts of a list of expressions derive them, with commas between them. -/
def PrintsAll (es : List Expr) : Prop :=
  ∀ c c₀ c' : Cursor, c.Blank c₀ → c₀.Reads (", ".intercalate (toText.texts es)).toList c' →
    (∀ y ∈ c'.rest.head?, y ∈ [')', ']']) → ∃ xs, Derives (.list xs) c c' ∧ AllBack xs es

theorem printsAll_one (h : e.Prints 0) : PrintsAll [e] := by
  intro c c₀ c' hb hr hrest
  simp only [toText.texts, String.intercalate_singleton] at hr
  obtain ⟨x, hx, hback⟩ := h c c₀ c' hb hr (.of_head hrest (by decide))
  exact ⟨_, .one (hx.loosen (Nat.zero_le _)), hback.cons allBack_nil⟩

/-- The text of a list, part by part. -/
theorem reads_cons {e' : Expr} {es : List Expr} {c₀ c' : Cursor}
    (hr : c₀.Reads (", ".intercalate (toText.texts (e :: e' :: es))).toList c') :
    ∃ c₁ k c₂ c₃, c₀.Reads (e.toText 0).toList c₁ ∧ c₁.rest.head? = some ',' ∧
      Stands (Lexicon.symbol ",") c₁ k c₂ ∧ c₂.Blank c₃ ∧
      c₃.Reads (", ".intercalate (toText.texts (e' :: es))).toList c' := by
  simp only [toText.texts, String.intercalate_cons_cons, String.toList_append,
    List.append_assoc] at hr
  obtain ⟨c₁, hr₁, hr⟩ := hr.split
  obtain ⟨c₂, hr₂, hr⟩ := Reads.split (v := [',']) (w := ' ' :: _) hr
  obtain ⟨c₃, hr₃, hr⟩ := Reads.split (v := [' ']) hr
  exact ⟨c₁, _, c₂, c₃, hr₁, by rw [hr₂.rest]; rfl, Stands.of_symbol (s := ",") (.refl c₁) hr₂,
    ⟨_, hr₃, by decide⟩, hr⟩

theorem printsAll_cons {e' : Expr} {es : List Expr} (h : e.Prints 0) (hes : PrintsAll (e' :: es)) :
    PrintsAll (e :: e' :: es) := by
  intro c c₀ c' hb hr hrest
  obtain ⟨c₁, k, c₂, c₃, hr₁, hhead, hk, hblank, hr₂⟩ := reads_cons hr
  obtain ⟨x, hx, hback⟩ := h c c₀ c₁ hb hr₁ (.of_head_eq hhead (by decide))
  obtain ⟨xs, hxs, hbacks⟩ := hes c₂ c₃ c' hblank hr₂ hrest
  exact ⟨_, .cons (hx.loosen (Nat.zero_le _)) hk hxs, hback.cons hbacks⟩

/-! ### Accesses -/

section

variable {c c₀ c' : Cursor}

/-- The text of an access, part by part. -/
theorem reads_index {is : List Expr} (hr : c₀.Reads ((index b is p).toText parent).toList c') :
    ∃ c₁ k c₂ c₃ k', c₀.Reads (b.toText 5).toList c₁ ∧ c₁.rest.head? = some '[' ∧
      Stands (Lexicon.symbol "[") c₁ k c₂ ∧
      c₂.Reads (", ".intercalate (toText.texts is)).toList c₃ ∧
      (∀ y ∈ c₃.rest.head?, y ∈ [')', ']']) ∧ Stands (Lexicon.symbol "]") c₃ k' c' := by
  simp only [toText, String.toList_append, List.append_assoc] at hr
  obtain ⟨c₁, hr₁, hr⟩ := hr.split
  obtain ⟨c₂, hr₂, hr⟩ := hr.split
  obtain ⟨c₃, hr₃, hr₄⟩ := hr.split
  refine ⟨c₁, _, c₂, c₃, _, hr₁, by rw [hr₂.rest]; rfl, .of_symbol (.refl c₁) hr₂, hr₃, ?_,
    .of_symbol (.refl c₃) hr₄⟩
  rw [hr₄.rest]
  rintro _ ⟨⟩
  decide

/-- The text of a field, part by part. -/
theorem reads_field {n : String} (hr : c₀.Reads ((field b n p).toText parent).toList c') :
    ∃ c₁ k c₂, c₀.Reads (b.toText 5).toList c₁ ∧ c₁.rest.head? = some '.' ∧
      Stands (Lexicon.symbol ".") c₁ k c₂ ∧ c₂.Reads n.toList c' := by
  simp only [toText, String.toList_append, List.append_assoc] at hr
  obtain ⟨c₁, hr₁, hr⟩ := hr.split
  obtain ⟨c₂, hr₂, hr₃⟩ := hr.split
  exact ⟨c₁, _, c₂, hr₁, by rw [hr₂.rest]; rfl, .of_symbol (.refl c₁) hr₂, hr₃⟩

/-- The text of a call, part by part. -/
theorem reads_call {f : String} {xs : List Expr} (hf : f.toList ∈ Lexicon.name) (hblank : c.Blank c₀)
    (hr : c₀.Reads ((call f xs p).toText parent).toList c') :
    ∃ pos c₁ k c₂ c₃ k', Stands Lexicon.name c ⟨f, pos⟩ c₁ ∧ Stands (Lexicon.symbol "(") c₁ k c₂ ∧
      c₂.Reads (", ".intercalate (toText.texts xs)).toList c₃ ∧
      (∀ y ∈ c₃.rest.head?, y ∈ [')', ']']) ∧ Stands (Lexicon.symbol ")") c₃ k' c' := by
  simp only [toText, String.toList_append, List.append_assoc] at hr
  obtain ⟨c₁, hr₁, hr⟩ := hr.split
  obtain ⟨c₂, hr₂, hr⟩ := hr.split
  obtain ⟨c₃, hr₃, hr₄⟩ := hr.split
  have hopen : ∀ y ∈ c₁.rest.head?, isNamePart y = false ∧ isPrime y = false := by
    rw [hr₂.rest]
    rintro _ ⟨⟩
    decide
  have hname := Stands.of_reads scans_name hblank hr₁ hf (name_append hf hopen)
  rw [String.ofList_toList] at hname
  refine ⟨_, c₁, _, c₂, c₃, _, hname, .of_symbol (.refl c₁) hr₂, hr₃, ?_, .of_symbol (.refl c₃) hr₄⟩
  rw [hr₄.rest]
  rintro _ ⟨⟩
  decide

end

theorem prints_index {is : List Expr} (hb : b.Prints 5) (hprint : b.Printable lit)
    (hunary : b.isUnary = false) (his : PrintsAll is) : (index b is p).Prints parent := by
  intro c c₀ c' hblank hr hends
  obtain ⟨c₁, k, c₂, c₃, k', hr₁, hhead, hk, hr₂, hclose, hk'⟩ := reads_index hr
  obtain ⟨x, hx, hback⟩ := hb c c₀ c₁ hblank hr₁ (.of_head_eq hhead (by decide))
  obtain ⟨xs, hxs, hbacks⟩ := his c₂ c₂ c₃ (.refl c₂) hr₂ hclose
  have htight := access_le_layer hprint.isNode (show 4 ≤ 5 by decide) hunary (by simp)
  exact ⟨_, .index (hx.loosen htight) hk hxs hk', hback.index hbacks _ _⟩

theorem prints_field {n : String} (hb : b.Prints 5) (hprint : b.Printable lit)
    (hunary : b.isUnary = false) (hint : b.isInteger = false) (hn : n.toList ∈ Lexicon.name) :
    (field b n p).Prints parent := by
  intro c c₀ c' hblank hr hends
  obtain ⟨c₁, k, c₂, hr₁, hhead, hk, hr₂⟩ := reads_field hr
  have htight := access_le_layer hprint.isNode (show 4 ≤ 5 by decide) hunary (by simp)
  have hpoint : b.EndsAt 5 c₁.rest := by
    rw [EndsAt, hhead]
    rintro _ ⟨⟩
    exact .inr ⟨rfl, htight, hint⟩
  obtain ⟨x, hx, hback⟩ := hb c c₀ c₁ hblank hr₁ hpoint
  have hname := Stands.of_reads scans_name (.refl c₂) hr₂ hn (name_append hn hends.name)
  rw [String.ofList_toList] at hname
  exact ⟨_, .field (hx.loosen htight) hk hname, hback.field n _ _⟩

theorem prints_call {f : String} {xs : List Expr} (hf : f.toList ∈ Lexicon.name)
    (hxs : xs ≠ [] → PrintsAll xs) : (call f xs p).Prints parent := by
  intro c c₀ c' hblank hr hends
  obtain ⟨pos, c₁, k, c₂, c₃, k', hname, hk, hr₂, hclose, hk'⟩ := reads_call hf hblank hr
  by_cases hnil : xs = []
  · subst hnil
    simp only [toText.texts, String.intercalate_nil, String.toList_empty] at hr₂
    cases (Reads.refl c₂).unique hr₂
    exact ⟨_, .callNone hname hk hk', allBack_nil.call f _ _⟩
  · obtain ⟨ys, hys, hbacks⟩ := hxs hnil c₂ c₂ c₃ (.refl c₂) hr₂ hclose
    exact ⟨_, .call hname hk hys hk', hbacks.call f _ _⟩

/-! ### Operators -/

theorem reads_unary {o : UnaryOp} {x : Expr} {c c₀ c' : Cursor} (ho : o ∈ [.neg, .pos])
    (hblank : c.Blank c₀) (hr : c₀.Reads ((unary o x p).toText parent).toList c') :
    ∃ pos c₁, Stands Lexicon.addOp c ⟨o.symbol, pos⟩ c₁ ∧ UnaryOp.ofSymbol o.symbol = o ∧
      c₁.Reads (x.toText 3).toList c' := by
  simp only [toText, String.toList_append] at hr
  obtain ⟨c₁, hr₁, hr₂⟩ := hr.split
  simp only [List.mem_cons, List.not_mem_nil, or_false] at ho
  rcases ho with rfl | rfl
  · exact ⟨_, c₁, .of_reads scans_addOp hblank hr₁ ⟨"-", by decide, rfl⟩ rfl, rfl, hr₂⟩
  · exact ⟨_, c₁, .of_reads scans_addOp hblank hr₁ ⟨"+", by decide, rfl⟩ rfl, rfl, hr₂⟩

theorem prints_unary {o : UnaryOp} {x : Expr} (ho : o ∈ [.neg, .pos]) (hx : x.Prints 3)
    (hprint : x.Printable lit) : (unary o x p).Prints parent := by
  intro c c₀ c' hblank hr hends
  obtain ⟨pos, c₁, hop, hsymbol, hr₁⟩ := reads_unary ho hblank hr
  obtain ⟨y, hy, hback⟩ := hx c₁ c₁ c' (.refl c₁) hr₁ (hends.part (show 2 < 4 by decide) x 3)
  refine ⟨_, .sign hop (hy.loosen (unary_le_layer hprint.isNode (Nat.le_refl 3))), ?_⟩
  rw [hsymbol]
  exact hback.unary o _ _

theorem stands_addOp {o : BinaryOp} (ho : o ∈ [.add, .sub]) {c c' : Cursor}
    (hr : c.Reads (" " ++ o.symbol).toList c') (hrest : c'.rest.head? = some ' ') :
    ∃ pos, Stands Lexicon.addOp c ⟨o.symbol, pos⟩ c' := by
  simp only [List.mem_cons, List.not_mem_nil, or_false] at ho
  rcases ho with rfl | rfl
  · exact Stands.of_operator scans_addOp ⟨"+", by decide, rfl⟩ (fun _ => rfl) hr hrest
  · exact Stands.of_operator scans_addOp ⟨"-", by decide, rfl⟩ (fun _ => rfl) hr hrest

theorem stands_mulOp {o : BinaryOp} (ho : o ∈ [.mul, .div, .floorDiv, .mod]) {c c' : Cursor}
    (hr : c.Reads (" " ++ o.symbol).toList c') (hrest : c'.rest.head? = some ' ') :
    ∃ pos, Stands Lexicon.mulOp c ⟨o.symbol, pos⟩ c' := by
  simp only [List.mem_cons, List.not_mem_nil, or_false] at ho
  rcases ho with rfl | rfl | rfl | rfl
  · exact Stands.of_operator scans_mulOp ⟨"*", by decide, rfl⟩ (fun _ => rfl) hr hrest
  · exact Stands.of_operator scans_mulOp ⟨"/", by decide, rfl⟩ (fun _ => rfl) hr hrest
  · exact Stands.of_operator scans_mulOp ⟨"//", by decide, rfl⟩ (fun _ => rfl) hr hrest
  · exact Stands.of_operator scans_mulOp ⟨"%", by decide, rfl⟩ (fun _ => rfl) hr hrest

theorem stands_powOp {c c' : Cursor} (hr : c.Reads (" " ++ BinaryOp.pow.symbol).toList c')
    (hrest : c'.rest.head? = some ' ') : ∃ pos, Stands Lexicon.powOp c ⟨"**", pos⟩ c' :=
  Stands.of_operator scans_powOp ⟨"**", by decide, rfl⟩ (fun _ => rfl) hr hrest

/-- Operands that are tight enough make an operation. -/
theorem derives_operation {o : BinaryOp} (ho : o ∈ [.add, .sub, .mul, .div, .floorDiv, .mod, .pow])
    {lx ly : Layer} {x y : Located} {c c₁ c₂ c' : Cursor} (hx : Derives (.expr lx x) c c₁)
    (hlx : o.left.tightness ≤ lx.tightness) (hr : c₁.Reads (" " ++ o.symbol).toList c₂)
    (hspace : c₂.rest.head? = some ' ') (hy : Derives (.expr ly y) c₂ c')
    (hly : o.right.tightness ≤ ly.tightness) :
    ∃ pos, Derives (.expr o.layer ⟨binary x.expr o y.expr (some pos), x.start⟩) c c' := by
  have hx := hx.loosen hlx
  have hy := hy.loosen hly
  obtain ho | ho | rfl : o ∈ [.add, .sub] ∨ o ∈ [.mul, .div, .floorDiv, .mod] ∨ o = .pow := by
    simpa [or_assoc] using ho
  · obtain ⟨pos, hop⟩ := stands_addOp ho hr hspace
    have hfacts : ∀ o ∈ [BinaryOp.add, .sub], o.layer = .sum ∧ o.left = .sum ∧ o.right = .product ∧
      BinaryOp.ofSymbol o.symbol = o := by decide
    obtain ⟨hlayer, hleft, hright, hsymbol⟩ := hfacts o ho
    rw [hleft] at hx
    rw [hright] at hy
    have := Derives.add hx hop hy
    rw [hsymbol] at this
    exact ⟨pos, hlayer ▸ this⟩
  · obtain ⟨pos, hop⟩ := stands_mulOp ho hr hspace
    have hfacts : ∀ o ∈ [BinaryOp.mul, .div, .floorDiv, .mod], o.layer = .product ∧
      o.left = .product ∧ o.right = .unary ∧ BinaryOp.ofSymbol o.symbol = o := by decide
    obtain ⟨hlayer, hleft, hright, hsymbol⟩ := hfacts o ho
    rw [hleft] at hx
    rw [hright] at hy
    have := Derives.mul hx hop hy
    rw [hsymbol] at this
    exact ⟨pos, hlayer ▸ this⟩
  · obtain ⟨pos, hop⟩ := stands_powOp hr hspace
    exact ⟨pos, .pow hx hop hy⟩

/-- The text of an operation without parentheses, part by part. -/
theorem reads_operation {o : BinaryOp} {c₀ c' : Cursor}
    (hr : c₀.Reads (l.toText o.precedence ++ " " ++ o.symbol ++ " " ++
      r.toText (o.precedence + 1)).toList c') :
    ∃ c₁ c₂ c₃, c₀.Reads (l.toText o.precedence).toList c₁ ∧ c₁.rest.head? = some ' ' ∧
      c₁.Reads (" " ++ o.symbol).toList c₂ ∧ c₂.rest.head? = some ' ' ∧ c₂.Blank c₃ ∧
      c₃.Reads (r.toText (o.precedence + 1)).toList c' := by
  have hr : c₀.Reads ((l.toText o.precedence).toList ++ ((" " ++ o.symbol).toList ++
      ([' '] ++ (r.toText (o.precedence + 1)).toList))) c' := by
    simpa using hr
  obtain ⟨c₁, hr₁, hr⟩ := hr.split
  obtain ⟨c₂, hr₂, hr⟩ := hr.split
  obtain ⟨c₃, hr₃, hr₄⟩ := hr.split
  refine ⟨c₁, c₂, c₃, hr₁, ?_, hr₂, ?_, ⟨_, hr₃, by decide⟩, hr₄⟩
  · rw [hr₂.rest, String.toList_append]
    rfl
  · rw [hr₃.rest]
    rfl

/-- The text of an operation without parentheses. -/
theorem derives_binary {o : BinaryOp} (hprint : (binary l o r p).Printable lit)
    (hl : l.Prints o.precedence) (hr : r.Prints (o.precedence + 1)) {c c₀ c' : Cursor}
    (hblank : c.Blank c₀)
    (hreads : c₀.Reads (l.toText o.precedence ++ " " ++ o.symbol ++ " " ++
      r.toText (o.precedence + 1)).toList c')
    (hends : r.EndsAt (o.precedence + 1) c'.rest) :
    ∃ x, Derives (.expr o.layer x) c c' ∧ x.expr.Back (binary l o r p) := by
  obtain ⟨hpl, hpr, ho, hpow⟩ := hprint
  obtain ⟨c₁, c₂, c₃, hr₁, hhead, hr₂, hspace, hblank', hr₃⟩ := reads_operation hreads
  obtain ⟨x, hx, hxback⟩ := hl c c₀ c₁ hblank hr₁ (.of_head_eq hhead (by decide))
  obtain ⟨y, hy, hyback⟩ := hr c₂ c₃ c' hblank' hr₃ hends
  have htight : o.left.tightness ≤ (l.layer o.precedence).tightness ∧
      o.right.tightness ≤ (r.layer (o.precedence + 1)).tightness := by
    obtain ho | ho | rfl : o ∈ [.add, .sub] ∨ o ∈ [.mul, .div, .floorDiv, .mod] ∨ o = .pow := by
      simpa [or_assoc] using ho
    · have hfacts : ∀ o ∈ [BinaryOp.add, .sub], o.left = .sum ∧ o.right = .product ∧
        o.precedence = 1 := by decide
      obtain ⟨hleft, hright, hprec⟩ := hfacts o ho
      rw [hleft, hright, hprec]
      exact ⟨Nat.zero_le _, product_le_layer hpr.isNode⟩
    · have hfacts : ∀ o ∈ [BinaryOp.mul, .div, .floorDiv, .mod], o.left = .product ∧
        o.right = .unary ∧ o.precedence = 2 := by decide
      obtain ⟨hleft, hright, hprec⟩ := hfacts o ho
      rw [hleft, hright, hprec]
      exact ⟨product_le_layer hpl.isNode, unary_le_layer hpr.isNode (Nat.le_refl 3)⟩
    · obtain ⟨hunary, hpower⟩ := hpow rfl
      exact ⟨access_le_layer hpl.isNode (Nat.le_refl 4) hunary fun _ => hpower,
        unary_le_layer hpr.isNode (show 3 ≤ 5 by decide)⟩
  obtain ⟨pos, hop⟩ := derives_operation ho hx htight.1 hr₂ hspace hy htight.2
  exact ⟨_, hop, hxback.binary hyback o _ _⟩

/-- The text of a tree in parentheses. -/
theorem reads_paren {w : String} {c c₀ c' : Cursor} (hblank : c.Blank c₀)
    (hr : c₀.Reads ("(" ++ w ++ ")").toList c') :
    ∃ k c₁ c₂ k', Stands (Lexicon.symbol "(") c k c₁ ∧ c₁.Reads w.toList c₂ ∧
      c₂.rest.head? = some ')' ∧ Stands (Lexicon.symbol ")") c₂ k' c' := by
  rw [String.toList_append, String.toList_append, List.append_assoc] at hr
  obtain ⟨c₁, hr₁, hr⟩ := hr.split
  obtain ⟨c₂, hr₂, hr₃⟩ := hr.split
  exact ⟨_, c₁, c₂, _, .of_symbol hblank hr₁, hr₂, by rw [hr₃.rest]; rfl, .of_symbol (.refl c₂) hr₃⟩

theorem loose_layer (o : BinaryOp) : o.layer.tightness < Layer.access.tightness := by
  cases o <;> simp [BinaryOp.layer, Layer.tightness]

theorem prints_binary {o : BinaryOp} (hprint : (binary l o r p).Printable lit)
    (hl : l.Prints o.precedence) (hr : r.Prints (o.precedence + 1)) :
    (binary l o r p).Prints parent := by
  intro c c₀ c' hblank hreads hends
  rw [toText] at hreads
  by_cases hparen : o.precedence < parent
  · have hlayer : (binary l o r p).layer parent = .atom := if_pos hparen
    rw [if_pos hparen] at hreads
    obtain ⟨k, c₁, c₂, k', hk, hreads, hhead, hk'⟩ := reads_paren hblank hreads
    obtain ⟨x, hx, hback⟩ := derives_binary hprint hl hr (.refl c₁) hreads
      (.of_head_eq hhead (by decide))
    rw [hlayer]
    exact ⟨_, .paren hk (hx.loosen (Nat.zero_le _)) hk', hback⟩
  · have hlayer : (binary l o r p).layer parent = o.layer := if_neg hparen
    rw [if_neg hparen] at hreads
    rw [hlayer]
    exact derives_binary hprint hl hr hblank hreads (hends.part (hlayer ▸ loose_layer o) r _)

/-! ### All expressions -/

mutual

theorem Printable.prints (hlit : ∀ v, lit v → v.Legible) (e : Expr) (h : e.Printable lit)
    (parent : Nat) : e.Prints parent := by
  match e with
  | name id p => exact prints_name h
  | number v p => exact prints_number (hlit v h)
  | index b is p =>
    obtain ⟨hb, hunary, hne, his⟩ := h
    exact prints_index (hb.prints hlit b 5) hb hunary (allPrintable_prints hlit is his hne)
  | field b n p =>
    obtain ⟨hb, hunary, hint, hn⟩ := h
    exact prints_field (hb.prints hlit b 5) hb hunary hint hn
  | call f xs p => exact prints_call h.1 (allPrintable_prints hlit xs h.2)
  | binary l o r p => exact prints_binary h (h.1.prints hlit l _) (h.2.1.prints hlit r _)
  | unary o x p => exact prints_unary h.1 (h.2.prints hlit x 3) h.2
  | first .. | compare .. | keyword .. | target .. | hole => exact h.elim

theorem allPrintable_prints (hlit : ∀ v, lit v → v.Legible) (es : List Expr)
    (h : Printable.AllPrintable lit es) (hne : es ≠ []) : PrintsAll es := by
  match es with
  | [] => exact absurd rfl hne
  | [e] => exact printsAll_one (h.1.prints hlit e 0)
  | e :: e' :: es =>
    exact printsAll_cons (h.1.prints hlit e 0)
      (allPrintable_prints hlit (e' :: es) h.2 (List.cons_ne_nil _ _))

end

theorem texts_eq_map (es : List Expr) : toText.texts es = es.map text := by
  induction es with
  | nil => rfl
  | cons e es ih => rw [toText.texts, ih, List.map_cons]

end Expr

/-! ## Printed statements -/

/-- The text of a target is one of a target, with the indices that the text of its indices has. -/
theorem Target.derives_text {t : Target} {Q : List Expr → Prop}
    (hname : ∀ n ∈ t.name, n.toList ∈ Lexicon.name) (hnone : t.indices = [] → Q [])
    (hindices : t.indices ≠ [] → ∀ c c₀ c' : Cursor, c.Blank c₀ →
      c₀.Reads (", ".intercalate (Expr.toText.texts t.indices)).toList c' →
      (∀ y ∈ c'.rest.head?, y ∈ [')', ']']) → ∃ xs, Derives (.list xs) c c' ∧ Q xs)
    {c c' : Cursor} (hr : c.Reads t.text.toList c') :
    ∃ t', DerivesTarget t' c c' ∧ t'.name = t.name ∧ Q t'.indices := by
  simp only [Target.text, String.toList_append, List.append_assoc] at hr
  obtain ⟨c₁, hr₁, hr⟩ := hr.split
  obtain ⟨c₂, hr₂, hr⟩ := hr.split
  obtain ⟨c₃, hr₃, hr₄⟩ := hr.split
  have hn : t.name = none ∧ c₁ = c ∨
      ∃ tok, Stands Lexicon.name c tok c₁ ∧ t.name = some tok.text := by
    cases hname' : t.name with
    | none =>
      rw [hname', Option.getD_none, String.toList_empty] at hr₁
      exact .inl ⟨rfl, hr₁.unique (.refl c)⟩
    | some n =>
      rw [hname', Option.getD_some] at hr₁
      have hopen : ∀ y ∈ c₁.rest.head?, isNamePart y = false ∧ isPrime y = false := by
        rw [hr₂.rest]
        rintro _ ⟨⟩
        decide
      have hmem := hname n hname'
      exact .inr ⟨_, .of_reads scans_name (.refl c) hr₁ hmem (name_append hmem hopen),
        by rw [String.ofList_toList]⟩
  have hl := Stands.of_symbol (s := "[") (.refl c₁) hr₂
  have hr := Stands.of_symbol (s := "]") (.refl c₃) hr₄
  by_cases hnil : t.indices = []
  · rw [hnil, List.map_nil, String.intercalate_nil, String.toList_empty] at hr₃
    exact ⟨⟨t.name, [], _⟩, .mk hn hl (.inl ⟨rfl, hr₃.unique (.refl c₂)⟩) hr, rfl, hnone hnil⟩
  · have hclose : ∀ y ∈ c₃.rest.head?, y ∈ [')', ']'] := by
      rw [hr₄.rest]
      rintro _ ⟨⟩
      decide
    rw [← Expr.texts_eq_map] at hr₃
    obtain ⟨xs, hxs, hback⟩ := hindices hnil c₂ c₂ c₃ (.refl c₂) hr₃ hclose
    exact ⟨⟨t.name, xs, _⟩, .mk hn hl (.inr hxs) hr, rfl, hback⟩

/-- The text of a statement without clauses is one of its parts, up to what follows it. -/
theorem Statement.derives_parts {s : Statement} {tail : String} {Q : List Expr → Prop} {P : Expr → Prop}
    (hname : ∀ n ∈ s.target.name, n.toList ∈ Lexicon.name) (hnone : s.target.indices = [] → Q [])
    (hindices : s.target.indices ≠ [] → ∀ c c₀ c' : Cursor, c.Blank c₀ →
      c₀.Reads (", ".intercalate (Expr.toText.texts s.target.indices)).toList c' →
      (∀ y ∈ c'.rest.head?, y ∈ [')', ']']) → ∃ xs, Derives (.list xs) c c' ∧ Q xs)
    (hrhs : ∀ c c₀ c' : Cursor, c.Blank c₀ → c₀.Reads s.rhs.text.toList c' → c'.rest = tail.toList →
      ∃ x, Derives (.expr .sum x) c c' ∧ P x.expr) :
    ∃ t c₁ k c₂ x c₃ c₄, DerivesTarget t (.ofText (s.text ++ tail)) c₁ ∧ t.name = s.target.name ∧
      Q t.indices ∧ Stands Lexicon.assign c₁ k c₂ ∧ k.text = s.op.symbol ∧
      Derives (.expr .sum x) c₂ c₃ ∧ P x.expr ∧ c₃.Reads tail.toList c₄ ∧ c₄.rest = [] := by
  have hwhole := reads_advance (c := .ofText (s.text ++ tail)) (w := (s.text ++ tail).toList)
    (List.append_nil _).symm
  have hend : ((Cursor.ofText (s.text ++ tail)).advance (s.text ++ tail).toList.length).rest = [] :=
    List.append_cancel_left (hwhole.rest.symm.trans (List.append_nil _).symm)
  generalize (Cursor.ofText (s.text ++ tail)).advance (s.text ++ tail).toList.length = c₄ at *
  have hparts : (s.text ++ tail).toList = s.target.text.toList ++ ((" " ++ s.op.symbol).toList ++
      ([' '] ++ (s.rhs.text.toList ++ tail.toList))) := by
    simp [Statement.text]
  rw [hparts] at hwhole
  obtain ⟨c₁, hr₁, hwhole⟩ := hwhole.split
  obtain ⟨c₂, hr₂, hwhole⟩ := hwhole.split
  obtain ⟨c₃, hr₃, hwhole⟩ := hwhole.split
  obtain ⟨c₅, hr₅, hr₆⟩ := hwhole.split
  have hspace : c₂.rest.head? = some ' ' := by
    rw [hr₃.rest]
    rfl
  obtain ⟨t, ht, htname, htindices⟩ := Target.derives_text hname hnone hindices hr₁
  obtain ⟨pos, hop⟩ : ∃ pos, Stands Lexicon.assign c₁ ⟨s.op.symbol, pos⟩ c₂ := by
    refine Stands.of_operator scans_assign ?_ ?_ hr₂ hspace
    · cases s.op <;> exact ⟨_, by decide, rfl⟩
    · cases s.op <;> exact fun _ => rfl
  have htail : c₅.rest = tail.toList := by rw [hr₆.rest, hend, List.append_nil]
  obtain ⟨x, hx, hxrhs⟩ := hrhs c₂ c₃ c₅ ⟨_, hr₃, by decide⟩ hr₅ htail
  exact ⟨t, c₁, _, c₂, x, c₅, c₄, ht, htname, htindices, hop, rfl, hx, hxrhs, hr₆, hend⟩

/-- The text of a statement without clauses derives its parts, up to what follows it. -/
theorem Statement.derives_text {s : Statement} {tail : String}
    (hname : ∀ n ∈ s.target.name, n.toList ∈ Lexicon.name)
    (hindices : s.target.indices ≠ [] → Expr.PrintsAll s.target.indices)
    (hrhs : s.rhs.Prints 0) (htail : s.rhs.EndsAt 0 tail.toList) :
    ∃ t c₁ k c₂ x c₃ c₄, DerivesTarget t (.ofText (s.text ++ tail)) c₁ ∧ t.name = s.target.name ∧
      Expr.AllBack t.indices s.target.indices ∧ Stands Lexicon.assign c₁ k c₂ ∧
      k.text = s.op.symbol ∧ Derives (.expr .sum x) c₂ c₃ ∧ x.expr.Back s.rhs ∧
      c₃.Reads tail.toList c₄ ∧ c₄.rest = [] := by
  refine Statement.derives_parts (Q := fun xs => Expr.AllBack xs s.target.indices) (P := fun x => x.Back s.rhs)
    hname (fun hnil => hnil ▸ Expr.allBack_nil) hindices fun c c₀ c' hblank hr hrest => ?_
  obtain ⟨x, hx, hback⟩ := hrhs c c₀ c' hblank hr (hrest ▸ htail)
  exact ⟨x, hx.loosen (Nat.zero_le _), hback⟩

theorem derives_plusClause {c c' : Cursor} (hr : c.Reads " (+)".toList c') :
    ∃ r, DerivesClause r c c' ∧ r.op = "+" ∧ r.items = [] := by
  obtain ⟨c₁, hr₁, hr⟩ := Reads.split (v := [' ']) (w := ['(', '+', ')']) hr
  obtain ⟨c₂, hr₂, hr⟩ := Reads.split (v := ['(']) (w := ['+', ')']) hr
  obtain ⟨c₃, hr₃, hr₄⟩ := Reads.split (v := ['+']) (w := [')']) hr
  have hl := Stands.of_symbol (s := "(") ⟨_, hr₁, by decide⟩ hr₂
  have hop : Stands Lexicon.addOp c₂ ⟨"+", c₂.pos⟩ c₃ :=
    .of_reads scans_addOp (.refl c₂) hr₃ ⟨"+", by decide, rfl⟩ rfl
  have hclose := Stands.of_symbol (s := ")") (.refl c₃) hr₄
  obtain ⟨-, w, hw⟩ := hl.reads_skip scans_openParen
  exact ⟨_, .mk hl (.inl hop) .done hclose (hw.trans (hr₃.trans hr₄)), rfl, rfl⟩

namespace Expr

/-- **Parsing undoes printing.** An expression of names, integers, calls, accesses and operators,
but for the shapes that lose their parentheses, is the right-hand side of the statement that its
text is put into. -/
theorem parse_text_eq (e : Expr)
    (h : e.Printable fun v => ∃ n : Nat, v = .int n ∧ n < 10 ^ maxDigits) :
    ∃ s r, Statement.parse ("X[] := " ++ e.text ++ " (+)") = .ok s ∧ s.rhs.bare = e.bare ∧
      s.reduction = some r ∧ r.op = "+" ∧ r.items = [] := by
  have hprints : e.Prints 0 :=
    h.prints (by rintro v ⟨n, rfl, hn⟩; exact Literal.legible_int hn) e 0
  let s : Statement := ⟨⟨some "X", [], none⟩, .define, e, none, none, "", none⟩
  have htext : "X[] := " ++ e.text ++ " (+)" = s.text ++ " (+)" := by
    rw [Statement.text, Target.text, ← String.toList_inj]
    simp [s, Assign.symbol]
  have hname : ∀ n ∈ s.target.name, n.toList ∈ Lexicon.name := by
    rintro _ ⟨⟩
    exact Lexicon.mem_name.2 ⟨'X', [], [], rfl, by decide, by simp, by simp⟩
  have hends : s.rhs.EndsAt 0 " (+)".toList := .of_cons rfl (by decide)
  obtain ⟨t, c₁, k, c₂, x, c₃, c₄, ht, htname, ⟨htok, -⟩, hk, hop, hx, ⟨hxok, hxback⟩, htail, hend⟩ :=
    Statement.derives_text hname (absurd rfl) hprints hends
  obtain ⟨r, hr, hrop, hritems⟩ := derives_plusClause htail
  have hspells := Spells.reduced ht hk hop hx hr (.bare (by simp [hend]))
  have hstatement := statement_eq_ok_iff.2 ⟨hspells, fun h => by cases h⟩
  rw [htext]
  refine ⟨_, _, (Statement.parse_eq_ok_iff hstatement).2 ⟨.inl ?_, ?_, rfl⟩, hxback, rfl, hrop, ?_⟩
  · rw [htname]
    rfl
  · simp only [Statement.literals, Statement.items, List.forall_mem_append, Option.elim, hritems,
      List.append_nil]
    exact ⟨⟨htok, hxok⟩, by simp [literals.literalsAll]⟩
  · simp only [hritems]
    rfl

/-- A sign in front of a power, a sign as an exponent, and a call of a field of an element. -/
theorem parse_text_eq_power :
    ∃ s r, Statement.parse "X[] := -a ** -2 * f(x[i, 0].y_1) (+)" = .ok s ∧
      s.rhs.bare = binary (unary .neg (binary (name "a" none) .pow
          (unary .neg (number (.int 2) none) none) none) none) .mul
        (call "f" [field (index (name "x" none) [name "i" none, number (.int 0) none] none) "y_1" none]
          none) none ∧
      s.reduction = some r ∧ r.op = "+" ∧ r.items = [] := by
  have hname : ∀ w ∈ ["a", "f", "x", "i", "y_1"], w.toList ∈ Lexicon.name := by
    intro w hw
    refine Terminal.mem_name_of_length ?_ ?_
    all_goals
      revert w
      decide
  have hnumber : ∀ n : Nat, n < 10 → ∃ m : Nat, Literal.int n = .int m ∧ m < 10 ^ maxDigits :=
    fun n hn => ⟨n, rfl, hn.trans_le (Nat.le_self_pow (by decide) 10)⟩
  have hpower : Printable (fun v => ∃ n : Nat, v = .int n ∧ n < 10 ^ maxDigits)
      (unary .neg (binary (name "a" none) .pow (unary .neg (number (.int 2) none) none) none) none) :=
    ⟨by decide, hname "a" (by decide), ⟨by decide, hnumber 2 (by decide)⟩, by decide,
      fun _ => ⟨rfl, rfl⟩⟩
  have hfield : Printable (fun v => ∃ n : Nat, v = .int n ∧ n < 10 ^ maxDigits)
      (field (index (name "x" none) [name "i" none, number (.int 0) none] none) "y_1" none) :=
    ⟨⟨hname "x" (by decide), rfl, by simp, hname "i" (by decide), hnumber 0 (by decide), trivial⟩,
      rfl, rfl, hname "y_1" (by decide)⟩
  exact parse_text_eq
    (binary (unary .neg (binary (name "a" none) .pow (unary .neg (number (.int 2) none) none) none)
        none) .mul
      (call "f" [field (index (name "x" none) [name "i" none, number (.int 0) none] none) "y_1" none]
        none) none)
    ⟨hpower, ⟨hname "f" (by decide), hfield, trivial⟩, by decide, by simp⟩

end Expr

end IndexNotation
