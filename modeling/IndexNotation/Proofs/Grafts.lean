import IndexNotation.Proofs.Shapes

/-!
# Texts that are read as other trees

Where the printer leaves out parentheses that the grammar needs, the text is still one of an
expression. What stands behind a sign or a power attaches to its last operand: `(-x)[i]` is printed
like `-(x[i])`, and `(x ** y) ** z` like `x ** (y ** z)`. The tree that is read is as large as the one
that was printed, but it is another one. Only where a point follows the digits of an integer can the
text be no expression at all.
-/

namespace IndexNotation

open Grammar Terminal Cursor

/-! ## Where the last operand ends -/

/-- What follows an access may follow whatever ends in one. -/
theorem Derives.graft {k : Nat} {ph : Phrase} {c c₁ c' : Cursor} (h : Derives ph c c₁)
    (hgraft : ∀ b s, Derives (.expr .access b) s c₁ → ∃ b', Derives (.expr .power b') s c' ∧
      b'.expr.walk.length = b.expr.walk.length + k)
    {l : Layer} {x : Located} (hph : ph = .expr l x) (hl : l = .unary ∨ l = .power) :
    ∃ x', Derives (.expr l x') c c' ∧ x'.expr.walk.length = x.expr.walk.length + k := by
  induction h generalizing l x with
  | power _ ih =>
    cases hph
    obtain ⟨x', hx', hsize⟩ := ih hgraft rfl (.inr rfl)
    exact ⟨x', .power hx', hsize⟩
  | sign hop _ ih =>
    cases hph
    obtain ⟨x', hx', hsize⟩ := ih hgraft rfl (.inl rfl)
    exact ⟨_, .sign hop hx', by simp only [Expr.walk, List.length_cons, hsize]; omega⟩
  | access hx =>
    cases hph
    exact hgraft _ _ hx
  | pow hx hop _ _ ih =>
    cases hph
    obtain ⟨y', hy', hsize⟩ := ih hgraft rfl (.inl rfl)
    refine ⟨_, .pow hx hop hy', ?_⟩
    simp only [Expr.walk, List.length_cons, List.length_append, hsize]
    omega
  | _ => rcases hl with rfl | rfl <;> cases hph

/-- A phrase that starts with a sign is one. -/
theorem Derives.isUnary {x : Located} {c c' : Cursor} (h : Derives (.expr .unary x) c c')
    (hpeek : c.PeekIn ['+', '-']) : x.expr.isUnary = true := by
  cases h with
  | sign => rfl
  | power h =>
    obtain ⟨y, hy, hmem⟩ := hpeek
    obtain ⟨z, hz, hopens⟩ := h.peek _ rfl
    cases Option.mem_unique hy hz
    have : ∀ y ∈ ['+', '-'], Layer.opens .power y = false := by decide
    rw [this y hmem] at hopens
    cases hopens

/-- A power that is not in parentheses. -/
inductive DerivesPower : Located → Cursor → Cursor → Prop
  | mk {x y op c c₁ c₂ c'} : Derives (.expr .access x) c c₁ → Stands Lexicon.powOp c₁ op c₂ →
    Derives (.expr .unary y) c₂ c' →
    DerivesPower ⟨.binary x.expr .pow y.expr op.pos, x.start⟩ c c'

/-- A derivation at a layer; at the layer of powers, that of a power. -/
def Layer.Reaches : Layer → Located → Cursor → Cursor → Prop
  | .power => DerivesPower
  | l => fun x => Derives (.expr l x)

theorem Layer.Reaches.derives {l : Layer} {x : Located} {c c' : Cursor} (h : l.Reaches x c c') :
    Derives (.expr l x) c c' := by
  cases l with
  | power =>
    obtain ⟨hx, hop, hy⟩ := h
    exact .pow hx hop hy
  | _ => exact h

theorem Layer.Reaches.of_derives {l : Layer} {x : Located} {c c' : Cursor}
    (h : Derives (.expr l x) c c') (hl : l ≠ .power) : l.Reaches x c c' := by
  cases l with
  | power => exact absurd rfl hl
  | _ => exact h

/-! ## Other trees -/

namespace Expr

/-- Whether the text of an expression ends in the digits of an integer. -/
def endsInInteger (parent : Nat) : Expr → Bool
  | number v _ => v.integer?.isSome
  | unary _ x _ => endsInInteger 3 x
  | binary _ o r _ => if o.precedence < parent then false else endsInInteger (o.precedence + 1) r
  | _ => false

/-- Whether the text of an expression starts with a sign. -/
def signed (parent : Nat) : Expr → Bool
  | unary .. => true
  | index b _ _ => signed 5 b
  | field b _ _ => signed 5 b
  | binary l o _ _ => if o.precedence < parent then false else signed o.precedence l
  | _ => false

/-- No point follows the digits of an integer. -/
def spaced : Expr → Bool
  | field b _ _ => !b.endsInInteger 5
  | _ => true

/-- The layer at which the text of an expression is an expression. -/
def reach (parent : Nat) (e : Expr) : Layer :=
  if e.signed parent = true ∧ Layer.unary.tightness < (e.layer parent).tightness then .unary
  else e.layer parent

/-- A tree that is as large as an expression, and not the same unless all parentheses are kept. -/
structure Stray (x e : Expr) : Prop where
  size : x.walk.length = e.walk.length
  keeps : x.reading.bare = e.bare → ∀ y ∈ e.walk, y.keeps

structure StrayAll (xs es : List Expr) : Prop where
  size : (walk.walkAll xs).length = (walk.walkAll es).length
  keeps : bare.bareAll (reading.readingAll xs) = bare.bareAll es → ∀ y ∈ walk.walkAll es, y.keeps

section

variable {x y e e' : Expr} {xs es : List Expr}

theorem Stray.of_back (h : x.Back e) (hk : ∀ y ∈ e.walk, y.keeps) : x.Stray e where
  size := by simpa using congrArg List.length (walk_of_bare_eq h.2)
  keeps _ := hk

/-- A sign is no access and no power. -/
theorem Stray.of_isUnary (hsize : x.walk.length = e.walk.length) (hx : x.isUnary = true)
    (he : e.isUnary = false) : x.Stray e where
  size := hsize
  keeps h := by
    have hunary : ∀ y : Expr, y.reading.isUnary = y.isUnary ∧ y.bare.isUnary = y.isUnary := by
      intro y
      cases y <;> exact ⟨rfl, rfl⟩
    have := congrArg isUnary h
    rw [(hunary _).2, (hunary _).1, (hunary _).2, hx, he] at this
    cases this

theorem strayAll_nil : StrayAll [] [] := ⟨rfl, by simp [walk.walkAll]⟩

theorem Stray.cons (h : x.Stray e) (hs : StrayAll xs es) : StrayAll (x :: xs) (e :: es) where
  size := by simp only [walk.walkAll, List.length_append, h.size, hs.size]
  keeps heq := by
    obtain ⟨h₁, h₂⟩ := List.cons.inj heq
    rw [walk.walkAll, List.forall_mem_append]
    exact ⟨h.keeps h₁, hs.keeps h₂⟩

theorem Stray.index {p p' : Option Pos} (h : x.Stray e) (hs : StrayAll xs es)
    (hk : (index e es p').keeps) : (index x xs p).Stray (index e es p') where
  size := by simp only [walk, List.length_cons, List.length_append, h.size, hs.size]
  keeps heq := by
    obtain ⟨h₁, h₂, -⟩ := Expr.index.inj heq
    simp only [walk, List.forall_mem_cons, List.forall_mem_append]
    exact ⟨hk, h.keeps h₁, hs.keeps h₂⟩

theorem Stray.field {n : String} {p p' : Option Pos} (h : x.Stray e) (hk : (field e n p').keeps) :
    (field x n p).Stray (field e n p') where
  size := by simp only [walk, List.length_cons, h.size]
  keeps heq := by
    obtain ⟨h₁, -⟩ := Expr.field.inj heq
    simp only [walk, List.forall_mem_cons]
    exact ⟨hk, h.keeps h₁⟩

theorem StrayAll.call (hs : StrayAll xs es) (f : String) (p p' : Option Pos) :
    (call f xs p).Stray (call f es p') where
  size := by simp only [walk, List.length_cons, hs.size]
  keeps heq := by
    obtain ⟨-, h₁, -⟩ := Expr.call.inj heq
    simp only [walk, List.forall_mem_cons]
    exact ⟨rfl, hs.keeps h₁⟩

theorem Stray.unary (h : x.Stray e) (o : UnaryOp) (p p' : Option Pos) :
    (unary o x p).Stray (unary o e p') where
  size := by simp only [walk, List.length_cons, h.size]
  keeps heq := by
    obtain ⟨-, h₁, -⟩ := Expr.unary.inj heq
    simp only [walk, List.forall_mem_cons]
    exact ⟨rfl, h.keeps h₁⟩

theorem Stray.binary {o : BinaryOp} {p p' : Option Pos} (h : x.Stray e) (h' : y.Stray e')
    (hk : (binary e o e' p').keeps) : (binary x o y p).Stray (binary e o e' p') where
  size := by simp only [walk, List.length_cons, List.length_append, h.size, h'.size]
  keeps heq := by
    obtain ⟨h₁, -, h₂, -⟩ := Expr.binary.inj heq
    simp only [walk, List.forall_mem_cons, List.forall_mem_append]
    exact ⟨hk, h.keeps h₁, h'.keeps h₂⟩

/-- The left operand of a power is smaller than the power. -/
theorem Stray.of_left {o : BinaryOp} {p p' : Option Pos} (hsize : (Expr.binary x o y p).walk.length =
      (Expr.binary e o e' p').walk.length) (hlt : x.walk.length < e.walk.length) :
    (Expr.binary x o y p).Stray (Expr.binary e o e' p') where
  size := hsize
  keeps heq := by
    obtain ⟨h₁, -⟩ := Expr.binary.inj heq
    have := congrArg List.length (walk_of_bare_eq h₁)
    simp only [List.length_map] at this
    omega

end

/-! ## Layers that are reached -/

variable {lit : Literal → Prop} {parent : Nat} {e b l r : Expr} {p : Option Pos}

theorem reach_of_signed (h : e.signed parent = true)
    (hl : Layer.unary.tightness ≤ (e.layer parent).tightness) : e.reach parent = .unary := by
  unfold reach
  split
  · rfl
  · next hnot =>
    have hle : (e.layer parent).tightness ≤ Layer.unary.tightness := by
      by_contra hlt
      exact hnot ⟨h, not_le.1 hlt⟩
    generalize e.layer parent = layer at *
    cases layer <;> simp [Layer.tightness] at *

theorem reach_of_not_signed (h : e.signed parent = false) : e.reach parent = e.layer parent :=
  if_neg fun hs => by simp [h] at hs

theorem le_reach {n : Nat} (hn : n ≤ 2) (h : n ≤ (e.layer parent).tightness) :
    n ≤ (e.reach parent).tightness := by
  unfold reach
  split
  · exact hn
  · exact h

/-- The text of a signed expression starts with the sign. -/
theorem head_of_signed (e : Expr) {parent : Nat} (h : e.signed parent = true) (hnodes : ∀ y ∈ e.walk, y.IsNode lit) :
    ∃ y ∈ ['+', '-'], (e.toText parent).toList.head? = some y := by
  have hfront {v w : String} (hv : ∃ y ∈ ['+', '-'], v.toList.head? = some y) :
      ∃ y ∈ ['+', '-'], (v ++ w).toList.head? = some y := by
    obtain ⟨y, hy, hhead⟩ := hv
    exact ⟨y, hy, by rw [String.toList_append, List.head?_append, hhead]; rfl⟩
  match e with
  | unary o x p =>
    have ho : o ∈ [.neg, .pos] := hnodes _ (self_mem_walk _)
    simp only [List.mem_cons, List.not_mem_nil, or_false] at ho
    rcases ho with rfl | rfl
    · exact hfront ⟨'-', by decide, rfl⟩
    · exact hfront ⟨'+', by decide, rfl⟩
  | index b is p =>
    simp only [walk, List.forall_mem_cons, List.forall_mem_append] at hnodes
    exact hfront (hfront (hfront (head_of_signed b h hnodes.2.1)))
  | field b n p =>
    simp only [walk, List.forall_mem_cons] at hnodes
    exact hfront (hfront (head_of_signed b h hnodes.2))
  | binary l o r p =>
    simp only [walk, List.forall_mem_cons, List.forall_mem_append] at hnodes
    rw [signed] at h
    split at h
    · cases h
    · next hparen =>
      rw [toText, if_neg hparen]
      exact hfront (hfront (hfront (hfront (head_of_signed l h hnodes.2.1))))
  | name .. | number .. | call .. | first .. | compare .. | keyword .. | target .. | hole => cases h

theorem peekIn_of_signed (h : e.signed parent = true) (hnodes : ∀ y ∈ e.walk, y.IsNode lit)
    {c c₀ c' : Cursor} (hb : c.Blank c₀) (hr : c₀.Reads (e.toText parent).toList c') :
    c.PeekIn ['+', '-'] := by
  obtain ⟨y, hy, hhead⟩ := head_of_signed e h hnodes
  have hrest : c₀.rest.head? = some y := by rw [hr.rest, List.head?_append, hhead]; rfl
  have hsolid : ∀ y ∈ ['+', '-'], isSpace y = false := by decide
  have hskip := hb.eq_skip (by rw [hrest]; simp [hsolid y hy])
  exact ⟨y, by rw [peek, ← hskip, hrest]; rfl, hy⟩

/-! ## Reading printed texts -/

/-- What can follow the text of an expression without becoming a part of it. -/
def Follows (e : Expr) (parent : Nat) (rest : List Char) : Prop :=
  ∀ y ∈ rest.head?, y ∈ [' ', ')', ']', ',', '['] ∨ y = '.' ∧ e.endsInInteger parent = false

/-- The text of an expression is read as a tree, perhaps another one. -/
def Rereads (parent : Nat) (e : Expr) : Prop :=
  ∀ c c₀ c' : Cursor, c.Blank c₀ → c₀.Reads (e.toText parent).toList c' → e.Follows parent c'.rest →
    ∃ x, (e.reach parent).Reaches x c c' ∧ x.expr.Stray e

def RereadsAll (es : List Expr) : Prop :=
  ∀ c c₀ c' : Cursor, c.Blank c₀ → c₀.Reads (", ".intercalate (toText.texts es)).toList c' →
    (∀ y ∈ c'.rest.head?, y ∈ [')', ']']) → ∃ xs, Derives (.list xs) c c' ∧ StrayAll xs es

theorem Follows.of_head_eq {rest : List Char} {y : Char} (h : rest.head? = some y)
    (hy : y ∈ [' ', ')', ']', ',', '[']) : e.Follows parent rest := by
  rw [Follows, h]
  rintro _ ⟨⟩
  exact .inl hy

theorem Follows.of_head {rest ys : List Char} (h : ∀ y ∈ rest.head?, y ∈ ys)
    (hys : ∀ y ∈ ys, y ∈ [' ', ')', ']', ',', '[']) : e.Follows parent rest :=
  fun y hy => .inl (hys y (h y hy))

theorem Follows.name {rest : List Char} (h : e.Follows parent rest) :
    ∀ y ∈ rest.head?, isNamePart y = false ∧ isPrime y = false := by
  have hends : ∀ y ∈ [' ', ')', ']', ',', '[', '.'], isNamePart y = false ∧ isPrime y = false := by
    decide
  intro y hy
  refine hends y ?_
  rcases h y hy with hy | ⟨rfl, -⟩
  · exact List.mem_append_left ['.'] hy
  · decide

theorem isUnary_of_not_signed (h : e.signed parent = false) : e.isUnary = false := by
  cases e <;> first | rfl | cases h

/-- Names and numbers are read as they are. -/
theorem rereads_of_prints (h : e.Prints parent) (hk : ∀ y ∈ e.walk, y.keeps)
    (hlayer : e.layer parent = .atom) (hsigned : e.signed parent = false)
    (hinteger : e.endsInInteger parent = e.isInteger) : e.Rereads parent := by
  intro c c₀ c' hb hr hfollows
  have hends : e.EndsAt parent c'.rest := by
    intro y hy
    rcases hfollows y hy with hy | ⟨rfl, hends⟩
    · exact .inl hy
    · exact .inr ⟨rfl, by rw [hlayer]; decide, hinteger ▸ hends⟩
  obtain ⟨x, hx, hback⟩ := h c c₀ c' hb hr hends
  refine ⟨x, ?_, .of_back hback hk⟩
  rw [reach_of_not_signed hsigned, hlayer]
  rwa [hlayer] at hx

theorem rereadsAll_one (h : e.Rereads 0) : RereadsAll [e] := by
  intro c c₀ c' hb hr hrest
  simp only [toText.texts, String.intercalate_singleton] at hr
  obtain ⟨x, hx, hstray⟩ := h c c₀ c' hb hr (.of_head hrest (by decide))
  exact ⟨_, .one (hx.derives.loosen (Nat.zero_le _)), hstray.cons strayAll_nil⟩

theorem rereadsAll_cons {e' : Expr} {es : List Expr} (h : e.Rereads 0) (hes : RereadsAll (e' :: es)) :
    RereadsAll (e :: e' :: es) := by
  intro c c₀ c' hb hr hrest
  obtain ⟨c₁, k, c₂, c₃, hr₁, hhead, hk, hblank, hr₂⟩ := reads_cons hr
  obtain ⟨x, hx, hstray⟩ := h c c₀ c₁ hb hr₁ (.of_head_eq hhead (by decide))
  obtain ⟨xs, hxs, hstrays⟩ := hes c₂ c₃ c' hblank hr₂ hrest
  exact ⟨_, .cons (hx.derives.loosen (Nat.zero_le _)) hk hxs, hstray.cons hstrays⟩

theorem rereads_call {f : String} {xs : List Expr} (hf : f.toList ∈ Lexicon.name)
    (hxs : xs ≠ [] → RereadsAll xs) : (call f xs p).Rereads parent := by
  intro c c₀ c' hblank hr hfollows
  rw [reach_of_not_signed rfl]
  obtain ⟨pos, c₁, k, c₂, c₃, k', hname, hk, hr₂, hclose, hk'⟩ := reads_call hf hblank hr
  by_cases hnil : xs = []
  · subst hnil
    simp only [toText.texts, String.intercalate_nil, String.toList_empty] at hr₂
    cases (Reads.refl c₂).unique hr₂
    exact ⟨_, .callNone hname hk hk', strayAll_nil.call f _ _⟩
  · obtain ⟨ys, hys, hstrays⟩ := hxs hnil c₂ c₂ c₃ (.refl c₂) hr₂ hclose
    exact ⟨_, .call hname hk hys hk', hstrays.call f _ _⟩

/-! ### Accesses -/

/-- What is attached to a sign is attached to what the sign stands in front of. -/
theorem rereads_signed {a : Expr} {k q : Nat} {c c₀ c₁ c' : Cursor} {x : Located} (hq : 3 ≤ q)
    (hsigned : b.signed q = true) (hnodes : ∀ y ∈ b.walk, y.IsNode lit) (hb : c.Blank c₀)
    (hr : c₀.Reads (b.toText q).toList c₁) (hx : (b.reach q).Reaches x c c₁) (hstray : x.expr.Stray b)
    (hgraft : ∀ y s, Derives (.expr .access y) s c₁ → ∃ y', Derives (.expr .power y') s c' ∧
      y'.expr.walk.length = y.expr.walk.length + k)
    (hsize : a.walk.length = b.walk.length + k) (ha : a.isUnary = false)
    (hreach : a.reach parent = .unary) :
    ∃ x', (a.reach parent).Reaches x' c c' ∧ x'.expr.Stray a := by
  have hlayer : b.reach q = .unary :=
    reach_of_signed hsigned (unary_le_layer (hnodes _ (self_mem_walk b)) hq)
  rw [hlayer] at hx
  obtain ⟨x', hx', hsize'⟩ := hx.derives.graft hgraft rfl (.inl rfl)
  rw [hreach]
  refine ⟨x', hx', .of_isUnary ?_ (hx'.isUnary (peekIn_of_signed hsigned hnodes hb hr)) ha⟩
  rw [hsize', hstray.size, hsize]

theorem rereads_index {is : List Expr} (hb : b.Rereads 5) (hnodes : ∀ y ∈ b.walk, y.IsNode lit)
    (his : RereadsAll is) (hne : is ≠ []) : (index b is p).Rereads parent := by
  intro c c₀ c' hblank hr hfollows
  obtain ⟨c₁, k, c₂, c₃, k', hr₁, hhead, hk, hr₂, hclose, hk'⟩ := reads_index hr
  obtain ⟨x, hx, hstray⟩ := hb c c₀ c₁ hblank hr₁ (.of_head_eq hhead (by decide))
  obtain ⟨xs, hxs, hstrays⟩ := his c₂ c₂ c₃ (.refl c₂) hr₂ hclose
  cases hsigned : b.signed 5 with
  | true =>
    refine rereads_signed (k := 1 + (walk.walkAll is).length) (by decide) hsigned hnodes hblank hr₁ hx
      hstray ?_ ?_ rfl (reach_of_signed hsigned (show 2 ≤ 4 by decide))
    · intro y s hy
      refine ⟨_, .access (.index hy hk hxs hk'), ?_⟩
      simp only [walk, List.length_cons, List.length_append, hstrays.size]
      omega
    · simp only [walk, List.length_cons, List.length_append]
      omega
  | false =>
    have hunary := isUnary_of_not_signed hsigned
    have htight := access_le_layer (hnodes _ (self_mem_walk b)) (show 4 ≤ 5 by decide) hunary (by simp)
    have hreach : (index b is p).reach parent = .access := reach_of_not_signed hsigned
    have hkeeps : (index b is p).keeps := by simpa [keeps, indexed] using ⟨hunary, hne⟩
    rw [reach_of_not_signed hsigned] at hx
    rw [hreach]
    exact ⟨_, .index (hx.derives.loosen htight) hk hxs hk', hstray.index hstrays hkeeps⟩

theorem rereads_field {n : String} (hb : b.Rereads 5) (hnodes : ∀ y ∈ b.walk, y.IsNode lit)
    (hspaced : b.endsInInteger 5 = false) (hn : n.toList ∈ Lexicon.name) :
    (field b n p).Rereads parent := by
  intro c c₀ c' hblank hr hfollows
  obtain ⟨c₁, k, c₂, hr₁, hhead, hk, hr₂⟩ := reads_field hr
  have hpoint : b.Follows 5 c₁.rest := by
    rw [Follows, hhead]
    rintro _ ⟨⟩
    exact .inr ⟨rfl, hspaced⟩
  obtain ⟨x, hx, hstray⟩ := hb c c₀ c₁ hblank hr₁ hpoint
  have hname := Stands.of_reads scans_name (.refl c₂) hr₂ hn (name_append hn hfollows.name)
  rw [String.ofList_toList] at hname
  cases hsigned : b.signed 5 with
  | true =>
    refine rereads_signed (k := 1) (by decide) hsigned hnodes hblank hr₁ hx hstray ?_ rfl rfl
      (reach_of_signed hsigned (show 2 ≤ 4 by decide))
    intro y s hy
    exact ⟨_, .access (.field hy hk hname), rfl⟩
  | false =>
    have hunary := isUnary_of_not_signed hsigned
    have htight := access_le_layer (hnodes _ (self_mem_walk b)) (show 4 ≤ 5 by decide) hunary (by simp)
    have hreach : (field b n p).reach parent = .access := reach_of_not_signed hsigned
    have hinteger : b.isInteger = false := by
      cases b <;> first | rfl | exact hspaced
    have hkeeps : (field b n p).keeps := by simpa [keeps] using ⟨hunary, hinteger⟩
    rw [reach_of_not_signed hsigned] at hx
    rw [hreach]
    exact ⟨_, .field (hx.derives.loosen htight) hk hname, hstray.field hkeeps⟩

/-! ### Operators -/

theorem rereads_unary {o : UnaryOp} {x : Expr} (ho : o ∈ [.neg, .pos]) (hx : x.Rereads 3)
    (hnode : x.IsNode lit) : (unary o x p).Rereads parent := by
  intro c c₀ c' hblank hr hfollows
  obtain ⟨pos, c₁, hop, hsymbol, hr₁⟩ := reads_unary ho hblank hr
  obtain ⟨y, hy, hstray⟩ := hx c₁ c₁ c' (.refl c₁) hr₁ hfollows
  have htight : 2 ≤ (x.reach 3).tightness := le_reach (Nat.le_refl 2) (unary_le_layer hnode (Nat.le_refl 3))
  have hreach : (unary o x p).reach parent = .unary := reach_of_signed rfl (Nat.le_refl _)
  rw [hreach]
  refine ⟨_, .sign hop (hy.derives.loosen htight), ?_⟩
  rw [hsymbol]
  exact hstray.unary o _ _

/-- Sums and products are read part by part. -/
theorem reaches_loose {o : BinaryOp} (ho : o ∈ [.add, .sub, .mul, .div, .floorDiv, .mod])
    (hl : l.IsNode lit) (hr : r.IsNode lit) {x y : Located} {c c₁ c₂ c' : Cursor}
    (hx : (l.reach o.precedence).Reaches x c c₁) (hxstray : x.expr.Stray l)
    (hreads : c₁.Reads (" " ++ o.symbol).toList c₂) (hspace : c₂.rest.head? = some ' ')
    (hy : (r.reach (o.precedence + 1)).Reaches y c₂ c') (hystray : y.expr.Stray r) :
    ∃ z, ((binary l o r p).reach 0).Reaches z c c' ∧ z.expr.Stray (binary l o r p) := by
  have hfacts : ∀ o ∈ [BinaryOp.add, .sub, .mul, .div, .floorDiv, .mod],
      o ∈ [BinaryOp.add, .sub, .mul, .div, .floorDiv, .mod, .pow] ∧ o ≠ .pow ∧
      o.layer ≠ .power ∧ o.layer.tightness ≤ Layer.unary.tightness ∧
      (o.left = .sum ∧ o.right = .product ∧ o.precedence = 1 ∨
        o.left = .product ∧ o.right = .unary ∧ o.precedence = 2) := by decide
  obtain ⟨hop, hpow, hlayer, hloose, hparts⟩ := hfacts o ho
  have htight : o.left.tightness ≤ (l.reach o.precedence).tightness ∧
      o.right.tightness ≤ (r.reach (o.precedence + 1)).tightness := by
    rcases hparts with ⟨hleft, hright, hprec⟩ | ⟨hleft, hright, hprec⟩
    · rw [hleft, hright, hprec]
      exact ⟨Nat.zero_le _, le_reach (show 1 ≤ 2 by decide) (product_le_layer hr)⟩
    · rw [hleft, hright, hprec]
      exact ⟨le_reach (show 1 ≤ 2 by decide) (product_le_layer hl),
        le_reach (Nat.le_refl 2) (unary_le_layer hr (Nat.le_refl 3))⟩
  obtain ⟨pos, hz⟩ := derives_operation hop hx.derives htight.1 hreads hspace hy.derives htight.2
  have hreach : (binary l o r p).reach 0 = o.layer := if_neg fun h => absurd h.2 (not_lt.2 hloose)
  have hkeeps : (binary l o r p).keeps := by
    cases o <;> first | rfl | exact absurd rfl hpow
  rw [hreach]
  exact ⟨_, .of_derives hz hlayer, hxstray.binary hystray hkeeps⟩

/-- A power of a power attaches to the last exponent. -/
theorem reaches_power (hnodes : ∀ y ∈ l.walk, y.IsNode lit) (hr : r.IsNode lit) {x y : Located}
    {c c₀ c₁ c₂ c' : Cursor} (hblank : c.Blank c₀) (hl : c₀.Reads (l.toText 4).toList c₁)
    (hx : (l.reach 4).Reaches x c c₁) (hxstray : x.expr.Stray l)
    (hreads : c₁.Reads (" " ++ BinaryOp.pow.symbol).toList c₂) (hspace : c₂.rest.head? = some ' ')
    (hy : (r.reach 5).Reaches y c₂ c') (hystray : y.expr.Stray r) :
    ∃ z, ((binary l .pow r p).reach 0).Reaches z c c' ∧ z.expr.Stray (binary l .pow r p) := by
  obtain ⟨pos, hop⟩ := stands_powOp hreads hspace
  have hy : Derives (.expr .unary y) c₂ c' :=
    hy.derives.loosen (le_reach (Nat.le_refl 2) (unary_le_layer hr (by decide)))
  have hgraft : ∀ z s, Derives (.expr .access z) s c₁ → ∃ z', Derives (.expr .power z') s c' ∧
      z'.expr.walk.length = z.expr.walk.length + (1 + r.walk.length) := by
    intro z s hz
    refine ⟨_, .pow hz hop hy, ?_⟩
    simp only [walk, List.length_cons, List.length_append, hystray.size]
    omega
  have hsize : (binary l .pow r p).walk.length = l.walk.length + (1 + r.walk.length) := by
    simp only [walk, List.length_cons, List.length_append]
    omega
  cases hsigned : l.signed 4 with
  | true =>
    exact rereads_signed (by decide) hsigned hnodes hblank hl hx hxstray hgraft hsize rfl
      (reach_of_signed hsigned (show 2 ≤ 3 by decide))
  | false =>
    have hreach : (binary l .pow r p).reach 0 = .power := reach_of_not_signed hsigned
    have hunary := isUnary_of_not_signed hsigned
    rw [reach_of_not_signed hsigned] at hx
    rw [hreach]
    cases hpower : l.isPower with
    | true =>
      have hlayer : l.layer 4 = .power := by
        obtain ⟨a, b, q, rfl⟩ : ∃ a b q, l = binary a .pow b q := by
          cases l with
          | binary a o b q => cases o <;> first | exact ⟨a, b, q, rfl⟩ | cases hpower
          | _ => cases hpower
        rfl
      rw [hlayer] at hx
      obtain ⟨ha, hop', hb⟩ := hx
      obtain ⟨b', hb', hsize'⟩ := hb.graft hgraft rfl (.inl rfl)
      have hparts := hxstray.size
      simp only [walk, List.length_cons, List.length_append] at hparts
      refine ⟨_, .mk ha hop' hb', .of_left ?_ (by omega)⟩
      rw [hsize]
      simp only [walk, List.length_cons, List.length_append, hsize']
      omega
    | false =>
      have htight := access_le_layer (hnodes _ (self_mem_walk l)) (Nat.le_refl 4) hunary fun _ => hpower
      have hkeeps : (binary l .pow r p).keeps := by simpa [keeps] using ⟨hunary, hpower⟩
      exact ⟨_, .mk (hx.derives.loosen htight) hop hy, hxstray.binary hystray hkeeps⟩

/-- The text of an operation without parentheses. -/
theorem reaches_operation {o : BinaryOp} (ho : o ∈ [.add, .sub, .mul, .div, .floorDiv, .mod, .pow])
    (hl : l.Rereads o.precedence) (hnodes : ∀ y ∈ l.walk, y.IsNode lit)
    (hr : r.Rereads (o.precedence + 1)) (hnode : r.IsNode lit) {c c₀ c' : Cursor} (hblank : c.Blank c₀)
    (hreads : c₀.Reads (l.toText o.precedence ++ " " ++ o.symbol ++ " " ++
      r.toText (o.precedence + 1)).toList c')
    (hfollows : r.Follows (o.precedence + 1) c'.rest) :
    ∃ x, ((binary l o r p).reach 0).Reaches x c c' ∧ x.expr.Stray (binary l o r p) := by
  obtain ⟨c₁, c₂, c₃, hr₁, hhead, hr₂, hspace, hblank', hr₃⟩ := reads_operation hreads
  obtain ⟨x, hx, hxstray⟩ := hl c c₀ c₁ hblank hr₁ (.of_head_eq hhead (by decide))
  obtain ⟨y, hy, hystray⟩ := hr c₂ c₃ c' hblank' hr₃ hfollows
  by_cases hpow : o = .pow
  · subst hpow
    exact reaches_power hnodes hnode hblank hr₁ hx hxstray hr₂ hspace hy hystray
  · have hloose : o ∈ [.add, .sub, .mul, .div, .floorDiv, .mod] := by
      simp only [List.mem_cons, List.not_mem_nil, or_false] at ho ⊢
      tauto
    exact reaches_loose hloose (hnodes _ (self_mem_walk l)) hnode hx hxstray hr₂ hspace hy hystray

theorem rereads_binary {o : BinaryOp} (ho : o ∈ [.add, .sub, .mul, .div, .floorDiv, .mod, .pow])
    (hl : l.Rereads o.precedence) (hnodes : ∀ y ∈ l.walk, y.IsNode lit)
    (hr : r.Rereads (o.precedence + 1)) (hnode : r.IsNode lit) : (binary l o r p).Rereads parent := by
  intro c c₀ c' hblank hreads hfollows
  rw [toText] at hreads
  by_cases hparen : o.precedence < parent
  · have hreach : (binary l o r p).reach parent = .atom := by
      simp only [reach, signed, layer, if_pos hparen, Bool.false_eq_true, false_and, if_false]
    rw [if_pos hparen] at hreads
    obtain ⟨k, c₁, c₂, k', hk, hreads, hhead, hk'⟩ := reads_paren hblank hreads
    obtain ⟨x, hx, hstray⟩ := reaches_operation ho hl hnodes hr hnode (.refl c₁) hreads
      (.of_head_eq hhead (by decide))
    rw [hreach]
    exact ⟨_, .paren hk (hx.derives.loosen (Nat.zero_le _)) hk', hstray⟩
  · have hreach : (binary l o r p).reach parent = (binary l o r p).reach 0 := by
      simp only [reach, signed, layer, if_neg hparen, Nat.not_lt_zero, if_false]
    have hends : r.Follows (o.precedence + 1) c'.rest := by
      simpa only [Follows, endsInInteger, if_neg hparen] using hfollows
    rw [if_neg hparen] at hreads
    rw [hreach]
    exact reaches_operation ho hl hnodes hr hnode hblank hreads hends

/-! ### All expressions -/

/-- A node whose text can be read. -/
structure IsReadable (e : Expr) : Prop where
  node : e.IsNode Literal.Legible
  indexed : e.indexed
  spaced : e.spaced

mutual

/-- The text of a tree of readable nodes is an expression. -/
theorem rereads (e : Expr) (h : ∀ y ∈ e.walk, y.IsReadable) (parent : Nat) : e.Rereads parent := by
  have hself := h e (self_mem_walk e)
  match e with
  | name id p =>
    exact rereads_of_prints (prints_name hself.node) (by simp [walk, keeps]) rfl rfl rfl
  | number v p =>
    exact rereads_of_prints (prints_number hself.node) (by simp [walk, keeps]) rfl rfl rfl
  | index b is p =>
    simp only [walk, List.forall_mem_cons, List.forall_mem_append] at h
    have hne : is ≠ [] := by simpa [Expr.indexed] using hself.indexed
    exact rereads_index (rereads b h.2.1 5) (fun y hy => (h.2.1 y hy).node) (rereadsAll is h.2.2 hne) hne
  | field b n p =>
    simp only [walk, List.forall_mem_cons] at h
    have hspaced : b.endsInInteger 5 = false := by simpa [Expr.spaced] using hself.spaced
    exact rereads_field (rereads b h.2 5) (fun y hy => (h.2 y hy).node) hspaced hself.node
  | call f xs p =>
    simp only [walk, List.forall_mem_cons] at h
    exact rereads_call hself.node (rereadsAll xs h.2)
  | binary l o r p =>
    simp only [walk, List.forall_mem_cons, List.forall_mem_append] at h
    exact rereads_binary hself.node (rereads l h.2.1 _) (fun y hy => (h.2.1 y hy).node)
      (rereads r h.2.2 _) (h.2.2 r (self_mem_walk r)).node
  | unary o x p =>
    simp only [walk, List.forall_mem_cons] at h
    exact rereads_unary hself.node (rereads x h.2 3) (h.2 x (self_mem_walk x)).node
  | first .. | compare .. | keyword .. | target .. | hole => exact hself.node.elim

theorem rereadsAll (es : List Expr) (h : ∀ y ∈ walk.walkAll es, y.IsReadable) (hne : es ≠ []) :
    RereadsAll es := by
  match es with
  | [] => exact absurd rfl hne
  | [e] =>
    simp only [walk.walkAll, List.append_nil] at h
    exact rereadsAll_one (rereads e h 0)
  | e :: e' :: es =>
    rw [walk.walkAll, List.forall_mem_append] at h
    exact rereadsAll_cons (rereads e h.1 0) (rereadsAll (e' :: es) h.2 (List.cons_ne_nil _ _))

end

end Expr

end IndexNotation
