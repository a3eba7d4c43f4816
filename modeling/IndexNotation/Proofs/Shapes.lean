import IndexNotation.Proofs.Positions
import IndexNotation.Proofs.Printing

/-!
# Shapes of trees

What a tree is made of, said of each of its nodes: the parser makes nodes of a few kinds only, and
the printer keeps the parentheses of a tree if each node keeps those around its operands.
-/

namespace IndexNotation

open Grammar Terminal Cursor

namespace Expr

/-! ## Nodes -/

/-- An access has an index. -/
def indexed : Expr → Bool
  | index _ is _ => !is.isEmpty
  | _ => true

/-- Whether the operands of a node can stand where they are printed. The grammar has no access
without an index; a sign is printed without parentheses, and so is a power in front of a power; and
a point behind an integer belongs to the number. -/
def keeps : Expr → Bool
  | index b is p => !b.isUnary && (index b is p).indexed
  | field b _ _ => !b.isUnary && !b.isInteger
  | binary l .pow _ _ => !l.isUnary && !l.isPower
  | _ => true

variable {lit : Literal → Prop}

mutual

/-- A tree that keeps all its parentheses is printed well. -/
theorem printable_of_walk (e : Expr) (h : ∀ y ∈ e.walk, y.IsNode lit) (hk : ∀ y ∈ e.walk, y.keeps) :
    e.Printable lit := by
  match e with
  | name .. => exact h _ (self_mem_walk _)
  | number .. => exact h _ (self_mem_walk _)
  | first .. | compare .. | keyword .. | target .. | hole => exact (h _ (self_mem_walk _) : False).elim
  | index b is p =>
    simp only [walk, List.forall_mem_cons, List.forall_mem_append] at h hk
    obtain ⟨hnode, hb, his⟩ := hk
    simp only [keeps, indexed, Bool.and_eq_true, Bool.not_eq_true', List.isEmpty_eq_false_iff] at hnode
    exact ⟨printable_of_walk b h.2.1 hb, hnode.1, hnode.2, allPrintable_of_walk is h.2.2 his⟩
  | field b n p =>
    simp only [walk, List.forall_mem_cons] at h hk
    simp only [keeps, Bool.and_eq_true, Bool.not_eq_true'] at hk
    exact ⟨printable_of_walk b h.2 hk.2, hk.1.1, hk.1.2, h.1⟩
  | call f xs p =>
    simp only [walk, List.forall_mem_cons] at h hk
    exact ⟨h.1, allPrintable_of_walk xs h.2 hk.2⟩
  | binary l o r p =>
    simp only [walk, List.forall_mem_cons, List.forall_mem_append] at h hk
    refine ⟨printable_of_walk l h.2.1 hk.2.1, printable_of_walk r h.2.2 hk.2.2, h.1, ?_⟩
    rintro rfl
    simpa [keeps] using hk.1
  | unary o x p =>
    simp only [walk, List.forall_mem_cons] at h hk
    exact ⟨h.1, printable_of_walk x h.2 hk.2⟩

theorem allPrintable_of_walk (es : List Expr) (h : ∀ y ∈ walk.walkAll es, y.IsNode lit)
    (hk : ∀ y ∈ walk.walkAll es, y.keeps) : Printable.AllPrintable lit es := by
  match es with
  | [] => trivial
  | e :: es =>
    simp only [walk.walkAll, List.forall_mem_append] at h hk
    exact ⟨printable_of_walk e h.1 hk.1, allPrintable_of_walk es h.2 hk.2⟩

end

/-! ## Positions and number texts -/

mutual

theorem walk_reading (e : Expr) : e.reading.walk = e.walk.map reading := by
  match e with
  | name .. | number .. | compare .. | keyword .. | target .. | hole => rfl
  | index b is _ => simp [reading, walk, walk_reading b, walkAll_reading is]
  | field b _ _ => simp [reading, walk, walk_reading b]
  | call _ xs _ => simp [reading, walk, walkAll_reading xs]
  | binary l _ r _ => simp [reading, walk, walk_reading l, walk_reading r]
  | unary _ x _ => simp [reading, walk, walk_reading x]
  | first x _ => simp [reading, walk, walk_reading x]

theorem walkAll_reading (es : List Expr) :
    walk.walkAll (reading.readingAll es) = (walk.walkAll es).map reading := by
  match es with
  | [] => rfl
  | e :: es => simp [reading.readingAll, walk.walkAll, walk_reading e, walkAll_reading es]

end

mutual

theorem mem_literals {e : Expr} {v : Literal} {p : Option Pos} (h : number v p ∈ e.walk) :
    v ∈ e.literals := by
  match e with
  | name .. | compare .. | keyword .. | target .. | hole => simp [walk] at h
  | number .. =>
    obtain ⟨rfl, rfl⟩ : _ = _ ∧ _ = _ := by simpa [walk] using h
    exact List.mem_singleton_self _
  | index b is _ =>
    simp only [walk, List.mem_cons, List.mem_append, reduceCtorEq, false_or] at h
    exact List.mem_append.2 (h.imp mem_literals mem_literalsAll)
  | binary l _ r _ =>
    simp only [walk, List.mem_cons, List.mem_append, reduceCtorEq, false_or] at h
    exact List.mem_append.2 (h.imp mem_literals mem_literals)
  | field b _ _ | unary _ b _ | first b _ =>
    simp only [walk, List.mem_cons, reduceCtorEq, false_or] at h
    exact mem_literals (e := b) h
  | call _ xs _ =>
    simp only [walk, List.mem_cons, reduceCtorEq, false_or] at h
    exact @mem_literalsAll xs _ _ h

theorem mem_literalsAll {es : List Expr} {v : Literal} {p : Option Pos}
    (h : number v p ∈ walk.walkAll es) : v ∈ literals.literalsAll es := by
  match es with
  | [] => simp [walk.walkAll] at h
  | e :: es =>
    rw [walk.walkAll, List.mem_append] at h
    exact List.mem_append.2 (h.imp mem_literals mem_literalsAll)

end

/-- A node that the parser makes. Its number texts are not read yet. -/
def IsMade (e : Expr) : Prop :=
  e.IsNode (fun v => ∃ t, v = .numeral t) ∧ e.indexed

/-- A node as it is after the number texts have been read. -/
def IsRead (e : Expr) : Prop :=
  e.IsNode fun v => ∃ t, Numeral.read t = .ok v

theorem isNode_bare (e : Expr) : e.bare.IsNode lit ↔ e.IsNode lit := by
  cases e <;> rfl

theorem indexed_bare (e : Expr) : e.bare.indexed = e.indexed := by
  cases e with
  | index b is p => cases is <;> rfl
  | _ => rfl

theorem indexed_reading (e : Expr) : e.reading.indexed = e.indexed := by
  cases e with
  | index b is p => cases is <;> rfl
  | _ => rfl

theorem IsMade.isRead {e : Expr} (h : e.IsMade) (hread : ∀ v p, e = number v p → v.read.isOk) :
    e.reading.IsRead := by
  cases e with
  | number v p =>
    obtain ⟨⟨t, rfl⟩, -⟩ := h
    have hok := hread _ _ rfl
    simp only [reading, Literal.reading, Literal.read] at hok ⊢
    cases hr : Numeral.read t with
    | error f => simp [hr, Except.isOk, Except.toBool] at hok
    | ok v => exact ⟨t, hr⟩
  | index | name | field | call | binary | unary => exact h.1
  | first | compare | keyword | target | hole => exact h.1.elim

/-- Trees that are the same when read, up to positions, have the same nodes. -/
theorem walk_of_bare_eq {x e : Expr} (h : x.reading.bare = e.bare) :
    x.walk.map (·.reading.bare) = e.walk.map bare := by
  rw [← walk_bare, ← h, walk_bare, walk_reading, List.map_map]
  rfl

theorem walkAll_of_bare_eq {xs es : List Expr}
    (h : bare.bareAll (reading.readingAll xs) = bare.bareAll es) :
    (walk.walkAll xs).map (·.reading.bare) = (walk.walkAll es).map bare := by
  rw [← walkAll_bare, ← h, walkAll_bare, walkAll_reading, List.map_map]
  rfl

theorem isRead_of_map_eq {xs es : List Expr} (hxs : ∀ y ∈ xs, y.IsMade)
    (hread : ∀ v p, number v p ∈ xs → v.read.isOk) (h : xs.map (·.reading.bare) = es.map bare) :
    ∀ y ∈ es, y.IsRead ∧ y.indexed := by
  intro y hy
  have hmem : y.bare ∈ xs.map (·.reading.bare) := h ▸ List.mem_map_of_mem hy
  obtain ⟨z, hz, heq⟩ := List.mem_map.1 hmem
  have hz' : z.reading.IsRead := (hxs z hz).isRead fun v p hv => hread v p (hv ▸ hz)
  rw [IsRead, ← isNode_bare y, ← indexed_bare y, ← heq, isNode_bare, indexed_bare, indexed_reading]
  exact ⟨hz', (hxs z hz).2⟩

end Expr

/-! ## What the parser makes -/

/-- The nodes of a phrase are those of the grammar. Items of clauses are left out. -/
def Phrase.Made : Phrase → Prop
  | expr _ x => ∀ y ∈ x.expr.walk, y.IsMade
  | list xs => xs ≠ [] ∧ ∀ y ∈ Expr.walk.walkAll xs, y.IsMade
  | item _ | items _ => True

theorem Stands.mem {L : Language Char} {c c' : Cursor} {tok : Token} (h : Stands L c tok c') :
    tok.text.toList ∈ L := by
  obtain ⟨-, -, hw, -⟩ := h
  rwa [String.toList_ofList]

theorem Derives.made {ph : Phrase} {c c' : Cursor} (h : Derives ph c c') : ph.Made := by
  induction h with
  | product _ ih | unary _ ih | power _ ih | access _ ih | atom _ ih | paren _ _ _ ih => exact ih
  | add _ hop _ ih₁ ih₂ =>
    have hops : ∀ s ∈ ["+", "-"], BinaryOp.ofSymbol s ∈
      [.add, .sub, .mul, .div, .floorDiv, .mod, .pow] := by decide
    simp only [Phrase.Made, Expr.walk, List.forall_mem_cons, List.forall_mem_append]
    exact ⟨⟨hops _ (hop.text_mem scans_addOp), rfl⟩, ih₁, ih₂⟩
  | mul _ hop _ ih₁ ih₂ =>
    have hops : ∀ s ∈ ["*", "//", "/", "%"], BinaryOp.ofSymbol s ∈
      [.add, .sub, .mul, .div, .floorDiv, .mod, .pow] := by decide
    simp only [Phrase.Made, Expr.walk, List.forall_mem_cons, List.forall_mem_append]
    exact ⟨⟨hops _ (hop.text_mem scans_mulOp), rfl⟩, ih₁, ih₂⟩
  | pow _ _ _ ih₁ ih₂ =>
    simp only [Phrase.Made, Expr.walk, List.forall_mem_cons, List.forall_mem_append]
    exact ⟨⟨by simp [Expr.IsNode], rfl⟩, ih₁, ih₂⟩
  | sign hop _ ih =>
    have hops : ∀ s ∈ ["+", "-"], UnaryOp.ofSymbol s ∈ [.neg, .pos] := by decide
    simp only [Phrase.Made, Expr.walk, List.forall_mem_cons]
    exact ⟨⟨hops _ (hop.text_mem scans_addOp), rfl⟩, ih⟩
  | index _ _ _ _ ih₁ ih₂ =>
    simp only [Phrase.Made, Expr.walk, List.forall_mem_cons, List.forall_mem_append]
    exact ⟨⟨trivial, by simpa [Expr.indexed] using ih₂.1⟩, ih₁, ih₂.2⟩
  | field _ _ hn ih =>
    simp only [Phrase.Made, Expr.walk, List.forall_mem_cons]
    exact ⟨⟨hn.mem, rfl⟩, ih⟩
  | number => simpa [Phrase.Made, Expr.walk] using ⟨⟨_, rfl⟩, rfl⟩
  | name hn => simpa [Phrase.Made, Expr.walk] using ⟨hn.mem, rfl⟩
  | call hn _ _ _ ih =>
    simp only [Phrase.Made, Expr.walk, List.forall_mem_cons]
    exact ⟨⟨hn.mem, rfl⟩, ih.2⟩
  | callNone hn =>
    simp only [Phrase.Made, Expr.walk, List.forall_mem_cons]
    exact ⟨⟨hn.mem, rfl⟩, by simp [Expr.walk.walkAll]⟩
  | one _ ih => exact ⟨by simp, by simpa [Expr.walk.walkAll, Phrase.Made] using ih⟩
  | cons _ _ _ ih₁ ih₂ =>
    refine ⟨by simp, ?_⟩
    rw [Expr.walk.walkAll, List.forall_mem_append]
    exact ⟨ih₁, ih₂.2⟩
  | plain | atMost | between | keyword | done | more => trivial

end IndexNotation
