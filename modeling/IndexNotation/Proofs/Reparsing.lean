import IndexNotation.Proofs.Dots
import IndexNotation.Proofs.Fractions

/-!
# Statements and their texts

The text of a statement that has been read is read as this statement again, if the printer has kept
all parentheses that the grammar needs and no call at the end can be taken for a reduction clause.
Else the text denotes another statement or none.
-/

namespace IndexNotation

open Grammar Terminal Cursor

/-! ## Points of statements -/

theorem DerivesTarget.dots_eq {t : Target} {c c' : Cursor} (h : DerivesTarget t c c') :
    dots c.rest = Expr.allFields t.indices + dots c'.rest := by
  obtain @⟨n, xs, l, r, _, c₁, c₂, c₃, _, hn, hl, hxs, hr⟩ := h
  have hname : dots c.rest = dots c₁.rest := by
    rcases hn with ⟨-, rfl⟩ | ⟨tok, hn, -⟩
    · rfl
    · exact hn.dots_name
  have hlist : dots c₂.rest = Expr.allFields xs + dots c₃.rest := by
    rcases hxs with ⟨rfl, rfl⟩ | hxs
    · rw [Expr.allFields_nil, Nat.zero_add]
    · exact hxs.pointed
  rw [hname, hl.dots_symbols (by decide), hlist, hr.dots_symbols (by decide)]

/-- A text without clauses has a point for each field of the statement. -/
theorem Spells.dots_eq {text : String} {s : Statement} (h : Spells text s) (hred : s.reduction = none)
    (htiling : s.tiling = none) :
    dots text.toList = Expr.allFields s.target.indices + s.rhs.fields := by
  cases h with
  | reduced => cases hred
  | @plain target op k rhs tiles c₁ c₂ c₃ htarget hk hop hrhs hend =>
    cases hend with
    | tiled => cases htiling
    | bare hspace =>
      have hnone : dots c₃.rest = 0 := by
        have hreads := reads_advance (c := c₃) (List.append_nil _).symm
        have hend : (c₃.advance c₃.rest.length).rest = [] :=
          List.append_cancel_left (hreads.rest.symm.trans (List.append_nil _).symm)
        rw [Cursor.Blank.dots_eq ⟨_, hreads, hspace⟩, hend, dots_nil]
      have hpointed : dots c₂.rest = rhs.expr.fields + dots c₃.rest := hrhs.pointed
      have hstart : dots text.toList = _ := htarget.dots_eq
      rw [hstart, hk.dots_symbols (by decide), hpointed, hnone, Nat.add_zero]

/-- The text of a statement has no more points than there are fields, and fewer where one follows an
integer. -/
theorem Statement.dots_text_le {s : Statement} (hname : ∀ n ∈ s.target.name, n.toList ∈ Lexicon.name)
    (hindices : Expr.DottedAll s.target.indices) (hrhs : s.rhs.Dotted 0) :
    dots s.text.toList + (Expr.allCrowded s.target.indices + s.rhs.crowded) ≤
      Expr.allFields s.target.indices + s.rhs.fields := by
  have htext : s.text.toList = (s.target.name.getD "").toList ++
      '[' :: ((", ".intercalate (Expr.toText.texts s.target.indices)).toList ++
        ']' :: ' ' :: (s.op.symbol.toList ++ ' ' :: s.rhs.text.toList)) := by
    simp [Statement.text, Target.text, Expr.texts_eq_map]
  have hpoint : '.' ∉ (s.target.name.getD "").toList := by
    cases hn : s.target.name with
    | none => simp
    | some n => exact notMem_point_name (hname n hn)
  have hop : ∀ c ∈ s.op.symbol.toList, Text.isDigit c = false ∧ c ≠ '.' ∧ isNameStart c = false := by
    cases s.op <;> decide
  have hlist := hindices (']' :: ' ' :: (s.op.symbol.toList ++ ' ' :: s.rhs.text.toList))
    (by rintro _ ⟨⟩; decide)
  rw [dots_other (by decide) (by decide) (by decide), dots_other (by decide) (by decide) (by decide),
    dots_append_of_other hop, dots_other (by decide) (by decide) (by decide)] at hlist
  have hright : dots s.rhs.text.toList + s.rhs.crowded ≤ s.rhs.fields := by
    simpa [trail, dots_nil] using hrhs [] [] (by simp) (by simp)
  rw [htext]
  refine (Nat.add_le_add_right (dots_le_of_stop (by decide) hpoint _) _).trans ?_
  omega

theorem equals_notMem_name {n : List Char} (hn : n ∈ Lexicon.name) : '=' ∉ n := by
  intro hmem
  rcases Lexicon.mem_of_mem_name hn hmem with hmem | hmem <;> exact absurd hmem (by decide)

namespace Expr

theorem countP_isField_of_map_eq {xs es : List Expr} (h : xs.map (·.reading.bare) = es.map bare) :
    xs.countP isField = es.countP isField := by
  have hbare (e : Expr) : e.bare.isField = e.isField := by cases e <;> rfl
  have hreading (e : Expr) : e.reading.isField = e.isField := by cases e <;> rfl
  have := congrArg (List.countP isField) h
  simpa only [List.countP_map, Function.comp_def, hbare, hreading] using this

theorem spaced_of_countP {l : List Expr} (h : l.countP (fun y => !y.spaced) = 0) : ∀ y ∈ l, y.spaced := by
  simpa [List.countP_eq_zero] using h

/-! ## The sign of an assignment -/

mutual

/-- There is no equals sign in the text of an expression. -/
theorem equals_notMem_toText (e : Expr) (h : ∀ y ∈ e.walk, y.IsNode Literal.Legible) (parent : Nat) :
    '=' ∉ (e.toText parent).toList := by
  have hself := h e (self_mem_walk e)
  match e with
  | name id p => exact equals_notMem_name hself
  | number v p =>
    intro hmem
    rcases Lexicon.mem_of_mem_number hself.mem hmem with hmem | hmem <;> exact absurd hmem (by decide)
  | index b is p =>
    simp only [walk, List.forall_mem_cons, List.forall_mem_append] at h
    simp only [toText, String.toList_append, List.mem_append, not_or]
    exact ⟨⟨⟨equals_notMem_toText b h.2.1 5, by decide⟩, equals_notMem_texts is h.2.2⟩, by decide⟩
  | field b n p =>
    simp only [walk, List.forall_mem_cons] at h
    simpa [toText] using ⟨equals_notMem_toText b h.2 5, equals_notMem_name hself⟩
  | call f xs p =>
    simp only [walk, List.forall_mem_cons] at h
    simp only [toText, String.toList_append, List.mem_append, not_or]
    exact ⟨⟨⟨equals_notMem_name hself, by decide⟩, equals_notMem_texts xs h.2⟩, by decide⟩
  | binary l o r p =>
    simp only [walk, List.forall_mem_cons, List.forall_mem_append] at h
    have hsymbol : ∀ o ∈ [BinaryOp.add, .sub, .mul, .div, .floorDiv, .mod, .pow], '=' ∉ o.symbol.toList := by
      decide
    have hparts := And.intro (equals_notMem_toText l h.2.1 o.precedence)
      (And.intro (hsymbol o hself) (equals_notMem_toText r h.2.2 (o.precedence + 1)))
    rw [toText]
    split <;> simpa using hparts
  | unary o x p =>
    simp only [walk, List.forall_mem_cons] at h
    have hsymbol : ∀ o ∈ [UnaryOp.neg, .pos], '=' ∉ o.symbol.toList := by decide
    simpa [toText] using ⟨hsymbol o hself, equals_notMem_toText x h.2 3⟩
  | first .. | compare .. | keyword .. | target .. | hole => exact hself.elim

theorem equals_notMem_texts (es : List Expr) (h : ∀ y ∈ walk.walkAll es, y.IsNode Literal.Legible) :
    '=' ∉ (", ".intercalate (toText.texts es)).toList := by
  match es with
  | [] => simp [toText.texts]
  | [e] =>
    simp only [walk.walkAll, List.append_nil] at h
    simpa [toText.texts] using equals_notMem_toText e h 0
  | e :: e' :: es =>
    rw [walk.walkAll, List.forall_mem_append] at h
    rw [toText.texts, toText.texts, String.intercalate_cons_cons, ← toText.texts]
    simp only [String.toList_append, List.mem_append, not_or]
    exact ⟨⟨equals_notMem_toText e h.1 0, by decide⟩, equals_notMem_texts (e' :: es) h.2⟩

end

end Expr

theorem DerivesTarget.closed {t : Target} {c c' : Cursor} (h : DerivesTarget t c c') : c.Closed c' := by
  obtain ⟨hn, hl, hxs, hr⟩ := h
  refine Closed.trans ?_ ((hl.closed (Lexicon.notMem_symbols (by decide))).trans
    (Closed.trans ?_ (hr.closed (Lexicon.notMem_symbols (by decide)))))
  · rcases hn with ⟨-, rfl⟩ | ⟨tok, hn, -⟩
    · exact .refl _
    · exact hn.closed Lexicon.notMem_name
  · rcases hxs with ⟨-, rfl⟩ | hxs
    · exact .refl _
    · exact hxs.closed

/-- The sign of the assignment stands somewhere in the text. -/
theorem Spells.exists_symbol {text : String} {s : Statement} (h : Spells text s) :
    ∃ u v, text.toList = u ++ (s.op.symbol.toList ++ v) := by
  have hparts {target : Target} {k : Token} {c₁ c₂ : Cursor} (htarget : DerivesTarget target (.ofText text) c₁)
      (hk : Stands Lexicon.assign c₁ k c₂) : ∃ u v, text.toList = u ++ (k.text.toList ++ v) := by
    obtain ⟨u, hu, -⟩ := htarget.closed
    obtain ⟨⟨b, hb, -⟩, hw, -⟩ := hk
    refine ⟨u ++ b, c₂.rest, ?_⟩
    rw [String.toList_ofList, ← hw.rest]
    exact (hu.trans hb).rest
  cases h with
  | plain htarget hk hop | reduced htarget hk hop => exact hop ▸ hparts htarget hk

theorem append_cons_inj {x : Char} {u v u' v' : List Char} (h : u ++ x :: v = u' ++ x :: v') (hu : x ∉ u')
    (hv : x ∉ v') : u = u' := by
  rcases List.append_eq_append_iff.1 h with ⟨as, rfl, has⟩ | ⟨bs, rfl, hbs⟩
  · cases as with
    | nil => simp
    | cons y as =>
      obtain ⟨rfl, -⟩ := List.cons.inj has
      simp at hu
  · cases bs with
    | nil => simp
    | cons y bs =>
      obtain ⟨rfl, rfl⟩ := List.cons.inj hbs
      simp at hv

/-- The name and the nodes of a target are those of the grammar. -/
theorem DerivesTarget.made {t : Target} {c c' : Cursor} (h : DerivesTarget t c c') :
    (∀ n ∈ t.name, n.toList ∈ Lexicon.name) ∧ ∀ y ∈ Expr.walk.walkAll t.indices, y.IsMade := by
  obtain ⟨hn, -, hxs, -⟩ := h
  refine ⟨fun m hm => ?_, ?_⟩
  · rcases hn with ⟨rfl, -⟩ | ⟨tok, hn, rfl⟩
    · cases hm
    · cases hm
      exact hn.mem
  · rcases hxs with ⟨rfl, -⟩ | hxs
    · simp [Expr.walk.walkAll]
    · exact hxs.made.2

namespace Statement

/-- A statement that has been read from a text, and has no number that cannot be written. -/
structure Legible (s : Statement) : Prop where
  name : ∀ n ∈ s.target.name, n.toList ∈ Lexicon.name
  named : s.target.name.isSome ∨ s.op = .define
  rhs : ∀ y ∈ s.rhs.walk, y.IsNode Literal.Legible ∧ y.indexed
  indices : ∀ y ∈ Expr.walk.walkAll s.target.indices, y.IsNode Literal.Legible ∧ y.indexed

/-- The text of a plain assignment is not one of an update. -/
theorem Legible.update?_eq_none {s t : Statement} (hs : s.Legible) (hop : s.op.update? = none)
    (h : Spells s.text t) : t.op.update? = none := by
  obtain ⟨u, v, htext⟩ := h.exists_symbol
  have htarget : '=' ∉ s.target.text.toList := by
    have hname : '=' ∉ (s.target.name.getD "").toList := by
      cases hn : s.target.name with
      | none => simp
      | some n => exact equals_notMem_name (hs.name n hn)
    have hindices := Expr.equals_notMem_texts s.target.indices fun y hy => (hs.indices y hy).1
    rw [Expr.texts_eq_map] at hindices
    simp only [Target.text, String.toList_append, List.mem_append, not_or]
    exact ⟨⟨⟨hname, by decide⟩, hindices⟩, by decide⟩
  have hrhs : '=' ∉ ' ' :: s.rhs.text.toList := by
    simpa using Expr.equals_notMem_toText s.rhs (fun y hy => (hs.rhs y hy).1) 0
  -- There is one equals sign, and no sign of an operator in front of it.
  obtain ⟨front, hsplit, hfront, hlast⟩ : ∃ front, s.text.toList = front ++ '=' :: ' ' :: s.rhs.text.toList ∧
      '=' ∉ front ∧ ∀ x ∈ ['+', '-', '*'], front.getLast? ≠ some x := by
    cases hsymbol : s.op with
    | define =>
      refine ⟨s.target.text.toList ++ [' ', ':'], by simp [text, hsymbol, Assign.symbol], ?_, ?_⟩
      · simpa using htarget
      · simp
    | store =>
      refine ⟨s.target.text.toList ++ [' '], by simp [text, hsymbol, Assign.symbol], ?_, ?_⟩
      · simpa using htarget
      · simp
    | add | sub | mul => rw [hsymbol] at hop; cases hop
  have hnot {x : Char} (hx : x ∈ ['+', '-', '*']) (hsymbol : t.op.symbol.toList = [x, '=']) : False := by
    have heq : (u ++ [x]) ++ '=' :: v = front ++ '=' :: ' ' :: s.rhs.text.toList := by
      rw [← hsplit, htext, hsymbol]
      simp
    refine hlast x hx ?_
    rw [← append_cons_inj heq hfront hrhs]
    simp
  cases ht : t.op with
  | define | store => rfl
  | add => exact (hnot (x := '+') (by decide) (by rw [ht]; rfl)).elim
  | sub => exact (hnot (x := '-') (by decide) (by rw [ht]; rfl)).elim
  | mul => exact (hnot (x := '*') (by decide) (by rw [ht]; rfl)).elim

/-- What has been read can be written, if its numbers are finite. -/
theorem legible_of_parseWritten {source : String} {s : Statement} (h : parseWritten source = .ok s)
    (hfinite : ∀ v ∈ s.literals, v.IsFinite) : s.Legible := by
  obtain ⟨u, hu⟩ := exists_statement_of_parseWritten h
  obtain ⟨hnamed, hread, rfl⟩ := (parseWritten_eq_ok_iff hu).1 h
  obtain ⟨c₁, c₂, c₃, x, htarget, hrhs, hx⟩ : ∃ c₁ c₂ c₃ x, DerivesTarget u.target (.ofText source) c₁ ∧
      Derives (.expr .sum x) c₂ c₃ ∧ u.rhs = x.expr := by
    cases statement_sound hu with
    | plain htarget _ _ hrhs | reduced htarget _ _ hrhs => exact ⟨_, _, _, _, htarget, hrhs, rfl⟩
  obtain ⟨hname, hmade⟩ := htarget.made
  simp only [literals, List.forall_mem_append] at hread hfinite
  -- A node that has been read has a number that is finite.
  have hnode {y : Expr} {vs : List Literal} (hy : y.IsRead ∧ y.indexed)
      (hvs : ∀ v p, y = .number v p → v ∈ vs) (hfinite : ∀ v ∈ vs, v.IsFinite) :
      y.IsNode Literal.Legible ∧ y.indexed := by
    refine ⟨?_, hy.2⟩
    cases y with
    | number v p =>
      obtain ⟨t, ht⟩ := hy.1
      exact Literal.legible_of_read ht (hfinite v (hvs v p rfl))
    | _ => exact hy.1
  refine ⟨hname, hnamed, fun y hy => ?_, fun y hy => ?_⟩
  · have hread := Expr.isRead_of_map_eq (hx ▸ hrhs.made) (fun v p hv => hread.1.2 v (Expr.mem_literals hv))
      (Expr.walk_of_bare_eq rfl) y hy
    exact hnode hread (fun v p hv => Expr.mem_literals (hv ▸ hy)) hfinite.1.2
  · have hread := Expr.isRead_of_map_eq hmade (fun v p hv => hread.1.1 v (Expr.mem_literalsAll hv))
      (Expr.walkAll_of_bare_eq rfl) y hy
    exact hnode hread (fun v p hv => Expr.mem_literalsAll (hv ▸ hy)) hfinite.1.1

/-- Statements that are the same but for positions and source texts. Clauses are compared as they are. -/
structure Alike (s t : Statement) : Prop where
  name : t.target.name = s.target.name
  indices : Expr.bare.bareAll t.target.indices = Expr.bare.bareAll s.target.indices
  op : t.op = s.op
  rhs : t.rhs.bare = s.rhs.bare
  reduction : t.reduction = s.reduction
  tiling : t.tiling = s.tiling

/-- All parentheses of a statement are kept in its text. -/
def Keeps (s : Statement) : Prop :=
  (∀ y ∈ s.rhs.walk, y.keeps) ∧ ∀ y ∈ Expr.walk.walkAll s.target.indices, y.keeps

/-- The text of a statement that keeps its parentheses spells it. -/
theorem Legible.spells {s : Statement} (hs : s.Legible) (hred : s.reduction = none)
    (htiling : s.tiling = none) (hkeeps : s.Keeps) :
    ∃ u, Spells s.text u ∧ (∀ l ∈ u.literals, l.read.isOk) ∧ s.Alike u.reading := by
  have hprints := (Expr.printable_of_walk s.rhs (fun y hy => (hs.rhs y hy).1) hkeeps.1).prints (fun _ h => h) s.rhs 0
  have hall := Expr.allPrintable_of_walk s.target.indices (fun y hy => (hs.indices y hy).1) hkeeps.2
  obtain ⟨t, c₁, k, c₂, x, c₃, c₄, ht, htname, ⟨htok, htback⟩, hk, hop, hx, ⟨hxok, hxback⟩, htail, hend⟩ :=
    derives_text hs.name (Expr.allPrintable_prints (fun _ h => h) _ hall) hprints
      (show s.rhs.EndsAt 0 "".toList by simp [Expr.EndsAt])
  have hrest : c₃.rest = [] := by
    rw [htail.rest, hend]
    rfl
  rw [String.append_empty] at ht
  refine ⟨_, .plain ht hk hop hx (.bare (by simp [hrest])), ?_, ⟨htname, htback, rfl, hxback, hred.symm, htiling.symm⟩⟩
  simp only [literals, items, List.forall_mem_append, Option.elim]
  exact ⟨⟨htok, hxok⟩, by simp [Expr.literals.literalsAll]⟩

/-- A text that spells the statement again has kept all its parentheses. -/
theorem Legible.keeps {s u : Statement} (hs : s.Legible) (h : Spells s.text u) (hred : u.reduction = none)
    (htiling : u.tiling = none) (halike : s.Alike u.reading) : s.Keeps := by
  -- There are as many points as fields, so none of them has been lost to an integer.
  have hdots := dots_text_le hs.name
    (Expr.dottedAll_of_walk s.target.indices fun y hy => (hs.indices y hy).1)
    (Expr.dotted_of_walk s.rhs (fun y hy => (hs.rhs y hy).1) 0)
  have hindices : Expr.allFields u.target.indices = Expr.allFields s.target.indices :=
    Expr.countP_isField_of_map_eq (Expr.walkAll_of_bare_eq halike.indices)
  have hrhs : u.rhs.fields = s.rhs.fields :=
    Expr.countP_isField_of_map_eq (Expr.walk_of_bare_eq halike.rhs)
  rw [h.dots_eq hred htiling, hindices, hrhs] at hdots
  have hspaced := Expr.spaced_of_countP (l := s.rhs.walk) (show s.rhs.crowded = 0 by omega)
  have hspaced' := Expr.spaced_of_countP (show Expr.allCrowded s.target.indices = 0 by omega)
  -- So the text can be read part by part, and what is read is as large as the statement.
  have hrereads := Expr.rereads s.rhs (fun y hy => ⟨(hs.rhs y hy).1, (hs.rhs y hy).2, hspaced y hy⟩) 0
  have hrereadsAll := Expr.rereadsAll s.target.indices fun y hy =>
    ⟨(hs.indices y hy).1, (hs.indices y hy).2, hspaced' y hy⟩
  obtain ⟨t, c₁, k, c₂, x, c₃, c₄, ht, -, htstray, hk, hop, hx, hxstray, htail, hend⟩ :=
    derives_parts (s := s) (Q := fun xs => Expr.StrayAll xs s.target.indices)
      (P := fun x => x.Stray s.rhs) hs.name (fun hnil => hnil ▸ Expr.strayAll_nil) hrereadsAll
      fun c c₀ c' hblank hr (hrest : c'.rest = "".toList) => by
        obtain ⟨x, hx, hstray⟩ := hrereads c c₀ c' hblank hr (by simp [Expr.Follows, hrest])
        exact ⟨x, hx.derives.loosen (Nat.zero_le _), hstray⟩
  have hrest : c₃.rest = [] := by
    rw [htail.rest, hend]
    rfl
  rw [String.append_empty] at ht
  have hsame := h.unique (.plain ht hk hop hx (.bare (by simp [hrest]))) (by rw [hred])
  subst hsame
  exact ⟨hxstray.keeps halike.rhs, htstray.keeps halike.indices⟩

theorem desugar_of_plain {s : Statement} (h : s.op.update? = none) : s.desugar = s := by
  rw [desugar, h]

/-- **When a printed statement denotes itself.** The text of a plain assignment without clauses, as it has
been read, is read as the same statement if and only if all parentheses are kept and the text cannot be
read as one with a reduction clause. -/
theorem parse_text_iff {source : String} {s : Statement} (h : parseWritten source = .ok s)
    (hop : s.op.update? = none) (hred : s.reduction = none) (htiling : s.tiling = none)
    (hfinite : ∀ v ∈ s.literals, v.IsFinite) :
    (∃ t, parse s.text = .ok t ∧ s.Alike t) ↔ s.Keeps ∧ ∀ t, Spells s.text t → t.reduction = none := by
  have hs := legible_of_parseWritten h hfinite
  constructor
  · rintro ⟨t, hparse, halike⟩
    obtain ⟨w, hw, hdesugar⟩ := bind_eq_ok hparse
    cases hdesugar
    obtain ⟨u, hu⟩ := exists_statement_of_parseWritten hw
    obtain ⟨hspells, hother⟩ := statement_eq_ok_iff.1 hu
    obtain ⟨-, -, rfl⟩ := (parseWritten_eq_ok_iff hu).1 hw
    have hplain := hs.update?_eq_none hop hspells
    rw [desugar_of_plain (s := u.reading) hplain] at halike
    have hred' : u.reduction = none := Option.map_eq_none_iff.1 (halike.reduction.trans hred)
    have htiling' : u.tiling = none := Option.map_eq_none_iff.1 (halike.tiling.trans htiling)
    exact ⟨hs.keeps hspells hred' htiling' halike, hother hred'⟩
  · rintro ⟨hkeeps, hother⟩
    obtain ⟨u, hspells, hread, halike⟩ := hs.spells hred htiling hkeeps
    have hu := statement_eq_ok_iff.2 ⟨hspells, fun _ => hother⟩
    have hnamed : u.target.name.isSome ∨ u.op = .define := by
      rw [← show s.op = u.op from halike.op.symm, ← show s.target.name = u.target.name from halike.name.symm]
      exact hs.named
    refine ⟨_, (parse_eq_ok_iff hu).2 ⟨hnamed, hread, rfl⟩, ?_⟩
    have hplain := hs.update?_eq_none hop hspells
    rwa [desugar_of_plain (s := u.reading) hplain]

/-- A sign, a product and a sum in parentheses. -/
theorem parse_text_iff_product : ∃ s, parseWritten "A[i] := -x[i] * (y.z + 2)" = .ok s ∧
    s.text = "A[i] := -x[i] * (y.z + 2)" ∧ ∃ t, parse s.text = .ok t ∧ s.Alike t := by
  have hcheck : (parseWritten "A[i] := -x[i] * (y.z + 2)").toOption.any (fun s =>
      s.text == "A[i] := -x[i] * (y.z + 2)" && s.op == .define && s.reduction.isNone && s.tiling.isNone &&
      s.literals.all (·.integer?.isSome) && s.rhs.walk.all Expr.keeps &&
      (Expr.walk.walkAll s.target.indices).all Expr.keeps &&
      (statement (fuelFor s.text) s.text).toOption.any (·.reduction.isNone)) = true := by decide +kernel
  cases hs : parseWritten "A[i] := -x[i] * (y.z + 2)" with
  | error e => simp [hs, Except.toOption] at hcheck
  | ok s =>
    simp only [hs, Except.toOption, Option.any_some, Bool.and_eq_true, beq_iff_eq,
      Option.isNone_iff_eq_none, List.all_eq_true] at hcheck
    obtain ⟨⟨⟨⟨⟨⟨⟨htext, hop⟩, hred⟩, htiling⟩, hints⟩, hrhs⟩, hindices⟩, hstatement⟩ := hcheck
    have hfinite : ∀ v ∈ s.literals, v.IsFinite := by
      intro v hv
      have hint := hints v hv
      cases v with
      | float x => exact absurd hint Bool.false_ne_true
      | _ => exact True.intro
    refine ⟨s, rfl, htext, (parse_text_iff hs (by rw [hop]; rfl) hred htiling hfinite).2 ⟨⟨hrhs, hindices⟩, ?_⟩⟩
    cases hu : statement (fuelFor s.text) s.text with
    | error c => simp [hu] at hstatement
    | ok u => exact (statement_eq_ok_iff.1 hu).2 (by simpa [hu] using hstatement)

end Statement

open IndexNotation.Expr in
/-- The parentheses around a power that is raised to a power are lost. -/
theorem Statement.parse_text_nested_power :
    ∃ s t, parse "A[i] := (x[i] ** 2) ** 3" = .ok s ∧ parse s.text = .ok t ∧
      s.rhs.bare = binary (binary (index (name "x" none) [name "i" none] none) .pow
        (number (.int 2) none) none) .pow (number (.int 3) none) none ∧
      t.rhs.bare = binary (index (name "x" none) [name "i" none] none) .pow
        (binary (number (.int 2) none) .pow (number (.int 3) none) none) none := by
  let at_ (column : Nat) : Option Pos := some ⟨1, column⟩
  let target : Target := ⟨some "A", [name "i" (at_ 3)], at_ 1⟩
  let s : Statement := ⟨target, .define, binary (binary
    (index (name "x" (at_ 10)) [name "i" (at_ 12)] (at_ 10)) .pow (number (.int 2) (at_ 18)) (at_ 15))
    .pow (number (.int 3) (at_ 24)) (at_ 21), none, none, "A[i] := (x[i] ** 2) ** 3", at_ 1⟩
  let t : Statement := ⟨target, .define, binary
    (index (name "x" (at_ 9)) [name "i" (at_ 11)] (at_ 9)) .pow
    (binary (number (.int 2) (at_ 17)) .pow (number (.int 3) (at_ 22)) (at_ 19)) (at_ 14),
    none, none, "A[i] := x[i] ** 2 ** 3", at_ 1⟩
  have htext : s.text = "A[i] := x[i] ** 2 ** 3" := by decide +kernel
  refine ⟨s, t, ?_, ?_, rfl, rfl⟩
  · rfl
  · rw [htext]
    rfl

end IndexNotation
