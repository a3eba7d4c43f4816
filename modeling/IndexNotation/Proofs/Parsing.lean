import IndexNotation.Proofs.Recognition

/-!
# The parser accepts exactly its grammar

A text is read without a syntax error if and only if it spells a statement. A text that spells two
statements spells one with a reduction clause and one without, and the parser returns the first.
After that only two things are refused: number texts that stand for no number, and updates of an
array without a name.
-/

namespace IndexNotation

open Grammar Terminal Cursor

section

variable {c c₁ c₂ c₃ c' : Cursor} {fuel : Nat} {text : String}

/-! ## Clauses -/

theorem clauseOp_eq_ok {op : Token} (h : Stands Lexicon.addOp c op c' ∨ Stands Lexicon.mulOp c op c' ∨
    Stands Lexicon.name c op c') : clauseOp c = .ok (op, c') := by
  unfold clauseOp
  rcases h with h | h | h
  · rw [(take?_eq_some_iff scans_addOp).2 h]
  · rw [(h.peekIn scans_mulOp).take?_eq_none scans_addOp (by decide),
      (take?_eq_some_iff scans_mulOp).2 h]
  · obtain ⟨z, hz, hstart⟩ := h.peek_name
    have hop : ∀ {t : Terminal} {ss : List String}, t.Scans (Lexicon.symbols ss) →
        (∀ y ∈ ss.filterMap (·.toList.head?), isNameStart y = false) → c.take? t = none := by
      intro t ss ht hss
      refine take?_eq_none_of_peek ht fun w hw hmem => ?_
      cases Option.mem_unique hz hw
      simp [hss z hmem] at hstart
    rw [hop scans_addOp (by decide), hop scans_mulOp (by decide)]
    exact (take_eq_ok_iff scans_name).2 h

theorem DerivesClause.eq_ok {r : ReductionClause} (h : DerivesClause r c c')
    (hfuel : 10 * c.rest.length + 1 ≤ fuel) : clause fuel c = .ok (r, c') := by
  obtain ⟨m, rfl⟩ := Nat.exists_eq_add_of_le' (show 1 ≤ fuel by omega)
  obtain @⟨op, xs, l, r, w, _, c₁, c₂, c₃, _, hl, hop, hxs, hr, hw⟩ := h
  have hlen := hl.length_lt scans_openParen
  have hlen' : c₂.rest.length ≤ c₁.rest.length := by
    rcases hop with hop | hop | hop <;> exact hop.length_le
  have hitems : items m c₂ = .ok (xs, c₃) :=
    hxs.returned (hr.peekIn scans_closeParen) m (by omega)
  rw [clause]
  refine (bind_of_ok ((take_eq_ok_iff scans_openParen).2 hl) _).trans ?_
  refine (bind_of_ok (clauseOp_eq_ok hop) _).trans ?_
  refine (bind_of_ok hitems _).trans ?_
  refine (bind_of_ok ((take_eq_ok_iff scans_closeParen).2 hr) _).trans ?_
  rw [(hl.reads_skip scans_openParen).1, ← hw.textTo]
  rfl

theorem DerivesTiling.eq_ok {t : TilingClause} (h : DerivesTiling t c c')
    (hfuel : 10 * c.rest.length + 1 ≤ fuel) : tiling fuel c = .ok (t, c') := by
  obtain ⟨m, rfl⟩ := Nat.exists_eq_add_of_le' (show 1 ≤ fuel by omega)
  obtain @⟨xs, l, r, w, _, c₁, c₂, _, hl, hxs, hr, hw⟩ := h
  have hlen := hl.length_lt scans_openBrace
  have hlist : list m c₁ = .ok (xs, c₂) :=
    hxs.returned ((hr.peekIn scans_closeBrace).mono (by decide)) m (by omega)
  rw [tiling]
  refine (bind_of_ok ((take_eq_ok_iff scans_openBrace).2 hl) _).trans ?_
  refine (bind_of_ok hlist _).trans ?_
  refine (bind_of_ok ((take_eq_ok_iff scans_closeBrace).2 hr) _).trans ?_
  rw [(hl.reads_skip scans_openBrace).1, ← hw.textTo]
  rfl

theorem Cursor.sees_eq_true {t : Terminal} {L : Language Char} {tok : Token} (ht : t.Scans L)
    (h : Stands L c tok c') : c.sees t = true := by
  rw [sees, (take?_eq_some_iff ht).2 h]
  rfl

theorem DerivesEnd.eq_ok {t : Option TilingClause} (h : DerivesEnd t c)
    (hfuel : 10 * c.rest.length + 2 ≤ fuel) : ∃ c', tilingEnd fuel c = .ok (t, c') := by
  obtain ⟨m, rfl⟩ := Nat.exists_eq_add_of_le' (show 1 ≤ fuel by omega)
  rw [tilingEnd]
  cases h with
  | bare hspace =>
    have hopen : c.take? openBrace = none :=
      take?_eq_none_of_peek scans_openBrace (by simp [peek_eq_none hspace])
    refine ⟨c, ?_⟩
    rw [if_neg (by simp [sees, hopen])]
    exact bind_of_ok (finish_eq_ok_iff.2 hspace) _
  | @tiled t _ c' ht hspace =>
    have hsees : c.sees openBrace = true := by
      obtain ⟨hl, -⟩ := ht
      exact sees_eq_true scans_openBrace hl
    refine ⟨c', ?_⟩
    rw [if_pos hsees]
    refine (bind_of_ok (ht.eq_ok (by omega)) _).trans ?_
    exact bind_of_ok (finish_eq_ok_iff.2 hspace) _

theorem DerivesClause.length_lt {r : ReductionClause} (h : DerivesClause r c c') :
    c'.rest.length < c.rest.length := by
  obtain ⟨hl, hop, hxs, hr, -⟩ := h
  have := hl.length_lt scans_openParen
  have := hxs.length_le
  have := hr.length_le
  rcases hop with hop | hop | hop <;>
  · have := hop.length_le
    omega

theorem clauses_eq_ok {r : ReductionClause} {t : Option TilingClause} (hr : DerivesClause r c c₁)
    (ht : DerivesEnd t c₁) (hfuel : 10 * c.rest.length + 2 ≤ fuel) :
    ∃ c', clauses fuel c = .ok ((r, t), c') := by
  obtain ⟨m, rfl⟩ := Nat.exists_eq_add_of_le' (show 1 ≤ fuel by omega)
  have hlen := hr.length_lt
  obtain ⟨c', htiles⟩ := ht.eq_ok (show 10 * c₁.rest.length + 2 ≤ m by omega)
  refine ⟨c', ?_⟩
  rw [clauses]
  refine (bind_of_ok (hr.eq_ok (by omega)) _).trans ?_
  exact bind_of_ok htiles _

theorem ready (final : Bool) : Ready final := by
  rintro - c ⟨r, t, c', hr, ht⟩ fuel hfuel
  obtain ⟨d, hd⟩ := clauses_eq_ok hr ht hfuel
  exact ⟨_, hd⟩

/-! ## Statements -/

theorem DerivesTarget.eq_ok {t : Target} (h : DerivesTarget t c c')
    (hfuel : 10 * c.rest.length + 6 ≤ fuel) : target fuel c = .ok (t, c') := by
  obtain @⟨n, xs, l, r, _, c₁, c₂, c₃, _, hn, hl, hxs, hr⟩ := h
  have hlen : c₂.rest.length ≤ c.rest.length := by
    have := hl.length_le
    rcases hn with ⟨-, rfl⟩ | ⟨tok, hn, -⟩
    · exact this
    · exact this.trans hn.length_le
  have hindices : (do
      let l ← c₁.take openBracket
      let xs ← if l.2.sees closeBracket then pure ([], l.2) else list fuel l.2
      let r ← xs.2.take closeBracket
      return (⟨n, xs.1, c.skip.pos⟩, r.2) : Except Cursor (Target × Cursor)) =
        .ok (⟨n, xs, c.skip.pos⟩, c') := by
    refine (bind_of_ok ((take_eq_ok_iff scans_openBracket).2 hl) _).trans ?_
    rcases hxs with ⟨rfl, rfl⟩ | hxs
    · dsimp only
      rw [if_pos (sees_eq_true scans_closeBracket hr)]
      exact bind_of_ok ((take_eq_ok_iff scans_closeBracket).2 hr) _
    · have hopen := hxs.take?_eq_none rfl scans_closeBracket (by decide)
      have hlist : list fuel c₂ = .ok (xs, c₃) :=
        hxs.returned ((hr.peekIn scans_closeBracket).mono (by decide)) fuel (by omega)
      dsimp only
      rw [if_neg (by simp [sees, hopen])]
      refine (bind_of_ok hlist _).trans ?_
      exact bind_of_ok ((take_eq_ok_iff scans_closeBracket).2 hr) _
  unfold target
  rcases hn with ⟨rfl, rfl⟩ | ⟨tok, hn, rfl⟩
  · rw [(hl.peekIn scans_openBracket).take?_name (by decide)]
    exact hindices
  · rw [(take?_eq_some_iff scans_name).2 hn]
    exact hindices

theorem Assign.symbol_injective {op op' : Assign} (h : op.symbol = op'.symbol) : op = op' := by
  cases op <;> cases op' <;> first | rfl | exact absurd h (by decide)

theorem assign_eq_ok {k : Token} {op : Assign} (hk : Stands Lexicon.assign c k c')
    (hop : k.text = op.symbol) : assign c = .ok (op, c') := by
  refine (bind_of_ok ((take_eq_ok_iff scans_assign).2 hk) _).trans ?_
  simp only [hop]
  cases op <;> rfl

theorem DerivesTarget.length_le {t : Target} (h : DerivesTarget t c c') :
    c'.rest.length ≤ c.rest.length := by
  obtain @⟨n, xs, l, r, _, c₁, c₂, c₃, _, hn, hl, hxs, hr⟩ := h
  have h₁ : c₁.rest.length ≤ c.rest.length := by
    rcases hn with ⟨-, rfl⟩ | ⟨tok, hn, -⟩
    · exact Nat.le_refl _
    · exact hn.length_le
  have h₂ := hl.length_le
  have h₃ : c₃.rest.length ≤ c₂.rest.length := by
    rcases hxs with ⟨-, rfl⟩ | hxs
    · exact Nat.le_refl _
    · have := hxs.length_le
      omega
  have h₄ := hr.length_le
  omega

theorem DerivesClause.peekIn {r : ReductionClause} (h : DerivesClause r c c') : c.PeekIn ['('] := by
  obtain ⟨hl, -⟩ := h
  exact hl.peekIn scans_openParen

theorem Cursor.AtEnd.quits (h : c.AtEnd) : c.Quits := by
  rcases h with h | h
  · simp [Quits, h]
  · exact PeekIn.quits ⟨_, h, List.mem_singleton_self _⟩ (by decide)

theorem Cursor.AtEnd.peek_ne (h : c.AtEnd) : c.peek ≠ some '(' := by
  rcases h with h | h <;> simp [h]

/-- A right-hand side in front of a clause is read up to the clause. -/
theorem sum_eq_ok_of_clause {x : Located} (hx : Derives (.expr .sum x) c c') (hclause : c'.HasClause)
    (hfuel : 10 * c.rest.length + 5 ≤ fuel) : sum fuel true c = .ok (x, c') := by
  have hpeek : c'.PeekIn ['('] := by
    obtain ⟨r, t, d, hr, -⟩ := hclause
    exact hr.peekIn
  refine hx.returned.sum_eq_ok (ready true) ⟨fun _ => ⟨rfl, hclause⟩, fun _ hend => ?_⟩
    (hpeek.quits (by decide)) hfuel
  obtain ⟨y, hy, hmem⟩ := hpeek
  exact absurd (List.mem_singleton.1 hmem ▸ hy) hend.peek_ne

/-- A right-hand side without a clause is read to its end, if no other way to read it leaves a
clause. -/
theorem sum_eq_ok_of_atEnd {x : Located} {final : Bool} (hx : Derives (.expr .sum x) c c')
    (hend : c'.AtEnd) (hother : final = true → ∀ y d, Derives (.expr .sum y) c d → ¬ d.HasClause)
    (hfuel : 10 * c.rest.length + 5 ≤ fuel) : sum fuel final c = .ok (x, c') :=
  hx.returned.sum_eq_ok (ready final) ⟨fun hp => absurd hp hend.peek_ne, fun hf _ => hother hf⟩
    hend.quits hfuel

theorem length_ofText (text : String) : (Cursor.ofText text).rest.length = text.length :=
  String.length_toList

theorem statement_eq_ok_of_clause {target : Target} {op : Assign} {k : Token} {rhs : Located}
    {reduction : ReductionClause} {tiles : Option TilingClause} {c₄ : Cursor}
    (htarget : DerivesTarget target (.ofText text) c₁) (hk : Stands Lexicon.assign c₁ k c₂)
    (hop : k.text = op.symbol) (hrhs : Derives (.expr .sum rhs) c₂ c₃)
    (hred : DerivesClause reduction c₃ c₄) (htiles : DerivesEnd tiles c₄) :
    statement (fuelFor text) text =
      .ok ⟨target, op, rhs.expr, some reduction, tiles, Text.trim text, target.pos⟩ := by
  have h₀ := length_ofText text
  have h₁ := htarget.length_le
  have h₂ := hk.length_le
  have h₃ := hrhs.length_le
  have hsum : sum (fuelFor text) true c₂ = .ok (rhs, c₃) :=
    sum_eq_ok_of_clause hrhs ⟨_, _, _, hred, htiles⟩ (by simp only [fuelFor]; omega)
  obtain ⟨c', hclauses⟩ : ∃ c', clauses (fuelFor text) c₃ = .ok ((reduction, tiles), c') :=
    clauses_eq_ok hred htiles (by simp only [fuelFor]; omega)
  have hsees : c₃.sees openParen = true := by
    obtain ⟨hl, -⟩ := hred
    exact sees_eq_true scans_openParen hl
  refine (bind_of_ok (htarget.eq_ok (by simp only [fuelFor]; omega)) _).trans ?_
  refine (bind_of_ok (assign_eq_ok hk hop) _).trans ?_
  refine (bind_of_ok hsum _).trans ?_
  dsimp only
  rw [if_pos hsees]
  exact bind_of_ok hclauses _

theorem statement_eq_ok_of_end {target : Target} {op : Assign} {k : Token} {rhs : Located}
    {tiles : Option TilingClause} (htarget : DerivesTarget target (.ofText text) c₁)
    (hk : Stands Lexicon.assign c₁ k c₂) (hop : k.text = op.symbol)
    (hrhs : Derives (.expr .sum rhs) c₂ c₃) (htiles : DerivesEnd tiles c₃)
    (hother : ∀ y d, Derives (.expr .sum y) c₂ d → ¬ d.HasClause) :
    statement (fuelFor text) text =
      .ok ⟨target, op, rhs.expr, none, tiles, Text.trim text, target.pos⟩ := by
  have h₀ := length_ofText text
  have h₁ := htarget.length_le
  have h₂ := hk.length_le
  have h₃ := hrhs.length_le
  have hsum : sum (fuelFor text) true c₂ = .ok (rhs, c₃) :=
    sum_eq_ok_of_atEnd hrhs htiles.atEnd (fun _ => hother) (by simp only [fuelFor]; omega)
  obtain ⟨c', hend⟩ : ∃ c', tilingEnd (fuelFor text) c₃ = .ok (tiles, c') :=
    htiles.eq_ok (by simp only [fuelFor]; omega)
  have hopen : c₃.take? openParen = none :=
    take?_eq_none_of_peek scans_openParen fun y hy hmem => by
      have : y = '(' := by simpa using hmem
      exact htiles.atEnd.peek_ne (this ▸ hy)
  refine (bind_of_ok (htarget.eq_ok (by simp only [fuelFor]; omega)) _).trans ?_
  refine (bind_of_ok (assign_eq_ok hk hop) _).trans ?_
  refine (bind_of_ok hsum _).trans ?_
  dsimp only
  rw [if_neg (by simp [sees, hopen])]
  exact bind_of_ok hend _

/-- What the parser returns before it reads numbers: a statement that the text spells, with a
reduction clause if there is one to be had. -/
theorem statement_eq_ok_iff {s : Statement} : statement (fuelFor text) text = .ok s ↔
    Spells text s ∧ (s.reduction = none → ∀ t, Spells text t → t.reduction = none) := by
  constructor
  · intro h
    refine ⟨statement_sound h, fun hnone t ht => ?_⟩
    cases ht with
    | plain => rfl
    | reduced htarget hk hop hrhs hred htiles =>
      rw [statement_eq_ok_of_clause htarget hk hop hrhs hred htiles] at h
      cases h
      cases hnone
  · rintro ⟨h, hother⟩
    cases h with
    | reduced htarget hk hop hrhs hred htiles =>
      exact statement_eq_ok_of_clause htarget hk hop hrhs hred htiles
    | plain htarget hk hop hrhs htiles =>
      refine statement_eq_ok_of_end htarget hk hop hrhs htiles fun y d hy hd => ?_
      obtain ⟨r, t, d', hr, ht⟩ := hd
      cases hother rfl _ (.reduced htarget hk hop hy hr ht)

/-- A text spells at most one statement with a reduction clause, and one without. -/
theorem Spells.unique {s t : Statement} (hs : Spells text s) (ht : Spells text t)
    (h : s.reduction.isSome = t.reduction.isSome) : s = t := by
  cases hs with
  | reduced htarget hk hop hrhs hred htiles =>
    cases ht with
    | plain => cases h
    | reduced htarget' hk' hop' hrhs' hred' htiles' =>
      exact Except.ok.inj ((statement_eq_ok_of_clause htarget hk hop hrhs hred htiles).symm.trans
        (statement_eq_ok_of_clause htarget' hk' hop' hrhs' hred' htiles'))
  | @plain target op k rhs tiles c₁ c₂ c₃ htarget hk hop hrhs htiles =>
    cases ht with
    | reduced => cases h
    | @plain target' op' k' rhs' tiles' c₁' c₂' c₃' htarget' hk' hop' hrhs' htiles' =>
      -- Read without regard to clauses, each part determines where the next one starts.
      have htargets := (htarget.eq_ok (Nat.le_refl _)).symm.trans (htarget'.eq_ok (Nat.le_refl _))
      obtain ⟨rfl, rfl⟩ := Prod.mk.inj (Except.ok.inj htargets)
      obtain ⟨rfl, rfl⟩ := hk.unique scans_assign hk'
      have hsum : sum (10 * c₂.rest.length + 5) false c₂ = .ok (rhs, c₃) :=
        sum_eq_ok_of_atEnd hrhs htiles.atEnd (by simp) (Nat.le_refl _)
      have hsum' : sum (10 * c₂.rest.length + 5) false c₂ = .ok (rhs', c₃') :=
        sum_eq_ok_of_atEnd hrhs' htiles'.atEnd (by simp) (Nat.le_refl _)
      obtain ⟨rfl, rfl⟩ := Prod.mk.inj (Except.ok.inj (hsum.symm.trans hsum'))
      obtain ⟨d, hd⟩ := htiles.eq_ok (Nat.le_refl _)
      obtain ⟨d', hd'⟩ := htiles'.eq_ok (Nat.le_refl _)
      obtain ⟨rfl, -⟩ := Prod.mk.inj (Except.ok.inj (hd.symm.trans hd'))
      rw [Assign.symbol_injective (hop.symm.trans hop')]

/-- A text that spells a statement spells one that the parser returns. -/
theorem Spells.exists_statement {s : Statement} (h : Spells text s) :
    ∃ t, statement (fuelFor text) text = .ok t := by
  by_cases hred : ∃ t, Spells text t ∧ t.reduction ≠ none
  · obtain ⟨t, ht, hne⟩ := hred
    exact ⟨t, statement_eq_ok_iff.2 ⟨ht, fun hnone => absurd hnone hne⟩⟩
  · refine ⟨s, statement_eq_ok_iff.2 ⟨h, fun _ t ht => ?_⟩⟩
    by_contra hne
    exact hred ⟨t, ht, hne⟩

end

/-! ## Numbers -/

/-- The value of a number text; other literals stay as they are. -/
def Literal.reading (l : Literal) : Literal :=
  match l.read with
  | .ok v => v
  | .error _ => l

namespace Expr

/-- The literals of a tree, left to right. -/
def literals : Expr → List Literal
  | number v _ => [v]
  | index b is _ => literals b ++ literalsAll is
  | field b _ _ => literals b
  | call _ xs _ => literalsAll xs
  | binary l _ r _ => literals l ++ literals r
  | unary _ x _ => literals x
  | first x _ => literals x
  | compare xs _ => literalsAll xs
  | keyword _ v _ => literals v
  | target _ is _ => literalsAll is
  | name .. | hole => []
where
  literalsAll : List Expr → List Literal
    | [] => []
    | e :: es => literals e ++ literalsAll es

/-- The tree with the values of its number texts. -/
def reading : Expr → Expr
  | name id p => name id p
  | number v p => number v.reading p
  | index b is p => index (reading b) (readingAll is) p
  | field b n p => field (reading b) n p
  | call f xs p => call f (readingAll xs) p
  | binary l o r p => binary (reading l) o (reading r) p
  | unary o x p => unary o (reading x) p
  | first x p => first (reading x) p
  | compare xs p => compare (readingAll xs) p
  | keyword n v p => keyword n (reading v) p
  | target n is p => target n (readingAll is) p
  | hole => hole
where
  readingAll : List Expr → List Expr
    | [] => []
    | e :: es => reading e :: readingAll es

mutual

theorem isOk_readNumbers (e : Expr) : e.readNumbers.isOk = e.literals.all (·.read.isOk) := by
  match e with
  | name .. | hole => rfl
  | number v p =>
    rw [readNumbers, literals, List.all_cons, List.all_nil, Bool.and_true]
    cases v.read <;> rfl
  | index b is p =>
    rw [readNumbers, literals, List.all_append, ← isOk_readNumbers b, ← isOk_readAll is]
    cases b.readNumbers <;> cases readNumbers.readAll is <;> rfl
  | binary l o r p =>
    rw [readNumbers, literals, List.all_append, ← isOk_readNumbers l, ← isOk_readNumbers r]
    cases l.readNumbers <;> cases r.readNumbers <;> rfl
  | field b n p | unary o b p | first b p | keyword n b p =>
    rw [readNumbers, literals, ← isOk_readNumbers b]
    cases b.readNumbers <;> rfl
  | call f xs p | compare xs p | target n xs p =>
    rw [readNumbers, literals, ← isOk_readAll xs]
    cases readNumbers.readAll xs <;> rfl

theorem isOk_readAll (es : List Expr) :
    (readNumbers.readAll es).isOk = (literals.literalsAll es).all (·.read.isOk) := by
  match es with
  | [] => rfl
  | e :: es =>
    rw [readNumbers.readAll, literals.literalsAll, List.all_append, ← isOk_readNumbers e,
      ← isOk_readAll es]
    cases e.readNumbers <;> cases readNumbers.readAll es <;> rfl

end

mutual

theorem eq_reading {e e' : Expr} (h : e.readNumbers = .ok e') : e' = e.reading := by
  match e with
  | name .. | hole =>
    cases h
    rfl
  | number v p =>
    obtain ⟨v', hv, h⟩ := bind_eq_ok h
    cases h
    rw [reading, Literal.reading, hv]
  | index b is p =>
    obtain ⟨b', hb, h⟩ := bind_eq_ok h
    obtain ⟨is', his, h⟩ := bind_eq_ok h
    cases h
    rw [reading, eq_reading hb, eq_readingAll his]
  | binary l o r p =>
    obtain ⟨l', hl, h⟩ := bind_eq_ok h
    obtain ⟨r', hr, h⟩ := bind_eq_ok h
    cases h
    rw [reading, eq_reading hl, eq_reading hr]
  | field b n p | unary o b p | first b p | keyword n b p =>
    obtain ⟨b', hb, h⟩ := bind_eq_ok h
    cases h
    rw [reading, eq_reading hb]
  | call f xs p | compare xs p | target n xs p =>
    obtain ⟨xs', hxs, h⟩ := bind_eq_ok h
    cases h
    rw [reading, eq_readingAll hxs]

theorem eq_readingAll {es es' : List Expr} (h : readNumbers.readAll es = .ok es') :
    es' = reading.readingAll es := by
  match es with
  | [] =>
    cases h
    rfl
  | e :: es =>
    obtain ⟨e', he, h⟩ := bind_eq_ok h
    obtain ⟨es', hes, h⟩ := bind_eq_ok h
    cases h
    rw [reading.readingAll, eq_reading he, eq_readingAll hes]

end

theorem readNumbers_eq_ok_iff {e e' : Expr} : e.readNumbers = .ok e' ↔
    (∀ l ∈ e.literals, l.read.isOk) ∧ e' = e.reading := by
  have hok := isOk_readNumbers e
  rw [← List.all_eq_true, ← hok]
  constructor
  · intro h
    exact ⟨by rw [h]; rfl, eq_reading h⟩
  · rintro ⟨hread, rfl⟩
    cases h : e.readNumbers with
    | error f => simp [h, Except.isOk, Except.toBool] at hread
    | ok e' => rw [eq_reading h]

theorem readAll_eq_ok_iff {es es' : List Expr} : readNumbers.readAll es = .ok es' ↔
    (∀ l ∈ literals.literalsAll es, l.read.isOk) ∧ es' = reading.readingAll es := by
  have hok := isOk_readAll es
  rw [← List.all_eq_true, ← hok]
  constructor
  · intro h
    exact ⟨by rw [h]; rfl, eq_readingAll h⟩
  · rintro ⟨hread, rfl⟩
    cases h : readNumbers.readAll es with
    | error f => simp [h, Except.isOk, Except.toBool] at hread
    | ok es' => rw [eq_readingAll h]

end Expr

namespace Statement

open IndexNotation.Expr

/-- The items of the clauses of a statement. -/
def items (s : Statement) : List Expr :=
  (s.reduction.elim [] (·.items)) ++ (s.tiling.elim [] (·.items))

/-- The literals of a statement. -/
def literals (s : Statement) : List Literal :=
  literals.literalsAll s.target.indices ++ s.rhs.literals ++ literals.literalsAll s.items

/-- The statement with the values of its number texts. -/
def reading (s : Statement) : Statement :=
  { s with
    target := { s.target with indices := reading.readingAll s.target.indices }
    rhs := s.rhs.reading
    reduction := s.reduction.map fun r => { r with items := reading.readingAll r.items }
    tiling := s.tiling.map fun t => { t with items := reading.readingAll t.items } }

variable {s b r : Statement} {text : String}

theorem readBody_eq_ok_iff : s.readBody = .ok b ↔
    ((∀ l ∈ literals.literalsAll s.target.indices, l.read.isOk) ∧ ∀ l ∈ s.rhs.literals, l.read.isOk) ∧
      b = { s with
        target := { s.target with indices := reading.readingAll s.target.indices }
        rhs := s.rhs.reading } := by
  constructor
  · intro h
    obtain ⟨is, his, h⟩ := bind_eq_ok h
    obtain ⟨rhs, hrhs, h⟩ := bind_eq_ok h
    cases h
    obtain ⟨hindices, rfl⟩ := readAll_eq_ok_iff.1 his
    obtain ⟨hliterals, rfl⟩ := readNumbers_eq_ok_iff.1 hrhs
    exact ⟨⟨hindices, hliterals⟩, rfl⟩
  · rintro ⟨⟨hindices, hrhs⟩, rfl⟩
    rw [readBody, readAll_eq_ok_iff.2 ⟨hindices, rfl⟩, readNumbers_eq_ok_iff.2 ⟨hrhs, rfl⟩]
    rfl

theorem literalsAll_append (es es' : List Expr) : literals.literalsAll (es ++ es') =
    literals.literalsAll es ++ literals.literalsAll es' := by
  induction es with
  | nil => rfl
  | cons e es ih => simp only [List.cons_append, literals.literalsAll, ih, List.append_assoc]

/-- The items of a clause are read, if there is a clause. -/
theorem mapM_readAll_eq_ok_iff {α : Type} {get : α → List Expr} {set : α → List Expr → α}
    {clause clause' : Option α} :
    (clause.mapM fun a => do return set a (← readNumbers.readAll (get a))) = .ok clause' ↔
      (∀ l ∈ literals.literalsAll (clause.elim [] get), l.read.isOk) ∧
        clause' = clause.map fun a => set a (reading.readingAll (get a)) := by
  cases clause with
  | none =>
    constructor
    · rintro ⟨⟩
      exact ⟨by simp [literals.literalsAll], rfl⟩
    · rintro ⟨-, rfl⟩
      rfl
  | some a =>
    constructor
    · intro h
      obtain ⟨a', ha, h⟩ := bind_eq_ok h
      obtain ⟨xs, hxs, ha⟩ := bind_eq_ok ha
      cases ha
      cases h
      obtain ⟨hliterals, rfl⟩ := readAll_eq_ok_iff.1 hxs
      exact ⟨hliterals, rfl⟩
    · rintro ⟨hliterals, rfl⟩
      have hxs : readNumbers.readAll (get a) = .ok (reading.readingAll (get a)) :=
        readAll_eq_ok_iff.2 ⟨hliterals, rfl⟩
      rw [Option.mapM_some, hxs]
      rfl

theorem readClauses_eq_ok_iff : s.readClauses = .ok r ↔
    (∀ l ∈ literals.literalsAll s.items, l.read.isOk) ∧
      r = { s with
        reduction := s.reduction.map fun r => { r with items := reading.readingAll r.items }
        tiling := s.tiling.map fun t => { t with items := reading.readingAll t.items } } := by
  simp only [items, literalsAll_append, List.forall_mem_append]
  constructor
  · intro h
    obtain ⟨red, hred, h⟩ := bind_eq_ok h
    obtain ⟨tiles, htiles, h⟩ := bind_eq_ok h
    cases h
    obtain ⟨hr, rfl⟩ := mapM_readAll_eq_ok_iff.1 hred
    obtain ⟨ht, rfl⟩ := mapM_readAll_eq_ok_iff.1 htiles
    exact ⟨⟨hr, ht⟩, rfl⟩
  · rintro ⟨⟨hr, ht⟩, rfl⟩
    refine (bind_of_ok (mapM_readAll_eq_ok_iff.2 ⟨hr, rfl⟩) _).trans ?_
    exact bind_of_ok (mapM_readAll_eq_ok_iff.2 ⟨ht, rfl⟩) _

theorem mapError_eq_ok_iff {ε ε' α : Type} {x : Except ε α} {f : ε → ε'} {a : α} :
    x.mapError f = .ok a ↔ x = .ok a := by
  cases x <;> simp [Except.mapError]

theorem mapError_eq_error {ε ε' α : Type} {x : Except ε α} {f : ε → ε'} {e : ε'}
    (h : x.mapError f = .error e) : ∃ e₀, f e₀ = e := by
  cases x with
  | error e₀ => exact ⟨e₀, by simpa [Except.mapError] using h⟩
  | ok a => cases h

theorem checkTarget_eq_ok_iff :
    s.checkTarget text = .ok ⟨⟩ ↔ s.target.name.isSome ∨ s.op = .define := by
  unfold checkTarget
  split
  · next h =>
    simp only [Bool.and_eq_true, bne_iff_ne] at h
    simp_all
  · next h =>
    simp only [Bool.and_eq_true, bne_iff_ne, not_and, not_not] at h
    simp only [true_iff]
    cases hn : s.target.name with
    | none => exact .inr (h (by simp [hn]))
    | some n => simp

/-- What is left to do after a statement has been found in the text. -/
theorem parseWritten_eq_ok_iff (h : statement (fuelFor text) text = .ok s) :
    parseWritten text = .ok r ↔ (s.target.name.isSome ∨ s.op = .define) ∧
      (∀ l ∈ s.literals, l.read.isOk) ∧ r = s.reading := by
  simp only [literals, List.forall_mem_append]
  constructor
  · intro hw
    obtain ⟨s', hs, hw⟩ := bind_eq_ok hw
    cases (mapError_eq_ok_iff.1 hs).symm.trans h
    obtain ⟨b, hb, hw⟩ := bind_eq_ok hw
    obtain ⟨hbody, rfl⟩ := readBody_eq_ok_iff.1 (mapError_eq_ok_iff.1 hb)
    obtain ⟨⟨⟩, hcheck, hw⟩ := bind_eq_ok hw
    have hnamed := checkTarget_eq_ok_iff.1 hcheck
    obtain ⟨hclauses, rfl⟩ := readClauses_eq_ok_iff.1 (mapError_eq_ok_iff.1 hw)
    exact ⟨hnamed, ⟨hbody, hclauses⟩, rfl⟩
  · rintro ⟨hnamed, ⟨hbody, hclauses⟩, rfl⟩
    refine (bind_of_ok (mapError_eq_ok_iff.2 h) _).trans ?_
    refine (bind_of_ok (mapError_eq_ok_iff.2 (readBody_eq_ok_iff.2 ⟨hbody, rfl⟩)) _).trans ?_
    refine Eq.trans (bind_of_ok (checkTarget_eq_ok_iff.2 (by exact hnamed)) _) ?_
    exact mapError_eq_ok_iff.2 (readClauses_eq_ok_iff.2 ⟨hclauses, rfl⟩)

theorem parse_eq_ok_iff (h : statement (fuelFor text) text = .ok s) :
    parse text = .ok r ↔ (s.target.name.isSome ∨ s.op = .define) ∧
      (∀ l ∈ s.literals, l.read.isOk) ∧ r = s.reading.desugar := by
  constructor
  · intro hparse
    obtain ⟨w, hw, hdesugar⟩ := bind_eq_ok hparse
    cases hdesugar
    obtain ⟨hnamed, hliterals, rfl⟩ := (parseWritten_eq_ok_iff h).1 hw
    exact ⟨hnamed, hliterals, rfl⟩
  · rintro ⟨hnamed, hliterals, rfl⟩
    exact bind_of_ok ((parseWritten_eq_ok_iff h).2 ⟨hnamed, hliterals, rfl⟩) _

theorem exists_statement_of_parseWritten (h : parseWritten text = .ok r) :
    ∃ s, statement (fuelFor text) text = .ok s := by
  obtain ⟨s, hs, -⟩ := bind_eq_ok h
  exact ⟨s, mapError_eq_ok_iff.1 hs⟩

theorem parse_ne_unexpected (h : statement (fuelFor text) text = .ok s) (location : Location) :
    parse text ≠ .error (.parse (.unexpected text) location) := by
  intro hparse
  rcases bind_eq_error hparse with hw | ⟨w, -, hdesugar⟩
  · rcases bind_eq_error hw with hs | ⟨s', -, hw⟩
    · rw [h] at hs
      cases hs
    · rcases bind_eq_error hw with hb | ⟨b, -, hw⟩
      · obtain ⟨f, hf⟩ := mapError_eq_error hb
        cases hf
      · rcases bind_eq_error hw with hcheck | ⟨-, -, hr⟩
        · unfold checkTarget at hcheck
          split at hcheck <;> cases hcheck
        · obtain ⟨f, hf⟩ := mapError_eq_error hr
          cases hf
  · cases hdesugar

theorem parse_eq_unexpected {c : Cursor} (h : statement (fuelFor text) text = .error c) :
    parse text = .error (.parse (.unexpected text) (c.location text)) := by
  unfold parse parseWritten
  rw [h]
  rfl

end Statement

/-- **The parser accepts exactly its grammar.** There is no syntax error if and only if the text
spells a statement. It spells at most one with a reduction clause and at most one without; if both,
the one with the clause is meant. That statement is returned, with the values of its number texts,
unless one of them has none or it updates an array without a name. -/
theorem Statement.parse_exactly_grammar (text : String) :
    ((∀ location, parse text ≠ .error (.parse (.unexpected text) location)) ↔
      ∃ s, Spells text s) ∧
    (∀ s t, Spells text s → Spells text t → s.reduction.isSome = t.reduction.isSome → s = t) ∧
    ∀ s, Spells text s → (s.reduction = none → ∀ t, Spells text t → t.reduction = none) →
      ∀ r, parse text = .ok r ↔ (s.target.name.isSome ∨ s.op = .define) ∧
        (∀ l ∈ s.literals, l.read.isOk) ∧ r = s.reading.desugar := by
  refine ⟨⟨fun h => ?_, ?_⟩, fun s t hs ht => hs.unique ht, fun s hs hother r => ?_⟩
  · cases hstatement : statement (fuelFor text) text with
    | error c => exact absurd (parse_eq_unexpected hstatement) (h _)
    | ok s => exact ⟨s, statement_sound hstatement⟩
  · rintro ⟨s, hs⟩
    obtain ⟨t, ht⟩ := hs.exists_statement
    exact parse_ne_unexpected ht
  · exact parse_eq_ok_iff (statement_eq_ok_iff.2 ⟨hs, hother⟩)

/-- A call at the end of a statement is read as a clause where it can be one. -/
theorem Statement.parse_exactly_grammar_call :
    ∃ s t r, Spells "A[] := f(x)" s ∧ s.reduction = none ∧ Spells "A[] := f(x)" t ∧
      t.reduction.isSome ∧ parse "A[] := f(x)" = .ok r ∧ r = t.reading.desugar := by
  have htarget : Grammar.target 9 (.ofText "A[] := f(x)") =
      .ok (⟨some "A", [], some ⟨1, 1⟩⟩, ⟨" := f(x)".toList, ⟨1, 4⟩⟩) := rfl
  have hop : (⟨" := f(x)".toList, ⟨1, 4⟩⟩ : Cursor).take .assign =
      .ok (⟨":=", ⟨1, 5⟩⟩, ⟨" f(x)".toList, ⟨1, 7⟩⟩) := rfl
  have hcall : Grammar.sum 20 false ⟨" f(x)".toList, ⟨1, 7⟩⟩ =
      .ok (⟨.call "f" [.name "x" (some ⟨1, 10⟩)] (some ⟨1, 8⟩), ⟨1, 8⟩⟩, ⟨[], ⟨1, 12⟩⟩) := rfl
  have hclause : statement (fuelFor "A[] := f(x)") "A[] := f(x)" =
      .ok ⟨⟨some "A", [], some ⟨1, 1⟩⟩, .define, .name "f" (some ⟨1, 8⟩),
        some ⟨"x", [], "(x)", some ⟨1, 9⟩⟩, none, "A[] := f(x)", some ⟨1, 1⟩⟩ := rfl
  have hs := Spells.plain (target_sound htarget) ((take_eq_ok_iff scans_assign).1 hop)
    (show _ = Assign.define.symbol from rfl) ((sound 20).sum hcall) (.bare (by simp))
  have ht := statement_sound hclause
  refine ⟨_, _, _, hs, rfl, ht, rfl, ?_, rfl⟩
  exact ((parse_exactly_grammar "A[] := f(x)").2.2 _ ht (fun h => nomatch h) _).2
    ⟨.inl rfl, by decide, rfl⟩

end IndexNotation
