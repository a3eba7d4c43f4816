import IndexNotation.Proofs.Numerals
import IndexNotation.Proofs.Parsing
import IndexNotation.Syntax.Canonical

/-!
# Canonical forms

Putting a statement into its canonical form respells names and fills in the placeholders of index
lists, and changes nothing else: neither the shape of the trees nor a position. One pass is enough,
whatever stands inside of what: in the result no name ends in an apostrophe, no entry of an index
list is a placeholder, and a second pass finds nothing to do.
-/

namespace IndexNotation

/-! ## Names -/

/-- Some apostrophes. -/
def apostrophes (k : Nat) : String := String.ofList (List.replicate k '\x27')

theorem endsPrimed_iff {s : String} : endsPrimed s = false ↔ ∀ c ∈ s.toList.reverse.head?, (c == '\x27') = false := by
  rw [endsPrimed, List.head?_reverse]
  cases s.toList.getLast? <;> simp

/-- The canonical form of a name that is taken apart into its stem and the apostrophes after it. -/
theorem canonicalIndex_append {stem : String} (h : endsPrimed stem = false) (k : Nat) :
    canonicalIndex (stem ++ apostrophes k) = stem ++ String.ofList (List.replicate k '′') := by
  have hdrop : (stem ++ apostrophes k).toList.reverse.dropWhile (· == '\x27') = stem.toList.reverse := by
    rw [String.toList_append, apostrophes, String.toList_ofList, List.reverse_append, List.reverse_replicate]
    exact Terminal.dropWhile_append_of_stop (by simp) (endsPrimed_iff.1 h)
  have hlength : (stem ++ apostrophes k).length - stem.toList.length = k := by
    simp [apostrophes, String.length_toList]
  simp only [canonicalIndex, hdrop, List.reverse_reverse, hlength, String.ofList_append, String.ofList_toList]

/-- Every name is a stem and some apostrophes. -/
theorem exists_stem (id : String) : ∃ stem k, endsPrimed stem = false ∧ id = stem ++ apostrophes k := by
  have hsplit := List.takeWhile_append_dropWhile (p := (· == '\x27')) (l := id.toList.reverse)
  generalize hprimes : id.toList.reverse.takeWhile (· == '\x27') = primes,
    hstem : id.toList.reverse.dropWhile (· == '\x27') = stem at hsplit
  refine ⟨String.ofList stem.reverse, primes.length, ?_, ?_⟩
  · rw [endsPrimed_iff, String.toList_ofList, List.reverse_reverse, ← hstem]
    intro c hc
    have hnot := List.head?_dropWhile_not (· == '\x27') id.toList.reverse
    rw [Option.mem_def.1 hc] at hnot
    exact hnot
  · have hall : primes = List.replicate primes.length '\x27' := by
      refine List.eq_replicate_of_mem fun c hc => ?_
      rw [← hprimes] at hc
      have hprime := List.mem_takeWhile_imp hc
      exact eq_of_beq hprime
    have hid : id.toList = stem.reverse ++ primes.reverse := by
      rw [← List.reverse_append, hsplit, List.reverse_reverse]
    rw [hall, List.reverse_replicate] at hid
    rw [apostrophes, ← String.ofList_append, ← hid, String.ofList_toList]

theorem canonicalIndex_of_not_endsPrimed {id : String} (h : endsPrimed id = false) : canonicalIndex id = id := by
  simpa [apostrophes] using canonicalIndex_append h 0

/-- A canonical name has primes where there were apostrophes. -/
theorem endsPrimed_canonicalIndex (id : String) : endsPrimed (canonicalIndex id) = false := by
  obtain ⟨stem, k, hstem, rfl⟩ := exists_stem id
  rw [canonicalIndex_append hstem]
  cases k with
  | zero => simpa using hstem
  | succ k => simp [endsPrimed_iff, List.replicate_succ']

theorem canonicalIndex_eq_placeholder {id : String} (h : canonicalIndex id = placeholder) : id = placeholder := by
  obtain ⟨stem, k, hstem, rfl⟩ := exists_stem id
  rw [canonicalIndex_append hstem] at h
  cases k with
  | zero => simpa [apostrophes] using h
  | succ k =>
    have hlast := congrArg (fun s : String => s.toList.getLast?) h
    simp [placeholder, List.replicate_succ'] at hlast

/-- The number of apostrophes can be told from the canonical form. -/
theorem canonicalIndex_append_inj {stem : String} (h : endsPrimed stem = false) {k m : Nat} :
    canonicalIndex (stem ++ apostrophes k) = canonicalIndex (stem ++ apostrophes m) ↔ k = m := by
  rw [canonicalIndex_append h, canonicalIndex_append h]
  constructor
  · intro heq
    have hlength := congrArg String.length heq
    simpa using hlength
  · rintro rfl
    rfl

/-! ## Trees -/

/-- Where a tree stands: as an entry of an index list, or anywhere else. -/
inductive Role where
  | entry | operand
deriving DecidableEq

namespace Expr

/-- Expressions proper: what can be evaluated and is written as such. The items of clauses, the sources of
axes and targets are none. -/
inductive Proper : Expr → Prop
  | name (id : String) (p : Option Pos) : Proper (.name id p)
  | number (v : Literal) (p : Option Pos) : Proper (.number v p)
  | index {b : Expr} {is : List Expr} {p : Option Pos} (hb : Proper b) (his : ∀ i ∈ is, Proper i) :
    Proper (.index b is p)
  | field {b : Expr} {n : String} {p : Option Pos} (hb : Proper b) : Proper (.field b n p)
  | call {f : String} {args : List Expr} {p : Option Pos} (hargs : ∀ a ∈ args, Proper a) : Proper (.call f args p)
  | binary {l r : Expr} {op : BinaryOp} {p : Option Pos} (hl : Proper l) (hr : Proper r) :
    Proper (.binary l op r p)
  | unary {op : UnaryOp} {x : Expr} {p : Option Pos} (hx : Proper x) : Proper (.unary op x p)

/-- The same tree in another spelling: names are canonical, and a placeholder among the entries of an index
list is the number zero. Everything else is the same, positions included. -/
inductive Respelled : Role → Expr → Expr → Prop
  | placeholder (p : Option Pos) : Respelled .entry (.name placeholder p) (.number (.int 0) p)
  | name {role : Role} {id : String} (p : Option Pos) (h : role = .entry → id ≠ IndexNotation.placeholder) :
    Respelled role (.name id p) (.name (canonicalIndex id) p)
  | number {role : Role} (v : Literal) (p : Option Pos) : Respelled role (.number v p) (.number v p)
  | index {role : Role} {b b' : Expr} {is is' : List Expr} (p : Option Pos) (hb : Respelled .operand b b')
    (his : List.Forall₂ (Respelled .entry) is is') : Respelled role (.index b is p) (.index b' is' p)
  | field {role : Role} {b b' : Expr} (n : String) (p : Option Pos) (hb : Respelled .operand b b') :
    Respelled role (.field b n p) (.field b' n p)
  | call {role : Role} {args args' : List Expr} (f : String) (p : Option Pos)
    (hargs : List.Forall₂ (Respelled .operand) args args') : Respelled role (.call f args p) (.call f args' p)
  | binary {role : Role} {l l' r r' : Expr} (op : BinaryOp) (p : Option Pos) (hl : Respelled .operand l l')
    (hr : Respelled .operand r r') : Respelled role (.binary l op r p) (.binary l' op r' p)
  | unary {role : Role} {x x' : Expr} (op : UnaryOp) (p : Option Pos) (hx : Respelled .operand x x') :
    Respelled role (.unary op x p) (.unary op x' p)

/-- The parts of a node, each with its role. -/
def parts : Expr → List (Role × Expr)
  | index b is _ => (.operand, b) :: is.map (.entry, ·)
  | call _ xs _ | compare xs _ => xs.map (.operand, ·)
  | binary l _ r _ => [(.operand, l), (.operand, r)]
  | field x _ _ | unary _ x _ | first x _ | keyword _ x _ => [(.operand, x)]
  | target _ is _ => is.map (.entry, ·)
  | name .. | number .. | hole => []

/-- `x` is `y` or stands in it, at any depth. -/
inductive Occurs (x : Role × Expr) : Role × Expr → Prop
  | self : Occurs x x
  | inside {y z : Role × Expr} (hy : y ∈ z.2.parts) (h : Occurs x y) : Occurs x z

/-- The canonical form of a tree in its role. -/
def canonicalAt : Role → Expr → Expr
  | .entry, name id p => if id == placeholder then number (.int 0) p else canonicalName id p
  | _, e => e.canonical

theorem canonicalEntries_eq (es : List Expr) : canonicalEntries es = es.map (canonicalAt .entry) := by
  induction es with
  | nil => rfl
  | cons e es ih =>
    cases e <;> rw [canonicalEntries, List.map_cons, ih] <;> simp [canonicalAt]

theorem canonicalArgs_eq (es : List Expr) : canonicalArgs es = es.map (canonicalAt .operand) := by
  induction es with
  | nil => rfl
  | cons e es ih =>
    rw [canonicalArgs, List.map_cons, ih]
    rfl

section

variable (role : Role) (p : Option Pos)

theorem canonicalName_eq (id : String) : canonicalName id p = name (canonicalIndex id) p := by
  unfold canonicalName
  split
  · rfl
  · rename_i h
    rw [canonicalIndex_of_not_endsPrimed (Bool.not_eq_true _ ▸ h)]

theorem canonicalAt_placeholder : canonicalAt .entry (name placeholder p) = number (.int 0) p := rfl

theorem canonicalAt_name {id : String} (h : role = .entry → id ≠ placeholder) :
    canonicalAt role (name id p) = name (canonicalIndex id) p := by
  cases role with
  | entry => simp [canonicalAt, canonicalName_eq, h rfl]
  | operand => exact canonicalName_eq p id

theorem canonicalAt_number (v : Literal) : canonicalAt role (number v p) = number v p := by
  cases role <;> rfl

theorem canonicalAt_index (b : Expr) (is : List Expr) : canonicalAt role (index b is p) =
    index (canonicalAt .operand b) (is.map (canonicalAt .entry)) p := by
  rw [← canonicalEntries_eq]
  cases role <;> rfl

theorem canonicalAt_field (b : Expr) (n : String) :
    canonicalAt role (field b n p) = field (canonicalAt .operand b) n p := by
  cases role <;> rfl

theorem canonicalAt_call (f : String) (args : List Expr) :
    canonicalAt role (call f args p) = call f (args.map (canonicalAt .operand)) p := by
  rw [← canonicalArgs_eq]
  cases role <;> rfl

theorem canonicalAt_binary (l : Expr) (op : BinaryOp) (r : Expr) : canonicalAt role (binary l op r p) =
    binary (canonicalAt .operand l) op (canonicalAt .operand r) p := by
  cases role <;> rfl

theorem canonicalAt_unary (op : UnaryOp) (x : Expr) :
    canonicalAt role (unary op x p) = unary op (canonicalAt .operand x) p := by
  cases role <;> rfl

end

theorem respelled_map {role : Role} {es : List Expr} (h : ∀ e ∈ es, Respelled role e (canonicalAt role e)) :
    List.Forall₂ (Respelled role) es (es.map (canonicalAt role)) :=
  List.forall₂_map_right_iff.2 (List.forall₂_same.2 h)

/-- The canonical form is another spelling. -/
theorem Proper.respelled {e : Expr} (h : e.Proper) (role : Role) : Respelled role e (canonicalAt role e) := by
  induction h generalizing role with
  | name id p =>
    by_cases hid : role = .entry ∧ id = placeholder
    · obtain ⟨rfl, rfl⟩ := hid
      rw [canonicalAt_placeholder]
      exact .placeholder p
    · rw [canonicalAt_name role p (not_and.1 hid)]
      exact .name p (not_and.1 hid)
  | number v p =>
    rw [canonicalAt_number]
    exact .number v p
  | index hb his ihb ihis =>
    rw [canonicalAt_index]
    exact .index _ (ihb .operand) (respelled_map fun i hi => ihis i hi .entry)
  | field hb ih =>
    rw [canonicalAt_field]
    exact .field _ _ (ih .operand)
  | call hargs ih =>
    rw [canonicalAt_call]
    exact .call _ _ (respelled_map fun a ha => ih a ha .operand)
  | binary hl hr ihl ihr =>
    rw [canonicalAt_binary]
    exact .binary _ _ (ihl .operand) (ihr .operand)
  | unary hx ih =>
    rw [canonicalAt_unary]
    exact .unary _ _ (ih .operand)

/-! ## Trees in canonical form -/

/-- Trees whose names are all canonical, without placeholders among the entries of an index list. -/
inductive Canonical : Role → Expr → Prop
  | name {role : Role} {id : String} {p : Option Pos} (hid : endsPrimed id = false)
    (h : role = .entry → id ≠ placeholder) : Canonical role (.name id p)
  | number {role : Role} {v : Literal} {p : Option Pos} : Canonical role (.number v p)
  | index {role : Role} {b : Expr} {is : List Expr} {p : Option Pos} (hb : Canonical .operand b)
    (his : ∀ i ∈ is, Canonical .entry i) : Canonical role (.index b is p)
  | field {role : Role} {b : Expr} {n : String} {p : Option Pos} (hb : Canonical .operand b) :
    Canonical role (.field b n p)
  | call {role : Role} {f : String} {args : List Expr} {p : Option Pos}
    (hargs : ∀ a ∈ args, Canonical .operand a) : Canonical role (.call f args p)
  | binary {role : Role} {l r : Expr} {op : BinaryOp} {p : Option Pos} (hl : Canonical .operand l)
    (hr : Canonical .operand r) : Canonical role (.binary l op r p)
  | unary {role : Role} {op : UnaryOp} {x : Expr} {p : Option Pos} (hx : Canonical .operand x) :
    Canonical role (.unary op x p)

/-- One pass reaches the canonical form. -/
theorem Proper.canonical_canonicalAt {e : Expr} (h : e.Proper) (role : Role) : Canonical role (canonicalAt role e) := by
  induction h generalizing role with
  | name id p =>
    by_cases hid : role = .entry ∧ id = placeholder
    · obtain ⟨rfl, rfl⟩ := hid
      rw [canonicalAt_placeholder]
      exact .number
    · rw [canonicalAt_name role p (not_and.1 hid)]
      exact .name (endsPrimed_canonicalIndex id) fun hrole hplace =>
        hid ⟨hrole, canonicalIndex_eq_placeholder hplace⟩
  | number v p =>
    rw [canonicalAt_number]
    exact .number
  | index hb his ihb ihis =>
    rw [canonicalAt_index]
    exact .index (ihb .operand) (List.forall_mem_map.2 fun i hi => ihis i hi .entry)
  | field hb ih =>
    rw [canonicalAt_field]
    exact .field (ih .operand)
  | call hargs ih =>
    rw [canonicalAt_call]
    exact .call (List.forall_mem_map.2 fun a ha => ih a ha .operand)
  | binary hl hr ihl ihr =>
    rw [canonicalAt_binary]
    exact .binary (ihl .operand) (ihr .operand)
  | unary hx ih =>
    rw [canonicalAt_unary]
    exact .unary (ih .operand)

/-- Nothing is left to do for a tree in canonical form. -/
theorem Canonical.fixed {role : Role} {e : Expr} (h : Canonical role e) : canonicalAt role e = e := by
  induction h with
  | name hid h => rw [canonicalAt_name _ _ h, canonicalIndex_of_not_endsPrimed hid]
  | number => exact canonicalAt_number ..
  | index hb his ihb ihis => rw [canonicalAt_index, ihb, List.map_congr_left ihis, List.map_id']
  | field hb ih => rw [canonicalAt_field, ih]
  | call hargs ih => rw [canonicalAt_call, List.map_congr_left ih, List.map_id']
  | binary hl hr ihl ihr => rw [canonicalAt_binary, ihl, ihr]
  | unary hx ih => rw [canonicalAt_unary, ih]

theorem Canonical.part {role : Role} {e : Expr} (h : Canonical role e) {x : Role × Expr} (hx : x ∈ e.parts) :
    Canonical x.1 x.2 := by
  cases h with
  | name | number => cases hx
  | index hb his =>
    rcases List.mem_cons.1 hx with rfl | hx
    · exact hb
    · obtain ⟨i, hi, rfl⟩ := List.mem_map.1 hx
      exact his i hi
  | call hargs =>
    obtain ⟨a, ha, rfl⟩ := List.mem_map.1 hx
    exact hargs a ha
  | binary hl hr =>
    rcases List.mem_pair.1 hx with rfl | rfl
    · exact hl
    · exact hr
  | field hx' | unary hx' =>
    obtain rfl := List.mem_singleton.1 hx
    exact hx'

/-- Whatever stands in a tree in canonical form is in canonical form. -/
theorem Canonical.occurs {x y : Role × Expr} (h : Occurs x y) (hy : Canonical y.1 y.2) : Canonical x.1 x.2 := by
  induction h with
  | self => exact hy
  | inside hpart _ ih => exact ih (hy.part hpart)

theorem Canonical.name? {role : Role} {e : Expr} (h : Canonical role e) {id : String} (hid : e.name? = some id) :
    endsPrimed id = false ∧ (role = .entry → id ≠ placeholder) := by
  cases h with
  | name hprimed hplace =>
    cases hid
    exact ⟨hprimed, hplace⟩
  | _ => cases hid

end Expr

/-! ## What the parser returns -/

/-- The expressions of a phrase are expressions proper. Items of clauses are left out. -/
def Phrase.Proper : Phrase → Prop
  | expr _ x => x.expr.Proper
  | list xs => ∀ x ∈ xs, x.Proper
  | item _ | items _ => True

theorem Derives.proper {ph : Phrase} {c c' : Cursor} (h : Derives ph c c') : ph.Proper := by
  induction h with
  | product _ ih | unary _ ih | power _ ih | access _ ih | atom _ ih | paren _ _ _ ih => exact ih
  | add _ _ _ ih₁ ih₂ | mul _ _ _ ih₁ ih₂ | pow _ _ _ ih₁ ih₂ => exact .binary ih₁ ih₂
  | sign _ _ ih => exact .unary ih
  | index _ _ _ _ ih₁ ih₂ => exact .index ih₁ ih₂
  | field _ _ _ ih => exact .field ih
  | number => exact .number _ _
  | name => exact .name _ _
  | call _ _ _ _ ih => exact .call ih
  | callNone => exact .call (List.forall_mem_nil _)
  | one _ ih => exact List.forall_mem_singleton.2 ih
  | cons _ _ _ ih₁ ih₂ => exact List.forall_mem_cons.2 ⟨ih₁, ih₂⟩
  | plain | atMost | between | keyword | done | more => trivial

theorem Expr.readingAll_eq (es : List Expr) : reading.readingAll es = es.map reading := by
  induction es with
  | nil => rfl
  | cons e es ih => rw [reading.readingAll, ih, List.map_cons]

/-- Reading the number texts of a tree does not change what it is made of. -/
theorem Expr.Proper.reading {e : Expr} (h : e.Proper) : e.reading.Proper := by
  induction h with
  | name id p => exact .name id p
  | number v p => exact .number _ p
  | index hb his ihb ihis =>
    rw [Expr.reading, readingAll_eq]
    exact .index ihb (List.forall_mem_map.2 ihis)
  | field hb ih => exact .field ih
  | call hargs ih =>
    rw [Expr.reading, readingAll_eq]
    exact .call (List.forall_mem_map.2 ih)
  | binary hl hr ihl ihr => exact .binary ihl ihr
  | unary hx ih => exact .unary ih

namespace Statement

/-- The trees of a statement outside of its clauses, with their roles: the entries on the left, and the
right-hand side. -/
def trees (s : Statement) : List (Role × Expr) :=
  (.operand, s.rhs) :: s.target.indices.map (.entry, ·)

/-- The trees outside of the clauses are expressions proper. -/
structure Proper (s : Statement) : Prop where
  indices : ∀ i ∈ s.target.indices, i.Proper
  rhs : s.rhs.Proper

theorem proper_of_spells {text : String} {s : Statement} (h : Spells text s) : s.Proper := by
  have htarget {t : Target} {c c' : Cursor} (h : DerivesTarget t c c') : ∀ i ∈ t.indices, i.Proper := by
    obtain ⟨-, -, hxs, -⟩ := h
    rcases hxs with ⟨rfl, -⟩ | hxs
    · exact List.forall_mem_nil _
    · exact hxs.proper
  cases h with
  | plain ht _ _ hrhs _ => exact ⟨htarget ht, hrhs.proper⟩
  | reduced ht _ _ hrhs _ _ => exact ⟨htarget ht, hrhs.proper⟩

theorem Proper.reading {s : Statement} (h : s.Proper) : s.reading.Proper where
  indices := by
    intro i hi
    rw [Statement.reading, Expr.readingAll_eq] at hi
    obtain ⟨j, hj, rfl⟩ := List.mem_map.1 hi
    exact (h.indices j hj).reading
  rhs := h.rhs.reading

/-- An update puts the target in front of its right-hand side. -/
theorem Proper.desugar {s : Statement} (h : s.Proper) : s.desugar.Proper := by
  unfold Statement.desugar
  split
  · exact h
  · exact ⟨h.indices, .binary (.index (.name _ _) h.indices) h.rhs⟩

theorem proper_of_parse {source : String} {s : Statement} (h : parse source = .ok s) : s.Proper := by
  rcases hs : Grammar.statement (fuelFor source) source with c | t
  · rw [parse_eq_unexpected hs] at h
    cases h
  · obtain ⟨-, -, rfl⟩ := (parse_eq_ok_iff hs).1 h
    exact (proper_of_spells (statement_eq_ok_iff.1 hs).1).reading.desugar

theorem canonical_indices (s : Statement) :
    s.canonical.target.indices = s.target.indices.map (Expr.canonicalAt .entry) :=
  Expr.canonicalEntries_eq _

/-- The trees of the canonical form are in canonical form. -/
theorem Proper.canonical {s : Statement} (h : s.Proper) {t : Role × Expr} (ht : t ∈ s.canonical.trees) :
    Expr.Canonical t.1 t.2 := by
  rcases List.mem_cons.1 ht with rfl | ht
  · exact h.rhs.canonical_canonicalAt .operand
  · rw [canonical_indices, List.map_map] at ht
    obtain ⟨i, hi, rfl⟩ := List.mem_map.1 ht
    exact (h.indices i hi).canonical_canonicalAt .entry

/-- A statement whose trees are in canonical form is its own canonical form. -/
theorem canonical_eq_self {s : Statement} (h : ∀ t ∈ s.trees, Expr.Canonical t.1 t.2) : s.canonical = s := by
  obtain ⟨hrhs, hindices⟩ := List.forall_mem_cons.1 h
  have hfixed : Expr.canonicalEntries s.target.indices = s.target.indices := by
    rw [Expr.canonicalEntries_eq]
    refine (List.map_congr_left fun i hi => ?_).trans (List.map_id' _)
    exact (List.forall_mem_map.1 hindices i hi).fixed
  have hrhs' : s.rhs.canonical = s.rhs := hrhs.fixed
  rw [Statement.canonical, hfixed, hrhs']

/-- **One pass reaches the canonical form.** For every statement that the parser returns, only the entries of
the target and the right-hand side change; they keep their shape and all positions, with names respelled and
zeros in place of placeholders among index entries. In the result no index entry is a placeholder at any depth
and no name ends in an apostrophe; names with different numbers of apostrophes stay different; and another pass
changes nothing. -/
theorem canonical_form {source : String} {s : Statement} (h : parse source = .ok s) :
    (∃ indices rhs, s.canonical = { s with target := { s.target with indices }, rhs } ∧
      List.Forall₂ (Expr.Respelled .entry) s.target.indices indices ∧ Expr.Respelled .operand s.rhs rhs) ∧
    (∀ t ∈ s.canonical.trees, ∀ role e, Expr.Occurs (role, e) t → ∀ id, e.name? = some id →
      endsPrimed id = false ∧ (role = .entry → id ≠ placeholder)) ∧
    (∀ stem k m, endsPrimed stem = false →
      (canonicalIndex (stem ++ apostrophes k) = canonicalIndex (stem ++ apostrophes m) ↔ k = m)) ∧
    s.canonical.canonical = s.canonical := by
  have hproper := proper_of_parse h
  refine ⟨⟨_, _, rfl, ?_, hproper.rhs.respelled .operand⟩, fun t ht role e hocc id hid => ?_, ?_, ?_⟩
  · rw [Expr.canonicalEntries_eq]
    exact Expr.respelled_map fun i hi => (hproper.indices i hi).respelled .entry
  · exact (Expr.Canonical.occurs hocc (hproper.canonical ht)).name? hid
  · exact fun stem k m hstem => canonicalIndex_append_inj hstem
  · exact canonical_eq_self fun t ht => hproper.canonical ht

/-- Placeholders and primed names inside of calls, indices of indices and an update. On its own, `_` is a
name as any other. -/
theorem canonical_form_nested :
    ∃ s, parse "A[i\x27, _] += B[C[_], f(i\x27\x27)] * _" = .ok s ∧
      s.canonical.text = "A[i′, 0] = A[i′, 0] + B[C[0], f(i′′)] * _" ∧
      (∀ t ∈ s.canonical.trees, ∀ role e, Expr.Occurs (role, e) t → ∀ id, e.name? = some id →
        endsPrimed id = false ∧ (role = .entry → id ≠ placeholder)) ∧
      s.canonical.canonical = s.canonical := by
  have htext : (parse "A[i\x27, _] += B[C[_], f(i\x27\x27)] * _").toOption.map (·.canonical.text) =
      some "A[i′, 0] = A[i′, 0] + B[C[0], f(i′′)] * _" := by decide +kernel
  cases hs : parse "A[i\x27, _] += B[C[_], f(i\x27\x27)] * _" with
  | error e =>
    rw [hs] at htext
    cases htext
  | ok s =>
    rw [hs] at htext
    obtain ⟨-, hnames, -, hagain⟩ := canonical_form hs
    exact ⟨s, rfl, Option.some.inj htext, hnames, hagain⟩

end Statement

end IndexNotation
