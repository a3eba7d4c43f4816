import IndexNotation.Proofs.Clauses
import IndexNotation.Proofs.Lookups
import IndexNotation.Proofs.References

/-!
# The order of a reduction that lists no index

If no index is listed, the loops over the values of a cell come in the order in which their indices
are collected. A bracket is collected before the brackets inside it, so a name that stands in a bracket
comes before those of an index array to the left of it: the order is that of reading the right-hand side
with the plain names of every bracket in front of its other entries.
-/

namespace IndexNotation

namespace Expr

/-- The names in the brackets of an expression as one reads them, from left to right: those in what is
in front of a bracket, then its entries, each a name or an expression with brackets of its own. -/
def indexReads : Expr → List String
  | index b is _ => indexReads b ++ entryReads is
  | field b _ _ => indexReads b
  | call _ args _ => argReads args
  | binary l _ r _ => indexReads l ++ indexReads r
  | unary _ x _ => indexReads x
  | _ => []
where
  entryReads : List Expr → List String
    | [] => []
    | e :: es => (e.name?.map ([·])).getD (indexReads e) ++ entryReads es
  argReads : List Expr → List String
    | [] => []
    | e :: es => indexReads e ++ argReads es

/-- The same expression with the plain names of every bracket moved in front of its other entries. -/
def hoisted : Expr → Expr
  | index b is p => index (hoisted b) (is.filter isName ++ (hoistedAll is).filter (!·.isName)) p
  | field b n p => field (hoisted b) n p
  | call f args p => call f (hoistedAll args) p
  | binary l op r p => binary (hoisted l) op (hoisted r) p
  | unary op x p => unary op (hoisted x) p
  | e => e
where
  hoistedAll : List Expr → List Expr
    | [] => []
    | e :: es => hoisted e :: hoistedAll es

/-- In no bracket does a plain name stand behind an entry that has names in brackets of its own. -/
def NamesLead (e : Expr) : Prop :=
  ∀ base keys, Refers base keys e → ∀ front k back, keys = front ++ k :: back → k.indexReads ≠ [] →
    symbolNames back = []

theorem indexReads_of_isName {e : Expr} (h : e.isName = true) : e.indexReads = [] := by
  cases e <;> first | rfl | cases h

theorem entryReads_append (as bs : List Expr) :
    indexReads.entryReads (as ++ bs) = indexReads.entryReads as ++ indexReads.entryReads bs := by
  induction as with
  | nil => rfl
  | cons a as ih => rw [List.cons_append, indexReads.entryReads, indexReads.entryReads, ih, List.append_assoc]

/-- Entries that are all names are read as they are. -/
theorem entryReads_filter_isName (es : List Expr) :
    indexReads.entryReads (es.filter isName) = symbolNames es := by
  induction es with
  | nil => rfl
  | cons e es ih =>
    cases hname : e.name? with
    | some id =>
      rw [List.filter_cons_of_pos (by rw [isName, hname, Option.isSome_some]), indexReads.entryReads, ih, hname]
      exact (List.filterMap_cons_some hname).symm
    | none =>
      rw [List.filter_cons_of_neg (by simp [isName, hname]), ih]
      exact (List.filterMap_cons_none hname).symm

/-- Of other entries, the brackets are read. -/
theorem entryReads_filter_not_isName (es : List Expr) :
    indexReads.entryReads (es.filter (!·.isName)) = indexReads.argReads es := by
  induction es with
  | nil => rfl
  | cons e es ih =>
    cases h : e.isName with
    | true =>
      rw [List.filter_cons_of_neg (by simp [h]), ih, indexReads.argReads, indexReads_of_isName h, List.nil_append]
    | false =>
      have hname : e.name? = none := by simpa [isName] using h
      rw [List.filter_cons_of_pos (by simp [h]), indexReads.entryReads, indexReads.argReads, ih, hname]
      rfl

/-- Where names lead, they are read before all else. -/
theorem entryReads_of_lead {es : List Expr} (h : ∀ front k back, es = front ++ k :: back → k.indexReads ≠ [] →
    symbolNames back = []) : indexReads.entryReads es = symbolNames es ++ indexReads.argReads es := by
  induction es with
  | nil => rfl
  | cons e es ih =>
    have ih := ih fun front k back hes hk => h (e :: front) k back (by rw [hes, List.cons_append]) hk
    rw [indexReads.entryReads, indexReads.argReads, ih]
    cases hname : e.name? with
    | some id =>
      rw [indexReads_of_isName (by rw [isName, hname, Option.isSome_some])]
      simp [symbolNames, hname]
    | none =>
      rw [show symbolNames (e :: es) = symbolNames es from List.filterMap_cons_none hname]
      by_cases hreads : e.indexReads = []
      · simp [hreads]
      · simp [h [] e es rfl hreads]

/-- The names that a bracket, and all that is in front of it and inside it, contribute. -/
theorem symbols_references_index (b : Expr) (is : List Expr) (p : Option Pos) :
    (index b is p).references.flatMap Reference.symbols = b.references.flatMap Reference.symbols ++
      (symbolNames is ++ (references.allReferences is).flatMap Reference.symbols) := by
  rw [references, List.flatMap_append, List.flatMap_append, List.append_assoc, List.flatMap_singleton]
  rfl

mutual

/-- Indices are collected in the order in which the hoisted expression is read. -/
theorem symbols_references (e : Expr) : e.references.flatMap Reference.symbols = e.hoisted.indexReads := by
  cases e with
  | index b is p =>
    rw [symbols_references_index, symbols_references b, symbols_allReferences is, hoisted, indexReads,
      entryReads_append, entryReads_filter_isName, entryReads_filter_not_isName]
  | field b n p => rw [references, symbols_references b, hoisted, indexReads]
  | call f args p => rw [references, symbols_allReferences args, hoisted, indexReads]
  | binary l op r p =>
    rw [references, List.flatMap_append, symbols_references l, symbols_references r, hoisted, indexReads]
  | unary op x p => rw [references, symbols_references x, hoisted, indexReads]
  | _ => rfl

theorem symbols_allReferences (es : List Expr) :
    (references.allReferences es).flatMap Reference.symbols = indexReads.argReads (hoisted.hoistedAll es) := by
  cases es with
  | nil => rfl
  | cons e es =>
    rw [references.allReferences, List.flatMap_append, symbols_references e, symbols_allReferences es,
      hoisted.hoistedAll, indexReads.argReads]

end

theorem entryReads_perm (es : List Expr) :
    (indexReads.entryReads es).Perm (symbolNames es ++ indexReads.argReads es) := by
  induction es with
  | nil => exact .refl _
  | cons e es ih =>
    rw [indexReads.entryReads, indexReads.argReads]
    cases hname : e.name? with
    | some id =>
      rw [indexReads_of_isName (by rw [isName, hname, Option.isSome_some])]
      simpa [symbolNames, hname] using ih
    | none =>
      rw [show symbolNames (e :: es) = symbolNames es from List.filterMap_cons_none hname]
      refine (ih.append_left _).trans ?_
      simpa using List.perm_append_comm_assoc _ _ _

mutual

/-- Hoisting moves names, and loses none. -/
theorem indexReads_hoisted_perm (e : Expr) : e.hoisted.indexReads.Perm e.indexReads := by
  cases e with
  | index b is p =>
    rw [hoisted, indexReads, indexReads, entryReads_append, entryReads_filter_isName,
      entryReads_filter_not_isName]
    exact (indexReads_hoisted_perm b).append
      (((argReads_hoistedAll_perm is).append_left _).trans (entryReads_perm is).symm)
  | field b n p => exact indexReads_hoisted_perm b
  | call f args p => exact argReads_hoistedAll_perm args
  | binary l op r p => exact (indexReads_hoisted_perm l).append (indexReads_hoisted_perm r)
  | unary op x p => exact indexReads_hoisted_perm x
  | _ => exact .refl _

theorem argReads_hoistedAll_perm (es : List Expr) :
    (indexReads.argReads (hoisted.hoistedAll es)).Perm (indexReads.argReads es) := by
  cases es with
  | nil => exact .refl _
  | cons e es => exact (indexReads_hoisted_perm e).append (argReads_hoistedAll_perm es)

end

mutual

/-- Where names lead in every bracket, hoisting changes nothing of the order. -/
theorem indexReads_hoisted {e : Expr} (h : e.NamesLead) : e.hoisted.indexReads = e.indexReads := by
  cases e with
  | index b is p =>
    rw [hoisted, indexReads, indexReads, entryReads_append, entryReads_filter_isName,
      entryReads_filter_not_isName, entryReads_of_lead (h b is (.here p)),
      indexReads_hoisted fun base keys hb => h base keys (.base is p hb),
      argReads_hoistedAll fun e he base keys hk => h base keys (.key b p he hk)]
  | field b n p =>
    rw [hoisted, indexReads, indexReads, indexReads_hoisted fun base keys hb => h base keys (.field n p hb)]
  | call f args p => exact argReads_hoistedAll fun e he base keys hk => h base keys (.arg f p he hk)
  | binary l op r p =>
    rw [hoisted, indexReads, indexReads, indexReads_hoisted fun base keys hl => h base keys (.left op r p hl),
      indexReads_hoisted fun base keys hr => h base keys (.right l op p hr)]
  | unary op x p =>
    rw [hoisted, indexReads, indexReads, indexReads_hoisted fun base keys hx => h base keys (.operand op p hx)]
  | _ => rfl

theorem argReads_hoistedAll {es : List Expr} (h : ∀ e ∈ es, e.NamesLead) :
    indexReads.argReads (hoisted.hoistedAll es) = indexReads.argReads es := by
  cases es with
  | nil => rfl
  | cons e es =>
    rw [hoisted.hoistedAll, indexReads.argReads, indexReads.argReads, indexReads_hoisted (h e (.head _)),
      argReads_hoistedAll fun e' he' => h e' (.tail _ he')]

end

end Expr

/-! ## First occurrences -/

/-- The names stand in the order in which they first occur in what is read. -/
def FirstOccurrence (read names : List String) : Prop :=
  names.Pairwise fun i j => read.idxOf i < read.idxOf j

/-- Leaving out other names does not change which of two names comes first. -/
theorem idxOf_lt_of_filter {p : String → Bool} {i j : String} (hi : p i = true) (hj : p j = true) {l : List String}
    (h : (l.filter p).idxOf i < (l.filter p).idxOf j) : l.idxOf i < l.idxOf j := by
  induction l with
  | nil => simp at h
  | cons a l ih =>
    cases ha : p a with
    | true =>
      rw [List.filter_cons_of_pos ha] at h
      by_cases hai : a = i
      · by_cases haj : a = j
        · simp [← hai, ← haj] at h
        · simp [hai, hai ▸ haj]
      · by_cases haj : a = j
        · simp [List.idxOf_cons, haj] at h
        · simp only [List.idxOf_cons, beq_false_of_ne hai, beq_false_of_ne haj, cond_false,
            Nat.add_lt_add_iff_right] at h ⊢
          exact ih h
    | false =>
      have hai : a ≠ i := fun e => by simp [e, hi] at ha
      have haj : a ≠ j := fun e => by simp [e, hj] at ha
      rw [List.filter_cons_of_neg (by simp [ha])] at h
      simpa [List.idxOf_cons, hai, haj] using ih h

theorem firstOccurrence_eraseDups (l : List String) : FirstOccurrence l l.eraseDups := by
  induction hn : l.length using Nat.strong_induction_on generalizing l with
  | _ n ih =>
    cases l with
    | nil => exact .nil
    | cons a l =>
      rw [FirstOccurrence, List.eraseDups_cons]
      have hlt : (l.filter (!· == a)).length < n := by
        rw [← hn, List.length_cons]
        exact Nat.lt_succ_of_le (List.length_filter_le _ _)
      have hne {i : String} (hi : i ∈ (l.filter (!· == a)).eraseDups) : i ≠ a := by
        simpa using (List.mem_filter.1 (List.mem_eraseDups.1 hi)).2
      refine .cons (fun i hi => ?_) ((ih _ hlt _ rfl).imp_of_mem fun {i j} hi hj hij => ?_)
      · simp [(hne hi).symm]
      · simp only [List.idxOf_cons, beq_false_of_ne (hne hi).symm, beq_false_of_ne (hne hj).symm, cond_false,
          Nat.add_lt_add_iff_right]
        exact idxOf_lt_of_filter (by simpa using hne hi) (by simpa using hne hj) hij

namespace Kernel

/-- A clause that lists no index leaves the order to the right-hand side. -/
theorem Planned.order_of_unlisted {k : Kernel} {read : Reduction.Partial} (hk : k.Planned read)
    (hlist : ∀ clause, k.statement.reduction = some clause →
      ∀ e ∈ clause.items, ∀ i bound, ¬ Reduction.Says e (.index i bound)) :
    k.analysis.reduction.order = k.analysis.impliedReduction := by
  rw [hk.order_eq, if_pos]
  have hclause := hk.clause
  cases hred : k.statement.reduction with
  | none =>
    rw [hred] at hclause
    rw [← (Prod.mk.inj hclause).1]
    rfl
  | some clause =>
    rw [hred] at hclause
    obtain ⟨-, items, hspell, -⟩ := (Reduction.read_iff _).1 ⟨read, hclause⟩
    rw [(Reduction.read_describes hclause hspell).1.order, List.filterMap_eq_nil_iff]
    intro item hitem
    obtain ⟨n, hn, rfl⟩ := List.getElem_of_mem hitem
    have hlen := hspell.length_eq
    have hsay := hspell.get (hlen ▸ hn) hn
    cases hi : items[n] with
    | index i bound =>
      rw [List.get_eq_getElem, List.get_eq_getElem, hi] at hsay
      exact absurd hsay (hlist clause hred _ (List.getElem_mem _) i bound)
    | _ => rfl

/-- **The order of a reduction that lists no index.** Its indices are the names in the brackets of the
right-hand side that the left-hand side does not have, each once, in the order of their first
occurrence when the right-hand side is read with the plain names of every bracket in front of its other
entries. This is the order of first occurrence from left to right if no plain name stands behind an entry
with names in brackets of its own. -/
theorem reductionIndices_hoisted {config : Config} {source : String} {k : Kernel} (hk : Compiles config source k)
    (hlist : ∀ clause, k.statement.reduction = some clause →
      ∀ e ∈ clause.items, ∀ i bound, ¬ Reduction.Says e (.index i bound)) :
    (∀ i, i ∈ k.reductionIndices ↔ i ∈ k.statement.rhs.indexReads ∧ i ∉ k.outputIndices) ∧
    FirstOccurrence k.statement.rhs.hoisted.indexReads k.reductionIndices ∧
    (k.statement.rhs.NamesLead → FirstOccurrence k.statement.rhs.indexReads k.reductionIndices) := by
  obtain ⟨-, read, hplan⟩ := hk.planned
  have hindices : k.analysis.collection.indices = k.statement.rhs.hoisted.indexReads := by
    rw [hplan.collection, ← Expr.symbols_references]
    rfl
  have hfirst : FirstOccurrence k.statement.rhs.hoisted.indexReads k.reductionIndices := by
    rw [hplan.reductionIndices_eq, hplan.order_of_unlisted hlist, Analysis.impliedReduction, hindices]
    exact (firstOccurrence_eraseDups _).filter _
  refine ⟨fun i => ?_, hfirst, fun hlead => Expr.indexReads_hoisted hlead ▸ hfirst⟩
  rw [hplan.reductionIndices_eq, hplan.order_of_unlisted hlist, Analysis.impliedReduction, hindices,
    List.mem_filter, List.mem_eraseDups, (Expr.indexReads_hoisted_perm _).mem_iff]
  simp [Kernel.outputIndices]

/-- An index array, a field and a call, with a clause that has an operator only. -/
theorem reductionIndices_hoisted_nested : ∃ k, Compiles {} "A[i] := X[i, J[k], j] * exp(Y[l].row[m]) (max)" k ∧
    k.statement.reduction.isSome ∧ k.statement.rhs.hoisted.indexReads = ["i", "j", "k", "l", "m"] ∧
    (∀ i, i ∈ k.reductionIndices ↔ i ∈ ["i", "k", "j", "l", "m"] ∧ i ∉ ["i"]) ∧
    FirstOccurrence ["i", "j", "k", "l", "m"] k.reductionIndices := by
  obtain ⟨k, hk, hcheck⟩ := exists_compiles {} "A[i] := X[i, J[k], j] * exp(Y[l].row[m]) (max)" (fun k =>
    k.statement.reduction.any (·.items.isEmpty) && k.outputIndices == ["i"] &&
      k.statement.rhs.indexReads == ["i", "k", "j", "l", "m"] &&
      k.statement.rhs.hoisted.indexReads == ["i", "j", "k", "l", "m"]) (by decide +kernel)
  simp only [Bool.and_eq_true, beq_iff_eq, Option.any_eq_true] at hcheck
  obtain ⟨⟨⟨⟨clause, hclause, hitems⟩, hout⟩, hreads⟩, hhoisted⟩ := hcheck
  obtain ⟨hmem, hfirst, -⟩ := reductionIndices_hoisted hk fun c hc e he => by
    obtain rfl : clause = c := Option.some.inj (hclause.symm.trans hc)
    rw [List.isEmpty_iff.1 hitems] at he
    cases he
  exact ⟨k, hk, by rw [hclause, Option.isSome_some], hhoisted, hout ▸ hreads ▸ hmem, hhoisted ▸ hfirst⟩

/-- The index of an index array comes after a name to the right of it. -/
theorem reductionIndices_behind_index_array : ∃ k, Compiles {} "A[i] := X[i, J[k], j]" k ∧
    k.statement.reduction = none ∧ k.statement.rhs.indexReads = ["i", "k", "j"] ∧
    k.reductionIndices = ["j", "k"] ∧ ¬ FirstOccurrence k.statement.rhs.indexReads k.reductionIndices := by
  obtain ⟨k, hk, hcheck⟩ := exists_compiles {} "A[i] := X[i, J[k], j]" (fun k =>
    k.statement.reduction.isNone && k.statement.rhs.indexReads == ["i", "k", "j"] &&
      k.reductionIndices == ["j", "k"]) (by decide +kernel)
  simp only [Bool.and_eq_true, beq_iff_eq, Option.isNone_iff_eq_none] at hcheck
  obtain ⟨⟨hclause, hreads⟩, hindices⟩ := hcheck
  refine ⟨k, hk, hclause, hreads, hindices, ?_⟩
  rw [hreads, hindices, FirstOccurrence]
  decide

end Kernel
end IndexNotation
