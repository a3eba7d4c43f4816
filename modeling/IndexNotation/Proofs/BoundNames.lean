import IndexNotation.Proofs.RenamedRuns
import Mathlib.Logic.Equiv.Basic

/-!
# Indices are bound names

An index is known by where it stands, not by its name: with another name that is new to the
statement, the statement compiles to the same loops, and these evaluate and store the same, whatever
is supplied under either name. Since the other name is new, to replace the index by it is to exchange
the two.
-/

namespace IndexNotation

open Run (exec)

theorem Expr.relabel_congr {ρ ρ' : String → String} (φ : String → String) {e : Expr} (h : ∀ n ∈ e.names, ρ n = ρ' n) :
    e.relabel ρ φ = e.relabel ρ' φ := by
  cases e with
  | name id p => rfl
  | _ => exact rename_congr h

theorem Expr.renameItem_congr {ρ ρ' : String → String} (φ : String → String) {e : Expr}
    (h : ∀ n ∈ e.names, ρ n = ρ' n) : e.renameItem ρ φ = e.renameItem ρ' φ := by
  have hmem {x : Expr} {xs : List Expr} {p : Option Pos} (he : e = .compare xs p) (hx : x ∈ xs) :
      ∀ n ∈ x.names, ρ n = ρ' n := fun n hn => h n (by rw [he]; exact names_of_mem hx hn)
  unfold renameItem
  split
  · rw [relabel_congr φ (hmem rfl (by simp)), rename_congr (hmem rfl (by simp))]
  · rw [rename_congr (hmem rfl (by simp)), relabel_congr φ (hmem rfl (by simp)), rename_congr (hmem rfl (by simp))]
  · exact relabel_congr φ h

namespace Statement

theorem rename_congr {ρ ρ' : String → String} (φ : String → String) {s : Statement} (h : ∀ n ∈ s.names, ρ n = ρ' n) :
    s.rename ρ φ = s.rename ρ' φ := by
  simp only [names, List.forall_mem_append] at h
  obtain ⟨⟨⟨htarget, hrhs⟩, hreduction⟩, htiling⟩ := h
  have hindices : s.target.indices.map (Expr.rename ρ) = s.target.indices.map (Expr.rename ρ') :=
    List.map_congr_left fun e he => Expr.rename_congr fun n hn => htarget n (List.mem_flatMap.2 ⟨e, he, hn⟩)
  have hclause : s.reduction.map (ReductionClause.rename ρ φ) = s.reduction.map (ReductionClause.rename ρ' φ) := by
    refine Option.map_congr fun c hc => ?_
    have hitems : c.items.map (Expr.renameItem ρ φ) = c.items.map (Expr.renameItem ρ' φ) :=
      List.map_congr_left fun e he => Expr.renameItem_congr φ fun n hn => hreduction n
        (List.mem_flatMap.2 ⟨c, Option.mem_toList.2 hc, List.mem_flatMap.2 ⟨e, he, hn⟩⟩)
    rw [ReductionClause.rename, hitems, ReductionClause.rename]
  have htiles : s.tiling.map (TilingClause.rename ρ φ) = s.tiling.map (TilingClause.rename ρ' φ) := by
    refine Option.map_congr fun c hc => ?_
    have hitems : c.items.map (Expr.relabel ρ φ) = c.items.map (Expr.relabel ρ' φ) :=
      List.map_congr_left fun e he => Expr.relabel_congr φ fun n hn => htiling n
        (List.mem_flatMap.2 ⟨c, Option.mem_toList.2 hc, List.mem_flatMap.2 ⟨e, he, hn⟩⟩)
    rw [TilingClause.rename, hitems, TilingClause.rename]
  rw [rename, hindices, Expr.rename_congr hrhs, hclause, htiles, rename]

end Statement

/-- The name `i` replaced by `j`. -/
def replaceName (i j n : String) : String :=
  if n = i then j else n

/-- A name that spells the index `i`, with apostrophes or without, replaced by `j`. -/
def replaceIndex (i j id : String) : String :=
  if canonicalIndex id = i then j else id

theorem replaceName_of_ne {i j n : String} (h : n ≠ j) : replaceName i j n = Equiv.swap i j n := by
  unfold replaceName
  split
  · rename_i hn
    rw [hn, Equiv.swap_apply_left]
  · rename_i hn
    rw [Equiv.swap_apply_of_ne_of_ne hn h]

theorem canonicalIndex_eq_self {n : String} (h : '\x27' ∉ n.toList) : canonicalIndex n = n := by
  have hdrop : n.toList.reverse.dropWhile (· == '\x27') = n.toList.reverse := by
    refine List.dropWhile_eq_self_iff.2 fun hl hc => h ?_
    rw [← List.mem_reverse, ← eq_of_beq hc]
    exact List.getElem_mem hl
  simp [canonicalIndex, hdrop, String.length_toList]

section

variable {s : Statement} {i j : String} (hi : i ∈ s.outputIndices ∨ s.Indexes i) (houtput : s.target.name ≠ some i)
  (hnew : j ∉ s.names ∧ s.target.name ≠ some j ∧ ∀ id ∈ s.listed, canonicalIndex id ≠ j)

include houtput hnew in
/-- Exchanging an index with a new name is a renaming of the statement. -/
theorem Statement.renamable_swap (hwords : i ≠ "unroll" ∧ i ≠ "tile" ∧ j ≠ "unroll" ∧ j ≠ "tile")
    (hprime : '\x27' ∉ j.toList) : s.Renamable (Equiv.swap i j) (replaceIndex i j) where
  injective := (Equiv.swap i j).injective
  output n hn := Equiv.swap_apply_of_ne_of_ne (fun e => houtput (e ▸ hn)) fun e => hnew.2.1 (e ▸ hn)
  listed id hid := by
    have hword {word : String} (hw : '\x27' ∉ word.toList) (hwi : i ≠ word) (hwj : j ≠ word) :
        replaceIndex i j id = word ↔ id = word := by
      unfold replaceIndex
      split
      · rename_i hid
        refine iff_of_false hwj fun e => hwi ?_
        rw [← hid, e, canonicalIndex_eq_self hw]
      · rfl
    refine ⟨?_, hword (by decide) hwords.1 hwords.2.2.1, hword (by decide) hwords.2.1 hwords.2.2.2⟩
    unfold replaceIndex
    split
    · rename_i hid
      rw [hid, Equiv.swap_apply_left, canonicalIndex_eq_self hprime]
    · rename_i hne
      exact (Equiv.swap_apply_of_ne_of_ne hne (hnew.2.2 id hid)).symm

include hi hnew in
/-- A new name and an index are the only names that are exchanged. -/
theorem Statement.keepsFree_swap :
    KeepsFree (Equiv.swap i j) (s.outputIndices ++ (Collection.ofExpr s.rhs).indices).eraseDups s.names := by
  intro n hn hfree
  refine Equiv.swap_apply_of_ne_of_ne (fun e => hfree ?_) (ne_of_mem_of_not_mem hn hnew.1)
  rw [e, List.mem_eraseDups, List.mem_append]
  exact hi.imp_right Statement.indexes_iff.1

namespace Kernel

/-- **Indices are bound names.** Let `i` be an index of a statement and not its output, and `j` a name that
does not occur in the statement; neither is a word of the clauses, and `j` has no apostrophe. Replace `i`
by `j` everywhere in the statement, in what the clauses list also where it is spelled with apostrophes.
Then the two statements fail to compile with errors of one kind, or compile to the same loops up to
exchanging `i` and `j`. Whatever is supplied, also under these names, runs evaluate and store the same
for the same values of the indices, leave the same world, and give the same result or an error of one
kind. -/
theorem compile_renamed_index (hi : i ∈ s.outputIndices ∨ s.Indexes i) (houtput : s.target.name ≠ some i)
    (hnew : j ∉ s.names ∧ s.target.name ≠ some j ∧ ∀ id ∈ s.listed, canonicalIndex id ≠ j)
    (hwords : i ≠ "unroll" ∧ i ≠ "tile" ∧ j ≠ "unroll" ∧ j ≠ "tile") (hprime : '\x27' ∉ j.toList)
    (config : Config) (source source' : String) (log log' : Log) :
    Likewise (fun k k' =>
        k'.plan = k.plan.rename (Equiv.swap i j) ∧
        k'.symbols = k.symbols.map (IndexSymbol.rename (Equiv.swap i j)) ∧
        (∀ (watch : Access → Run PUnit) (scope : Scope),
          Run.Akin Eq (k.runWatched (fun a => watch (a.rename (Equiv.swap i j))) scope) (k'.runWatched watch scope)) ∧
        ∀ scope : Scope, Run.Akin Eq (k.call scope) (k'.call scope))
      (exec (compileStatement config source s) log).1
      (exec (compileStatement config source' (s.rename (replaceName i j) (replaceIndex i j))) log').1 := by
  have hrenamable := Statement.renamable_swap houtput hnew hwords hprime
  have hrename : s.rename (replaceName i j) (replaceIndex i j) = s.rename (Equiv.swap i j) (replaceIndex i j) :=
    Statement.rename_congr _ fun n hn => replaceName_of_ne (ne_of_mem_of_not_mem hn hnew.1)
  rw [hrename, exec_compileStatement, exec_compileStatement]
  have hlike := compile_likewise hrenamable config source source'
  generalize s.analyse >>= ofAnalysis config source = x,
    (s.rename (Equiv.swap i j) (replaceIndex i j)).analyse >>= ofAnalysis config source' = x' at hlike
  cases hlike with
  | error he => exact .error he
  | @ok k k' h =>
    have hfree : KeepsFree (Equiv.swap i j) k.analysis.indexNames s.names := by
      have hnames : k.analysis.indexNames = (s.outputIndices ++ (Collection.ofExpr s.rhs).indices).eraseDups := by
        rw [Analysis.indexNames, h.collection, ← h.statement]
        rfl
      rw [hnames]
      exact Statement.keepsFree_swap hi hnew
    have hwatched := h.runWatched_akin hrenamable.injective hfree hrenamable.output
    refine .ok ⟨h.plan, h.symbols, hwatched, fun scope => ?_⟩
    have hrun : Run.Akin Eq (k.run scope) (k'.run scope) := by
      rw [← runWatched_silent, ← runWatched_silent]
      exact hwatched (fun _ => pure ⟨⟩) scope
    unfold call
    split
    · exact Run.akin_refl _
    · exact hrun

/-- The indices of the right-hand side get their canonical spelling; what the clauses list stays as it is written. -/
def primedRow : String :=
  "Z[j] := X[j, i\x27] * y[i\x27] (+, i\x27 <= 3) \x7btile(2), i\x27\x7d"

theorem compile_renamed_index_primedRow : ∃ s k k', readStatement primedRow = .ok s ∧ s.Indexes "i′" ∧
    (exec (compileStatement {} primedRow s) []).1 = .ok k ∧
    (exec (compileStatement {} primedRow (s.rename (replaceName "i′" "k") (replaceIndex "i′" "k"))) []).1 = .ok k' ∧
    k'.plan = k.plan.rename (Equiv.swap "i′" "k") ∧
    ∀ scope : Scope, Run.Akin Eq (k.call scope) (k'.call scope) := by
  have hchecks : (readStatement primedRow).toOption.any (fun s =>
      (Collection.ofExpr s.rhs).indices.contains "i′" && s.target.name == some "Z" && !s.names.contains "k" &&
      s.listed == ["i\x27", "i\x27"] && (exec (compileStatement {} primedRow s) []).1.isOk) = true := by
    decide +kernel
  obtain ⟨s, hs, hchecks⟩ := exists_ok_of_any hchecks
  simp only [Bool.and_eq_true, beq_iff_eq, List.contains_iff_mem, Bool.not_eq_true', ← Bool.not_eq_true] at hchecks
  obtain ⟨⟨⟨⟨hi, htarget⟩, hnames⟩, hlisted⟩, hok⟩ := hchecks
  have hi : s.Indexes "i′" := Statement.indexes_iff.2 hi
  have hcanonical : canonicalIndex "i\x27" ≠ "k" := by decide +kernel
  have hlike := compile_renamed_index (.inr hi) (j := "k") (by rw [htarget]; decide)
    ⟨hnames, by rw [htarget]; decide, by rw [hlisted]; simpa using hcanonical⟩ (by decide) (by decide) {}
    primedRow primedRow [] []
  generalize hx : (exec (compileStatement {} primedRow s) []).1 = x,
    hx' : (exec (compileStatement {} primedRow (s.rename (replaceName "i′" "k") (replaceIndex "i′" "k"))) []).1 = x'
    at hok hlike
  cases hlike with
  | error _ => simp [Except.isOk, Except.toBool] at hok
  | @ok k k' h => exact ⟨s, k, k', hs, hi, hx, hx', h.1, h.2.2.2⟩

/-- Where the clauses list an index, it has to be renamed also if it is spelled with apostrophes: renamed
only where it is spelled as on the right-hand side, a statement that compiles becomes one that does not. -/
theorem compile_renamed_as_spelled : ∃ s k e, readStatement "A[j] := X[j, i\x27] (+, i\x27)" = .ok s ∧
    s.Indexes "i′" ∧ s.target.name = some "A" ∧ "k" ∉ s.names ∧
    (exec (compileStatement {} s.source s) []).1 = .ok k ∧
    (exec (compileStatement {} s.source (s.rename (replaceName "i′" "k") (replaceName "i′" "k"))) []).1 = .error e := by
  have hchecks : (readStatement "A[j] := X[j, i\x27] (+, i\x27)").toOption.any (fun s =>
      (Collection.ofExpr s.rhs).indices.contains "i′" && s.target.name == some "A" && !s.names.contains "k" &&
      (exec (compileStatement {} s.source s) []).1.isOk &&
      !(exec (compileStatement {} s.source (s.rename (replaceName "i′" "k") (replaceName "i′" "k"))) []).1.isOk) =
        true := by
    decide +kernel
  obtain ⟨s, hs, hchecks⟩ := exists_ok_of_any hchecks
  simp only [Bool.and_eq_true, beq_iff_eq, List.contains_iff_mem, Bool.not_eq_true', ← Bool.not_eq_true] at hchecks
  obtain ⟨⟨⟨⟨hi, htarget⟩, hnames⟩, hok⟩, herror⟩ := hchecks
  generalize hx : (exec (compileStatement {} s.source s) []).1 = x at hok
  generalize hx' : (exec (compileStatement {} s.source (s.rename (replaceName "i′" "k") (replaceName "i′" "k")))
    []).1 = x' at herror
  cases x with
  | error _ => simp [Except.isOk, Except.toBool] at hok
  | ok k =>
    cases x' with
    | ok _ => simp [Except.isOk, Except.toBool] at herror
    | error e => exact ⟨s, k, e, hs, Statement.indexes_iff.2 hi, htarget, hnames, hx, hx'⟩

end Kernel

end

end IndexNotation
