import IndexNotation.Kernel.Run
import IndexNotation.Proofs.Simulation
import IndexNotation.Proofs.World
import Mathlib.Data.List.Perm.Basic
import Mathlib.Data.List.Dedup

/-!
# What compiling settles

A kernel that compiles has the loops that its statement asks for: one for every index of the
left-hand side, the leftmost innermost, and inside them one for every index of the right-hand side
that is left, in the order that is listed. Every loop has an axis in the catalog.
-/

namespace IndexNotation

open Run (exec)

namespace Kernel

/-- A text compiles to a kernel, whatever the log says before. -/
def Compiles (config : Config) (source : String) (k : Kernel) : Prop :=
  ∃ log log', exec (compile config source) log = (.ok k, log')

/-- A statement that was read from a text compiles to a kernel, whatever the log says before. -/
def CompilesFrom (config : Config) (source : String) (s : Statement) (k : Kernel) : Prop :=
  ∃ log log', exec (compileStatement config source s) log = (.ok k, log')

theorem Compiles.exists_statement {config : Config} {source : String} {k : Kernel}
    (h : Compiles config source k) : ∃ s, readStatement source = .ok s ∧ CompilesFrom config source s k := by
  obtain ⟨log, log', h⟩ := h
  obtain ⟨s, log₁, hs, h⟩ := Run.exec_bind_eq_ok h
  rw [Run.exec_lift] at hs
  exact ⟨s, (Prod.mk.inj hs).1, log₁, log', h⟩

/-- To find out about what a text compiles to, compile it. -/
theorem exists_compiles (config : Config) (source : String) (P : Kernel → Bool)
    (h : (exec (compile config source) []).1.toOption.any P = true) :
    ∃ k, Compiles config source k ∧ P k = true := by
  obtain ⟨k, log, hk, hP⟩ := Run.exists_of_any h
  exact ⟨k, ⟨[], log, hk⟩, hP⟩

/-- What the steps of compiling have found: `read` is what the reduction clause says. -/
structure Planned (k : Kernel) (read : Reduction.Partial) : Prop where
  named : k.statement.allocates = false → ∃ name, k.statement.target.name = some name
  target : checkTarget k.statement = .ok ()
  clause : Reduction.read k.statement.source k.statement.reduction = (read, none)
  tiling : match k.statement.tiling with
    | none => k.analysis.tiling = none
    | some clause => ∃ t, Tiling.read k.statement.source clause = .ok t ∧ k.analysis.tiling = some t
  collection : k.analysis.collection = .ofExpr k.statement.rhs
  catalog : k.analysis.catalog =
    ((Catalog.empty.bindAll read.bounds).bindAll k.analysis.collection.axes).bindAll
      (if k.statement.allocates then [] else k.statement.target.axes)
  settled : Analysis.settleReduction { k.analysis with reduction := read.reduction } =
    .ok k.analysis.reduction
  symbols : k.analysis.symbols k.analysis.reduction = .ok k.symbols
  tiles : k.analysis.checkTiling k.analysis.reduction k.symbols = .ok ()
  plan : k.plan = k.analysis.layout k.analysis.reduction k.config.parallel k.symbols

/-- A statement that makes no new array names one. -/
theorem named_of_readStatement {source : String} {s : Statement} (h : readStatement source = .ok s)
    (hs : s.allocates = false) : ∃ name, s.target.name = some name := by
  obtain ⟨s₁, hparse, hs₁⟩ := bind_eq_ok h
  obtain ⟨s₂, hwritten, hs₂⟩ := bind_eq_ok hparse
  obtain ⟨s₃, -, hbody⟩ := bind_eq_ok hwritten
  obtain ⟨s₄, -, hrest⟩ := bind_eq_ok hbody
  obtain ⟨_, hcheck, hread⟩ := bind_eq_ok hrest
  clear h hparse hwritten hbody hrest
  cases hs₁
  cases hs₂
  have hclauses : s₂.target = s₄.target ∧ s₂.op = s₄.op := by
    cases hclauses : s₄.readClauses with
    | error f => simp [hclauses, Except.mapError] at hread
    | ok s₅ =>
      rw [hclauses] at hread
      obtain ⟨r, -, hclauses⟩ := bind_eq_ok hclauses
      obtain ⟨t, -, hclauses⟩ := bind_eq_ok hclauses
      cases hclauses
      cases hread
      exact ⟨rfl, rfl⟩
  have hdesugar : s₂.desugar.target = s₂.target ∧ (s₂.desugar.op ≠ .define → s₂.op ≠ .define) := by
    unfold Statement.desugar
    split
    · exact ⟨rfl, id⟩
    · rename_i hop
      refine ⟨rfl, fun _ he => ?_⟩
      simp [he, Assign.update?] at hop
  have hop : s₄.op ≠ .define := by
    rw [← hclauses.2]
    refine hdesugar.2 fun he => ?_
    simp [Statement.allocates, Statement.canonical, he] at hs
  have hname : s₂.desugar.canonical.target.name = s₄.target.name := by
    change s₂.desugar.target.name = s₄.target.name
    rw [hdesugar.1, hclauses.1]
  rw [hname, ← Option.ne_none_iff_exists']
  unfold Statement.checkTarget at hcheck
  split at hcheck
  · simp at hcheck
  · rename_i hnone
    simpa [hop] using hnone

section

variable {log log' : Log} {s : Statement}

theorem readReduction_eq_ok {r : Reduction} {c : Catalog}
    (h : exec (readReduction s) log = (.ok (r, c), log')) :
    ∃ read, Reduction.read s.source s.reduction = (read, none) ∧ r = read.reduction ∧
      c = Catalog.empty.bindAll read.bounds := by
  unfold readReduction at h
  rcases hread : Reduction.read s.source s.reduction with ⟨read, _ | e⟩
  · refine ⟨read, rfl, ?_⟩
    simp only [hread] at h
    obtain ⟨_, _, -, h⟩ := Run.exec_bind_eq_ok h
    cases hclause : s.reduction with
    | none =>
      simp only [hclause, Run.exec_pure, Prod.mk.injEq, Except.ok.injEq] at h
      exact ⟨h.1.1.symm, h.1.2.symm⟩
    | some clause =>
      simp only [hclause] at h
      obtain ⟨_, _, -, h⟩ := Run.exec_bind_eq_ok h
      simp only [Run.exec_pure, Prod.mk.injEq, Except.ok.injEq] at h
      exact ⟨h.1.1.symm, h.1.2.symm⟩
  · simp only [hread] at h
    obtain ⟨_, _, -, h⟩ := Run.exec_bind_eq_ok h
    simp at h

theorem readTiling_eq_ok {t : Option Tiling} (h : exec (readTiling s) log = (.ok t, log')) :
    match s.tiling with
    | none => t = none
    | some clause => ∃ t', Tiling.read s.source clause = .ok t' ∧ t = some t' := by
  unfold readTiling at h
  cases hclause : s.tiling with
  | none =>
    simp only [hclause, Run.exec_pure, Prod.mk.injEq, Except.ok.injEq] at h
    exact h.1.symm
  | some clause =>
    simp only [hclause] at h
    obtain ⟨t', _, ht, h⟩ := Run.exec_bind_eq_ok h
    obtain ⟨_, _, -, h⟩ := Run.exec_bind_eq_ok h
    simp only [Run.exec_lift, Run.exec_pure, Prod.mk.injEq, Except.ok.injEq] at ht h
    exact ⟨t', ht.1, h.1.symm⟩

theorem collect_eq_ok {c c' : Catalog} {collection : Collection}
    (h : exec (collect s c) log = (.ok (collection, c'), log')) :
    collection = .ofExpr s.rhs ∧
      c' = (c.bindAll collection.axes).bindAll (if s.allocates then [] else s.target.axes) := by
  unfold collect at h
  obtain ⟨_, _, -, h⟩ := Run.exec_bind_eq_ok h
  obtain ⟨_, _, -, h⟩ := Run.exec_bind_eq_ok h
  cases hs : s.allocates with
  | true =>
    simp only [hs, if_true, Run.exec_pure, Prod.mk.injEq, Except.ok.injEq] at h
    obtain ⟨⟨rfl, rfl⟩, -⟩ := h
    exact ⟨rfl, rfl⟩
  | false =>
    simp only [hs, Bool.false_eq_true, if_false] at h
    obtain ⟨_, _, -, h⟩ := Run.exec_bind_eq_ok h
    simp only [Run.exec_pure, Prod.mk.injEq, Except.ok.injEq] at h
    obtain ⟨⟨rfl, rfl⟩, -⟩ := h
    exact ⟨rfl, rfl⟩

end

theorem plan_eq_ok {a : Analysis} {parallel : Bool} {r : Reduction} {symbols : List IndexSymbol}
    {p : Plan} (h : a.plan parallel = .ok (r, symbols, p)) :
    a.settleReduction = .ok r ∧ a.symbols r = .ok symbols ∧ a.checkTiling r symbols = .ok () ∧
      p = a.layout r parallel symbols := by
  unfold Analysis.plan at h
  obtain ⟨r', hr, h⟩ := bind_eq_ok h
  obtain ⟨symbols', hs, h⟩ := bind_eq_ok h
  obtain ⟨u, ht, h⟩ := bind_eq_ok h
  cases h
  exact ⟨hr, hs, ht, rfl⟩

/-- Compiling goes through all its steps. -/
theorem CompilesFrom.planned {config : Config} {source : String} {s : Statement} {k : Kernel}
    (h : CompilesFrom config source s k)
    (hs : s.allocates = false → ∃ name, s.target.name = some name) :
    k.config = config ∧ k.source = source ∧ k.statement = s ∧ ∃ read, k.Planned read := by
  obtain ⟨log, log', h⟩ := h
  unfold compileStatement at h
  obtain ⟨_, _, htarget, h⟩ := Run.exec_bind_eq_ok h
  obtain ⟨⟨reduction, catalog⟩, _, hreduction, h⟩ := Run.exec_bind_eq_ok h
  obtain ⟨tiling, _, htiling, h⟩ := Run.exec_bind_eq_ok h
  obtain ⟨⟨collection, catalog'⟩, _, hcollect, h⟩ := Run.exec_bind_eq_ok h
  obtain ⟨⟨settled, symbols, plan⟩, _, hplan, h⟩ := Run.exec_bind_eq_ok h
  obtain ⟨_, _, -, h⟩ := Run.exec_bind_eq_ok h
  simp only [Run.exec_lift, Run.exec_pure, Prod.mk.injEq, Except.ok.injEq] at htarget hplan h
  obtain ⟨rfl, -⟩ := h
  obtain ⟨read, hread, rfl, rfl⟩ := readReduction_eq_ok hreduction
  obtain ⟨rfl, rfl⟩ := collect_eq_ok hcollect
  obtain ⟨hsettled, hsymbols, htiles, rfl⟩ := plan_eq_ok hplan.1
  exact ⟨rfl, rfl, rfl, read, hs, htarget.1, hread, readTiling_eq_ok htiling, rfl, rfl, hsettled,
    hsymbols, htiles, rfl⟩

theorem Compiles.planned {config : Config} {source : String} {k : Kernel}
    (h : Compiles config source k) : k.config = config ∧ ∃ read, k.Planned read := by
  obtain ⟨s, hs, h⟩ := h.exists_statement
  obtain ⟨hconfig, -, -, hplanned⟩ := h.planned (named_of_readStatement hs)
  exact ⟨hconfig, hplanned⟩

/-- A kernel that compiles has the statement that the text spells. -/
theorem Compiles.readStatement_eq {config : Config} {source : String} {k : Kernel}
    (h : Compiles config source k) : readStatement source = .ok k.statement ∧ k.source = source := by
  obtain ⟨s, hs, h⟩ := h.exists_statement
  obtain ⟨-, hsource, rfl, -⟩ := h.planned (named_of_readStatement hs)
  exact ⟨hs, hsource⟩

/-- A kernel with everything that the steps of compiling look for is what its statement compiles
to. -/
theorem Planned.compilesFrom {k : Kernel} {read : Reduction.Partial} (h : k.Planned read) :
    CompilesFrom k.config k.source k.statement k := by
  have hreduction : ∃ log, exec (readReduction k.statement) [] =
      (.ok (read.reduction, Catalog.empty.bindAll read.bounds), log) := by
    simp only [readReduction, h.clause]
    cases k.statement.reduction <;> exact ⟨_, rfl⟩
  have htiling (log : Log) : ∃ log', exec (readTiling k.statement) log = (.ok k.analysis.tiling, log') := by
    have htiling := h.tiling
    unfold readTiling
    cases hclause : k.statement.tiling with
    | none =>
      rw [hclause] at htiling
      rw [show k.analysis.tiling = none from htiling]
      exact ⟨log, rfl⟩
    | some clause =>
      rw [hclause] at htiling
      obtain ⟨t, ht, heq⟩ := htiling
      rw [heq]
      simp only [ht]
      exact ⟨_, rfl⟩
  have hcollect (log : Log) : ∃ log', exec (collect k.statement (Catalog.empty.bindAll read.bounds)) log =
      (.ok (k.analysis.collection, k.analysis.catalog), log') := by
    rw [h.catalog, h.collection]
    unfold collect
    cases hs : k.statement.allocates <;> exact ⟨_, rfl⟩
  let a : Analysis := { k.analysis with reduction := read.reduction }
  have hplan : a.plan k.config.parallel = .ok (k.analysis.reduction, k.symbols, k.plan) := by
    have hsymbols : a.symbols k.analysis.reduction = .ok k.symbols := h.symbols
    have htiles : a.checkTiling k.analysis.reduction k.symbols = .ok () := h.tiles
    rw [h.plan, Analysis.plan, bind_of_ok h.settled, bind_of_ok hsymbols, bind_of_ok htiles]
    rfl
  have htarget : exec (liftM (checkTarget k.statement) : Logged Unit) [] = (.ok (), []) := by
    rw [Run.exec_lift, h.target]
  obtain ⟨log₁, hreduction⟩ := hreduction
  obtain ⟨log₂, htiling⟩ := htiling log₁
  obtain ⟨log₃, hcollect⟩ := hcollect log₂
  have hplan : exec (liftM (a.plan k.config.parallel) : Logged _) log₃ =
      (.ok (k.analysis.reduction, k.symbols, k.plan), log₃) := by
    rw [Run.exec_lift, hplan]
  refine ⟨[], _, (Run.exec_bind_ok htarget).trans ((Run.exec_bind_ok hreduction).trans
    ((Run.exec_bind_ok htiling).trans ((Run.exec_bind_ok hcollect).trans
      ((Run.exec_bind_ok hplan).trans rfl))))⟩

end Kernel

/-! ## Clauses -/

namespace Reduction

/-- What holds of a clause at every point of reading it: no index is listed twice, and the indices
that have bounds are listed. -/
structure Partial.Sound (p : Partial) : Prop where
  nodup : p.reduction.order.Nodup
  bounds_nodup : (p.bounds.map Prod.fst).Nodup
  bounds_mem : ∀ b ∈ p.bounds, b.1 ∈ p.reduction.order
  bounds_explicit : ∀ b ∈ p.bounds, b.2.isExplicit

theorem Partial.push_eq {site : Site} {p p' : Partial} {index : String} {pos : Option Pos}
    (h : p.push site index pos = (p', none)) :
    index ∉ p.reduction.order ∧ p'.reduction.order.Perm (index :: p.reduction.order) ∧
      p'.bounds = p.bounds := by
  unfold Partial.push at h
  dsimp only at h
  split at h
  · simp at h
  · rename_i hnew
    refine ⟨by simpa using hnew, ?_⟩
    split at h
    · cases h
      refine ⟨?_, rfl⟩
      simp only [order, List.map_append, List.map_cons, List.map_nil, ← List.append_assoc]
      exact List.perm_append_singleton _ _
    · cases h
      refine ⟨?_, rfl⟩
      simp only [order, List.append_assoc, List.singleton_append]
      exact List.perm_middle

theorem Partial.Sound.push {site : Site} {p p' : Partial} {index : String} {pos : Option Pos}
    (hp : p.Sound) (h : p.push site index pos = (p', none)) : p'.Sound := by
  obtain ⟨hnew, horder, hbounds⟩ := push_eq h
  refine ⟨horder.nodup_iff.2 (List.nodup_cons.2 ⟨hnew, hp.nodup⟩), hbounds ▸ hp.bounds_nodup,
    fun b hb => ?_, hbounds ▸ hp.bounds_explicit⟩
  exact horder.mem_iff.2 (.tail _ (hp.bounds_mem b (hbounds ▸ hb)))

/-- A bound lists its index. -/
theorem Partial.Sound.pushBound {site : Site} {p p' : Partial} {index : String} {axis : Axis}
    {pos : Option Pos} (hp : p.Sound) (haxis : axis.isExplicit)
    (h : Partial.push site { p with bounds := p.bounds ++ [(index, axis)] } index pos = (p', none)) :
    p'.Sound := by
  obtain ⟨hnew, horder, hbounds⟩ := push_eq h
  refine ⟨horder.nodup_iff.2 (List.nodup_cons.2 ⟨hnew, hp.nodup⟩), ?_, fun b hb => ?_, fun b hb => ?_⟩
  · rw [hbounds, List.map_append, List.map_singleton]
    refine (List.perm_append_singleton _ _).nodup_iff.2 (List.nodup_cons.2 ⟨fun hi => ?_, hp.bounds_nodup⟩)
    obtain ⟨b, hb, rfl⟩ := List.mem_map.1 hi
    exact hnew (hp.bounds_mem b hb)
  · rw [hbounds] at hb
    rcases List.mem_append.1 hb with hb | hb
    · exact horder.mem_iff.2 (.tail _ (hp.bounds_mem b hb))
    · obtain rfl := List.mem_singleton.1 hb
      exact horder.mem_iff.2 (.head _)
  · rw [hbounds] at hb
    rcases List.mem_append.1 hb with hb | hb
    · exact hp.bounds_explicit b hb
    · obtain rfl := List.mem_singleton.1 hb
      exact haxis

theorem isExplicit_of_bound {operands : List Expr} {index : String} {axis : Axis}
    (h : bound? operands = some (index, axis)) : axis.isExplicit := by
  unfold bound? at h
  split at h <;> cases h <;> rfl

theorem Partial.Sound.item {site : Site} {p p' : Partial} {e : Expr} (hp : p.Sound)
    (h : p.item site e = (p', none)) : p'.Sound := by
  unfold Partial.item at h
  split at h
  · split at h
    · cases h
      exact ⟨hp.nodup, hp.bounds_nodup, hp.bounds_mem, hp.bounds_explicit⟩
    · exact hp.push h
  · split at h
    · split at h
      · cases h
        exact ⟨hp.nodup, hp.bounds_nodup, hp.bounds_mem, hp.bounds_explicit⟩
      · simp at h
    · simp at h
  · split at h
    · exact hp.pushBound (isExplicit_of_bound ‹_›) h
    · simp at h
  · split at h
    · cases h
      exact ⟨hp.nodup, hp.bounds_nodup, hp.bounds_mem, hp.bounds_explicit⟩
    · simp at h
  · simp at h

theorem Partial.Sound.items {site : Site} {p p' : Partial} {es : List Expr} (hp : p.Sound)
    (h : p.items site es = (p', none)) : p'.Sound := by
  induction es generalizing p with
  | nil =>
    cases h
    exact hp
  | cons e es ih =>
    rw [Partial.items] at h
    rcases hitem : p.item site e with ⟨q, _ | err⟩
    · rw [hitem] at h
      exact ih (hp.item hitem) h
    · simp [hitem] at h

theorem sound_of_read {source : String} {clause : Option ReductionClause} {p : Partial}
    (h : read source clause = (p, none)) :
    p.Sound ∧ p.reduction.explicit = !p.reduction.order.isEmpty := by
  have hstart (op : String) : Partial.Sound { reduction := { op := op } } :=
    ⟨by simp [order], by simp, by simp, by simp⟩
  unfold read at h
  split at h
  · cases h
    exact ⟨hstart "+", rfl⟩
  · rename_i clause
    dsimp only at h
    split at h
    · simp at h
    · rcases hitems : Partial.items ⟨source, clause.source⟩ { reduction := { op := clause.op } } clause.items
        with ⟨q, _ | err⟩
      · rw [hitems] at h
        cases h
        have hq := (hstart clause.op).items hitems
        exact ⟨⟨hq.nodup, hq.bounds_nodup, hq.bounds_mem, hq.bounds_explicit⟩, rfl⟩
      · simp [hitems] at h

end Reduction

namespace Tiling

theorem nodup_group {site : Reduction.Site} {seen indices : List String} {es : List Expr}
    (hseen : seen.Nodup) (h : group site seen es = .ok indices) : indices.Nodup := by
  induction es generalizing seen with
  | nil =>
    cases h
    exact hseen
  | cons e es ih =>
    unfold group at h
    split at h
    · cases h
      exact hseen
    · rename_i heq
      cases heq
      dsimp only at h
      split at h
      · simp at h
      · rename_i hnew
        refine ih ((List.perm_append_singleton _ _).nodup_iff.2 (List.nodup_cons.2 ⟨?_, hseen⟩)) h
        simpa using hnew
    · simp at h

theorem width_pos {size group width : Int} (hsize : 1 ≤ size) (hgroup : 0 < group)
    (h : tileWidth size group = .ok width) : 0 < width := by
  unfold tileWidth at h
  rw [if_neg (by omega)] at h
  split at h
  · simp at h
  · rw [if_neg (by omega)] at h
    cases h
    exact Int.natCast_pos.2 (Nat.lt_of_lt_of_le Nat.zero_lt_one (Nat.le_max_left _ _))

/-- A clause that can be read names different indices and gives blocks a positive width. -/
theorem sound_of_read {source : String} {clause : TilingClause} {t : Tiling}
    (h : read source clause = .ok t) : t.indices.Nodup ∧ 0 < t.width := by
  unfold read at h
  dsimp only at h
  split at h
  · simp at h
  · split at h
    · simp at h
    · split at h
      · simp at h
      · rename_i hsize
        split at h
        · simp at h
        · simp at h
        · rename_i indices hne hindices
          split at h
          · simp at h
          · rename_i width hwidth
            cases h
            refine ⟨nodup_group List.nodup_nil hindices, width_pos (by omega) ?_ hwidth⟩
            exact Int.natCast_pos.2 (List.length_pos_iff.2 fun he => hne he)

end Tiling

/-! ## The order of loops -/

theorem nodup_eraseDups {α : Type} [BEq α] [LawfulBEq α] : (l : List α) → l.eraseDups.Nodup
  | [] => by simp
  | a :: l => by
    rw [List.eraseDups_cons]
    refine List.nodup_cons.2 ⟨by simp, nodup_eraseDups _⟩
termination_by l => l.length
decreasing_by
  exact Nat.lt_succ_of_le (List.length_filter_le _ _)

/-- The loops over the output depend on names and axes only. -/
theorem Analysis.outputLoops_map {parallel : Bool} {symbols : List IndexSymbol} (f : IndexSymbol → IndexSymbol)
    (hf : ∀ s, (f s).name = s.name ∧ (f s).axis = s.axis ∧ (f s).output = s.output) :
    outputLoops parallel (symbols.map f) = outputLoops parallel symbols := by
  have hfilter : (symbols.map f).filter (·.output) = (symbols.filter (·.output)).map f := by
    rw [List.filter_map]
    exact congrArg (List.map f) (List.filter_congr fun s _ => (hf s).2.2)
  unfold outputLoops
  rw [hfilter, ← List.map_reverse]
  cases (symbols.filter (·.output)).reverse with
  | nil => rfl
  | cons s rest =>
    simp only [List.map_cons, List.map_map, (hf s).1, (hf s).2.1]
    exact congrArg _ (List.map_congr_left fun s _ => by simp [(hf s).1, (hf s).2.1])

/-- The loops are those that the right-hand side implies, or those that are listed if they are the same
in some order. -/
theorem Analysis.settleReduction_eq_ok {a : Analysis} {r : Reduction} (h : a.settleReduction = .ok r) :
    a.reduction.explicit = false ∧ r = { a.reduction with loops := a.impliedReduction } ∨
      a.reduction.explicit = true ∧ a.reduction.order.Perm a.impliedReduction ∧ r = a.reduction := by
  unfold settleReduction at h
  dsimp only at h
  split at h
  · next hexplicit => exact .inl ⟨by simpa using hexplicit, (Except.ok.inj h).symm⟩
  · next hexplicit =>
    split at h
    · next hperm => exact .inr ⟨by simpa using hexplicit, List.isPerm_iff.1 hperm, (Except.ok.inj h).symm⟩
    · cases h

/-- Tiling is accepted if it is of loop indices that are not unrolled. -/
theorem Analysis.checkTiling_eq_ok_iff {a : Analysis} {r : Reduction} {symbols : List IndexSymbol} :
    a.checkTiling r symbols = .ok ⟨⟩ ↔ ∀ t, a.tiling = some t →
      (∀ i ∈ t.indices, i ∉ r.unrolled.map (·.1)) ∧ ∀ i ∈ t.indices, i ∈ symbols.map (·.name) := by
  unfold checkTiling
  cases a.tiling with
  | none => simp
  | some t =>
    by_cases hunrolled : ∀ i ∈ t.indices, i ∉ r.unrolled.map (·.1)
    · by_cases hknown : ∀ i ∈ t.indices, i ∈ symbols.map (·.name) <;> simp_all
    · simp_all

namespace Kernel.Planned

variable {k : Kernel} {read : Reduction.Partial} (h : k.Planned read)

include h

/-- Either nothing is listed, and the loops are those that are implied, or the listed loops stay as they
are. -/
theorem reduction_cases :
    read.reduction.order = [] ∧ read.reduction.unrolled = [] ∧
        k.analysis.reduction = { read.reduction with loops := k.analysis.impliedReduction } ∨
      read.reduction.order ≠ [] ∧ read.reduction.order.Perm k.analysis.impliedReduction ∧
        k.analysis.reduction = read.reduction := by
  have hexplicit := (Reduction.sound_of_read h.clause).2
  rcases Analysis.settleReduction_eq_ok h.settled with ⟨hx, heq⟩ | ⟨hx, hperm, heq⟩
  · have hempty : read.reduction.order = [] := by simpa [hexplicit] using hx
    have hunrolled : read.reduction.unrolled = [] := by simpa using (List.append_eq_nil_iff.1 hempty).2
    exact .inl ⟨hempty, hunrolled, heq⟩
  · exact .inr ⟨by simpa [hexplicit] using hx, hperm, heq⟩

/-- The loops over the values of a cell are for the indices that the left-hand side does not have. -/
theorem order_perm : k.analysis.reduction.order.Perm k.analysis.impliedReduction := by
  rcases h.reduction_cases with ⟨-, hunrolled, heq⟩ | ⟨-, hperm, heq⟩
  · rw [heq, Reduction.order, hunrolled, List.map_nil, List.append_nil]
  · rwa [heq]

theorem nodup_order : k.analysis.reduction.order.Nodup :=
  h.order_perm.nodup_iff.2 ((nodup_eraseDups _).filter _)

theorem notMem_outputs {i : String} (hi : i ∈ k.analysis.reduction.order) :
    i ∉ k.outputIndices := by
  have := h.order_perm.mem_iff.1 hi
  simp only [Analysis.impliedReduction, List.mem_filter, Bool.not_eq_true', List.contains_eq_mem,
    decide_eq_false_iff_not] at this
  exact this.2

theorem forall_symbols : List.Forall₂
    (fun i s => s.name = i ∧ k.analysis.catalog.get? i = some s.axis ∧
      s.output = k.outputIndices.contains i)
    (k.outputIndices ++ k.analysis.reduction.order) k.symbols := by
  refine (mapM_eq_ok h.symbols).imp fun i s hs => ?_
  unfold Analysis.symbol at hs
  split at hs
  · simp at hs
  · rename_i axis haxis
    cases hs
    exact ⟨rfl, haxis, rfl⟩

/-- The symbols of the output come first. -/
theorem symbols_eq : ∃ outer inner : List IndexSymbol, k.symbols = outer ++ inner ∧
    outer.map (·.name) = k.outputIndices ∧ inner.map (·.name) = k.analysis.reduction.order ∧
    k.symbols.filter (·.output) = outer ∧ k.symbols.filter (!·.output) = inner := by
  have hall := h.forall_symbols
  have hnames : ∀ {is : List String} {ss : List IndexSymbol}, List.Forall₂
      (fun i s => s.name = i ∧ k.analysis.catalog.get? i = some s.axis ∧
        s.output = k.outputIndices.contains i) is ss →
      ss.map (·.name) = is ∧ ∀ s ∈ ss, s.name ∈ is ∧ s.output = k.outputIndices.contains s.name := by
    intro is ss hss
    induction hss with
    | nil => simp
    | cons hs _ ih =>
      refine ⟨by simp [hs.1, ih.1], fun s hmem => ?_⟩
      rcases List.mem_cons.1 hmem with rfl | hmem
      · exact ⟨hs.1 ▸ .head _, hs.1 ▸ hs.2.2⟩
      · exact ⟨.tail _ (ih.2 s hmem).1, (ih.2 s hmem).2⟩
  have heq := (List.take_append_drop k.outputIndices.length k.symbols).symm
  obtain ⟨hn, ho⟩ := hnames (List.forall₂_take_append _ _ _ hall.flip).flip
  obtain ⟨hn', hi⟩ := hnames (List.forall₂_drop_append _ _ _ hall.flip).flip
  generalize k.symbols.take k.outputIndices.length = outer at heq hn ho
  generalize k.symbols.drop k.outputIndices.length = inner at heq hn' hi
  have hout : ∀ s ∈ outer, s.output = true := fun s hs => by simp [(ho s hs).2, (ho s hs).1]
  have hin : ∀ s ∈ inner, s.output = false := fun s hs => by
    simp [(hi s hs).2, h.notMem_outputs (hi s hs).1]
  refine ⟨outer, inner, heq, hn, hn', ?_, ?_⟩
  · rw [heq, List.filter_append, List.filter_eq_self.2 hout, List.filter_eq_nil_iff.2 (by simpa using hin),
      List.append_nil]
  · rw [heq, List.filter_append, List.filter_eq_nil_iff.2 (by simpa using hout),
      List.filter_eq_self.2 (by simpa using hin), List.nil_append]

/-- The loops over the output: the leftmost index is innermost. -/
theorem outer_eq : k.plan.outer = k.outputIndices.reverse := by
  obtain ⟨outer, inner, -, houter, -, hfilter, -⟩ := h.symbols_eq
  rw [h.plan, Plan.outer, Analysis.layout, Analysis.outputLoops, hfilter, ← houter, ← List.map_reverse]
  cases outer.reverse with
  | nil => rfl
  | cons s rest => simp

/-- The cells take values as they are if there is nothing to reduce; else the values of a cell are
reduced in loops over the remaining indices. -/
theorem body_eq : (k.analysis.reduction.order = [] ∧ k.plan.body = .store) ∨
    (k.analysis.reduction.order ≠ [] ∧ ∃ loops : List InnerLoop,
      loops.map (·.index) = k.analysis.reduction.order ∧
      k.plan.body = .reduce k.analysis.reduction.op
        (k.analysis.tiling.any (·.indices.any (k.analysis.reduction.order.contains ·))) loops) := by
  obtain ⟨outer, inner, -, -, hinner, -, hfilter⟩ := h.symbols_eq
  rw [h.plan, Analysis.layout]
  simp only [Analysis.body, hfilter]
  cases inner with
  | nil => exact .inl ⟨hinner.symm, rfl⟩
  | cons s rest =>
    refine .inr ⟨by simp [← hinner], _, ?_, rfl⟩
    simp [← hinner]

theorem inner_eq : k.plan.inner = k.analysis.reduction.order := by
  rcases h.body_eq with ⟨horder, hbody⟩ | ⟨-, loops, hloops, hbody⟩
  · simp [Plan.inner, hbody, Body.loops, horder]
  · simp [Plan.inner, hbody, Body.loops, hloops]

theorem reductionIndices_eq : k.reductionIndices = k.analysis.reduction.order := by
  rcases h.body_eq with ⟨horder, hbody⟩ | ⟨-, loops, hloops, hbody⟩
  · simp [Kernel.reductionIndices, Kernel.reduction, hbody, horder]
  · simp [Kernel.reductionIndices, Kernel.reduction, hbody]

/-- There is something to reduce if there is a reduction. -/
theorem reductionIndices_ne {r : Reduction} (hr : k.reduction = some r) : k.reductionIndices ≠ [] := by
  rw [h.reductionIndices_eq]
  rcases h.body_eq with ⟨-, hbody⟩ | ⟨horder, -⟩
  · simp [Kernel.reduction, hbody] at hr
  · exact horder

/-- Every loop has an axis. -/
theorem exists_axis {i : String} (hi : i ∈ k.outputIndices ++ k.analysis.reduction.order) :
    ∃ axis, k.analysis.catalog.get? i = some axis := by
  have hall := h.forall_symbols
  generalize k.outputIndices ++ k.analysis.reduction.order = is at hall hi
  generalize k.symbols = symbols at hall
  induction hall with
  | nil => simp at hi
  | cons hs _ ih =>
    rcases List.mem_cons.1 hi with rfl | hi
    · exact ⟨_, hs.2.1⟩
    · exact ih hi

/-- The tiled group of a plan consists of different loop indices, and its blocks are not empty. -/
theorem group_sound {g : TileGroup} (hg : k.plan.tiles = some g) :
    g.indices.Nodup ∧ 0 < g.width ∧
      (∀ i ∈ g.indices, i ∈ k.outputIndices ++ k.analysis.reduction.order) ∧
      (k.plan.body.resumes = false → ∀ i ∈ g.indices, i ∉ k.analysis.reduction.order) := by
  rw [h.plan] at hg
  obtain ⟨t, ht, rfl⟩ := Option.map_eq_some_iff.1 (show k.analysis.tiling.map _ = some g from hg)
  have htiling := h.tiling
  split at htiling
  · simp [htiling] at ht
  · obtain ⟨t', hread, ht'⟩ := htiling
    obtain rfl : t' = t := by simpa [ht'] using ht
    obtain ⟨hnodup, hwidth⟩ := Tiling.sound_of_read hread
    refine ⟨hnodup, hwidth, fun i hi => ?_, fun hresume i hi hin => ?_⟩
    · obtain ⟨outer, inner, heq, ho, hi', -, -⟩ := h.symbols_eq
      have hknown := (Analysis.checkTiling_eq_ok_iff.1 h.tiles _ ht).2 i hi
      rwa [heq, List.map_append, ho, hi'] at hknown
    · rcases h.body_eq with ⟨horder, -⟩ | ⟨-, loops, -, hbody⟩
      · simp [horder] at hin
      · rw [hbody] at hresume
        have : ∀ i ∈ t'.indices, i ∉ k.analysis.reduction.order := by
          simpa [Body.resumes, ht] using hresume
        exact this i hi hin

end Kernel.Planned

end IndexNotation
