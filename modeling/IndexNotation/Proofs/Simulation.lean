import IndexNotation.Proofs.Points
import IndexNotation.Proofs.World

/-!
# Comparing runs of one plan

The loops of a plan are the same in every monad. So a way to compare computations of two monads that
respects their structure also compares whole runs, as soon as it compares what the two machines do
at the points of the plan. A `Simulation` is such a way. What it says about two values may depend on
the stage that the computations are at, and has to stay true from then on.
-/

namespace IndexNotation

/-- Two outcomes are both values that `Q` relates, or both the same error. -/
def Concur {α α' : Type} (Q : α → α' → Prop) : Except Error α → Except Error α' → Prop
  | .ok a, .ok a' => Q a a'
  | .error e, .error e' => e = e'
  | _, _ => False

/-- A way to compare computations of two monads. `Rel i Q x x'` says that the two go the same way
from stage `i` on, and that `Q` relates what they give, at the stage where they end. -/
structure Simulation (m m' : Type → Type) [Monad m] [Monad m'] [MonadExceptOf Error m]
    [MonadExceptOf Error m'] where
  Stage : Type
  le : Stage → Stage → Prop
  refl : ∀ i, le i i
  trans : ∀ {i j k}, le i j → le j k → le i k
  Rel : {α α' : Type} → Stage → (Stage → α → α' → Prop) → m α → m' α' → Prop
  pure : ∀ {α α' : Type} {i : Stage} {Q : Stage → α → α' → Prop} {a : α} {a' : α'}, Q i a a' →
    Rel i Q (pure a) (pure a')
  bind : ∀ {α α' β β' : Type} {i : Stage} {Q : Stage → α → α' → Prop} {Q' : Stage → β → β' → Prop}
    {x : m α} {x' : m' α'} {f : α → m β} {f' : α' → m' β'}, Rel i Q x x' →
    (∀ j a a', le i j → Q j a a' → Rel j Q' (f a) (f' a')) → Rel i Q' (x >>= f) (x' >>= f')
  throw : ∀ {α α' : Type} {i : Stage} {Q : Stage → α → α' → Prop} (e : Error),
    Rel i Q (throw e : m α) (throw e : m' α')
  attempt : ∀ {α α' : Type} {i : Stage} {Q : Stage → α → α' → Prop} {x : m α} {x' : m' α'},
    Rel i Q x x' → Rel i (fun j => Concur (Q j)) (attempt x) (attempt x')

variable {m m' : Type → Type} [Monad m] [Monad m'] [MonadExceptOf Error m] [MonadExceptOf Error m']
  {V V' σ σ' : Type}

namespace Simulation

variable (S : Simulation m m') {i : S.Stage} {Q : S.Stage → σ → σ' → Prop}

theorem foldlM {α : Type} {f : σ → α → m σ} {f' : σ' → α → m' σ'} {as : List α}
    (h : ∀ a ∈ as, ∀ j s s', S.le i j → Q j s s' → S.Rel j Q (f s a) (f' s' a)) {s : σ} {s' : σ'}
    (hs : Q i s s') : S.Rel i Q (as.foldlM f s) (as.foldlM f' s') := by
  induction as generalizing i s s' with
  | nil => exact S.pure hs
  | cons a as ih =>
    rw [List.foldlM_cons, List.foldlM_cons]
    refine S.bind (h a (.head _) i s s' (S.refl i) hs) fun j t t' hij ht => ?_
    exact ih (fun b hb k u u' hjk => h b (.tail _ hb) k u u' (S.trans hij hjk)) ht

/-- Nested loops go the same way if what they do at their points does. -/
theorem foldLoops (rs : Ranges) (indices : List String) {body : Env → σ → m σ}
    {body' : Env → σ' → m' σ'} (loops : List (String × List Int))
    (hloops : ∀ l ∈ loops, ∀ v ∈ l.2, v ∈ (rs.get l.1).toList)
    (h : ∀ env, env.Covers rs ((loops.map Prod.fst).reverse ++ indices) → ∀ j s s', S.le i j →
      Q j s s' → S.Rel j Q (body env s) (body' env s'))
    {env : Env} (henv : env.Covers rs indices) {s : σ} {s' : σ'} (hs : Q i s s') :
    S.Rel i Q (IndexNotation.foldLoops loops body env s) (IndexNotation.foldLoops loops body' env s') := by
  induction loops generalizing i env s s' indices with
  | nil => exact h env henv i s s' (S.refl i) hs
  | cons l loops ih =>
    obtain ⟨index, values⟩ := l
    refine S.foldlM (fun v hv j s s' hij hs => ?_) hs
    refine ih _ (fun l hl => hloops l (.tail _ hl)) (fun env henv k s s' hjk => h env ?_ k s s' ?_)
      (henv.cons (hloops _ (.head _) v hv)) hs
    · simpa using henv
    · exact S.trans hij hjk

theorem runChunks {work : Range → σ → m σ} {work' : Range → σ' → m' σ'} {chunks : List Range}
    (mono : ∀ j k s s', S.le j k → Q j s s' → Q k s s')
    (h : ∀ c ∈ chunks, ∀ j s s', S.le i j → Q j s s' → S.Rel j Q (work c s) (work' c s'))
    (failed : Option Error) {s : σ} {s' : σ'} (hs : Q i s s') :
    S.Rel i Q (IndexNotation.runChunks work chunks failed s)
      (IndexNotation.runChunks work' chunks failed s') := by
  induction chunks generalizing i failed s s' with
  | nil =>
    cases failed with
    | none => exact S.pure hs
    | some e => exact S.throw e
  | cons c chunks ih =>
    refine S.bind (S.attempt (h c (.head _) i s s' (S.refl i) hs)) fun j r r' hij hr => ?_
    have hrest (d : Range) (hd : d ∈ chunks) (k : S.Stage) (t : σ) (t' : σ') (hjk : S.le j k) :=
      h d (.tail _ hd) k t t' (S.trans hij hjk)
    cases r with
    | ok t =>
      cases r' with
      | ok t' => exact ih hrest failed hr
      | error e => exact hr.elim
    | error e =>
      cases r' with
      | ok t' => exact hr.elim
      | error e' =>
        obtain rfl : e = e' := hr
        exact ih hrest _ (mono i j s s' hij hs)

end Simulation

theorem Run.exec_attempt {α : Type} (x : ExceptT Error (StateM σ) α) (s : σ) :
    exec (IndexNotation.attempt x) s = (.ok (exec x s).1, (exec x s).2) := by
  rw [IndexNotation.attempt, exec_tryCatch, exec_map]
  rcases exec x s with ⟨_ | _, _⟩ <;> rfl

/-! ## Machines -/

/-- Two machines do the same at the points of a plan, from stage `i` on; `R` relates the values that
they handle. Accumulators matter only if the plan reduces anything. -/
structure Machine.Follows (S : Simulation m m') (i : S.Stage) (R : S.Stage → V → V' → Prop)
    (p : Plan) (rs : Ranges) (k : Machine m V) (k' : Machine m' V') : Prop where
  mono : ∀ j l v v', S.le j l → R j v v' → R l v v'
  element : ∀ j env, S.le i j → env.Covers rs (p.outer ++ p.inner) →
    S.Rel j R (k.element env) (k'.element env)
  init : p.body ≠ .store → R i k.init k'.init
  combine : p.body ≠ .store → ∀ j acc acc' v v', S.le i j → R j acc acc' → R j v v' →
    S.Rel j R (k.combine acc v) (k'.combine acc' v')
  store : ∀ j env v v', S.le i j → env.Covers rs p.outer → R j v v' →
    S.Rel j (fun _ _ _ => True) (k.store env v) (k'.store env v')

/-- Two tables have accumulators for the same cells, and `R` relates them. -/
def Table.Agrees (R : V → V' → Prop) : Table V → Table V' → Prop :=
  List.Forall₂ fun e e' => e.1 = e'.1 ∧ R e.2 e'.2

namespace Table

variable {R : V → V' → Prop} {t : Table V} {t' : Table V'}

theorem Agrees.mono {R' : V → V' → Prop} (h : t.Agrees R t') (hR : ∀ v v', R v v' → R' v v') :
    t.Agrees R' t' :=
  List.Forall₂.imp (fun _ _ he => ⟨he.1, hR _ _ he.2⟩) h

theorem Agrees.get (h : t.Agrees R t') {init : V} {init' : V'} (hi : R init init') (cell : List Int) :
    R (t.get cell init) (t'.get cell init') := by
  unfold Table.get
  induction h with
  | nil => exact hi
  | @cons e e' t t' he _ ih =>
    obtain ⟨c, v⟩ := e
    obtain ⟨c', v'⟩ := e'
    obtain ⟨rfl, hv⟩ := he
    rw [List.lookup_cons, List.lookup_cons]
    cases cell == c with
    | true => exact hv
    | false => exact ih

theorem Agrees.set (h : t.Agrees R t') {v : V} {v' : V'} (hv : R v v') (cell : List Int) :
    Agrees R (t.set cell v) (t'.set cell v') := by
  induction h with
  | nil => exact .cons ⟨rfl, hv⟩ .nil
  | @cons e e' t t' he ht ih =>
    obtain ⟨c, w⟩ := e
    obtain ⟨c', w'⟩ := e'
    obtain ⟨rfl, hw⟩ := he
    unfold Table.set
    split
    · exact .cons ⟨rfl, hv⟩ ht
    · exact .cons ⟨rfl, hw⟩ ih

end Table

section

variable {S : Simulation m m'} {i : S.Stage} {R : S.Stage → V → V' → Prop} {rs rs' : Ranges}
  (outputs : List String) {p : Plan} {k : Machine m V} {k' : Machine m' V'}

variable (h : k.Follows S i R p rs k')

include h

theorem reduceCell_rel (hbody : p.body ≠ .store) (hr : rs'.Refines rs) {env : Env}
    (henv : env.Covers rs p.outer) {j : S.Stage} (hij : S.le i j) {acc : V} {acc' : V'}
    (hacc : R j acc acc') :
    S.Rel j R (reduceCell k rs' p.body.loops env acc) (reduceCell k' rs' p.body.loops env acc') := by
  refine S.foldLoops rs _ _ (fun l hl v hv => ?_) (fun env henv l acc acc' hjl hacc => ?_) henv hacc
  · obtain ⟨l, -, rfl⟩ := List.mem_map.1 hl
    exact (hr _).2 v (by rwa [InnerLoop.values_eq (hr _).1] at hv)
  · refine S.bind (h.element l env (S.trans hij hjl) (henv.mono fun x hx => ?_))
      fun n v v' hln hv => h.combine hbody n acc acc' v v' (S.trans (S.trans hij hjl) hln)
        (h.mono l n acc acc' hln hacc) hv
    simp only [Plan.inner, List.mem_append, List.mem_map, List.mem_reverse] at hx ⊢
    rcases hx with hx | ⟨l, hl, rfl⟩
    · exact .inr hx
    · exact .inl ⟨_, ⟨l, hl, rfl⟩, rfl⟩

theorem runCell_rel (hr : rs'.Refines rs) {env : Env} (henv : env.Covers rs p.outer) {j : S.Stage}
    (hij : S.le i j) {table : Table V} {table' : Table V'} (ht : table.Agrees (R j) table') :
    S.Rel j (fun l => Table.Agrees (R l)) (runCell k rs' outputs p.body env table)
      (runCell k' rs' outputs p.body env table') := by
  have hlater {l : S.Stage} (hjl : S.le j l) : table.Agrees (R l) table' :=
    ht.mono fun v v' => h.mono j l v v' hjl
  have hinit (hbody : p.body ≠ .store) : R j k.init k'.init := h.mono i j _ _ hij (h.init hbody)
  have hreduce (hbody : p.body ≠ .store) {acc : V} {acc' : V'} (hacc : R j acc acc') :=
    reduceCell_rel h hbody hr henv hij hacc
  have helement := h.element j env hij
  have hstore {l : S.Stage} (hjl : S.le j l) {v : V} {v' : V'} (hv : R l v v') :
      S.Rel l (fun n => Table.Agrees (R n)) (do k.store env v; return table)
        (do k'.store env v'; return table') :=
    S.bind (h.store l env v v' (S.trans hij hjl) henv hv) fun n _ _ hln _ =>
      S.pure (hlater (S.trans hjl hln))
  generalize hb : p.body = b at hinit hreduce helement
  cases b with
  | store =>
    refine S.bind (helement ?_) fun l v v' hjl hv => hstore hjl hv
    simpa [Plan.inner, hb, Body.loops] using henv
  | reduce op resume loops =>
    have hbody : Body.reduce op resume loops ≠ .store := Body.noConfusion
    cases resume with
    | false => exact S.bind (hreduce hbody (hinit hbody)) fun l v v' hjl hv => hstore hjl hv
    | true =>
      refine S.bind (hreduce hbody (ht.get (hinit hbody) _)) fun l v v' hjl hv => S.pure ?_
      exact (hlater hjl).set hv _

theorem runOutputs_rel (workers : Nat) (hr : rs'.Refines rs) {j : S.Stage} (hij : S.le i j)
    {table : Table V} {table' : Table V'} (ht : table.Agrees (R j) table') :
    S.Rel j (fun l => Table.Agrees (R l)) (runOutputs k workers outputs p rs' table)
      (runOutputs k' workers outputs p rs' table') := by
  have hcell {env : Env} (henv : env.Covers rs p.outer) {l : S.Stage} (hil : S.le i l)
      {table : Table V} {table' : Table V'} (ht : table.Agrees (R l) table') :=
    runCell_rel outputs h hr henv hil ht
  unfold runOutputs
  cases ho : p.outputs with
  | nil => exact hcell (by simpa [Plan.outer, ho] using Env.Covers.nil) hij ht
  | cons outermost rest =>
    dsimp only
    have hwork (c : Range) (hc : ∀ v ∈ c.toList, v ∈ (rs.get outermost.index).toList) {l : S.Stage}
        (hil : S.le i l) {table : Table V} {table' : Table V'} (ht : table.Agrees (R l) table') :
        S.Rel l (fun n => Table.Agrees (R n))
          (foldLoops ((outermost.index, c.toList) :: rest.map fun l => (l.index, (rs'.get l.index).toList))
            (runCell k rs' outputs p.body) [] table)
          (foldLoops ((outermost.index, c.toList) :: rest.map fun l => (l.index, (rs'.get l.index).toList))
            (runCell k' rs' outputs p.body) [] table') := by
      refine S.foldLoops rs [] _ (fun l hl v hv => ?_)
        (fun env henv n table table' hln ht => hcell (henv.mono fun x hx => ?_) (S.trans hil hln) ht) .nil ht
      · rcases List.mem_cons.1 hl with rfl | hl
        · exact hc v hv
        · obtain ⟨l, -, rfl⟩ := List.mem_map.1 hl
          exact (hr _).2 v hv
      · simpa [Plan.outer, ho, or_comm, eq_comm] using hx
    split
    · refine S.runChunks (fun l n _ _ hln ht => ht.mono fun v v' => h.mono l n v v' hln)
        (fun c hc l table table' hjl ht => hwork c (fun v hv => ?_) (S.trans hij hjl) ht) none ht
      exact (hr _).2 v (Range.mem_of_mem_pieces hc hv)
    · exact hwork _ (fun v hv => (hr _).2 v hv) hij ht

theorem runTiles_rel (workers : Nat) (hrs : rs.Gapless) (hw : ∀ g, p.tiles = some g → 0 < g.width) :
    S.Rel i (fun l => Table.Agrees (R l)) (runTiles k workers outputs p rs)
      (runTiles k' workers outputs p rs) := by
  unfold runTiles
  cases hg : p.tiles with
  | none => exact runOutputs_rel outputs h workers hrs.refines (S.refl i) .nil
  | some g =>
    simp only [tileBlocks_eq rs g.indices (hw g hg)]
    exact S.foldlM (fun block hblock j table table' hij ht =>
      runOutputs_rel outputs h workers (Ranges.refines_rebind hrs hblock) hij ht) .nil

theorem flush_rel (hbody : p.body ≠ .store) (hout : ∀ x, x ∈ outputs ↔ x ∈ p.outer) {j : S.Stage} (hij : S.le i j)
    {table : Table V} {table' : Table V'} (ht : table.Agrees (R j) table') :
    S.Rel j (fun _ _ _ => True) (flush k outputs rs table) (flush k' outputs rs table') := by
  refine S.foldLoops rs [] _ (fun l hl v hv => ?_) (fun env henv l _ _ hjl _ => ?_) .nil trivial
  · obtain ⟨x, -, rfl⟩ := List.mem_map.1 hl
    exact hv
  · refine h.store l env _ _ (S.trans hij hjl) (henv.mono fun x hx => ?_) ?_
    · simpa using (hout x).2 hx
    · exact (ht.mono fun v v' => h.mono j l v v' hjl).get
        (h.mono i l _ _ (S.trans hij hjl) (h.init hbody)) _

/-- Machines that do the same at the points of a plan run the plan in the same way. -/
theorem runPlan_rel (workers : Nat) (hrs : rs.Gapless) (hw : ∀ g, p.tiles = some g → 0 < g.width)
    (hout : ∀ x, x ∈ outputs ↔ x ∈ p.outer) :
    S.Rel i (fun _ _ _ => True) (runPlan k workers outputs p rs) (runPlan k' workers outputs p rs) := by
  refine S.bind (runTiles_rel outputs h workers hrs hw) fun j table table' hij ht => ?_
  split
  · rename_i hresumes
    have hbody : p.body ≠ .store := fun e => by simp [e, Body.resumes] at hresumes
    exact flush_rel outputs h hbody hout hij ht
  · exact S.pure trivial

end

end IndexNotation
