import IndexNotation.Proofs.Looks
import IndexNotation.Proofs.Sequence
import Mathlib.Logic.Function.Basic

/-!
# Ideal runs

What a run does to its output, seen without the heap: the machine is given by what comes of the
right-hand side, of the reducer and of storing, and the state is what each cell has been given. A
cell is known by the values of the output indices. Together with its accumulator it is a slot, and
all that is done for a cell is done to its own slot. So an ideal run is a list of visits to slots.
-/

namespace IndexNotation

open Run (exec)

/-- What comes of the right-hand side, of reducing and of storing, by looks. -/
structure Rule where
  element : Env → Except Error Look
  combine : Look → Look → Except Error Look
  accept : Look → Except Error Look
  init : Look

/-- What the cells of the output have been given. -/
abbrev Cells := List Int → Option Look

abbrev Ideal := ExceptT Error (StateM Cells)

/-- What has been stored for a cell, and its accumulator. -/
abbrev Slot := Option Look × Option Look

abbrev Slots := List Int → Slot

def slots (cells : Cells) (table : Table Look) : Slots := fun c => (cells c, table.lookup c)

/-- What an ideal computation makes of the slots. -/
def settle (x : Ideal (Table Look)) (cells : Cells) : Except Error Slots :=
  (exec x cells).1.map (slots (exec x cells).2)

theorem settle_ok {x : Ideal (Table Look)} {cells cells' : Cells} {table : Table Look}
    (h : exec x cells = (.ok table, cells')) : settle x cells = .ok (slots cells' table) := by
  rw [settle, h]
  rfl

theorem settle_error {x : Ideal (Table Look)} {cells cells' : Cells} {e : Error}
    (h : exec x cells = (.error e, cells')) : settle x cells = .error e := by
  rw [settle, h]
  rfl

/-- `f` does to the slots what `g` says. -/
def Settles (f : Table Look → Ideal (Table Look)) (g : Slots → Except Error Slots) : Prop :=
  ∀ table cells, settle (f table) cells = g (slots cells table)

theorem Settles.pure : Settles Pure.pure Except.ok := fun _ _ => rfl

theorem Settles.bind {f f' : Table Look → Ideal (Table Look)} {g g' : Slots → Except Error Slots}
    (h : Settles f g) (h' : Settles f' g') : Settles (fun t => f t >>= f') (fun s => g s >>= g') := by
  intro table cells
  change settle (f table >>= f') cells = g (slots cells table) >>= g'
  have hf := h table cells
  rcases hx : exec (f table) cells with ⟨e | t, cells'⟩
  · rw [settle_error hx] at hf
    rw [settle_error (Run.exec_bind_error hx), ← hf]
    rfl
  · rw [settle_ok hx] at hf
    rw [settle, Run.exec_bind_ok hx, ← hf]
    exact h' t cells'

theorem Settles.foldlM {α : Type} {f : α → Table Look → Ideal (Table Look)}
    {g : α → Slots → Except Error Slots} (as : List α) (h : ∀ a ∈ as, Settles (f a) (g a)) :
    Settles (fun t => as.foldlM (fun t a => f a t) t) (fun s => as.foldlM (fun s a => g a s) s) := by
  induction as with
  | nil => exact .pure
  | cons a as ih =>
    simp only [List.foldlM_cons]
    exact (h a (.head _)).bind (ih fun b hb => h b (.tail _ hb))

theorem Table.lookup_set {V : Type} (table : Table V) (c c' : List Int) (v : V) :
    List.lookup c' (table.set c v) = if c' = c then some v else List.lookup c' table := by
  induction table with
  | nil =>
    rw [Table.set, List.lookup_cons]
    by_cases h : c' = c
    · simp [h]
    · simp [h, beq_false_of_ne h]
  | cons e table ih =>
    obtain ⟨d, w⟩ := e
    rw [Table.set]
    split
    · rename_i hd
      obtain rfl := eq_of_beq hd
      by_cases h : c' = d
      · simp [h]
      · simp [h, List.lookup_cons, beq_false_of_ne h]
    · rename_i hd
      rw [List.lookup_cons, List.lookup_cons, ih]
      by_cases h : c' = d
      · have hne : d ≠ c := fun e => hd (by simp [e])
        simp [h, hne]
      · simp [beq_false_of_ne h]

namespace Rule

variable (r : Rule) (outputs : List String) (rs : Ranges)

def machine : Machine Ideal Look where
  element env := r.element env
  combine acc v := r.combine acc v
  store env l := do
    let cell ← r.accept l
    modify fun cells => Function.update cells (env.cell outputs) (some cell)
  init := r.init

/-- The values of a cell, reduced from `acc` on. -/
def reduce (loops : List InnerLoop) (env : Env) (acc : Look) : Except Error Look :=
  (points (loops.map fun l => (l.index, l.values rs))).foldlM
    (fun acc p => do r.combine acc (← r.element (p.reverse ++ env))) acc

theorem exec_reduceCell (loops : List InnerLoop) (env : Env) (acc : Look) (cells : Cells) :
    exec (reduceCell (r.machine outputs) rs loops env acc) cells = (r.reduce rs loops env acc, cells) := by
  rw [reduceCell, foldLoops_eq, reduce]
  generalize points (loops.map fun l => (l.index, l.values rs)) = ps
  induction ps generalizing acc with
  | nil => rfl
  | cons p ps ih =>
    rw [List.foldlM_cons, List.foldlM_cons]
    have hstep : exec (do (r.machine outputs).combine acc (← (r.machine outputs).element (p.reverse ++ env)))
        cells = ((do r.combine acc (← r.element (p.reverse ++ env))), cells) := by
      simp only [machine]
      cases r.element (p.reverse ++ env) with
      | error e => rfl
      | ok v => exact Run.exec_lift _ _
    rw [Run.exec_bind, hstep]
    cases (do r.combine acc (← r.element (p.reverse ++ env))) with
    | error e => rfl
    | ok acc' => exact ih acc'

end Rule

/-! ## Visits -/

/-- What is done to the slot of a cell. -/
structure Visit where
  cell : List Int
  work : Slot → Except Error Slot

def Visit.run (v : Visit) (s : Slots) : Except Error Slots := do
  return Function.update s v.cell (← v.work (s v.cell))

def runVisits (vs : List Visit) (s : Slots) : Except Error Slots :=
  vs.foldlM (fun s v => v.run s) s

namespace Rule

variable (r : Rule) (outputs : List String) (rs : Ranges)

/-- What is done for one output cell. -/
def visit (body : Body) (env : Env) : Visit where
  cell := env.cell outputs
  work s :=
    match body with
    | .store => do return (some (← r.accept (← r.element env)), s.2)
    | .reduce _ false loops => do return (some (← r.accept (← r.reduce rs loops env r.init)), s.2)
    | .reduce _ true loops => do return (s.1, some (← r.reduce rs loops env (s.2.getD r.init)))

/-- The accumulator of a cell is stored. -/
def flushVisit (env : Env) : Visit where
  cell := env.cell outputs
  work s := do return (some (← r.accept (s.2.getD r.init)), s.2)

theorem slots_update (cells : Cells) (table : Table Look) (c : List Int) (l : Look) :
    slots (Function.update cells c (some l)) table =
      Function.update (slots cells table) c (some l, table.lookup c) := by
  funext c'
  by_cases h : c' = c
  · subst h
    simp [slots]
  · simp [slots, h]

theorem slots_set (cells : Cells) (table : Table Look) (c : List Int) (l : Look) :
    slots cells (table.set c l) = Function.update (slots cells table) c (cells c, some l) := by
  funext c'
  rw [slots, Table.lookup_set]
  by_cases h : c' = c
  · subst h
    simp
  · simp [slots, h]

theorem settle_store (env : Env) (l : Look) (table : Table Look) (cells : Cells) :
    settle (do (r.machine outputs).store env l; return table) cells = (do
      return Function.update (slots cells table) (env.cell outputs)
        (some (← r.accept l), table.lookup (env.cell outputs))) := by
  simp only [machine]
  cases r.accept l with
  | error e => rfl
  | ok cell =>
    rw [settle]
    exact congrArg Except.ok (slots_update cells table _ cell)

theorem settles_runCell (body : Body) (env : Env) :
    Settles (runCell (r.machine outputs) rs outputs body env) (r.visit outputs rs body env).run := by
  intro table cells
  have hstore {x : Ideal Look} {o : Except Error Look} (hx : exec x cells = (o, cells)) :
      settle (do (r.machine outputs).store env (← x); return table) cells = (do
        return Function.update (slots cells table) (env.cell outputs)
          (some (← r.accept (← o)), table.lookup (env.cell outputs))) := by
    cases o with
    | error e => exact settle_error (Run.exec_bind_error hx)
    | ok l =>
      rw [settle, Run.exec_bind_ok hx]
      exact r.settle_store outputs env l table cells
  cases body with
  | store =>
    refine (hstore (Run.exec_lift (r.element env) cells)).trans ?_
    simp [Visit.run, visit, slots]
  | reduce op resume loops =>
    cases resume with
    | false =>
      refine (hstore (r.exec_reduceCell outputs rs loops env r.init cells)).trans ?_
      simp [Visit.run, visit, slots]
    | true =>
      have hreduce := r.exec_reduceCell outputs rs loops env (table.get (env.cell outputs) r.init) cells
      simp only [Visit.run, visit, slots]
      rw [show (table.lookup (env.cell outputs)).getD r.init = table.get (env.cell outputs) r.init from rfl]
      generalize r.reduce rs loops env (table.get (env.cell outputs) r.init) = o at hreduce ⊢
      cases o with
      | error e => exact settle_error (Run.exec_bind_error hreduce)
      | ok l =>
        have hrun : exec (runCell (r.machine outputs) rs outputs (.reduce op true loops) env table) cells =
            (.ok (table.set (env.cell outputs) l), cells) := Run.exec_bind_ok hreduce
        rw [settle_ok hrun]
        exact congrArg Except.ok (slots_set cells table _ l)

end Rule

/-! ## Whole runs -/

theorem settle_congr {x y : Ideal (Table Look)} (h : Run.SameOutcome x y) (cells : Cells) :
    settle x cells = settle y cells := by
  rcases h cells with ⟨table, cells', hx, hy⟩ | ⟨e, hx, hy⟩
  · rw [settle_ok hx, settle_ok hy]
  · rw [settle_error (Prod.ext hx rfl), settle_error (Prod.ext hy rfl)]

namespace Rule

variable (r : Rule) (outputs : List String) (p : Plan) (rs : Ranges)

theorem settles_runOutputs (workers : Nat) :
    Settles (runOutputs (r.machine outputs) workers outputs p rs)
      (runVisits ((p.cells rs).map (r.visit outputs rs p.body))) := by
  have hfold := Settles.foldlM (p.cells rs) fun c _ => r.settles_runCell outputs rs p.body c
  intro table cells
  rw [settle_congr (runOutputs_sameOutcome _ workers outputs p rs table), runVisits, List.foldlM_map]
  exact hfold table cells

theorem settle_runTiles (workers : Nat) (hw : ∀ g, p.tiles = some g → 0 < g.width) (cells : Cells) :
    settle (runTiles (r.machine outputs) workers outputs p rs) cells =
      runVisits ((p.blocks rs).flatMap fun rs' => (p.cells rs').map (r.visit outputs rs' p.body))
        (slots cells []) := by
  unfold runTiles Plan.blocks
  cases hg : p.tiles with
  | none =>
    rw [List.flatMap_singleton]
    exact r.settles_runOutputs outputs p rs workers [] cells
  | some g =>
    simp only [tileBlocks_eq rs g.indices (hw g hg)]
    have hfold := Settles.foldlM
      (combinations (g.indices.map fun i => (rs.get i).pieces g.width.toNat)) fun block _ =>
        r.settles_runOutputs outputs p (rs.rebind g.indices block) workers
    rw [runVisits, List.flatMap_map, foldlM_flatMap]
    exact hfold [] cells

theorem settle_stores (table : Table Look) (envs : List Env) (cells : Cells) :
    settle (do
      envs.foldlM (fun _ env => (r.machine outputs).store env (table.get (env.cell outputs) r.init)) ⟨⟩
      return table) cells = runVisits (envs.map (r.flushVisit outputs)) (slots cells table) := by
  induction envs generalizing cells with
  | nil => rfl
  | cons env envs ih =>
    rw [List.foldlM_cons, bind_assoc, List.map_cons, runVisits, List.foldlM_cons]
    have hrun : (r.flushVisit outputs env).run (slots cells table) = (do
        return Function.update (slots cells table) (env.cell outputs)
          (some (← r.accept (table.get (env.cell outputs) r.init)), table.lookup (env.cell outputs))) := by
      simp [Visit.run, flushVisit, slots, Table.get]
    rw [hrun]
    have hstore : exec ((r.machine outputs).store env (table.get (env.cell outputs) r.init)) cells =
        match r.accept (table.get (env.cell outputs) r.init) with
        | .error e => (.error e, cells)
        | .ok cell => (.ok ⟨⟩, Function.update cells (env.cell outputs) (some cell)) := by
      simp only [machine]
      cases r.accept (table.get (env.cell outputs) r.init) <;> rfl
    generalize r.accept (table.get (env.cell outputs) r.init) = o at hstore ⊢
    cases o with
    | error e => exact settle_error (Run.exec_bind_error hstore)
    | ok cell =>
      rw [settle, Run.exec_bind_ok hstore]
      refine (ih _).trans ?_
      rw [slots_update]
      rfl

theorem settle_flush (table : Table Look) (cells : Cells) :
    settle (do flush (r.machine outputs) outputs rs table; return table) cells =
      runVisits (((rs.points outputs).map List.reverse).map (r.flushVisit outputs)) (slots cells table) := by
  rw [← settle_stores, flush, foldLoops_eq, List.foldlM_map]
  simp only [List.append_nil]
  rfl

/-- All visits of an ideal run. -/
def visits : List Visit :=
  ((p.blocks rs).flatMap fun rs' => (p.cells rs').map (r.visit outputs rs' p.body)) ++
    if p.body.resumes then ((rs.points outputs).map List.reverse).map (r.flushVisit outputs) else []

/-- Slots of cells for which nothing has been done. -/
def blankSlots : Slots := fun _ => (none, none)

/-- An ideal run does its visits, one after the other. -/
theorem exec_runPlan (workers : Nat) (hw : ∀ g, p.tiles = some g → 0 < g.width) :
    (exec (runPlan (r.machine outputs) workers outputs p rs) fun _ => none).1.map (fun _ =>
        (exec (runPlan (r.machine outputs) workers outputs p rs) fun _ => none).2) =
      (runVisits (r.visits outputs p rs) blankSlots).map fun s c => (s c).1 := by
  have htiles := r.settle_runTiles outputs p rs workers hw fun _ => none
  rw [show slots (fun _ => none) [] = blankSlots from rfl] at htiles
  rw [visits, runVisits, List.foldlM_append, ← runVisits, ← htiles, runPlan, Run.exec_bind]
  rcases hx : exec (runTiles (r.machine outputs) workers outputs p rs) fun _ => none with ⟨e | t, cells⟩
  · rw [settle_error hx]
    rfl
  · rw [settle_ok hx]
    change _ = Except.map _ (runVisits _ (slots cells t))
    cases p.body.resumes with
    | false => rfl
    | true =>
      rw [if_pos rfl, ← settle_flush]
      simp only [if_true]
      rcases hf : exec (flush (r.machine outputs) outputs rs t) cells with ⟨e | _, cells'⟩
      · rw [settle_error (Run.exec_bind_error hf)]
        rfl
      · rw [settle_ok ((Run.exec_bind_ok hf).trans (Run.exec_pure t cells'))]
        rfl

end Rule

end IndexNotation
