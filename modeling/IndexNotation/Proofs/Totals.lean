import IndexNotation.Proofs.Ideal
import IndexNotation.Proofs.Regrouping

/-!
# Ideal runs that do not fail

What an ideal run gives a cell, if evaluating and reducing never fail and steps of the reduction may
be exchanged: the total of the values of the cell, whatever the blocks and the order of the loops.
All visits to a slot together are one local computation on the slot, and that is a fold over the
points of the cell.
-/

namespace IndexNotation

/-! ## One slot -/

/-- What visits do to the slot of one cell. -/
def visitsAt (vs : List Visit) (d : List Int) (s : Slot) : Except Error Slot :=
  (vs.filter (·.cell = d)).foldlM (fun s v => v.work s) s

theorem visitsAt_append (vs vs' : List Visit) (d : List Int) (s : Slot) :
    visitsAt (vs ++ vs') d s = visitsAt vs d s >>= visitsAt vs' d := by
  simp only [visitsAt, List.filter_append, List.foldlM_append]
  rfl

/-- Visits succeed if they do so at every slot. -/
theorem runVisits_eq_ok_iff {vs : List Visit} {s s' : Slots} :
    runVisits vs s = .ok s' ↔ ∀ d, visitsAt vs d (s d) = .ok (s' d) := by
  induction vs generalizing s with
  | nil =>
    change Except.ok s = .ok s' ↔ ∀ d, Except.ok (s d) = .ok (s' d)
    simp only [Except.ok.injEq]
    exact funext_iff
  | cons v vs ih =>
    have hrun : runVisits (v :: vs) s =
        v.work (s v.cell) >>= fun x => runVisits vs (Function.update s v.cell x) := by
      rw [runVisits, List.foldlM_cons, Visit.run, bind_assoc]
      rfl
    have hself (x : Slot) : visitsAt (v :: vs) v.cell x = v.work x >>= visitsAt vs v.cell := by
      rw [visitsAt, List.filter_cons_of_pos (by simp), List.foldlM_cons]
      rfl
    have hother {d : List Int} (hd : d ≠ v.cell) (x : Slot) : visitsAt (v :: vs) d x = visitsAt vs d x := by
      rw [visitsAt, List.filter_cons_of_neg (by simpa using hd.symm), visitsAt]
    rw [hrun]
    cases hx : v.work (s v.cell) with
    | error e =>
      constructor
      · intro h
        cases h
      · intro h
        have hcell := h v.cell
        rw [hself, hx] at hcell
        cases hcell
    | ok x =>
      change runVisits vs _ = _ ↔ _
      rw [ih]
      refine forall_congr' fun d => ?_
      by_cases hd : d = v.cell
      · subst hd
        rw [hself, hx, Function.update_self]
        rfl
      · rw [hother hd, Function.update_of_ne hd]

/-- Visits that store what the accumulator says do it once and for all. -/
theorem foldlM_work_eq {vs : List Visit} (hne : vs ≠ []) {x : Option Look → Except Error Look}
    (h : ∀ v ∈ vs, ∀ s : Slot, v.work s = (x s.2).map fun l => (some l, s.2)) (s : Slot) :
    vs.foldlM (fun s v => v.work s) s = (x s.2).map fun l => (some l, s.2) := by
  induction vs generalizing s with
  | nil => exact absurd rfl hne
  | cons v vs ih =>
    rw [List.foldlM_cons, h v (.head _)]
    by_cases hvs : vs = []
    · subst hvs
      cases x s.2 <;> rfl
    · simp only [ih hvs fun v hv => h v (.tail _ hv)]
      cases hx : x s.2 with
      | error e => rfl
      | ok l => exact congrArg (Except.map _) hx

/-! ## Plans -/

/-- A plan has its loops over `outputs` and `inner`. -/
structure Plan.Lays (p : Plan) (outputs inner : List String) : Prop where
  outer : p.outer = outputs.reverse
  body : (inner = [] ∧ p.body = .store) ∨ (inner ≠ [] ∧ ∃ op resume loops,
    loops.map InnerLoop.index = inner ∧ p.body = .reduce op resume loops)
  nodup : (outputs ++ inner).Nodup
  group : ∀ g, p.tiles = some g → g.indices.Nodup ∧ 0 < g.width ∧
    (∀ i ∈ g.indices, i ∈ outputs ++ inner) ∧ (p.body.resumes = false → ∀ i ∈ g.indices, i ∉ inner)

namespace Plan.Lays

variable {p : Plan} {outputs inner : List String} (h : p.Lays outputs inner)

include h

theorem mem_cells {rs : Ranges} {c : Env} : c ∈ p.cells rs ↔ c ∈ rs.points outputs := by
  rw [Plan.mem_cells, h.outer, List.reverse_reverse]

/-- Without resuming, the loops over the values of a cell are the same in all blocks. -/
theorem get_inner {rs rs' : Ranges} (hplain : p.body.resumes = false) (hrs : rs' ∈ p.blocks rs) {i : String}
    (hi : i ∈ inner) : rs'.get i = rs.get i := by
  unfold Plan.blocks at hrs
  split at hrs
  · obtain rfl := List.mem_singleton.1 hrs
    rfl
  · rename_i g hg
    obtain ⟨block, -, rfl⟩ := List.mem_map.1 hrs
    exact Ranges.get_rebind_of_notMem (fun hmem => (h.group g hg).2.2.2 hplain i hmem hi) block

theorem points_inner {rs rs' : Ranges} (hplain : p.body.resumes = false) (hrs : rs' ∈ p.blocks rs) :
    rs'.points inner = rs.points inner :=
  Ranges.points_congr fun i hi => by rw [h.get_inner hplain hrs hi]

/-- Without resuming, the blocks go through the cells of the output. -/
theorem cells_blocks_perm (rs : Ranges) (hplain : p.body.resumes = false) :
    ((p.blocks rs).flatMap p.cells).Perm (p.cells rs) := by
  have hnodup : p.outer.Nodup := by
    rw [h.outer, List.nodup_reverse]
    exact (List.nodup_append.1 h.nodup).1
  have hperm := p.points_blocks_perm rs hnodup fun g hg => by
    obtain ⟨hnodup, hwidth, hsub, hapart⟩ := h.group g hg
    refine ⟨hnodup, hwidth, fun i hi => ?_⟩
    rw [h.outer, List.mem_reverse]
    exact (List.mem_append.1 (hsub i hi)).resolve_right (hapart hplain i hi)
  have hcells := hperm.map List.reverse
  rwa [List.map_flatMap] at hcells

/-- Without resuming, every cell is in a block. -/
theorem exists_block {rs : Ranges} (hplain : p.body.resumes = false) {c : Env}
    (hc : c ∈ rs.points outputs) : ∃ rs' ∈ p.blocks rs, c ∈ rs'.points outputs := by
  have hmem := (h.cells_blocks_perm rs hplain).mem_iff.2 (h.mem_cells.2 hc)
  obtain ⟨rs', hrs', hin⟩ := List.mem_flatMap.1 hmem
  exact ⟨rs', hrs', h.mem_cells.1 hin⟩

/-- A block that has a cell visits it once. -/
theorem filter_cells {rs rs' : Ranges} {c : Env} (hc : c ∈ rs.points outputs) :
    (p.cells rs').filter (fun c' => c'.cell outputs = c.cell outputs) =
      if c ∈ rs'.points outputs then [c] else [] := by
  have hnodup := (List.nodup_append.1 h.nodup).1
  have heq : (p.cells rs').filter (fun c' => c'.cell outputs = c.cell outputs) =
      (p.cells rs').filter (· == c) := by
    refine List.filter_congr fun c' hc' => ?_
    rw [beq_eq_decide, decide_eq_decide]
    exact ⟨fun e => Ranges.eq_of_cell_eq hnodup (h.mem_cells.1 hc') hc e, fun e => by rw [e]⟩
  rw [heq, List.filter_beq]
  split
  · rename_i hmem
    rw [List.count_eq_one_of_mem (p.nodup_cells rs') (h.mem_cells.2 hmem)]
    rfl
  · rename_i hmem
    rw [List.count_eq_zero_of_not_mem fun hin => hmem (h.mem_cells.1 hin)]
    rfl

end Plan.Lays

/-! ## The values of a cell -/

namespace Rule

variable (r : Rule)

/-- Takes the value at one more point into an accumulator of the cell `c`. -/
def take (c : Env) (acc : Look) (q : Env) : Except Error Look := do
  r.combine acc (← r.element (q.reverse ++ c))

/-- What the cell `c` takes: the value of the right-hand side, or all its values reduced. -/
def value (rs : Ranges) (inner : List String) (c : Env) : Except Error Look :=
  if inner = [] then r.element c else (rs.points inner).foldlM (r.take c) r.init

/-- What is stored for the cell `c`. -/
def given (rs : Ranges) (inner : List String) (c : Env) : Except Error Look := do
  r.accept (← r.value rs inner c)

theorem reduce_eq {rs : Ranges} (hrs : rs.Gapless) (loops : List InnerLoop) (c : Env) (acc : Look) :
    r.reduce rs loops c acc = (rs.points (loops.map (·.index))).foldlM (r.take c) acc := by
  rw [reduce, hrs.points_values]
  rfl

/-- Evaluating and reducing never fail on values in `P`, and steps of the reduction may be
exchanged. -/
structure Sure (P : Look → Prop) (rs : Ranges) (outputs inner : List String) : Prop where
  element : ∀ env : Env, env.Covers rs (outputs ++ inner) → ∃ l, r.element env = .ok l ∧ P l
  congr : ∀ env env' : Env, (∀ i, env.lookup i = env'.lookup i) → r.element env = r.element env'
  combine : ∀ a x, P a → P x → ∃ l, r.combine a x = .ok l ∧ P l
  comm : ∀ a x y, P a → P x → P y →
    (r.combine a x >>= (r.combine · y)) = (r.combine a y >>= (r.combine · x))
  init : inner ≠ [] → P r.init

namespace Sure

variable {r} {P : Look → Prop} {rs : Ranges} {outputs inner : List String} (h : r.Sure P rs outputs inner)
  {c : Env}

include h

/-- The loops have the innermost index in front, the points have it at the end. -/
theorem element_reverse {indices : List String} (hnodup : indices.Nodup) {q : Env}
    (hq : q ∈ rs.points indices) : r.element (q.reverse ++ c) = r.element (q ++ c) := by
  refine h.congr _ _ fun i => ?_
  rw [List.lookup_append, List.lookup_append, lookup_eq_of_perm (List.reverse_perm q)]
  rwa [List.map_reverse, Ranges.map_fst_of_mem_points hq, List.nodup_reverse]

variable (hc : c ∈ rs.points outputs)

include hc

theorem exists_element {q : Env} (hq : q ∈ rs.points inner) :
    ∃ l, r.element (q.reverse ++ c) = .ok l ∧ P l := by
  have hcover := Ranges.covers_of_mem_points hc
  have hcover' := Ranges.covers_of_mem_points hq
  refine h.element _ ⟨fun i v hi => ?_, fun i hi => ?_⟩
  · rcases List.mem_append.1 hi with hi | hi
    · exact hcover'.within i v (List.mem_reverse.1 hi)
    · exact hcover.within i v hi
  · rw [List.map_append, List.map_reverse, List.mem_append, List.mem_reverse]
    exact (List.mem_append.1 hi).symm.imp (hcover'.bound i) (hcover.bound i)

theorem exists_take {acc : Look} (hacc : P acc) {q : Env} (hq : q ∈ rs.points inner) :
    ∃ acc', r.take c acc q = .ok acc' ∧ P acc' := by
  obtain ⟨l, hl, hP⟩ := h.exists_element hc hq
  obtain ⟨acc', hacc', hP'⟩ := h.combine acc l hacc hP
  exact ⟨acc', by rw [take, hl]; exact hacc', hP'⟩

theorem take_comm {acc : Look} (hacc : P acc) {q q' : Env} (hq : q ∈ rs.points inner)
    (hq' : q' ∈ rs.points inner) :
    (r.take c acc q >>= (r.take c · q')) = (r.take c acc q' >>= (r.take c · q)) := by
  obtain ⟨l, hl, hP⟩ := h.exists_element hc hq
  obtain ⟨l', hl', hP'⟩ := h.exists_element hc hq'
  simp only [take, hl, hl']
  exact h.comm acc l l' hacc hP hP'

/-- All orders of the points come to the same. -/
theorem foldlM_take_perm {ps : List Env} (hps : (rs.points inner).Perm ps) {acc : Look} (hacc : P acc) :
    (rs.points inner).foldlM (r.take c) acc = ps.foldlM (r.take c) acc :=
  foldlM_eq_of_perm hps (fun _ hb _ hq => h.exists_take hc hb hq)
    (fun _ hb _ hq _ hq' => h.take_comm hc hb hq hq') hacc

/-- All orders of the indices come to the same. -/
theorem value_perm (hnodup : inner.Nodup) {inner' : List String} (hperm : inner.Perm inner') :
    r.value rs inner c = r.value rs inner' c := by
  by_cases hne : inner = []
  · subst hne
    rw [hperm.nil_eq]
  have hne' : inner' ≠ [] := fun e => hne (by rw [e] at hperm; exact hperm.eq_nil)
  rw [value, value, if_neg hne, if_neg hne']
  have hvalues {inner : List String} (hnodup : inner.Nodup) :
      (rs.points inner).foldlM (r.take c) r.init = ((rs.points inner).map fun q => r.element (q ++ c)).foldlM
        (fun acc x => x >>= r.combine acc) r.init := by
    rw [List.foldlM_map]
    refine foldlM_congr_mem (fun q hq acc => ?_) _
    rw [take, h.element_reverse hnodup hq]
  rw [hvalues hnodup, hvalues (hperm.nodup_iff.1 hnodup)]
  have hall {x : Except Error Look} (hx : x ∈ (rs.points inner).map fun q => r.element (q ++ c)) :
      ∃ l, x = .ok l ∧ P l := by
    obtain ⟨q, hq, rfl⟩ := List.mem_map.1 hx
    obtain ⟨l, hl, hP⟩ := h.exists_element hc hq
    exact ⟨l, (h.element_reverse hnodup hq).symm.trans hl, hP⟩
  refine foldlM_eq_of_perm (Ranges.map_points_perm hperm hnodup fun q q' hq => h.congr _ _ fun i => ?_)
    (fun acc hacc x hx => ?_) (fun acc hacc x hx y hy => ?_) (h.init hne)
  · rw [List.lookup_append, List.lookup_append, hq]
  · obtain ⟨l, rfl, hP⟩ := hall hx
    exact h.combine acc l hacc hP
  · obtain ⟨l, rfl, hP⟩ := hall hx
    obtain ⟨l', rfl, hP'⟩ := hall hy
    exact h.comm acc l l' hacc hP hP'

end Sure

/-! ## What an ideal run gives -/

/-- What has been given to the cells: each cell of the output took what it has to take, and there
are no others. -/
def Fills (rs : Ranges) (outputs inner : List String) (cells : Cells) : Prop :=
  (∀ c ∈ rs.points outputs, ∃ l, r.given rs inner c = .ok l ∧ cells (c.cell outputs) = some l) ∧
  ∀ d, (∀ c ∈ rs.points outputs, c.cell outputs ≠ d) → cells d = none

/-- With resuming, the blocks that have a cell pass its accumulator on. -/
theorem foldlM_resume (outputs : List String) (op : String) (loops : List InnerLoop) (c : Env)
    (Rs : List Ranges) (hRs : ∀ rs' ∈ Rs, rs'.Gapless) (x o : Option Look) :
    ((Rs.flatMap fun rs' : Ranges =>
      if c ∈ rs'.points outputs then [r.visit outputs rs' (.reduce op true loops) c] else []).foldlM
        (fun s v => Visit.work v s) (x, o)).map (fun s => (s.1, s.2.getD r.init)) =
    ((Rs.flatMap fun rs' : Ranges =>
      if c ∈ rs'.points outputs then rs'.points (loops.map (·.index)) else []).foldlM
        (r.take c) (o.getD r.init)).map fun acc => (x, acc) := by
  induction Rs generalizing o with
  | nil => rfl
  | cons rs' Rs ih =>
    have ih := ih fun rs' h => hRs rs' (.tail _ h)
    rw [List.flatMap_cons, List.flatMap_cons]
    by_cases hmem : c ∈ rs'.points outputs
    · rw [if_pos hmem, if_pos hmem, List.singleton_append, List.foldlM_cons, List.foldlM_append]
      simp only [visit, reduce_eq r (hRs rs' (.head _))]
      cases (rs'.points (loops.map (·.index))).foldlM (r.take c) (o.getD r.init) with
      | error e => rfl
      | ok acc => exact ih (some acc)
    · rw [if_neg hmem, if_neg hmem]
      exact ih o

/-- In the end the accumulator of every cell is stored. -/
theorem visitsAt_flush {rs : Ranges} {outputs : List String} (hnodup : outputs.Nodup) {c : Env}
    (hc : c ∈ rs.points outputs) (s : Slot) :
    visitsAt (((rs.points outputs).map List.reverse).map (r.flushVisit outputs)) (c.cell outputs) s =
      (r.accept (s.2.getD r.init)).map fun l => (some l, s.2) := by
  refine foldlM_work_eq (x := fun o => r.accept (o.getD r.init)) ?_ (fun v hv s => ?_) s
  · refine List.ne_nil_of_mem (a := r.flushVisit outputs c.reverse) (List.mem_filter.2 ⟨?_, ?_⟩)
    · exact List.mem_map_of_mem (List.mem_map_of_mem hc)
    · exact decide_eq_true (Ranges.cell_reverse_of_mem_points hnodup hc)
  · obtain ⟨env, -, rfl⟩ := List.mem_map.1 (List.mem_filter.1 hv).1
    simp only [flushVisit]
    cases r.accept (s.2.getD r.init) <;> rfl

/-- An ideal run of `p` leaves every cell with what it has to take. -/
def Serves (p : Plan) (rs : Ranges) (outputs inner : List String) : Prop :=
  ∀ c ∈ rs.points outputs, (visitsAt (r.visits outputs p rs) (c.cell outputs) (none, none)).map Prod.fst =
    (r.given rs inner c).map some

variable {r} in
theorem Fills.unique {rs : Ranges} {outputs inner : List String} {cells cells' : Cells}
    (h : r.Fills rs outputs inner cells) (h' : r.Fills rs outputs inner cells') : cells = cells' := by
  funext d
  by_cases hd : ∀ c ∈ rs.points outputs, c.cell outputs ≠ d
  · rw [h.2 d hd, h'.2 d hd]
  · push Not at hd
    obtain ⟨c, hc, rfl⟩ := hd
    obtain ⟨l, hl, hcell⟩ := h.1 c hc
    obtain ⟨l', hl', hcell'⟩ := h'.1 c hc
    cases hl.symm.trans hl'
    rw [hcell, hcell']

section

variable {r} {P : Look → Prop} {rs : Ranges} {outputs inner : List String} {p : Plan}
  (hp : p.Lays outputs inner)

include hp

/-- The visits to one cell. -/
theorem filter_visits {c : Env} {rs₀ : Ranges} (hc : c ∈ rs₀.points outputs) (Rs : List Ranges) (body : Body) :
    ((Rs.flatMap fun rs' => (p.cells rs').map (r.visit outputs rs' body)).filter
      (·.cell = c.cell outputs)) =
    Rs.flatMap fun rs' => if c ∈ rs'.points outputs then [r.visit outputs rs' body c] else [] := by
  rw [List.filter_flatMap]
  refine List.flatMap_congr fun rs' _ => ?_
  rw [List.filter_map]
  refine (congrArg _ (hp.filter_cells hc)).trans ?_
  split <;> rfl

/-- Without resuming, a cell is given its value by each block that has it. -/
theorem visitsAt_plain (hrs : rs.Gapless) (hplain : p.body.resumes = false) {c : Env}
    (hc : c ∈ rs.points outputs) (s : Slot) :
    visitsAt ((p.blocks rs).flatMap fun rs' => (p.cells rs').map (r.visit outputs rs' p.body))
      (c.cell outputs) s = (r.given rs inner c).map fun l => (some l, s.2) := by
  rw [visitsAt, filter_visits hp hc]
  refine foldlM_work_eq (x := fun _ => r.given rs inner c) ?_ (fun v hv s => ?_) s
  · obtain ⟨rs', hrs', hmem⟩ := hp.exists_block hplain hc
    exact List.ne_nil_of_mem (List.mem_flatMap.2 ⟨rs', hrs', by rw [if_pos hmem]; exact .head _⟩)
  · obtain ⟨rs', hrs', hv⟩ := List.mem_flatMap.1 hv
    split at hv
    · obtain rfl := List.mem_singleton.1 hv
      have hgapless : rs'.Gapless := fun i => (Plan.refines_of_mem_blocks hrs hrs' i).1
      rcases hp.body with ⟨hinner, hbody⟩ | ⟨hinner, op, resume, loops, hloops, hbody⟩
      · simp only [visit, hbody, given, value, hinner, if_true]
        cases r.element c with
        | error e => rfl
        | ok l => cases r.accept l <;> rfl
      · rw [hbody] at hplain
        obtain rfl : resume = false := hplain
        simp only [visit, hbody, given, value, hinner, if_false, reduce_eq r hgapless, hloops,
          hp.points_inner (by rw [hbody]; rfl) hrs']
        cases (rs.points inner).foldlM (r.take c) r.init with
        | error e => rfl
        | ok l => cases r.accept l <;> rfl
    · cases hv

theorem visitsAt_resume (hrs : rs.Gapless) {op : String} {loops : List InnerLoop}
    (hbody : p.body = .reduce op true loops) {c : Env} (hc : c ∈ rs.points outputs) (s : Slot) :
    (visitsAt ((p.blocks rs).flatMap fun rs' => (p.cells rs').map (r.visit outputs rs' p.body))
      (c.cell outputs) s).map (fun s => (s.1, s.2.getD r.init)) =
    (((p.blocks rs).flatMap fun rs' =>
      if c ∈ rs'.points outputs then rs'.points (loops.map (·.index)) else []).foldlM
        (r.take c) (s.2.getD r.init)).map fun acc => (s.1, acc) := by
  rw [visitsAt, filter_visits hp hc, hbody]
  exact r.foldlM_resume outputs op loops c (p.blocks rs)
    (fun rs' hrs' i => (Plan.refines_of_mem_blocks hrs hrs' i).1) s.1 s.2

/-- Without resuming, every cell takes what it has to, whatever the reducer. -/
theorem serves_of_plain (hrs : rs.Gapless) (hplain : p.body.resumes = false) :
    r.Serves p rs outputs inner := by
  intro c hc
  rw [visits, visitsAt_append, visitsAt_plain hp hrs hplain hc, if_neg (by simp [hplain])]
  cases r.given rs inner c <;> rfl

theorem Sure.serves (h : r.Sure P rs outputs inner) (hrs : rs.Gapless) : r.Serves p rs outputs inner := by
  intro c hc
  cases hplain : p.body.resumes with
  | false => exact serves_of_plain hp hrs hplain c hc
  | true =>
    rw [visits, visitsAt_append, hplain]
    obtain ⟨hinner, op, resume, loops, hloops, hbody⟩ : inner ≠ [] ∧ ∃ op resume loops,
        loops.map InnerLoop.index = inner ∧ p.body = .reduce op resume loops := by
      refine hp.body.resolve_left fun hstore => ?_
      rw [hstore.2] at hplain
      cases hplain
    obtain rfl : resume = true := by rwa [hbody] at hplain
    have hperm := p.flatMap_blocks_perm rs outputs inner hp.nodup
      (fun g hg => ⟨(hp.group g hg).1, (hp.group g hg).2.1, (hp.group g hg).2.2.1⟩) c
    rw [if_pos hc] at hperm
    have hblocks := visitsAt_resume (r := r) hp hrs hbody hc (none, none)
    rw [hloops, Option.getD_none, ← h.foldlM_take_perm hc hperm.symm (h.init hinner)] at hblocks
    rw [given, value, if_neg hinner, if_pos rfl]
    -- What is stored is decided by the accumulator, and that is what the blocks come to.
    generalize (rs.points inner).foldlM (r.take c) r.init = total at hblocks
    generalize visitsAt _ _ _ = passed at hblocks ⊢
    rcases passed with e | s <;> rcases total with e' | acc
    · cases hblocks
      rfl
    · cases hblocks
    · cases hblocks
    · obtain rfl : s.2.getD r.init = acc := congrArg Prod.snd (Except.ok.inj hblocks)
      change (visitsAt _ (c.cell outputs) s).map Prod.fst = (r.accept (s.2.getD r.init)).map some
      rw [visitsAt_flush r (List.nodup_append.1 hp.nodup).1 hc]
      cases r.accept (s.2.getD r.init) <;> rfl

/-- All visits are to cells of the output. -/
theorem exists_of_mem_visits (hrs : rs.Gapless) {v : Visit} (hv : v ∈ r.visits outputs p rs) :
    ∃ c ∈ rs.points outputs, v.cell = c.cell outputs := by
  rcases List.mem_append.1 hv with hv | hv
  · obtain ⟨rs', hrs', hv⟩ := List.mem_flatMap.1 hv
    obtain ⟨c, hc, rfl⟩ := List.mem_map.1 hv
    have hrefines := Plan.refines_of_mem_blocks hrs hrs'
    exact ⟨c, Ranges.mem_points_of_refines hrefines (hp.mem_cells.1 hc), rfl⟩
  · split at hv
    · obtain ⟨env, henv, rfl⟩ := List.mem_map.1 hv
      obtain ⟨c, hc, rfl⟩ := List.mem_map.1 henv
      exact ⟨c, hc, Ranges.cell_reverse_of_mem_points (List.nodup_append.1 hp.nodup).1 hc⟩
    · cases hv

/-- An ideal run that does not fail fills the cells of the output. -/
theorem runVisits_eq_ok_iff_fills (h : r.Serves p rs outputs inner) (hrs : rs.Gapless) {cells : Cells} :
    (runVisits (r.visits outputs p rs) blankSlots).map (fun s c => (s c).1) = .ok cells ↔
      r.Fills rs outputs inner cells := by
  have hother {d : List Int} (hd : ∀ c ∈ rs.points outputs, c.cell outputs ≠ d) :
      visitsAt (r.visits outputs p rs) d (none, none) = .ok (none, none) := by
    rw [visitsAt, List.filter_eq_nil_iff.2 fun v hv => ?_]
    · rfl
    · obtain ⟨c, hc, hcell⟩ := exists_of_mem_visits hp hrs hv
      simpa [hcell] using hd c hc
  constructor
  · intro hrun
    obtain ⟨s, hs, rfl⟩ := map_eq_ok hrun
    have hat (d : List Int) : visitsAt (r.visits outputs p rs) d (none, none) = .ok (s d) :=
      runVisits_eq_ok_iff.1 hs d
    refine ⟨fun c hc => ?_, fun d hd => ?_⟩
    · have hcell := h c hc
      rw [hat] at hcell
      obtain ⟨l, hl, hsome⟩ := map_eq_ok hcell.symm
      exact ⟨l, hl, hsome.symm⟩
    · have hcell := hother hd
      rw [hat] at hcell
      exact congrArg Prod.fst (Except.ok.inj hcell)
  · rintro ⟨hcells, hothers⟩
    have hexists (d : List Int) : ∃ x, visitsAt (r.visits outputs p rs) d (none, none) = .ok x ∧
        x.1 = cells d := by
      by_cases hd : ∀ c ∈ rs.points outputs, c.cell outputs ≠ d
      · exact ⟨_, hother hd, (hothers d hd).symm⟩
      · push Not at hd
        obtain ⟨c, hc, rfl⟩ := hd
        obtain ⟨l, hgiven, hl⟩ := hcells c hc
        have hcell := h c hc
        rw [hgiven] at hcell
        obtain ⟨x, hx, hfst⟩ := map_eq_ok hcell
        exact ⟨x, hx, hfst.trans hl.symm⟩
    choose s hs hfst using hexists
    have hrun : runVisits (r.visits outputs p rs) blankSlots = .ok s := runVisits_eq_ok_iff.2 hs
    rw [hrun]
    exact congrArg Except.ok (funext hfst)

end

/-- If every cell has something to take, it can be given that. -/
theorem exists_fills {r : Rule} {rs : Ranges} {outputs inner : List String} (hnodup : outputs.Nodup)
    (h : ∀ c ∈ rs.points outputs, ∃ l, r.given rs inner c = .ok l) : ∃ cells, r.Fills rs outputs inner cells := by
  classical
  refine ⟨fun d => ((rs.points outputs).find? (·.cell outputs = d)).bind fun c => (r.given rs inner c).toOption,
    fun c hc => ?_, fun d hd => ?_⟩
  · obtain ⟨l, hl⟩ := h c hc
    obtain ⟨c', hc'⟩ : ∃ c', (rs.points outputs).find? (·.cell outputs = c.cell outputs) = some c' :=
      Option.isSome_iff_exists.1 (List.find?_isSome.2 ⟨c, hc, by simp⟩)
    have hcell : c'.cell outputs = c.cell outputs := by simpa using List.find?_some hc'
    obtain rfl := Ranges.eq_of_cell_eq hnodup (List.mem_of_find?_eq_some hc') hc hcell
    refine ⟨l, hl, ?_⟩
    dsimp only
    rw [hc', Option.bind_some, hl]
    rfl
  · have hnone : (rs.points outputs).find? (·.cell outputs = d) = none :=
      List.find?_eq_none.2 fun c hc => by simpa using hd c hc
    dsimp only
    rw [hnone, Option.bind_none]

end Rule

end IndexNotation
