import IndexNotation.Proofs.Guarantees
import IndexNotation.Proofs.Steps
import Mathlib.Data.List.Perm.Subperm

/-!
# What steps come to

A witnessed run writes down every step that its loops take together with what the step came to, as one
thing that nothing comes in between of. The steps that are to be seen in what was written down are owed:
a computation that succeeds has paid all of them and none has failed, and one that fails has paid some.
The same is said of processes, and of groups of them whose steps come in any order.
-/

namespace IndexNotation

open Run (exec Keeps)

/-- A step that the loops of a run have taken, and whether it failed. -/
structure Event where
  step : Step
  result : Except Error Unit

/-- The values of all indices for which a step evaluates the right-hand side. -/
def Step.evaluatedAt? : Step → Option Env
  | evaluate env => some env
  | _ => none

/-- A computation, as a step that is written down with what it came to. -/
def Noting.witness {α : Type} (step : Step) (x : Run α) : Noting Event α :=
  ExceptT.mk fun s =>
    ((exec x s.1).1, ((exec x s.1).2, s.2 ++ [⟨step, (exec x s.1).1.map fun _ => ⟨⟩⟩]))

theorem Noting.exec_witness {α : Type} (step : Step) (x : Run α) (s : World × List Event) :
    exec (witness step x) s =
      ((exec x s.1).1, ((exec x s.1).2, s.2 ++ [⟨step, (exec x s.1).1.map fun _ => ⟨⟩⟩])) := rfl

/-- A machine that writes down what its steps come to. -/
def Machine.witnessed (k : Machine Run Value) : Machine (Noting Event) Value where
  element env := Noting.witness (.evaluate env) (k.element env)
  combine acc v := Noting.witness (.combine acc v) (k.combine acc v)
  store env v := Noting.witness (.store env v) (k.store env v)
  init := k.init

/-! ## What is owed -/

/-- What a computation may do, and which of its steps count. -/
structure Duty where
  allowed : Step → Prop
  counted : Step → Option Env
  /-- How the world may change along events. -/
  change : List Event → World → World → Prop
  refl : ∀ w, change [] w w
  trans : ∀ {es es' w w' w''}, change es w w' → change es' w' w'' → change (es ++ es') w w''

namespace Duty

/-- Evaluating and combining change nothing that is there. The evaluations count. -/
def work : Duty where
  allowed step := step.storedAt? = none
  counted := Step.evaluatedAt?
  change _ := World.Keeps
  refl := World.Keeps.refl
  trans := World.Keeps.trans

variable (d : Duty) {α β σ : Type}

/-- The steps that count among events. -/
def count (es : List Event) : List Env :=
  es.filterMap fun e => d.counted e.step

@[simp]
theorem count_nil : d.count [] = [] := rfl

@[simp]
theorem count_append (es es' : List Event) : d.count (es ++ es') = d.count es ++ d.count es' :=
  List.filterMap_append

/-- A computation does what is allowed. It takes the steps `ps` that count and none fails, or it fails
and has taken some of them. -/
def Owes (x : Noting Event α) (ps : List Env) : Prop :=
  ∀ s, ∃ es, (exec x s).2.2 = s.2 ++ es ∧ d.change es s.1 (exec x s).2.1 ∧ (∀ e ∈ es, d.allowed e.step) ∧
    (d.count es).Subperm ps ∧
    ∀ a, (exec x s).1 = .ok a → (∀ e ∈ es, e.result = .ok ⟨⟩) ∧ (d.count es).Perm ps

variable {d}

theorem owes_pure (a : α) : d.Owes (pure a) [] := fun s =>
  ⟨[], by simp, d.refl _, by simp, .refl _, fun _ _ => ⟨by simp, .refl _⟩⟩

theorem owes_witness {step : Step} {x : Run α} (hallowed : d.allowed step)
    (hchange : ∀ e w, d.change [e] w (exec x w).2) : d.Owes (Noting.witness step x) (d.counted step).toList := by
  intro s
  have hcount (r : Except Error Unit) : d.count [⟨step, r⟩] = (d.counted step).toList := by
    cases h : d.counted step <;> simp [count, h]
  refine ⟨_, rfl, hchange _ s.1, by simpa using hallowed, ?_, fun a ha => ⟨?_, ?_⟩⟩
  · exact hcount _ ▸ .refl _
  · rw [Noting.exec_witness] at ha
    simp [show (exec x s.1).1 = .ok a from ha, Except.map]
  · exact hcount _ ▸ .refl _

theorem Owes.bind {x : Noting Event α} {f : α → Noting Event β} {ps qs : List Env} (hx : d.Owes x ps)
    (hf : ∀ a, d.Owes (f a) qs) : d.Owes (x >>= f) (ps ++ qs) := by
  intro s
  obtain ⟨es, hlog, hchange, hallowed, hsub, hok⟩ := hx s
  rcases hxs : exec x s with ⟨e | a, s'⟩
  · rw [hxs] at hlog hchange
    rw [Run.exec_bind_error hxs]
    exact ⟨es, hlog, hchange, hallowed, hsub.trans (List.sublist_append_left _ _).subperm,
      fun a ha => by cases ha⟩
  · rw [hxs] at hlog hchange hok
    obtain ⟨es', hlog', hchange', hallowed', hsub', hok'⟩ := hf a s'
    obtain ⟨hfine, hperm⟩ := hok a rfl
    rw [Run.exec_bind_ok hxs]
    refine ⟨es ++ es', ?_, d.trans hchange hchange', ?_, ?_, fun b hb => ⟨?_, ?_⟩⟩
    · rw [hlog', hlog, List.append_assoc]
    · exact List.forall_mem_append.2 ⟨hallowed, hallowed'⟩
    · rw [count_append]
      exact hsub.append hsub'
    · exact List.forall_mem_append.2 ⟨hfine, (hok' b hb).1⟩
    · rw [count_append]
      exact hperm.append (hok' b hb).2

theorem Owes.foldlM {f : σ → α → Noting Event σ} {g : α → List Env} {as : List α}
    (h : ∀ a ∈ as, ∀ t, d.Owes (f t a) (g a)) (t : σ) : d.Owes (as.foldlM f t) (as.flatMap g) := by
  induction as generalizing t with
  | nil => exact owes_pure t
  | cons a as ih =>
    rw [List.foldlM_cons, List.flatMap_cons]
    exact (h a (.head _) t).bind fun t' => ih (fun b hb => h b (.tail _ hb)) t'

theorem Owes.foldlM_map {f : σ → α → Noting Event σ} {g : α → Env} {as : List α}
    (h : ∀ a ∈ as, ∀ t, d.Owes (f t a) [g a]) (t : σ) : d.Owes (as.foldlM f t) (as.map g) := by
  rw [List.map_eq_flatMap]
  exact Owes.foldlM h t

/-- A chunk that fails does not stop the others, but all of them together fail then. -/
theorem Owes.runChunks {chunk : Range → σ → Noting Event σ} {g : Range → List Env} {cs : List Range}
    (h : ∀ c ∈ cs, ∀ t, d.Owes (chunk c t) (g c)) (t : σ) :
    d.Owes (IndexNotation.runChunks chunk cs none t) (cs.flatMap g) := by
  suffices hfrom : ∀ failed t s, ∃ es, (exec (IndexNotation.runChunks chunk cs failed t) s).2.2 = s.2 ++ es ∧
      d.change es s.1 (exec (IndexNotation.runChunks chunk cs failed t) s).2.1 ∧ (∀ e ∈ es, d.allowed e.step) ∧
      (d.count es).Subperm (cs.flatMap g) ∧ ∀ a, (exec (IndexNotation.runChunks chunk cs failed t) s).1 = .ok a →
        failed = none ∧ (∀ e ∈ es, e.result = .ok ⟨⟩) ∧ (d.count es).Perm (cs.flatMap g) by
    intro s
    obtain ⟨es, hlog, hchange, hallowed, hsub, hok⟩ := hfrom none t s
    exact ⟨es, hlog, hchange, hallowed, hsub, fun a ha => (hok a ha).2⟩
  induction cs with
  | nil =>
    intro failed t s
    cases failed with
    | none => exact ⟨[], by simp [IndexNotation.runChunks], d.refl _, by simp, .refl _, fun _ _ => ⟨rfl, by simp, .refl _⟩⟩
    | some e =>
      exact ⟨[], by simp [IndexNotation.runChunks], d.refl _, by simp, .refl _, fun a ha => by cases ha⟩
  | cons c cs ih =>
    intro failed t s
    have ih := ih fun c hc => h c (.tail _ hc)
    obtain ⟨es, hlog, hchange, hallowed, hsub, hok⟩ := h c (.head _) t s
    rw [IndexNotation.runChunks, Run.exec_bind_ok (Run.exec_attempt _ _)]
    rcases hchunk : exec (chunk c t) s with ⟨e | t', s'⟩
    · rw [hchunk] at hlog hchange
      obtain ⟨es', hlog', hchange', hallowed', hsub', hok'⟩ := ih (failed.orElse fun _ => some e) t s'
      refine ⟨es ++ es', ?_, d.trans hchange hchange', List.forall_mem_append.2 ⟨hallowed, hallowed'⟩, ?_,
        fun a ha => ?_⟩
      · rw [← List.append_assoc, ← hlog]
        exact hlog'
      · rw [count_append, List.flatMap_cons]
        exact hsub.append hsub'
      · have hnone := (hok' a ha).1
        cases failed <;> cases hnone
    · rw [hchunk] at hlog hchange hok
      obtain ⟨hfine, hperm⟩ := hok t' rfl
      obtain ⟨es', hlog', hchange', hallowed', hsub', hok'⟩ := ih failed t' s'
      refine ⟨es ++ es', ?_, d.trans hchange hchange', List.forall_mem_append.2 ⟨hallowed, hallowed'⟩, ?_,
        fun a ha => ?_⟩
      · rw [← List.append_assoc, ← hlog]
        exact hlog'
      · rw [count_append, List.flatMap_cons]
        exact hsub.append hsub'
      · obtain ⟨hnone, hfine', hperm'⟩ := hok' a ha
        refine ⟨hnone, List.forall_mem_append.2 ⟨hfine, hfine'⟩, ?_⟩
        rw [count_append, List.flatMap_cons]
        exact hperm.append hperm'

/-! ## Processes -/

section

variable {τ : Type}

variable (d) in
/-- A process does what is allowed, step by step. It takes the steps `ps` that count and none fails, or
it fails and has taken some of them. -/
def Owed : Process ((World × List Event) × τ) α → List Env → Prop
  | .done r, ps => ∀ a, r = .ok a → ps = []
  | .step w n, ps => ∀ s, ∃ es, (w s).1.2 = s.1.2 ++ es ∧ d.change es s.1.1 (w s).1.1 ∧
    (∀ e ∈ es, d.allowed e.step) ∧ (d.count es).Subperm ps ∧
    (((∀ e ∈ es, e.result = .ok ⟨⟩) ∧ ∃ qs, (d.count es ++ qs).Perm ps ∧ Owed (n s) qs) ∨
      ∃ e, n s = .done (.error e))

theorem Owes.own {x : Noting Event α} {ps : List Env} (h : d.Owes x ps) :
    d.Owed (Process.own x : Process ((World × List Event) × τ) α) ps := by
  intro s
  obtain ⟨es, hlog, hchange, hallowed, hsub, hok⟩ := h s.1
  refine ⟨es, hlog, hchange, hallowed, hsub, ?_⟩
  cases hr : (exec x s.1).1 with
  | error e => exact .inr ⟨e, congrArg Process.done hr⟩
  | ok a =>
    obtain ⟨hfine, hperm⟩ := hok a hr
    exact .inl ⟨hfine, [], by simpa using hperm, fun _ _ => rfl⟩

/-- A step that only reads or writes accumulators owes nothing. -/
theorem owed_silent {w : (World × List Event) × τ → (World × List Event) × τ} (hw : ∀ s, (w s).1 = s.1)
    (f : (World × List Event) × τ → α) : d.Owed (.step w fun s => .done (.ok (f s))) [] := fun s =>
  ⟨[], by simp [hw], by rw [hw]; exact d.refl _, by simp, .refl _, .inl ⟨by simp, [], .refl _, fun _ _ => rfl⟩⟩

theorem owed_fetch {V : Type} (cell : List Int) (init : V) :
    d.Owed (Process.fetch cell init : Process ((World × List Event) × Table V) V) [] :=
  owed_silent (fun _ => rfl) _

theorem owed_put {V : Type} (cell : List Int) (v : V) :
    d.Owed (Process.put cell v : Process ((World × List Event) × Table V) PUnit) [] :=
  owed_silent (fun _ => rfl) _

theorem Owed.bind {p : Process ((World × List Event) × τ) α} {f : α → Process ((World × List Event) × τ) β}
    {ps qs : List Env} (hp : d.Owed p ps) (hf : ∀ a, d.Owed (f a) qs) : d.Owed (p >>= f) (ps ++ qs) := by
  induction p generalizing ps with
  | done r =>
    cases r with
    | error e => exact fun b hb => by cases hb
    | ok a =>
      rw [hp a rfl]
      exact hf a
  | step w n ih =>
    intro s
    obtain ⟨es, hlog, hchange, hallowed, hsub, hnext⟩ := hp s
    refine ⟨es, hlog, hchange, hallowed, hsub.trans (List.sublist_append_left _ _).subperm, ?_⟩
    rcases hnext with ⟨hfine, ps', hperm, hnext⟩ | ⟨e, he⟩
    · refine .inl ⟨hfine, ps' ++ qs, ?_, ih s hnext⟩
      rw [← List.append_assoc]
      exact hperm.append_right qs
    · refine .inr ⟨e, ?_⟩
      change n s >>= f = _
      rw [he]
      rfl

theorem Owed.foldlM {f : σ → α → Process ((World × List Event) × τ) σ} {g : α → List Env} {as : List α}
    (h : ∀ a ∈ as, ∀ t, d.Owed (f t a) (g a)) (t : σ) : d.Owed (as.foldlM f t) (as.flatMap g) := by
  induction as generalizing t with
  | nil => exact fun _ _ => rfl
  | cons a as ih =>
    rw [List.foldlM_cons, List.flatMap_cons]
    exact (h a (.head _) t).bind fun t' => ih (fun b hb => h b (.tail _ hb)) t'

theorem Owed.foldlM_map {f : σ → α → Process ((World × List Event) × τ) σ} {g : α → Env} {as : List α}
    (h : ∀ a ∈ as, ∀ t, d.Owed (f t a) [g a]) (t : σ) : d.Owed (as.foldlM f t) (as.map g) := by
  rw [List.map_eq_flatMap]
  exact Owed.foldlM h t

/-! ## Groups of processes -/

variable {ps ps' : List (Process ((World × List Event) × τ) PUnit)} {s s' : (World × List Event) × τ}
  {dues : List (List Env)}

/-- Some process has failed. -/
def Broken (ps : List (Process ((World × List Event) × τ) PUnit)) : Prop :=
  ∃ e, .done (.error e) ∈ ps

theorem Broken.advances (h : Broken ps) (hstep : Process.Advances s ps s' ps') : Broken ps' := by
  obtain ⟨e, he⟩ := h
  refine ⟨e, ?_⟩
  induction hstep with
  | here =>
    rcases List.mem_cons.1 he with he | he
    · cases he
    · exact .tail _ he
  | there _ ih =>
    rcases List.mem_cons.1 he with he | he
    · exact he ▸ .head _
    · exact .tail _ (ih he)

/-- Whoever waits for processes of which one has failed is told an error. -/
theorem Broken.await_ne (h : Broken ps) : Process.await ps ≠ some (.ok ⟨⟩) := by
  obtain ⟨e, he⟩ := h
  induction ps with
  | nil => cases he
  | cons p ps ih =>
    cases p with
    | step w n => simp [Process.await]
    | done r =>
      cases r with
      | error e' => simp [Process.await]
      | ok a =>
        rcases List.mem_cons.1 he with he | he
        · cases he
        · exact ih he

/-- Processes that have all ended well owe nothing more. -/
theorem flatten_of_await (h : List.Forall₂ d.Owed ps dues) (hend : Process.await ps = some (.ok ⟨⟩)) :
    dues.flatten = [] := by
  induction h with
  | nil => rfl
  | @cons p due ps dues hp _ ih =>
    cases p with
    | step w n => simp [Process.await] at hend
    | done r =>
      cases r with
      | error e => simp [Process.await] at hend
      | ok a =>
        rw [List.flatten_cons, hp a rfl, List.nil_append]
        exact ih hend

/-- One step of one process pays some of what is owed, or it fails. -/
theorem owed_advances (h : List.Forall₂ d.Owed ps dues) (hstep : Process.Advances s ps s' ps') :
    ∃ es dues', s'.1.2 = s.1.2 ++ es ∧ d.change es s.1.1 s'.1.1 ∧ (∀ e ∈ es, d.allowed e.step) ∧
      List.Forall₂ d.Owed ps' dues' ∧ (d.count es ++ dues'.flatten).Subperm dues.flatten ∧
      (((∀ e ∈ es, e.result = .ok ⟨⟩) ∧ (d.count es ++ dues'.flatten).Perm dues.flatten) ∨ Broken ps') := by
  induction hstep generalizing dues with
  | @here w n ps =>
    obtain _ | @⟨_, due, _, dues, hp, hps⟩ := h
    obtain ⟨es, hlog, hchange, hallowed, hsub, ⟨hfine, qs, hperm, hnext⟩ | ⟨e, he⟩⟩ := hp s
    · have htotal : (d.count es ++ (qs :: dues).flatten).Perm (due :: dues).flatten := by
        rw [List.flatten_cons, ← List.append_assoc, List.flatten_cons]
        exact hperm.append_right _
      exact ⟨es, qs :: dues, hlog, hchange, hallowed, .cons hnext hps, htotal.subperm, .inl ⟨hfine, htotal⟩⟩
    · refine ⟨es, [] :: dues, hlog, hchange, hallowed, .cons ?_ hps, ?_, .inr ⟨e, he ▸ .head _⟩⟩
      · rw [he]
        exact fun _ _ => rfl
      · rw [List.flatten_cons, List.flatten_cons, List.nil_append]
        exact (List.subperm_append_right _).2 hsub
  | there _ ih =>
    obtain _ | @⟨_, due, _, dues, hp, hps⟩ := h
    obtain ⟨es, dues', hlog, hchange, hallowed, hps', hsub, hend⟩ := ih hps
    have hmove : (d.count es ++ (due :: dues').flatten).Perm (due ++ (d.count es ++ dues'.flatten)) := by
      rw [List.flatten_cons]
      exact List.perm_append_comm_assoc _ _ _
    refine ⟨es, due :: dues', hlog, hchange, hallowed, .cons hp hps', ?_, ?_⟩
    · refine hmove.subperm.trans ?_
      rw [List.flatten_cons]
      exact (List.subperm_append_left _).2 hsub
    · rcases hend with ⟨hfine, hperm⟩ | ⟨e, he⟩
      · refine .inl ⟨hfine, hmove.trans ?_⟩
        rw [List.flatten_cons]
        exact hperm.append_left _
      · exact .inr ⟨e, .tail _ he⟩

variable (d) in
/-- A crew is busy with groups of processes that owe `total` together, and has written down `es` on its way;
the groups `after` come later. As long as no process has failed, no step has. -/
structure Busy (start : World) (base : List Event) (total : List Env)
    (after : List (List (Process ((World × List Event) × τ) PUnit))) (es : List Event)
    (c : Crew ((World × List Event) × τ)) : Prop where
  log : c.state.1.2 = base ++ es
  change : d.change es start c.state.1.1
  allowed : ∀ e ∈ es, d.allowed e.step
  owed : ∃ groups dues later, c.waiting = groups ++ after ∧ List.Forall₂ d.Owed c.active dues ∧
    List.Forall₂ (List.Forall₂ d.Owed) groups later ∧
    (d.count es ++ (dues.flatten ++ later.flatten.flatten)).Subperm total ∧
    (((∀ e ∈ es, e.result = .ok ⟨⟩) ∧ (d.count es ++ (dues.flatten ++ later.flatten.flatten)).Perm total) ∨
      Broken c.active)

variable {start : World} {base es : List Event} {total : List Env}
  {after : List (List (Process ((World × List Event) × τ) PUnit))} {c c' : Crew ((World × List Event) × τ)}

theorem Busy.subperm (h : d.Busy start base total after es c) : (d.count es).Subperm total := by
  obtain ⟨groups, dues, later, -, -, -, hsub, -⟩ := h.owed
  exact (List.sublist_append_left _ _).subperm.trans hsub

/-- When the last of these groups has ended well, all that was owed has been paid. -/
theorem Busy.paid (h : d.Busy start base total after es c) (hwaiting : c.waiting = after)
    (hend : Process.await c.active = some (.ok ⟨⟩)) :
    (∀ e ∈ es, e.result = .ok ⟨⟩) ∧ (d.count es).Perm total := by
  obtain ⟨groups, dues, later, hgroups, hactive, hlater, -, ⟨hfine, hperm⟩ | hbroken⟩ := h.owed
  · have hnil : groups = [] := by simpa using hgroups.symm.trans hwaiting
    subst hnil
    cases hlater
    rw [flatten_of_await hactive hend] at hperm
    exact ⟨hfine, by simpa using hperm⟩
  · exact absurd hend hbroken.await_ne

/-- Before it starts, a crew is busy with all that its groups owe. -/
theorem busy_start (after : List (List (Process ((World × List Event) × τ) PUnit)))
    {groups : List (List (Process ((World × List Event) × τ) PUnit))} {later : List (List (List Env))}
    (h : List.Forall₂ (List.Forall₂ d.Owed) groups later) (w : World) {t : τ} :
    d.Busy w [] later.flatten.flatten after [] ⟨((w, []), t), [], groups ++ after⟩ where
  log := rfl
  change := d.refl w
  allowed := by simp
  owed := ⟨groups, [], later, rfl, .nil, h, .refl _, .inl ⟨by simp, .refl _⟩⟩

/-- A crew stays busy, until its last group has ended well and the first of those that come later starts. -/
theorem Busy.step (h : d.Busy start base total after es c) (hstep : Crew.Step c c') :
    (∃ es', d.Busy start base total after es' c') ∨
      (c.waiting = after ∧ Process.await c.active = some (.ok ⟨⟩) ∧ c'.state = c.state ∧
        after = c'.active :: c'.waiting) := by
  obtain ⟨hlog, hchange, hallowed, groups, dues, later, hgroups, hactive, hlater, hsub, hend⟩ := h
  cases hstep with
  | @advance s s' ps ps' waiting hstep =>
    obtain ⟨es', dues', hlog', hchange', hallowed', hactive', hsub', hend'⟩ := owed_advances hactive hstep
    dsimp only at hlog hchange hgroups hend
    have hmove (l : List Env) : (d.count (es ++ es') ++ (dues'.flatten ++ l)).Perm
        (d.count es ++ ((d.count es' ++ dues'.flatten) ++ l)) := by
      simp [List.append_assoc]
    refine .inl ⟨es ++ es', ?_, d.trans hchange hchange', List.forall_mem_append.2 ⟨hallowed, hallowed'⟩,
      groups, dues', later, hgroups, hactive', hlater, ?_, ?_⟩
    · rw [← List.append_assoc, ← hlog]
      exact hlog'
    · refine (hmove _).subperm.trans (.trans ?_ hsub)
      exact (List.subperm_append_left _).2 ((List.subperm_append_right _).2 hsub')
    · rcases hend with ⟨hfine, hperm⟩ | hbroken
      · refine hend'.imp (fun hpaid => ⟨List.forall_mem_append.2 ⟨hfine, hpaid.1⟩, ?_⟩) id
        exact (hmove _).trans (((hpaid.2.append_right _).append_left _).trans hperm)
      · exact .inr (hbroken.advances hstep)
  | @start s ps qs waiting hawait =>
    dsimp only at hlog hchange hgroups hactive hend
    cases hlater with
    | nil => exact .inr ⟨hgroups, hawait, rfl, hgroups.symm⟩
    | @cons group due groups later hgroup hlater =>
      obtain ⟨rfl, rfl⟩ := List.cons.inj hgroups
      rw [flatten_of_await hactive hawait, List.nil_append, List.flatten_cons, List.flatten_append] at hsub hend
      exact .inl ⟨es, hlog, hchange, hallowed, groups, due, later, rfl, hgroup, hlater, hsub,
        .inl (hend.resolve_right fun hbroken => hbroken.await_ne hawait)⟩

/-- If no groups come later, a crew stays busy. -/
theorem Busy.reaches (h : d.Busy start base total [] es c) (hreach : Crew.Reaches c c') :
    ∃ es', d.Busy start base total [] es' c' := by
  induction hreach with
  | refl => exact ⟨es, h⟩
  | tail _ hstep ih =>
    obtain ⟨es', hbusy⟩ := ih
    exact (hbusy.step hstep).resolve_right fun hafter => List.cons_ne_nil _ _ hafter.2.2.2.symm

end

/-! ## The workers of a plan -/

section

variable {m : Machine Run Value} (outputs : List String) {p : Plan} {rs : Ranges}
  (helement : ∀ env, d.Owes (m.witnessed.element env) [env])
  (hcombine : ∀ acc v, d.Owes (m.witnessed.combine acc v) [])
  (hstore : p.body.resumes = false → ∀ env v, d.Owes (m.witnessed.store env v) [])

include helement hcombine hstore

theorem owed_workCell (hrs : rs.Gapless) (env : Env) :
    d.Owed (workCell m.witnessed outputs rs p.body env) ((rs.points p.inner).map fun q => q.reverse ++ env) := by
  have hreduce (loops : List InnerLoop) (acc : Value) : d.Owed (reduceCell m.witnessed.stepwise rs loops env acc)
      ((rs.points (loops.map (·.index))).map fun q => q.reverse ++ env) := by
    rw [reduceCell, foldLoops_eq, hrs.points_values]
    exact Owed.foldlM_map (fun q _ acc => (helement (q.reverse ++ env)).own.bind fun v =>
      (hcombine acc v).own) acc
  rw [Plan.inner]
  generalize p.body = body at hstore
  cases body with
  | store => exact (helement env).own.bind fun v => (hstore rfl env v).own
  | reduce op resume loops =>
    cases resume with
    | false =>
      have h := (hreduce loops m.init).bind fun v => (hstore rfl env v).own
      rwa [List.append_nil] at h
    | true =>
      have h := (owed_fetch (env.cell outputs) m.init).bind fun acc =>
        (hreduce loops acc).bind fun v => owed_put (env.cell outputs) v
      rwa [List.nil_append, List.append_nil] at h

/-- The processes of a block owe its points. -/
theorem owed_blockWork (hrs : rs.Gapless) (workers : Nat) :
    ∃ dues, List.Forall₂ d.Owed (blockWork m.witnessed outputs workers p rs) dues ∧
      dues.flatten = (rs.points (p.outer ++ p.inner)).map List.reverse := by
  obtain ⟨parts, hparts, hwork⟩ := exists_parts m.witnessed outputs workers p rs
  refine ⟨parts.map fun cs => cs.flatMap fun c => (rs.points p.inner).map fun q => q.reverse ++ c, ?_, ?_⟩
  · rw [hwork, List.forall₂_map_left_iff, List.forall₂_map_right_iff, List.forall₂_same]
    exact fun cs _ => Owed.foldlM (fun c _ _ => owed_workCell outputs helement hcombine hstore hrs c) PUnit.unit
  · rw [← p.flatMap_cells rs, ← hparts]
    rw [← List.flatMap_def, List.flatten_eq_flatMap, List.flatMap_assoc]
    rfl

/-- The processes of all blocks owe all points. -/
theorem owed_blocks (hrs : rs.Gapless) (workers : Nat) :
    ∃ later, List.Forall₂ (List.Forall₂ d.Owed) ((p.blocks rs).map (blockWork m.witnessed outputs workers p)) later ∧
      later.flatten.flatten = (p.blocks rs).flatMap fun rs' => (rs'.points (p.outer ++ p.inner)).map List.reverse := by
  have hgapless (rs' : Ranges) (h : rs' ∈ p.blocks rs) : rs'.Gapless := fun i =>
    (Plan.refines_of_mem_blocks hrs h i).1
  generalize p.blocks rs = rss at hgapless ⊢
  induction rss with
  | nil => exact ⟨[], .nil, rfl⟩
  | cons rs' rss ih =>
    obtain ⟨dues, hdues, hpoints⟩ := owed_blockWork outputs helement hcombine hstore (hgapless rs' (.head _)) workers
    obtain ⟨later, hlater, htotal⟩ := ih fun rs'' hmem => hgapless rs'' (.tail _ hmem)
    refine ⟨dues :: later, .cons hdues hlater, ?_⟩
    rw [List.flatten_cons, List.flatten_append, hpoints, htotal, List.flatMap_cons]

end

end Duty

/-! ## The workers of a call -/

namespace Kernel

/-- The workers of a call that write down what their steps come to. -/
def witnessedWorkers (k : Kernel) (scope : Scope) (s : Setup) (w : World) :
    Crew ((World × List Event) × Table Value) :=
  crew (s.machine k scope).witnessed k.outputIndices k.config.workerCount k.plan s.ranges (w, [])

/-- Workers compared with those that also write down what they do. -/
def watching : Comparison (World × Table Value) ((World × List Event) × Table Value) where
  Stage := Unit
  le _ _ := True
  refl _ := trivial
  trans _ _ := trivial
  stage _ := ()
  Both s s' := s'.1.1 = s.1 ∧ s'.2 = s.2

theorem watching_own {α : Type} {Q : α → α → Prop} (hQ : ∀ a, Q a a) (step : Step) (x : Run α) :
    watching.Goes (fun _ => Q) () (Process.own x) (Process.own (Noting.witness step x)) := by
  rintro s s' - ⟨hworld, htable⟩
  refine ⟨trivial, ⟨?_, htable⟩, Noting.concur_of_eq hQ ?_⟩
  · exact congrArg (fun u => (exec x u).2) hworld
  · exact congrArg (fun u => (exec x u).1) hworld.symm

theorem watching_follows (m : Machine Run Value) (p : Plan) (rs : Ranges) :
    m.stepwise.Follows watching.simulation () (fun _ => Eq) p rs m.witnessed.stepwise where
  mono _ _ _ _ _ := id
  element _ env _ _ := watching_own (fun _ => rfl) _ _
  init _ := rfl
  combine _ _ acc _ v _ _ hacc hv := by
    cases hacc
    cases hv
    exact watching_own (fun _ => rfl) _ _
  store _ env v _ _ _ hv := by
    cases hv
    exact watching_own (fun _ => trivial) _ _

theorem watching_carries : watching.Carries fun _ => Eq where
  fetch i cell init init' hinit s s' _ hboth := by
    refine ⟨trivial, hboth, ?_⟩
    change s.2.get cell init = s'.2.get cell init'
    rw [hboth.2, hinit]
  put i cell v v' hv s s' _ hboth := by
    refine ⟨trivial, ⟨hboth.1, ?_⟩, trivial⟩
    change s'.2.set cell v' = s.2.set cell v
    rw [hboth.2, hv]

/-- Whatever workers do, it can be watched. -/
theorem Planned.exists_watched {k : Kernel} {read : Reduction.Partial} (hk : k.Planned read) {scope : Scope}
    {s : Setup} (hrs : s.ranges.Gapless) {w : World} {c : Crew (World × Table Value)}
    (hreach : Crew.Reaches (k.workers scope s w) c) :
    ∃ d, Crew.Reaches (k.witnessedWorkers scope s w) d ∧ d.state.1.1 = c.state.1 ∧ d.result = c.result := by
  have hpairs := pairs_crew k.outputIndices (watching_follows (s.machine k scope) k.plan s.ranges)
    watching_carries k.config.workerCount hrs (by simp [hk.outer_eq]) w (w, []) rfl ⟨rfl, rfl⟩
  obtain ⟨d, hreach', hpairs'⟩ := hpairs.reaches hreach
  exact ⟨d, hreach', hpairs'.both.1, hpairs'.result_eq.symm⟩

end Kernel
end IndexNotation
