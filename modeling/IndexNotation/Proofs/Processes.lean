import IndexNotation.Proofs.Simulation
import Mathlib.Data.Set.Defs
import Mathlib.Logic.Relation

/-!
# Processes that share a state

A process takes atomic steps on a state that it shares with others, and ends with a value or an
error. Processes that are active at the same time take their steps in any order. Whoever waits for
them waits for the first, then for the second, and so on, and is told the first error in this order.

Where each process keeps to its own part of the state, all orders come to the same: the processes
might as well run one after the other.
-/

namespace IndexNotation

open Run (exec)

/-- A process on a state that it shares with others. -/
inductive Process (σ α : Type) where
  | done (result : Except Error α)
  /-- An atomic step. It changes the state, and the process goes on by the state that it found. -/
  | step (write : σ → σ) (next : σ → Process σ α)

namespace Process

variable {σ α β : Type}

def bind : Process σ α → (α → Process σ β) → Process σ β
  | done (.ok a), f => f a
  | done (.error e), _ => done (.error e)
  | step w n, f => step w fun s => (n s).bind f

def recover : Process σ α → (Error → Process σ α) → Process σ α
  | done (.ok a), _ => done (.ok a)
  | done (.error e), f => f e
  | step w n, f => step w fun s => (n s).recover f

instance : Monad (Process σ) where
  pure a := done (.ok a)
  bind := bind

instance : MonadExceptOf Error (Process σ) where
  throw e := done (.error e)
  tryCatch := recover

instance : LawfulMonad (Process σ) := by
  refine LawfulMonad.mk' (Process σ) ?_ ?_ ?_
  · intro α p
    change p >>= (fun a => pure (id a)) = p
    induction p with
    | done r => cases r <;> rfl
    | step w n ih => exact congrArg (step w) (funext ih)
  · intros
    rfl
  · intro α β γ p f g
    induction p with
    | done r => cases r <;> rfl
    | step w n ih => exact congrArg (step w) (funext ih)

/-! ## Alone -/

/-- A process that takes all its steps at once. -/
def run : Process σ α → ExceptT Error (StateM σ) α
  | done r => ExceptT.mk (pure r)
  | step w n => ExceptT.mk fun s => (n s).run.run (w s)

theorem exec_run_step (w : σ → σ) (n : σ → Process σ α) (s : σ) :
    exec (step w n).run s = exec (n s).run (w s) := rfl

theorem run_bind (p : Process σ α) (f : α → Process σ β) : (p >>= f).run = p.run >>= fun a => (f a).run := by
  induction p with
  | done r => cases r <;> rfl
  | step w n ih =>
    funext s
    have hn : exec (n s >>= f).run (w s) = exec ((n s).run >>= fun a => (f a).run) (w s) := by rw [ih]
    change exec (n s >>= f).run (w s) = exec ((step w n).run >>= fun a => (f a).run) s
    rw [hn, Run.exec_bind, Run.exec_bind]
    rfl

/-! ## Together -/

/-- One of several processes takes its next step. -/
inductive Advances : σ → List (Process σ α) → σ → List (Process σ α) → Prop
  | here {s w n ps} : Advances s (step w n :: ps) (w s) (n s :: ps)
  | there {s p ps s' ps'} : Advances s ps s' ps' → Advances s (p :: ps) s' (p :: ps')

/-- What waiting for processes in order comes to: the first error, or that all have ended well. There
is no answer as long as the next process to wait for has not ended. -/
def await : List (Process σ α) → Option (Except Error Unit)
  | [] => some (.ok ⟨⟩)
  | done (.ok _) :: ps => await ps
  | done (.error e) :: _ => some (.error e)
  | step .. :: _ => none

theorem exists_advances {ps : List (Process σ α)} (h : await ps = none) (s : σ) :
    ∃ s' ps', Advances s ps s' ps' := by
  induction ps with
  | nil => cases h
  | cons p ps ih =>
    cases p with
    | step w n => exact ⟨_, _, .here⟩
    | done r =>
      cases r with
      | error e => cases h
      | ok a =>
        obtain ⟨s', ps', hstep⟩ := ih h
        exact ⟨s', _, .there hstep⟩

/-- Processes cannot take steps for ever. -/
theorem acc_advances (ps : List (Process σ α)) :
    Acc (fun qs ps => ∃ s t, Advances s ps t qs) ps := by
  induction ps with
  | nil => exact ⟨_, fun _ ⟨_, _, h⟩ => by cases h⟩
  | cons p ps ih =>
    -- Either the first process gets smaller, and the others start anew, or one of the others does.
    induction p generalizing ps with
    | done r =>
      induction ih with
      | intro ps _ ih => 
        refine ⟨_, fun qs ⟨s, t, h⟩ => ?_⟩
        cases h with
        | there h => exact ih _ ⟨s, t, h⟩
    | step w n ihp =>
      induction ih with
      | intro ps hps ih =>
        refine ⟨_, fun qs ⟨s, t, h⟩ => ?_⟩
        cases h with
        | here => exact ihp s ps ⟨ps, hps⟩
        | there h => exact ih _ ⟨s, t, h⟩

/-- Processes that run one after the other, up to the first that fails. -/
def runAll (ps : List (Process σ PUnit)) : ExceptT Error (StateM σ) PUnit :=
  ps.forM run

theorem runAll_cons (p : Process σ PUnit) (ps : List (Process σ PUnit)) :
    runAll (p :: ps) = p.run >>= fun _ => runAll ps := rfl

/-- Processes that were waited for have nothing more to do, up to the first that failed. -/
theorem exec_runAll_of_await {ps : List (Process σ PUnit)} {r : Except Error Unit}
    (h : await ps = some r) (s : σ) : exec (runAll ps) s = (r, s) := by
  induction ps with
  | nil =>
    cases h
    rfl
  | cons p ps ih =>
    cases p with
    | step w n => cases h
    | done result =>
      cases result with
      | error e =>
        cases h
        rfl
      | ok a => exact ih h

/-! ## Apart -/

section

variable {ι X : Type} (view : σ → ι → X)

/-- A process that changes the state at places of `A` only, and sees nothing of the other places. -/
def Within (A : Set ι) : Process σ α → Prop
  | done _ => True
  | step w n => (∀ s, ∀ c ∉ A, view (w s) c = view s c) ∧
    (∀ s t, (∀ c ∈ A, view s c = view t c) → n s = n t ∧ ∀ c ∈ A, view (w s) c = view (w t) c) ∧
    ∀ s, (n s).Within A

variable {view} {A B : Set ι}

theorem Within.bind {p : Process σ α} (h : p.Within view A) {f : α → Process σ β}
    (hf : ∀ a, (f a).Within view A) : (p >>= f).Within view A := by
  induction p with
  | done r =>
    cases r with
    | error e => trivial
    | ok a => exact hf a
  | step w n ih =>
    obtain ⟨houtside, hinside, hnext⟩ := h
    refine ⟨houtside, fun s t hst => ?_, fun s => ih s (hnext s)⟩
    obtain ⟨hn, hw⟩ := hinside s t hst
    exact ⟨congrArg (· >>= f) hn, hw⟩

theorem Within.foldlM {γ : Type} {f : α → γ → Process σ α} {cs : List γ}
    (h : ∀ c ∈ cs, ∀ a, (f a c).Within view A) (a : α) : (cs.foldlM f a).Within view A := by
  induction cs generalizing a with
  | nil => trivial
  | cons c cs ih =>
    rw [List.foldlM_cons]
    exact (h c (.head _) a).bind fun b => ih (fun c hc => h c (.tail _ hc)) b

/-- What a process does depends on its own places, and is done there. -/
theorem Within.exec {p : Process σ α} (h : p.Within view A) {s t : σ} (hst : ∀ c ∈ A, view s c = view t c) :
    (exec p.run s).1 = (exec p.run t).1 ∧
      (∀ c ∈ A, view (exec p.run s).2 c = view (exec p.run t).2 c) ∧
      ∀ c ∉ A, view (exec p.run s).2 c = view s c := by
  induction p generalizing s t with
  | done r => exact ⟨rfl, hst, fun _ _ => rfl⟩
  | step w n ih =>
    obtain ⟨houtside, hinside, hnext⟩ := h
    obtain ⟨hn, hw⟩ := hinside s t hst
    obtain ⟨hresult, hin, hout⟩ := ih s (hnext s) hw
    rw [exec_run_step, exec_run_step, ← hn]
    exact ⟨hresult, hin, fun c hc => (hout c hc).trans (houtside s c hc)⟩

variable (view) in
/-- Two outcomes are the same error, or states that look the same. -/
def Alike (r r' : Except Error PUnit × σ) : Prop :=
  r.1 = r'.1 ∧ (r.1 = .ok ⟨⟩ → view r.2 = view r'.2)

theorem Alike.trans {r r' r'' : Except Error PUnit × σ} (h : Alike view r r') (h' : Alike view r' r'') :
    Alike view r r'' :=
  ⟨h.1.trans h'.1, fun hok => (h.2 hok).trans (h'.2 (h.1 ▸ hok))⟩

/-- What follows two outcomes that are alike comes to the same, if it does not notice the difference. -/
theorem Alike.bind {x y f g : ExceptT Error (StateM σ) PUnit} {s t : σ}
    (h : Alike view (exec x s) (exec y t))
    (hfg : ∀ {s t}, view s = view t → Alike view (exec f s) (exec g t)) :
    Alike view (exec (x >>= fun _ => f) s) (exec (y >>= fun _ => g) t) := by
  obtain ⟨hresult, hview⟩ := h
  rw [Run.exec_bind, Run.exec_bind]
  generalize exec x s = r, exec y t = r' at hresult hview
  obtain ⟨e | _, s'⟩ := r <;> obtain ⟨e' | _, t'⟩ := r' <;> cases hresult
  · exact ⟨rfl, fun hok => by cases hok⟩
  · exact hfg (hview rfl)

variable (view) in
/-- Each process has places of its own. -/
structure Apart (As : List (Set ι)) (ps : List (Process σ PUnit)) : Prop where
  within : List.Forall₂ (fun A p => p.Within view A) As ps
  disjoint : As.Pairwise fun A B => ∀ c ∈ A, c ∉ B

variable {As : List (Set ι)} {ps ps' : List (Process σ PUnit)} {s s' t : σ}

theorem Apart.head {p : Process σ PUnit} (h : Apart view (A :: As) (p :: ps)) :
    p.Within view A ∧ Apart view As ps ∧ ∀ B ∈ As, ∀ c ∈ A, c ∉ B := by
  obtain ⟨hwithin, hdisjoint⟩ := h
  rw [List.pairwise_cons] at hdisjoint
  cases hwithin with
  | cons hp hps => exact ⟨hp, ⟨hps, hdisjoint.2⟩, hdisjoint.1⟩

theorem Apart.advances (h : Apart view As ps) (hstep : Advances s ps s' ps') : Apart view As ps' := by
  obtain ⟨hwithin, hdisjoint⟩ := h
  refine ⟨?_, hdisjoint⟩
  clear hdisjoint
  induction hstep generalizing As with
  | here =>
    cases hwithin with
    | cons hp hps => exact .cons (hp.2.2 _) hps
  | there _ ih =>
    cases hwithin with
    | cons hp hps => exact .cons hp (ih hps)

/-- Processes that run one after the other do not notice what looks the same. -/
theorem Apart.runAll_congr (h : Apart view As ps) (hst : view s = view t) :
    Alike view (exec (runAll ps) s) (exec (runAll ps) t) := by
  obtain ⟨hwithin, -⟩ := h
  induction hwithin generalizing s t with
  | nil => exact ⟨rfl, fun _ => hst⟩
  | @cons A p As ps hp _ ih =>
    obtain ⟨hresult, hin, hout⟩ := hp.exec fun c _ => congrFun hst c
    obtain ⟨-, -, hout'⟩ := hp.exec (s := t) (t := t) fun _ _ => rfl
    rw [runAll_cons, Run.exec_bind, Run.exec_bind]
    generalize exec p.run s = r, exec p.run t = r' at hresult hin hout hout'
    obtain ⟨e | _, s₁⟩ := r <;> obtain ⟨e' | _, t₁⟩ := r' <;> cases hresult
    · exact ⟨rfl, fun hok => by cases hok⟩
    · refine ih (funext fun c => ?_)
      by_cases hc : c ∈ A
      · exact hin c hc
      · exact (hout c hc).trans ((congrFun hst c).trans (hout' c hc).symm)

/-- The same step can be taken in a state that looks the same where the processes are, and it does the
same there and nothing elsewhere. -/
theorem Apart.transport (h : Apart view As ps) (hstep : Advances s ps s' ps')
    (hst : ∀ A ∈ As, ∀ c ∈ A, view s c = view t c) :
    ∃ t', Advances t ps t' ps' ∧ (∀ A ∈ As, ∀ c ∈ A, view s' c = view t' c) ∧
      ∀ c, (∀ A ∈ As, c ∉ A) → view s' c = view s c ∧ view t' c = view t c := by
  induction hstep generalizing As with
  | @here w n ps =>
    obtain _ | ⟨A, As⟩ := As
    · cases h.within
    obtain ⟨⟨houtside, hinside, -⟩, -, -⟩ := h.head
    obtain ⟨hn, hw⟩ := hinside s t (hst A (.head _))
    refine ⟨w t, hn ▸ .here, fun B hB c hc => ?_, fun c hc => ?_⟩
    · by_cases hA : c ∈ A
      · exact hw c hA
      · rw [houtside s c hA, houtside t c hA, hst B hB c hc]
    · exact ⟨houtside s c (hc A (.head _)), houtside t c (hc A (.head _))⟩
  | @there p ps s' ps' _ ih =>
    obtain _ | ⟨A, As⟩ := As
    · cases h.within
    obtain ⟨-, hps, hdisjoint⟩ := h.head
    obtain ⟨t', hstep, hin, hout⟩ := ih hps fun B hB => hst B (.tail _ hB)
    refine ⟨t', .there hstep, fun B hB c hc => ?_, fun c hc => hout c fun B hB => hc B (.tail _ hB)⟩
    rcases List.mem_cons.1 hB with rfl | hB
    · obtain ⟨hs, ht⟩ := hout c fun B' hB' => hdisjoint B' hB' c hc
      rw [hs, ht, hst B (.head _) c hc]
    · exact hin B hB c hc

/-- **One step of one process changes nothing about what the processes come to**, one after the
other. -/
theorem Apart.runAll_advances (h : Apart view As ps) (hstep : Advances s ps s' ps') :
    Alike view (exec (runAll ps') s') (exec (runAll ps) s) := by
  induction ps generalizing As s s' ps' with
  | nil => cases hstep
  | cons p ps ih =>
    obtain _ | ⟨A, As⟩ := As
    · cases h.within
    obtain ⟨hp, hps, hdisjoint⟩ := h.head
    have hapart {c : ι} (hc : c ∈ A) (B : Set ι) (hB : B ∈ As) : c ∉ B :=
      hdisjoint B hB c hc
    cases hstep with
    | here => exact ⟨rfl, fun _ => rfl⟩
    | @there _ _ _ ps' hstep =>
      obtain ⟨_, -, -, hstay⟩ := hps.transport (t := s) hstep fun _ _ _ _ => rfl
      -- The first process does the same before and after the step.
      obtain ⟨hresult, hin, hout⟩ := hp.exec (s := s') (t := s) fun c hc => (hstay c (hapart hc)).1
      obtain ⟨-, -, hout'⟩ := hp.exec (s := s) (t := s) fun _ _ => rfl
      rw [runAll_cons, runAll_cons, Run.exec_bind, Run.exec_bind]
      generalize exec p.run s' = r, exec p.run s = r' at hresult hin hout hout'
      obtain ⟨e | _, t'⟩ := r <;> obtain ⟨e' | _, t⟩ := r' <;> cases hresult
      · exact ⟨rfl, fun hok => by cases hok⟩
      -- So the step could as well be taken after it.
      obtain ⟨u, hlater, hsame, helse⟩ := hps.transport (t := t) hstep fun B hB c hc =>
        (hout' c fun hA => hapart hA B hB hc).symm
      refine ((hps.advances hstep).runAll_congr (funext fun c => ?_)).trans (ih hps hlater)
      by_cases hA : c ∈ A
      · rw [(helse c (hapart hA)).2]
        exact hin c hA
      · refine (hout c hA).trans ?_
        by_cases hmine : ∃ B ∈ As, c ∈ B
        · obtain ⟨B, hB, hc⟩ := hmine
          exact hsame B hB c hc
        · have hnone : ∀ B ∈ As, c ∉ B := fun B hB hc => hmine ⟨B, hB, hc⟩
          rw [(helse c hnone).1, (helse c hnone).2]
          exact (hout' c hA).symm

/-- Groups of such processes do not notice what looks the same either. -/
theorem Apart.runGroups_congr {groups : List (List (Process σ PUnit))}
    (h : ∀ ps ∈ groups, ∃ As, Apart view As ps) (hst : view s = view t) :
    Alike view (exec (groups.forM runAll) s) (exec (groups.forM runAll) t) := by
  induction groups generalizing s t with
  | nil => exact ⟨rfl, fun _ => hst⟩
  | cons ps groups ih =>
    obtain ⟨As, hps⟩ := h ps (.head _)
    exact (hps.runAll_congr hst).bind fun hview => ih (fun qs hqs => h qs (.tail _ hqs)) hview

end

end Process

/-! ## Groups in turn -/

/-- Processes in groups. Those of one group are active at the same time, and the next group starts
when all of them have ended well. -/
structure Crew (σ : Type) where
  state : σ
  active : List (Process σ PUnit)
  waiting : List (List (Process σ PUnit))

namespace Crew

open Process (Advances Alike await runAll)

variable {σ : Type} {c c' : Crew σ}

inductive Step : Crew σ → Crew σ → Prop
  | advance {s s' ps ps' waiting} : Advances s ps s' ps' → Step ⟨s, ps, waiting⟩ ⟨s', ps', waiting⟩
  | start {s ps qs waiting} : await ps = some (.ok ⟨⟩) → Step ⟨s, ps, qs :: waiting⟩ ⟨s, qs, waiting⟩

/-- A crew that comes of another by steps in some order. -/
abbrev Reaches : Crew σ → Crew σ → Prop := Relation.ReflTransGen Step

/-- What a crew comes to: the first error of a group, or that all groups have ended well. -/
def result (c : Crew σ) : Option (Except Error Unit) :=
  match await c.active, c.waiting with
  | some (.ok _), _ :: _ => none
  | r, _ => r

theorem result_eq_ok (h : c.result = some (.ok ⟨⟩)) :
    await c.active = some (.ok ⟨⟩) ∧ c.waiting = [] := by
  obtain ⟨s, ps, waiting⟩ := c
  unfold result at h
  dsimp only at h
  rcases hawait : await ps with _ | _ | _ <;> rw [hawait] at h <;> cases waiting <;> simp_all

/-- A crew without a result goes on. -/
theorem exists_step (h : c.result = none) : ∃ c', Step c c' := by
  obtain ⟨s, ps, waiting⟩ := c
  cases hawait : await ps with
  | none =>
    obtain ⟨s', ps', hstep⟩ := Process.exists_advances hawait s
    exact ⟨_, .advance hstep⟩
  | some r =>
    cases r with
    | error e => simp [result, hawait] at h
    | ok =>
      cases waiting with
      | nil => simp [result, hawait] at h
      | cons qs waiting => exact ⟨_, .start hawait⟩

/-- No crew goes on for ever. -/
theorem acc_step (c : Crew σ) : Acc (fun c' c => Step c c') c := by
  obtain ⟨s, ps, waiting⟩ := c
  induction waiting generalizing s ps with
  | nil =>
    induction Process.acc_advances ps generalizing s with
    | intro ps _ ih =>
      refine ⟨_, fun c' h => ?_⟩
      cases h with
      | advance h => exact ih _ ⟨_, _, h⟩ _
  | cons qs waiting ihw =>
    induction Process.acc_advances ps generalizing s with
    | intro ps _ ih =>
      refine ⟨_, fun c' h => ?_⟩
      cases h with
      | advance h => exact ih _ ⟨_, _, h⟩ _
      | start => exact ihw _ _

/-- So every crew comes to a result. -/
theorem exists_result (c : Crew σ) : ∃ c' r, Reaches c c' ∧ c'.result = some r := by
  induction acc_step c with
  | intro c _ ih =>
    cases hresult : c.result with
    | some r => exact ⟨c, r, .refl, hresult⟩
    | none =>
      obtain ⟨d, hstep⟩ := exists_step hresult
      obtain ⟨c', r, hreach, hr⟩ := ih d hstep
      exact ⟨c', r, .head hstep hreach, hr⟩

/-- What is left to do, one process after the other. -/
def rest (c : Crew σ) : ExceptT Error (StateM σ) PUnit := do
  runAll c.active
  c.waiting.forM runAll

theorem exec_rest_of_result {r : Except Error Unit} (h : c.result = some r) :
    exec c.rest c.state = (r, c.state) := by
  obtain ⟨s, ps, waiting⟩ := c
  cases hawait : await ps with
  | none => simp [result, hawait] at h
  | some r' =>
    have hrun := Process.exec_runAll_of_await hawait s
    cases r' with
    | error e =>
      obtain rfl : Except.error e = r := by simpa [result, hawait] using h
      exact Run.exec_bind_error hrun
    | ok =>
      cases waiting with
      | cons qs waiting => simp [result, hawait] at h
      | nil =>
        obtain rfl : Except.ok ⟨⟩ = r := by simpa [result, hawait] using h
        exact Run.exec_bind_ok hrun

section

variable {ι X : Type} {view : σ → ι → X}

variable (view) in
/-- In each group, each process has places of its own. -/
def Apart (c : Crew σ) : Prop :=
  ∀ ps ∈ c.active :: c.waiting, ∃ As, Process.Apart view As ps

theorem Apart.step (h : c.Apart view) (hstep : Step c c') :
    c'.Apart view ∧ Alike view (exec c'.rest c'.state) (exec c.rest c.state) := by
  cases hstep with
  | @advance s s' ps ps' waiting hstep =>
    obtain ⟨As, hps⟩ := h ps (.head _)
    have hwaiting : ∀ qs ∈ waiting, ∃ As, Process.Apart view As qs := fun qs hqs => h qs (.tail _ hqs)
    refine ⟨List.forall_mem_cons.2 ⟨⟨As, hps.advances hstep⟩, hwaiting⟩, ?_⟩
    exact (hps.runAll_advances hstep).bind fun hview => Process.Apart.runGroups_congr hwaiting hview
  | @start s ps qs waiting hawait =>
    refine ⟨fun qs hqs => h qs (.tail _ hqs), ?_⟩
    have hrest : exec (rest ⟨s, ps, qs :: waiting⟩) s = exec ((qs :: waiting).forM runAll) s :=
      Run.exec_bind_ok (Process.exec_runAll_of_await hawait s)
    rw [hrest]
    exact ⟨rfl, fun _ => rfl⟩

/-- **The order of steps does not matter.** If each process has places of its own, a crew comes to what
its processes come to one after the other. -/
theorem Apart.result_eq (h : c.Apart view) (hreach : Reaches c c') {r : Except Error Unit}
    (hr : c'.result = some r) : Alike view (r, c'.state) (exec c.rest c.state) := by
  induction hreach using Relation.ReflTransGen.head_induction_on with
  | refl =>
    rw [exec_rest_of_result hr]
    exact ⟨rfl, fun _ => rfl⟩
  | head hstep _ ih =>
    obtain ⟨hapart, halike⟩ := h.step hstep
    exact (ih hapart).trans halike

end

end Crew

/-! ## Compared with others -/

/-- A way to compare states that processes share: `Both` says that two states match, and later states
of the first kind are at later stages. -/
structure Comparison (σ σ' : Type) where
  Stage : Type
  le : Stage → Stage → Prop
  refl : ∀ i, le i i
  trans : ∀ {i j k}, le i j → le j k → le i k
  stage : σ → Stage
  Both : σ → σ' → Prop

namespace Comparison

variable {σ σ' : Type} (C : Comparison σ σ')

/-- Two processes take steps that match, whenever they take them, and `Q` relates what they give. -/
def Goes {α α' : Type} (Q : C.Stage → α → α' → Prop) : C.Stage → Process σ α → Process σ' α' → Prop
  | i, .done r, .done r' => Concur (Q i) r r'
  | i, .step w n, .step w' n' => ∀ s s', C.le i (C.stage s) → C.Both s s' →
    C.le (C.stage s) (C.stage (w s)) ∧ C.Both (w s) (w' s') ∧ Goes Q (C.stage (w s)) (n s) (n' s')
  | _, _, _ => False

/-- Processes are compared step by step. -/
def simulation : Simulation (Process σ) (Process σ') where
  Stage := C.Stage
  le := C.le
  refl := C.refl
  trans := C.trans
  Rel i Q := C.Goes Q i
  pure hQ := hQ
  bind := by
    intro α α' β β' i Q Q' p p' f f' hp hf
    induction p generalizing i p' with
    | done r =>
      cases p' with
      | step => exact hp.elim
      | done r' =>
        cases r <;> cases r'
        · exact hp
        · exact hp.elim
        · exact hp.elim
        · exact hf i _ _ (C.refl i) hp
    | step w n ih =>
      cases p' with
      | done => exact hp.elim
      | step w' n' =>
        intro s s' hi hboth
        obtain ⟨hle, hboth', hn⟩ := hp s s' hi hboth
        exact ⟨hle, hboth', ih s hn fun j a a' hj => hf j a a' (C.trans (C.trans hi hle) hj)⟩
  throw e := rfl
  attempt := by
    intro α α' i Q p p' hp
    induction p generalizing i p' with
    | done r =>
      cases p' with
      | step => exact hp.elim
      | done r' => cases r <;> cases r' <;> exact hp
    | step w n ih =>
      cases p' with
      | done => exact hp.elim
      | step w' n' =>
        intro s s' hi hboth
        obtain ⟨hle, hboth', hn⟩ := hp s s' hi hboth
        exact ⟨hle, hboth', ih s hn⟩

/-- Two crews match: their states do, and their processes go the same way from then on. -/
structure Pairs (c : Crew σ) (c' : Crew σ') : Prop where
  both : C.Both c.state c'.state
  groups : List.Forall₂ (List.Forall₂ (C.Goes (fun _ _ _ => True) (C.stage c.state)))
    (c.active :: c.waiting) (c'.active :: c'.waiting)

variable {C} {c d : Crew σ} {c' : Crew σ'}

theorem Goes.later {i j : C.Stage} {p : Process σ PUnit} {p' : Process σ' PUnit}
    (h : C.Goes (fun _ _ _ => True) i p p') (hij : C.le i j) : C.Goes (fun _ _ _ => True) j p p' := by
  cases p with
  | done r =>
    cases p' with
    | done r' => exact h
    | step => exact h.elim
  | step w n =>
    cases p' with
    | done => exact h.elim
    | step w' n' => exact fun s s' hs => h s s' (C.trans hij hs)

theorem await_eq {i : C.Stage} {ps : List (Process σ PUnit)} {ps' : List (Process σ' PUnit)}
    (h : List.Forall₂ (C.Goes (fun _ _ _ => True) i) ps ps') : Process.await ps = Process.await ps' := by
  induction h with
  | nil => rfl
  | @cons p p' ps ps' hp _ ih =>
    cases p with
    | done r =>
      cases p' with
      | step => exact hp.elim
      | done r' =>
        cases r <;> cases r'
        · cases hp
          rfl
        · exact hp.elim
        · exact hp.elim
        · exact ih
    | step =>
      cases p' with
      | done => exact hp.elim
      | step => rfl

theorem advances {s t : σ} {s' : σ'} {ps qs : List (Process σ PUnit)} {ps' : List (Process σ' PUnit)}
    (hboth : C.Both s s') (h : List.Forall₂ (C.Goes (fun _ _ _ => True) (C.stage s)) ps ps')
    (hstep : Process.Advances s ps t qs) : ∃ t' qs', Process.Advances s' ps' t' qs' ∧
      C.le (C.stage s) (C.stage t) ∧ C.Both t t' ∧
      List.Forall₂ (C.Goes (fun _ _ _ => True) (C.stage t)) qs qs' := by
  induction hstep generalizing ps' with
  | here =>
    obtain _ | @⟨_, p', _, ps', hp, hps⟩ := h
    cases p' with
    | done => exact hp.elim
    | step w' n' =>
      obtain ⟨hle, hboth', hn⟩ := hp s s' (C.refl _) hboth
      exact ⟨_, _, .here, hle, hboth', .cons hn (hps.imp fun _ _ h => h.later hle)⟩
  | there _ ih =>
    obtain _ | ⟨hp, hps⟩ := h
    obtain ⟨t', qs', hstep, hle, hboth', hqs⟩ := ih hps
    exact ⟨t', _, .there hstep, hle, hboth', .cons (hp.later hle) hqs⟩

theorem Pairs.step (h : C.Pairs c c') (hstep : Crew.Step c d) : ∃ d', Crew.Step c' d' ∧ C.Pairs d d' := by
  obtain ⟨s', ps', waiting'⟩ := c'
  obtain ⟨hboth, hgroups⟩ := h
  cases hstep with
  | advance hstep =>
    obtain _ | ⟨hps, hwaiting⟩ := hgroups
    obtain ⟨t', qs', hstep', hle, hboth', hqs⟩ := advances hboth hps hstep
    refine ⟨_, .advance hstep', hboth', .cons hqs (hwaiting.imp fun _ _ h => h.imp fun _ _ h => h.later hle)⟩
  | start hawait =>
    obtain _ | ⟨hps, hwaiting⟩ := hgroups
    obtain _ | ⟨hqs, hwaiting⟩ := hwaiting
    exact ⟨_, .start ((await_eq hps).symm.trans hawait), hboth, .cons hqs hwaiting⟩

theorem Pairs.result_eq (h : C.Pairs c c') : c.result = c'.result := by
  obtain ⟨s, ps, waiting⟩ := c
  obtain ⟨s', ps', waiting'⟩ := c'
  obtain ⟨hboth, _ | ⟨hps, hwaiting⟩⟩ := h
  rw [Crew.result, Crew.result, await_eq hps]
  dsimp only at hwaiting ⊢
  rcases Process.await ps' with _ | _ | _ <;> cases hwaiting <;> rfl

/-- Crews that match go the same way, whatever the order of steps. -/
theorem Pairs.reaches (h : C.Pairs c c') (hreach : Crew.Reaches c d) :
    ∃ d', Crew.Reaches c' d' ∧ C.Pairs d d' := by
  induction hreach with
  | refl => exact ⟨c', .refl, h⟩
  | tail _ hstep ih =>
    obtain ⟨d', hreach', hpairs⟩ := ih
    obtain ⟨e', hstep', hpairs'⟩ := hpairs.step hstep
    exact ⟨e', hreach'.tail hstep', hpairs'⟩

end Comparison

end IndexNotation
