import IndexNotation.Proofs.Sequence

/-!
# Runs that note what they do

A computation may keep a list beside the world, to which it adds a note now and then. The notes
change nothing else, so what such a run shows of a plan holds of the run without notes.
-/

namespace IndexNotation

open Run (exec)

/-- A computation that keeps a list of notes. -/
abbrev Noting (ν : Type) := ExceptT Error (StateM (World × List ν))

namespace Noting

variable {α β σ ν : Type}

/-- A computation that notes nothing. -/
def lift (x : Run α) : Noting ν α :=
  ExceptT.mk fun s => ((exec x s.1).1, ((exec x s.1).2, s.2))

def note (n : ν) : Noting ν PUnit :=
  modify fun s => (s.1, s.2 ++ [n])

instance : MonadLift Run (Noting ν) := ⟨lift⟩

theorem exec_lift (x : Run α) (s : World × List ν) :
    exec (liftM x : Noting ν α) s = ((exec x s.1).1, ((exec x s.1).2, s.2)) := rfl

/-! ## Notes change nothing else -/

/-- Leaving the notes out. -/
def erasing : Simulation (Noting ν) Run where
  Stage := Unit
  le _ _ := True
  refl _ := trivial
  trans _ _ := trivial
  Rel _ Q x x' := ∀ s, (exec x s).2.1 = (exec x' s.1).2 ∧ Concur (Q ()) (exec x s).1 (exec x' s.1).1
  pure hQ s := ⟨rfl, hQ⟩
  bind := by
    intro α α' β β' i Q Q' x x' f f' hx hf s
    obtain ⟨hworld, hQ⟩ := hx s
    rw [Run.exec_bind, Run.exec_bind]
    generalize exec x s = r, exec x' s.1 = r' at hworld hQ
    obtain ⟨e | a, t⟩ := r <;> obtain ⟨e' | a', w⟩ := r' <;> cases hworld
    · exact ⟨rfl, hQ⟩
    · exact hQ.elim
    · exact hQ.elim
    · exact hf () a a' trivial hQ t
  throw e s := ⟨rfl, rfl⟩
  attempt := by
    intro α α' i Q x x' hx s
    rw [Run.exec_attempt, Run.exec_attempt]
    exact hx s

theorem concur_of_eq {Q : α → α → Prop} (hQ : ∀ a, Q a a) {r r' : Except Error α} (h : r = r') :
    Concur Q r r' := by
  subst h
  cases r with
  | error e => rfl
  | ok a => exact hQ a

theorem concur_self (r : Except Error α) : Concur Eq r r :=
  concur_of_eq (fun _ => rfl) rfl

theorem erasing_lift (x : Run α) : (erasing (ν := ν)).Rel () (fun _ => Eq) (liftM x) x := fun _ =>
  ⟨rfl, concur_self _⟩

theorem exec_of_erasing {x : Noting ν α} {x' : Run α} (h : erasing.Rel () (fun _ => Eq) x x')
    (s : World × List ν) : ((exec x s).1, (exec x s).2.1) = exec x' s.1 := by
  obtain ⟨hworld, hQ⟩ := h s
  generalize exec x s = r, exec x' s.1 = r' at hworld hQ
  obtain ⟨e | a, t⟩ := r <;> obtain ⟨e' | a', w⟩ := r' <;> cases hworld
  · rw [show e = e' from hQ]
  · exact hQ.elim
  · exact hQ.elim
  · rw [show a = a' from hQ]

/-! ## What is noted -/

section

variable {μ : Type} {view : ν → Option μ}

/-- A computation that succeeds has noted `ps`, if only what `view` sees of the notes counts. -/
def Notes (view : ν → Option μ) (x : Noting ν α) (ps : List μ) : Prop :=
  ∀ s a s', exec x s = (.ok a, s') → s'.2.filterMap view = s.2.filterMap view ++ ps

theorem notes_pure (a : α) : Notes view (pure a) [] := by
  intro s a s' h
  cases h
  simp

theorem notes_lift (x : Run α) : Notes view (liftM x) [] := by
  intro s a s' h
  rw [exec_lift] at h
  obtain ⟨-, rfl⟩ := Prod.mk.inj h
  simp

theorem notes_note (n : ν) : Notes view (note n) (view n).toList := by
  intro s a s' h
  cases h
  rw [List.filterMap_append]
  cases h : view n <;> simp [h]

theorem Notes.bind {x : Noting ν α} {f : α → Noting ν β} {ps qs : List μ} (hx : Notes view x ps)
    (hf : ∀ a, Notes view (f a) qs) : Notes view (x >>= f) (ps ++ qs) := by
  intro s b s'' h
  obtain ⟨a, s', hs, h⟩ := Run.exec_bind_eq_ok h
  rw [hf a s' b s'' h, hx s a s' hs, List.append_assoc]

theorem Notes.foldlM {f : σ → α → Noting ν σ} {g : α → List μ} {as : List α}
    (h : ∀ a ∈ as, ∀ t, Notes view (f t a) (g a)) (t : σ) :
    Notes view (as.foldlM f t) (as.flatMap g) := by
  induction as generalizing t with
  | nil => exact notes_pure t
  | cons a as ih =>
    rw [List.foldlM_cons, List.flatMap_cons]
    exact (h a (.head _) t).bind fun t' => ih (fun b hb => h b (.tail _ hb)) t'

theorem Notes.foldLoops (loops : List (String × List Int)) {body : Env → σ → Noting ν σ}
    {g : Env → List μ} (h : ∀ env t, Notes view (body env t) (g env)) (env : Env) (t : σ) :
    Notes view (IndexNotation.foldLoops loops body env t)
      ((points loops).flatMap fun p => g (p.reverse ++ env)) := by
  rw [foldLoops_eq]
  exact Notes.foldlM (fun p _ t => h (p.reverse ++ env) t) t

theorem Notes.of_sameOutcome {x y : Noting ν α} {ps : List μ} (h : Run.SameOutcome x y)
    (hy : Notes view y ps) : Notes view x ps :=
  fun s a s' hx => hy s a s' (h.eq_of_ok hx)

end

end Noting
end IndexNotation
