import IndexNotation.Value.Basic
import Mathlib.Data.List.Basic

/-!
# Computations and the worlds they leave

A computation is understood by what it gives in a world and the world that it leaves. Most
computations change nothing that is there: they may add blocks to the heap, but a block that exists
keeps its cells. These are closed under all the ways in which computations are put together.
-/

namespace IndexNotation

/-- A sequence that gives a result has given one in both parts. -/
theorem bind_eq_ok {ε α β : Type} {x : Except ε α} {f : α → Except ε β} {b : β}
    (h : (x >>= f) = .ok b) : ∃ a, x = .ok a ∧ f a = .ok b := by
  cases x with
  | error e => cases h
  | ok a => exact ⟨a, rfl, h⟩

/-- A sequence that fails has failed in one of its parts. -/
theorem bind_eq_error {ε α β : Type} {x : Except ε α} {f : α → Except ε β} {e : ε}
    (h : (x >>= f) = .error e) : x = .error e ∨ ∃ a, x = .ok a ∧ f a = .error e := by
  cases x with
  | error e' =>
    cases h
    exact .inl rfl
  | ok a => exact .inr ⟨a, rfl, h⟩

theorem bind_of_ok {ε α β : Type} {x : Except ε α} {a : α} (h : x = .ok a) (f : α → Except ε β) :
    (x >>= f) = f a := by
  rw [h]
  rfl

/-- A result that was changed was there. -/
theorem map_eq_ok {ε α β : Type} {x : Except ε α} {f : α → β} {b : β} (h : x.map f = .ok b) :
    ∃ a, x = .ok a ∧ f a = b := by
  cases x with
  | error e => cases h
  | ok a => exact ⟨a, rfl, Except.ok.inj h⟩

/-- A list of results is a result for every item. -/
theorem mapM_eq_ok {ε α β : Type} {f : α → Except ε β} {as : List α} {bs : List β}
    (h : as.mapM f = .ok bs) : List.Forall₂ (fun a b => f a = .ok b) as bs := by
  induction as generalizing bs with
  | nil =>
    cases h
    exact .nil
  | cons a as ih =>
    rw [List.mapM_cons] at h
    obtain ⟨b, hb, h⟩ := bind_eq_ok h
    obtain ⟨bs', hbs, h⟩ := bind_eq_ok h
    cases h
    exact .cons hb (ih hbs)

/-- If there is no list of results, there is none for some item. -/
theorem mapM_eq_error {ε α β : Type} {f : α → Except ε β} {as : List α} {e : ε}
    (h : as.mapM f = .error e) : ∃ a ∈ as, f a = .error e := by
  induction as with
  | nil => cases h
  | cons a as ih =>
    rw [List.mapM_cons] at h
    rcases bind_eq_error h with h | ⟨b, -, h⟩
    · exact ⟨a, .head _, h⟩
    rcases bind_eq_error h with h | ⟨bs, -, h⟩
    · obtain ⟨a', ha', h⟩ := ih h
      exact ⟨a', .tail _ ha', h⟩
    · cases h

/-- If each result is a changed one, so is the list of them. -/
theorem mapM_map_eq_ok {ε α β γ : Type} {f : α → Except ε β} {f' : α → Except ε γ} {g : β → γ}
    (hf : ∀ a, f' a = (f a).map g) {as : List α} {bs : List β} (h : as.mapM f = .ok bs) :
    as.mapM f' = .ok (bs.map g) := by
  induction as generalizing bs with
  | nil =>
    cases h
    rfl
  | cons a as ih =>
    rw [List.mapM_cons] at h ⊢
    obtain ⟨b, hb, h⟩ := bind_eq_ok h
    obtain ⟨bs', hbs, h⟩ := bind_eq_ok h
    cases h
    rw [hf, hb, ih hbs]
    rfl

theorem forM_eq_ok {ε α : Type} {f : α → Except ε PUnit.{1}} {as : List α} (h : as.forM f = .ok ⟨⟩) :
    ∀ a ∈ as, f a = .ok ⟨⟩ := by
  induction as with
  | nil => simp
  | cons a as ih =>
    obtain ⟨_, ha, h⟩ := bind_eq_ok h
    exact List.forall_mem_cons.2 ⟨ha, ih h⟩

theorem forM_eq_error {ε α : Type} {f : α → Except ε PUnit.{1}} {as : List α} {e : ε}
    (h : as.forM f = .error e) : ∃ a ∈ as, f a = .error e := by
  induction as with
  | nil => cases h
  | cons a as ih =>
    rcases bind_eq_error h with h | ⟨_, -, h⟩
    · exact ⟨a, .head _, h⟩
    · obtain ⟨a', ha', h⟩ := ih h
      exact ⟨a', .tail _ ha', h⟩

namespace Run

section

variable {σ α β : Type}

/-- What a computation gives in a state, and the state that it leaves. -/
def exec (x : ExceptT Error (StateM σ) α) (s : σ) : Except Error α × σ :=
  x.run.run s

@[simp] theorem exec_pure (a : α) (s : σ) : exec (pure a) s = (.ok a, s) := rfl

theorem exec_bind (x : ExceptT Error (StateM σ) α) (f : α → ExceptT Error (StateM σ) β) (s : σ) :
    exec (x >>= f) s = match exec x s with
      | (.ok a, s') => exec (f a) s'
      | (.error e, s') => (.error e, s') := by
  simp only [exec, ExceptT.run_bind, StateT.run_bind]
  rcases (ExceptT.run x).run s with ⟨_ | _, _⟩ <;> rfl

variable {x : ExceptT Error (StateM σ) α} {f : α → ExceptT Error (StateM σ) β} {s s' : σ}

theorem exec_bind_ok {a : α} (h : exec x s = (.ok a, s')) : exec (x >>= f) s = exec (f a) s' := by
  simp [exec_bind, h]

theorem exec_bind_error {e : Error} (h : exec x s = (.error e, s')) :
    exec (x >>= f) s = (.error e, s') := by
  simp [exec_bind, h]

/-- A sequence that succeeds has succeeded in both parts. -/
theorem exec_bind_eq_ok {s'' : σ} {b : β} (h : exec (x >>= f) s = (.ok b, s'')) :
    ∃ a s', exec x s = (.ok a, s') ∧ exec (f a) s' = (.ok b, s'') := by
  rw [exec_bind] at h
  split at h
  · exact ⟨_, _, ‹_›, h⟩
  · simp at h

theorem exists_of_isOk (h : (exec x s).1.isOk = true) : ∃ a s', exec x s = (.ok a, s') := by
  rcases hx : exec x s with ⟨_ | a, s'⟩
  · rw [hx] at h
    cases h
  · exact ⟨a, s', rfl⟩

theorem exists_of_any {P : α → Bool} (h : (exec x s).1.toOption.any P = true) :
    ∃ a s', exec x s = (.ok a, s') ∧ P a = true := by
  rcases hx : exec x s with ⟨_ | a, s'⟩
  · rw [hx] at h
    cases h
  · rw [hx] at h
    exact ⟨a, s', rfl, h⟩

/-- What follows a computation matters only for what it gives. -/
theorem exec_bind_congr {f' : α → ExceptT Error (StateM σ) β}
    (h : ∀ a s', exec x s = (.ok a, s') → exec (f a) s' = exec (f' a) s') :
    exec (x >>= f) s = exec (x >>= f') s := by
  rw [exec_bind, exec_bind]
  rcases hx : exec x s with ⟨e | a, s'⟩
  · rfl
  · exact h a s' hx

@[simp] theorem exec_map (g : α → β) (x : ExceptT Error (StateM σ) α) (s : σ) :
    exec (g <$> x) s = ((exec x s).1.map g, (exec x s).2) := by
  simp only [exec, ExceptT.run_map, StateT.run_map]
  rcases (ExceptT.run x).run s with ⟨_ | _, _⟩ <;> rfl

theorem exec_map_eq_ok {g : α → β} {x : ExceptT Error (StateM σ) α} {s s' : σ} {b : β}
    (h : exec (g <$> x) s = (.ok b, s')) : ∃ a, exec x s = (.ok a, s') ∧ g a = b := by
  rw [exec_map] at h
  obtain ⟨h, hs⟩ := Prod.mk.inj h
  obtain ⟨a, ha, hb⟩ := map_eq_ok h
  exact ⟨a, Prod.ext ha hs, hb⟩

@[simp] theorem exec_throw (e : Error) (s : σ) :
    exec (throw e : ExceptT Error (StateM σ) α) s = (.error e, s) := rfl

@[simp] theorem exec_modify (g : σ → σ) (s : σ) :
    exec (modify g : ExceptT Error (StateM σ) PUnit) s = (.ok ⟨⟩, g s) := rfl

@[simp] theorem exec_lift (x : Except Error α) (s : σ) :
    exec (liftM x : ExceptT Error (StateM σ) α) s = (x, s) := by
  cases x <;> rfl

@[simp] theorem exec_liftState (x : StateM σ α) (s : σ) :
    exec (liftM x : ExceptT Error (StateM σ) α) s = (.ok (x.run s).1, (x.run s).2) := rfl

theorem exec_tryCatch (x : ExceptT Error (StateM σ) α) (g : Error → ExceptT Error (StateM σ) α) (s : σ) :
    exec (tryCatch x g) s = match exec x s with
      | (.ok a, s') => (.ok a, s')
      | (.error e, s') => exec (g e) s' := by
  simp only [exec, ExceptT.run_tryCatch, StateT.run_bind]
  rcases (ExceptT.run x).run s with ⟨_ | _, _⟩ <;> rfl

end

variable {α : Type}

@[simp] theorem exec_fail (f : Fault) (w : World) :
    exec (fail f : Run α) w = (.error (.fault f), w) := rfl

@[simp] theorem exec_heap (w : World) : exec heap w = (.ok w.heap, w) := rfl

@[simp] theorem exec_allocate (cells : Array Value) (w : World) :
    exec (allocate cells) w = (.ok w.heap.size, { w with heap := w.heap.push cells }) := rfl

@[simp] theorem exec_ofFault (x : Except Fault α) (w : World) :
    exec (ofFault x) w = (x.mapError .fault, w) := by
  cases x <;> rfl

end Run

theorem Heap.block_modify {h : Heap} {b : Nat} (hb : b < h.size) (f : Array Value → Array Value) :
    Heap.block (h.modify b f) b = f (h.block b) := by
  rw [Heap.block, Heap.block, Array.getD_eq_getD_getElem?, Array.getD_eq_getD_getElem?,
    Array.getElem?_modify, if_pos rfl, Array.getElem?_eq_getElem hb]
  rfl

/-! ## What is there stays -/

namespace World

/-- The blocks of `w` are blocks of `w'`, with the same cells. -/
def Keeps (w w' : World) : Prop :=
  w.heap.size ≤ w'.heap.size ∧ ∀ b, b < w.heap.size → w'.heap.block b = w.heap.block b

namespace Keeps

variable {w w' w'' : World}

theorem refl (w : World) : w.Keeps w := ⟨Nat.le_refl _, fun _ _ => rfl⟩

theorem trans (h : w.Keeps w') (h' : w'.Keeps w'') : w.Keeps w'' :=
  ⟨Nat.le_trans h.1 h'.1, fun b hb => (h'.2 b (Nat.lt_of_lt_of_le hb h.1)).trans (h.2 b hb)⟩

theorem of_heap_eq (h : w'.heap = w.heap) : w.Keeps w' := by
  simp [Keeps, h]

theorem of_push (cells : Array Value) (h : w'.heap = w.heap.push cells) : w.Keeps w' := by
  refine ⟨by simp [h], fun b hb => ?_⟩
  simp only [h, Heap.block, Array.getD_eq_getD_getElem?, Array.getElem?_push, Nat.ne_of_lt hb, if_false]

end Keeps

/-- The blocks of `w` but block `b` are blocks of `w'`, with the same cells. -/
def KeepsBut (b : Nat) (w w' : World) : Prop :=
  w.heap.size ≤ w'.heap.size ∧ ∀ c, c < w.heap.size → c ≠ b → w'.heap.block c = w.heap.block c

theorem Keeps.but {w w' : World} (h : w.Keeps w') (b : Nat) : KeepsBut b w w' :=
  ⟨h.1, fun c hc _ => h.2 c hc⟩

theorem KeepsBut.trans {b : Nat} {w w' w'' : World} (h : KeepsBut b w w') (h' : KeepsBut b w' w'') :
    KeepsBut b w w'' :=
  ⟨Nat.le_trans h.1 h'.1, fun c hc hb =>
    (h'.2 c (Nat.lt_of_lt_of_le hc h.1) hb).trans (h.2 c hc hb)⟩

/-- What changes one block only keeps the others. -/
theorem KeepsBut.of_modify {b : Nat} {w w' : World} (f : Array Value → Array Value)
    (h : w'.heap = w.heap.modify b f) : KeepsBut b w w' := by
  refine ⟨by simp [h], fun c _ hb => ?_⟩
  simp only [h, Heap.block, Array.getD_eq_getD_getElem?, Array.getElem?_modify, Ne.symm hb, if_false]

end World

namespace Run

variable {α β : Type}

/-- A computation that keeps every block that is there, also if it fails. -/
def Keeps (x : Run α) : Prop := ∀ w : World, w.Keeps (exec x w).2

theorem keeps_pure (a : α) : Keeps (pure a : Run α) := fun w => .refl w

theorem keeps_throw (e : Error) : Keeps (throw e : Run α) := fun w => .refl w

theorem keeps_fail (f : Fault) : Keeps (fail f : Run α) := fun w => .refl w

theorem keeps_heap : Keeps heap := fun w => .refl w

theorem keeps_lift (x : Except Error α) : Keeps (liftM x : Run α) := fun w => by
  simpa using World.Keeps.refl w

theorem keeps_allocate (cells : Array Value) : Keeps (allocate cells) := fun _ => .of_push cells rfl

theorem Keeps.bind {x : Run α} {f : α → Run β} (hx : Keeps x) (hf : ∀ a, Keeps (f a)) :
    Keeps (x >>= f) := by
  intro w
  have h := hx w
  rw [exec_bind]
  split
  · rename_i a w' e
    rw [e] at h
    exact h.trans (hf a w')
  · rename_i e' w' e
    rwa [e] at h

theorem Keeps.map {x : Run α} (f : α → β) (hx : Keeps x) : Keeps (f <$> x) := fun w => by
  simpa using hx w

theorem Keeps.tryCatch {x : Run α} {f : Error → Run α} (hx : Keeps x) (hf : ∀ e, Keeps (f e)) :
    Keeps (tryCatch x f) := by
  intro w
  have h := hx w
  rw [exec_tryCatch]
  split
  · rename_i a w' e
    rwa [e] at h
  · rename_i e' w' e
    rw [e] at h
    exact h.trans (hf e' w')

theorem keeps_foldlM {f : β → α → Run β} (hf : ∀ b a, Keeps (f b a)) (as : List α) (b : β) :
    Keeps (as.foldlM f b) := by
  induction as generalizing b with
  | nil => exact keeps_pure _
  | cons a as ih =>
    rw [List.foldlM_cons]
    exact (hf b a).bind fun b' => ih b'

theorem keeps_forM {f : α → Run PUnit} {as : List α} (hf : ∀ a ∈ as, Keeps (f a)) : Keeps (as.forM f) := by
  induction as with
  | nil => exact keeps_pure _
  | cons a as ih => exact (hf a (.head _)).bind fun _ => ih fun b hb => hf b (.tail _ hb)

/-! ## Computations that only look -/

/-- Computations that are put together from reading the heap, adding blocks to it, and failing with a
fault. -/
inductive Calm : {α : Type} → Run α → Prop
  | pure {α : Type} (a : α) : Calm (pure a)
  | fail {α : Type} (f : Fault) : Calm (fail f : Run α)
  | heap : Calm heap
  | allocate (cells : Array Value) : Calm (allocate cells)
  | bind {α β : Type} {x : Run α} {f : α → Run β} : Calm x → (∀ a, Calm (f a)) → Calm (x >>= f)

theorem Calm.ofFault (x : Except Fault α) : Calm (ofFault x) := by
  cases x with
  | error f => exact .fail f
  | ok a => exact .pure a

theorem Calm.mapM {f : α → Run β} (hf : ∀ a, Calm (f a)) (as : List α) : Calm (as.mapM f) := by
  induction as with
  | nil => exact .pure _
  | cons a as ih =>
    rw [List.mapM_cons]
    exact (hf a).bind fun _ => ih.bind fun _ => .pure _

theorem Calm.foldlM {f : β → α → Run β} (hf : ∀ b a, Calm (f b a)) (as : List α) (b : β) :
    Calm (as.foldlM f b) := by
  induction as generalizing b with
  | nil => exact .pure _
  | cons a as ih =>
    rw [List.foldlM_cons]
    exact (hf b a).bind fun b' => ih b'

theorem Calm.keeps {x : Run α} (h : Calm x) : Keeps x := by
  induction h with
  | pure a => exact keeps_pure a
  | fail f => exact keeps_fail f
  | heap => exact keeps_heap
  | allocate cells => exact keeps_allocate cells
  | bind _ _ hx hf => exact hx.bind hf

/-- A computation whose errors are all faults. -/
def FaultsOnly (x : Run α) : Prop :=
  ∀ w e w', exec x w = (.error e, w') → e.isOwn = false

theorem FaultsOnly.bind {x : Run α} {f : α → Run β} (hx : FaultsOnly x) (hf : ∀ a, FaultsOnly (f a)) :
    FaultsOnly (x >>= f) := by
  intro w e w' h
  rw [exec_bind] at h
  split at h
  · exact hf _ _ e w' h
  · rename_i he
    cases h
    exact hx w e w' he

theorem Calm.faultsOnly {x : Run α} (h : Calm x) : FaultsOnly x := by
  induction h with
  | pure a => intro w e w' h; cases h
  | fail f =>
    intro w e w' h
    cases h
    rfl
  | heap => intro w e w' h; cases h
  | allocate cells => intro w e w' h; cases h
  | bind _ _ hx hf => exact hx.bind hf

/-- A property of computations that holds of all that only look and of sequences of what it holds
of. -/
structure Closed (P : {α : Type} → Run α → Prop) : Prop where
  calm : ∀ {α : Type} {x : Run α}, Calm x → P x
  bind : ∀ {α β : Type} {x : Run α} {f : α → Run β}, P x → (∀ a, P (f a)) → P (x >>= f)

theorem closed_keeps : Closed Keeps := ⟨Calm.keeps, Keeps.bind⟩

/-- A computation can give `a` in a world that has all that `w` has. -/
def Yields (w : World) (x : Run α) (a : α) : Prop :=
  ∃ u u', w.Keeps u ∧ exec x u = (.ok a, u')

/-- A computation comes out the same in all worlds that have all that `w` has. -/
def Determined (w : World) (x : Run α) : Prop :=
  ∀ u, w.Keeps u → (exec x u).1 = (exec x w).1

theorem Determined.eq_of_yields {w : World} {x : Run α} (h : Determined w x) {a : α}
    (ha : Yields w x a) : (exec x w).1 = .ok a := by
  obtain ⟨u, u', hu, hx⟩ := ha
  rw [← h u hu, hx]

theorem Yields.of_exec {w u u' : World} {x : Run α} {a : α} (hu : w.Keeps u)
    (h : exec x u = (.ok a, u')) : Yields w x a :=
  ⟨u, u', hu, h⟩

theorem Yields.mono {w w' : World} (h : w.Keeps w') {x : Run α} {a : α} (ha : Yields w' x a) :
    Yields w x a := by
  obtain ⟨u, u', hu, hx⟩ := ha
  exact ⟨u, u', h.trans hu, hx⟩

end Run
end IndexNotation
