import IndexNotation.Proofs.Crews
import IndexNotation.Proofs.Parsing
import IndexNotation.Proofs.Steps

/-!
# Errors of the notation come before the loops

An error of the notation itself, such as a name that is not bound or two ranges that do not agree, is
found while a run is set up. What the loops do (evaluate, combine, store) can only fail with a fault of
the values. The one part of an expression that could fail otherwise, the first element of a value, is
never written in a statement.
-/

namespace IndexNotation

open Run (exec Keeps FaultsOnly Calm)

/-! ## What is written asks for no first element -/

namespace Expr

def isFirst : Expr → Bool
  | first .. => true
  | _ => false

/-- Whether the first element of something is asked for anywhere in the tree. -/
def usesFirst (e : Expr) : Bool :=
  e.walk.any isFirst

theorem any_walkAll (es : List Expr) (p : Expr → Bool) :
    (walk.walkAll es).any p = es.any fun e => e.walk.any p := by
  induction es with
  | nil => rfl
  | cons e es ih => rw [walk.walkAll, List.any_append, ih, List.any_cons]

@[simp] theorem usesFirst_name (id : String) (p : Option Pos) : (name id p).usesFirst = false := rfl

@[simp] theorem usesFirst_number (v : Literal) (p : Option Pos) : (number v p).usesFirst = false := rfl

@[simp] theorem usesFirst_first (e : Expr) (p : Option Pos) : (first e p).usesFirst = true := rfl

@[simp] theorem usesFirst_index (b : Expr) (is : List Expr) (p : Option Pos) :
    (index b is p).usesFirst = (b.usesFirst || is.any usesFirst) := by
  simp only [usesFirst, walk, List.any_cons, isFirst, Bool.false_or, List.any_append, any_walkAll]
  rfl

@[simp] theorem usesFirst_field (b : Expr) (n : String) (p : Option Pos) :
    (field b n p).usesFirst = b.usesFirst := by
  simp [usesFirst, walk, isFirst]

@[simp] theorem usesFirst_call (f : String) (args : List Expr) (p : Option Pos) :
    (call f args p).usesFirst = args.any usesFirst := by
  simp only [usesFirst, walk, List.any_cons, isFirst, Bool.false_or, any_walkAll]
  rfl

@[simp] theorem usesFirst_binary (l : Expr) (op : BinaryOp) (r : Expr) (p : Option Pos) :
    (binary l op r p).usesFirst = (l.usesFirst || r.usesFirst) := by
  simp [usesFirst, walk, isFirst]

@[simp] theorem usesFirst_unary (op : UnaryOp) (e : Expr) (p : Option Pos) :
    (unary op e p).usesFirst = e.usesFirst := by
  simp [usesFirst, walk, isFirst]

mutual

/-- Resolving the names of an expression asks for nothing new. -/
theorem usesFirst_of_resolve {scope : Scope} {indices : List String} {e : Expr} {c : Code}
    (h : e.resolve scope indices = .ok c) (he : e.usesFirst = false) : c.usesFirst = false := by
  cases e with
  | name id p =>
    obtain ⟨-, rfl⟩ | ⟨-, v, -, rfl⟩ := resolve_name_eq_ok h
    · rfl
    · rfl
  | number v p =>
    cases h
    rfl
  | index b is p =>
    simp only [usesFirst_index, Bool.or_eq_false_iff] at he
    obtain ⟨base, codes, hb, his, rfl⟩ := resolve_index_eq_ok h
    rw [Code.usesFirst, usesFirst_of_resolve hb he.1, anyUsesFirst_of_resolveAll his he.2]
    rfl
  | field b n p =>
    rw [usesFirst_field] at he
    obtain ⟨base, hb, rfl⟩ := resolve_field_eq_ok h
    rw [Code.usesFirst]
    exact usesFirst_of_resolve hb he
  | call f args p =>
    rw [usesFirst_call] at he
    obtain ⟨v, codes, -, hargs, rfl⟩ := resolve_call_eq_ok h
    exact anyUsesFirst_of_resolveAll hargs he
  | binary l op r p =>
    simp only [usesFirst_binary, Bool.or_eq_false_iff] at he
    obtain ⟨left, right, hl, hr, rfl⟩ := resolve_binary_eq_ok h
    rw [Code.usesFirst, usesFirst_of_resolve hl he.1, usesFirst_of_resolve hr he.2]
    rfl
  | unary op e p =>
    rw [usesFirst_unary] at he
    obtain ⟨operand, hx, rfl⟩ := resolve_unary_eq_ok h
    rw [Code.usesFirst]
    exact usesFirst_of_resolve hx he
  | first e p => cases he
  | compare _ _ | keyword _ _ _ | target _ _ _ | hole => cases h

theorem anyUsesFirst_of_resolveAll {scope : Scope} {indices : List String} {es : List Expr} {cs : List Code}
    (h : resolve.resolveAll scope indices es = .ok cs) (hes : es.any usesFirst = false) :
    Code.usesFirst.anyUsesFirst cs = false := by
  cases es with
  | nil =>
    cases h
    rfl
  | cons e es =>
    simp only [List.any_cons, Bool.or_eq_false_iff] at hes
    obtain ⟨c, cs, hc, hcs, rfl⟩ := resolveAll_cons_eq_ok h
    rw [Code.usesFirst.anyUsesFirst, usesFirst_of_resolve hc hes.1, anyUsesFirst_of_resolveAll hcs hes.2]
    rfl

end

mutual

theorem usesFirst_reading (e : Expr) : e.reading.usesFirst = e.usesFirst := by
  cases e with
  | index b is p => simp [reading, usesFirst_reading b, any_usesFirst_readingAll is]
  | field b n p => simp [reading, usesFirst_reading b]
  | call f args p => simp [reading, any_usesFirst_readingAll args]
  | binary l op r p => simp [reading, usesFirst_reading l, usesFirst_reading r]
  | unary op e p => simp [reading, usesFirst_reading e]
  | first e p => rfl
  | name _ _ | number _ _ | compare _ _ | keyword _ _ _ | target _ _ _ | hole => rfl

theorem any_usesFirst_readingAll (es : List Expr) :
    (reading.readingAll es).any usesFirst = es.any usesFirst := by
  cases es with
  | nil => rfl
  | cons e es =>
    rw [reading.readingAll, List.any_cons, List.any_cons, usesFirst_reading e, any_usesFirst_readingAll es]

end

mutual

theorem usesFirst_canonical (e : Expr) : e.canonical.usesFirst = e.usesFirst := by
  cases e with
  | index b is p => simp [canonical, usesFirst_canonical b, any_usesFirst_canonicalEntries is]
  | field b n p => simp [canonical, usesFirst_canonical b]
  | call f args p => simp [canonical, any_usesFirst_canonicalArgs args]
  | binary l op r p => simp [canonical, usesFirst_canonical l, usesFirst_canonical r]
  | unary op e p => simp [canonical, usesFirst_canonical e]
  | name _ _ | number _ _ | first _ _ | compare _ _ | keyword _ _ _ | target _ _ _ | hole => rfl

theorem any_usesFirst_canonicalEntries (es : List Expr) :
    (canonicalEntries es).any usesFirst = es.any usesFirst := by
  match es with
  | [] => rfl
  | name id p :: es =>
    rw [canonicalEntries, List.any_cons, List.any_cons, any_usesFirst_canonicalEntries es]
    split <;> rfl
  | number .. :: es | index .. :: es | field .. :: es | call .. :: es | binary .. :: es | unary .. :: es
  | first .. :: es | compare .. :: es | keyword .. :: es | target .. :: es | hole :: es =>
    rw [canonicalEntries, List.any_cons, List.any_cons, any_usesFirst_canonicalEntries es,
      usesFirst_canonical]
    simp

theorem any_usesFirst_canonicalArgs (es : List Expr) :
    (canonicalArgs es).any usesFirst = es.any usesFirst := by
  cases es with
  | nil => rfl
  | cons e es =>
    rw [canonicalArgs, List.any_cons, List.any_cons, usesFirst_canonical e, any_usesFirst_canonicalArgs es]

end

end Expr

/-- No part of a phrase that is evaluated asks for a first element. -/
def Phrase.Written : Phrase → Prop
  | expr _ x => x.expr.usesFirst = false
  | list xs => xs.any Expr.usesFirst = false
  | item _ | items _ => True

theorem Derives.written {p : Phrase} {c c' : Cursor} (h : Derives p c c') : p.Written := by
  induction h <;> simp_all [Phrase.Written]

theorem DerivesTarget.written {t : Target} {c c' : Cursor} (h : DerivesTarget t c c') :
    t.indices.any Expr.usesFirst = false := by
  obtain ⟨-, -, hxs, -⟩ := h
  rcases hxs with ⟨rfl, -⟩ | hxs
  · rfl
  · exact hxs.written

theorem Spells.written {text : String} {s : Statement} (h : Spells text s) :
    s.target.indices.any Expr.usesFirst = false ∧ s.rhs.usesFirst = false := by
  cases h with
  | plain htarget _ _ hrhs _ => exact ⟨htarget.written, hrhs.written⟩
  | reduced htarget _ _ hrhs _ _ => exact ⟨htarget.written, hrhs.written⟩

section

variable {α β σ : Type}

theorem Run.FaultsOnly.foldlM {f : β → α → Run β} (hf : ∀ b a, FaultsOnly (f b a)) (as : List α) (b : β) :
    FaultsOnly (as.foldlM f b) := by
  induction as generalizing b with
  | nil => exact (Calm.pure _).faultsOnly
  | cons a as ih =>
    rw [List.foldlM_cons]
    exact (hf b a).bind ih

theorem Run.FaultsOnly.forM {f : α → Run PUnit} (hf : ∀ a, FaultsOnly (f a)) (as : List α) :
    FaultsOnly (as.forM f) := by
  induction as with
  | nil => exact (Calm.pure _).faultsOnly
  | cons a as ih => exact (hf a).bind fun _ => ih

theorem Run.FaultsOnly.foldLoops (loops : List (String × List Int)) {body : Env → σ → Run σ}
    (h : ∀ env s, FaultsOnly (body env s)) (env : Env) (s : σ) :
    FaultsOnly (IndexNotation.foldLoops loops body env s) := by
  induction loops generalizing env s with
  | nil => exact h env s
  | cons l loops ih => exact .foldlM (fun s v => ih ((l.1, v) :: env) s) _ _

/-- The error of all chunks is the error of one of them. -/
theorem Run.FaultsOnly.runChunks {work : Range → σ → Run σ} (h : ∀ c s, FaultsOnly (work c s))
    (chunks : List Range) (s : σ) : FaultsOnly (IndexNotation.runChunks work chunks none s) := by
  intro w e w' hrun
  have hfold := (runChunks_sameOutcome work chunks s).fst_eq w
  rcases hchunks : exec (chunks.foldlM (fun s c => work c s) s) w with ⟨r, u⟩
  rw [hrun, hchunks] at hfold
  subst hfold
  exact FaultsOnly.foldlM (fun s c => h c s) chunks s w e u hchunks

end

/-- What a machine does fails with faults only. -/
structure Machine.FaultsOnly {V : Type} (k : Machine Run V) : Prop where
  element : ∀ env, Run.FaultsOnly (k.element env)
  combine : ∀ acc v, Run.FaultsOnly (k.combine acc v)
  store : ∀ env v, Run.FaultsOnly (k.store env v)

section

variable {V : Type} {k : Machine Run V} (h : k.FaultsOnly) (rs : Ranges) (outputs : List String)

include h

end

/-! ## Workers -/

namespace Process

/-- A process that fails with faults only. -/
def FaultsOnly : Process σ α → Prop
  | done r => ∀ e, r = .error e → e.isOwn = false
  | step _ n => ∀ s, (n s).FaultsOnly

theorem FaultsOnly.bind {p : Process σ α} {f : α → Process σ β} (hp : Process.FaultsOnly p)
    (hf : ∀ a, Process.FaultsOnly (f a)) : Process.FaultsOnly (p >>= f) := by
  induction p with
  | done r =>
    cases r with
    | error e => exact fun e' he => hp e' (by cases he; rfl)
    | ok a => exact hf a
  | step w n ih => exact fun s => ih s (hp s)

theorem FaultsOnly.foldlM {f : α → β → Process σ α} {bs : List β}
    (h : ∀ b ∈ bs, ∀ a, Process.FaultsOnly (f a b)) (a : α) : Process.FaultsOnly (bs.foldlM f a) := by
  induction bs generalizing a with
  | nil => exact fun _ he => by cases he
  | cons b bs ih =>
    rw [List.foldlM_cons]
    exact (h b (.head _) a).bind fun a' => ih (fun b hb => h b (.tail _ hb)) a'

theorem FaultsOnly.advances {ps ps' : List (Process σ α)} {s s' : σ} (h : ∀ p ∈ ps, Process.FaultsOnly p)
    (hstep : Advances s ps s' ps') : ∀ p ∈ ps', Process.FaultsOnly p := by
  induction hstep with
  | @here w n ps =>
    obtain ⟨hp, hps⟩ := List.forall_mem_cons.1 h
    exact List.forall_mem_cons.2 ⟨hp s, hps⟩
  | there _ ih =>
    obtain ⟨hp, hps⟩ := List.forall_mem_cons.1 h
    exact List.forall_mem_cons.2 ⟨hp, ih hps⟩

theorem FaultsOnly.await {ps : List (Process σ α)} (h : ∀ p ∈ ps, Process.FaultsOnly p) {e : Error}
    (hawait : await ps = some (.error e)) : e.isOwn = false := by
  induction ps with
  | nil => cases hawait
  | cons p ps ih =>
    obtain ⟨hp, hps⟩ := List.forall_mem_cons.1 h
    cases p with
    | step w n => cases hawait
    | done r =>
      cases r with
      | error e' =>
        cases hawait
        exact hp e rfl
      | ok a => exact ih hps hawait

end Process

/-- A crew of processes that fail with faults only. -/
def Crew.FaultsOnly (c : Crew σ) : Prop :=
  ∀ ps ∈ c.active :: c.waiting, ∀ p ∈ ps, Process.FaultsOnly p

theorem Crew.FaultsOnly.step {c c' : Crew σ} (h : c.FaultsOnly) (hstep : Step c c') : c'.FaultsOnly := by
  cases hstep with
  | advance hstep =>
    obtain ⟨hactive, hwaiting⟩ := List.forall_mem_cons.1 h
    exact List.forall_mem_cons.2 ⟨Process.FaultsOnly.advances hactive hstep, hwaiting⟩
  | start => exact (List.forall_mem_cons.1 h).2

theorem Crew.FaultsOnly.reaches {c c' : Crew σ} (h : c.FaultsOnly) (hreach : Reaches c c') : c'.FaultsOnly := by
  induction hreach with
  | refl => exact h
  | tail _ hstep ih => exact ih.step hstep

section

variable {V : Type} {k : Machine Run V} (h : k.FaultsOnly) (rs : Ranges) (outputs : List String)

include h

end

/-! ## What a machine fails with -/

namespace Value

end Value

/-- The supplied functions raise no error of the notation. -/
def Scope.FaultsOnly (scope : Scope) : Prop :=
  ∀ name args, Run.FaultsOnly (scope.supplied name args)

namespace Kernel

end Kernel
end IndexNotation
