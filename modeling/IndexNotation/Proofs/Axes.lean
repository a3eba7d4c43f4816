import IndexNotation.Kernel.Run
import IndexNotation.Proofs.Evaluation
import IndexNotation.Proofs.Points

/-!
# Axes and their ranges

Every axis that is derived for an index is answered by the catalog: it is the axis of the index, or
is derived in the same way, or is checked against it. So once the ranges are found and the checks
are made, an index that stands at a position of an array runs over exactly that dimension.
-/

namespace IndexNotation

open Run (exec Yields Determined)

/-! ## The catalog -/

/-- Axes that are equal or derived in the same way. -/
def Axis.Like (a b : Axis) : Prop := a = b ∨ a.same b

/-- An axis like a dimension of a named value is that dimension. -/
theorem Axis.Like.eq_array {a : Axis} {name : String} {pos : Option Pos} {dim : Nat}
    (h : a.Like (.array (.name name pos) dim)) : ∃ pos', a = .array (.name name pos') dim := by
  rcases h with rfl | h
  · exact ⟨pos, rfl⟩
  · match a, h with
    | .array (.name n p) d, h =>
      simp only [Axis.same, Expr.same, Bool.and_eq_true, beq_iff_eq] at h
      obtain ⟨rfl, rfl⟩ := h
      exact ⟨p, rfl⟩

namespace Catalog

/-- An index has one axis, and the checks of an index are against it. -/
structure Sound (c : Catalog) : Prop where
  nodup : (c.axes.map Prod.fst).Nodup
  expected : ∀ check ∈ c.checks, c.get? check.index = some check.expected

/-- The axis of an index is like `axis`, or there is a check that it agrees with one like `axis`. -/
def Answers (c : Catalog) (index : String) (axis : Axis) : Prop :=
  ∃ known, c.get? index = some known ∧
    (known.Like axis ∨ ∃ check ∈ c.checks, check.index = index ∧ check.actual.Like axis)

variable {c : Catalog} {i j : String} {a b : Axis}

theorem sound_empty : empty.Sound := ⟨by simp [empty], by simp [empty]⟩

/-- What binding an axis does: it is the first one, or it is answered already, or it is checked. -/
theorem bind_cases (c : Catalog) (j : String) (b : Axis) :
    (c.get? j = none ∧ c.bind j b = { c with axes := c.axes ++ [(j, b)] }) ∨
    (∃ known, c.get? j = some known ∧ c.bind j b = c ∧
      (known.same b ∨ ∃ check ∈ c.checks, check.index = j ∧ check.actual.same b)) ∨
    (∃ known, c.get? j = some known ∧
      c.bind j b = { c with checks := c.checks ++ [⟨j, known, b⟩] }) := by
  unfold bind
  split
  · exact .inl ⟨‹_›, rfl⟩
  · rename_i known hknown
    refine .inr ?_
    split
    · exact .inl ⟨known, hknown, rfl, .inl ‹_›⟩
    · dsimp only
      split
      · rename_i hany
        obtain ⟨check, hmem, hsame⟩ := List.any_eq_true.1 hany
        simp only [AxisCheck.same, Bool.and_eq_true, beq_iff_eq] at hsame
        exact .inl ⟨known, hknown, rfl, .inr ⟨check, hmem, hsame.1.1, hsame.2⟩⟩
      · exact .inr ⟨known, hknown, rfl⟩

/-- The first axis of an index stays. -/
theorem get?_bind (h : c.get? i = some a) (j : String) (b : Axis) : (c.bind j b).get? i = some a := by
  rcases c.bind_cases j b with ⟨-, e⟩ | ⟨_, -, e, -⟩ | ⟨_, -, e⟩
  · rw [e]
    change (c.axes ++ [(j, b)]).lookup i = some a
    rw [List.lookup_append, show c.axes.lookup i = some a from h, Option.some_or]
  · rwa [e]
  · rw [e]
    exact h

theorem checks_bind (c : Catalog) (j : String) (b : Axis) : c.checks ⊆ (c.bind j b).checks := by
  rcases c.bind_cases j b with ⟨-, e⟩ | ⟨_, -, e, -⟩ | ⟨_, -, e⟩ <;> rw [e] <;> simp

theorem Sound.bind (h : c.Sound) (j : String) (b : Axis) : (c.bind j b).Sound := by
  refine ⟨?_, fun check hcheck => ?_⟩
  · rcases c.bind_cases j b with ⟨hnone, e⟩ | ⟨_, -, e, -⟩ | ⟨_, -, e⟩
    · rw [e, List.map_append, List.map_singleton]
      refine (List.perm_append_singleton _ _).nodup_iff.2 (List.nodup_cons.2 ⟨fun hj => ?_, h.nodup⟩)
      have := Env.lookup_isSome.2 hj
      rw [show c.axes.lookup j = none from hnone] at this
      simp at this
    · rw [e]
      exact h.nodup
    · rw [e]
      exact h.nodup
  · rcases c.bind_cases j b with ⟨-, e⟩ | ⟨_, -, e, -⟩ | ⟨known, hknown, e⟩
    · exact get?_bind (h.expected check (by simpa [e] using hcheck)) j b
    · rw [e] at hcheck ⊢
      exact h.expected check hcheck
    · rw [e] at hcheck ⊢
      rcases List.mem_append.1 hcheck with hcheck | hcheck
      · exact h.expected check hcheck
      · obtain rfl := List.mem_singleton.1 hcheck
        exact hknown

theorem Answers.bind (h : c.Answers i a) (j : String) (b : Axis) : (c.bind j b).Answers i a := by
  obtain ⟨known, hknown, hlike⟩ := h
  refine ⟨known, get?_bind hknown j b, hlike.imp_right ?_⟩
  rintro ⟨check, hmem, hcheck⟩
  exact ⟨check, checks_bind c j b hmem, hcheck⟩

theorem answers_bind (c : Catalog) (j : String) (b : Axis) : (c.bind j b).Answers j b := by
  rcases c.bind_cases j b with ⟨hnone, e⟩ | ⟨known, hknown, e, h⟩ | ⟨known, hknown, e⟩
  · refine ⟨b, ?_, .inl (.inl rfl)⟩
    rw [e]
    change (c.axes ++ [(j, b)]).lookup j = some b
    rw [List.lookup_append, show c.axes.lookup j = none from hnone]
    simp
  · rw [e]
    refine ⟨known, hknown, h.imp .inr ?_⟩
    rintro ⟨check, hmem, hindex, hsame⟩
    exact ⟨check, hmem, hindex, .inr hsame⟩
  · rw [e]
    exact ⟨known, hknown, .inr ⟨⟨j, known, b⟩, by simp, rfl, .inl rfl⟩⟩

theorem Sound.bindAll (h : c.Sound) (axes : List (String × Axis)) : (c.bindAll axes).Sound := by
  induction axes generalizing c with
  | nil => exact h
  | cons p axes ih => exact ih (h.bind p.1 p.2)

theorem get?_bindAll (h : c.get? i = some a) (axes : List (String × Axis)) :
    (c.bindAll axes).get? i = some a := by
  induction axes generalizing c with
  | nil => exact h
  | cons p axes ih => exact ih (get?_bind h p.1 p.2)

theorem Answers.bindAll (h : c.Answers i a) (axes : List (String × Axis)) :
    (c.bindAll axes).Answers i a := by
  induction axes generalizing c with
  | nil => exact h
  | cons p axes ih => exact ih (h.bind p.1 p.2)

/-- Every axis that was bound is answered. -/
theorem answers_bindAll {axes : List (String × Axis)} (h : (i, a) ∈ axes) (c : Catalog) :
    (c.bindAll axes).Answers i a := by
  induction axes generalizing c with
  | nil => simp at h
  | cons p axes ih =>
    rcases List.mem_cons.1 h with rfl | h
    · exact (answers_bind c i a).bindAll axes
    · exact ih h _

end Catalog

/-! ## Resolving axes -/

/-- The dimensions of a value are counted from zero. -/
theorem Value.axisRange_eq_ok {v : Value} {dim : Nat} {w w' : World} {r : Range}
    (h : exec (v.axisRange dim) w = (.ok r, w')) : ∃ n, r = .upTo n := by
  unfold Value.axisRange at h
  obtain ⟨shape, _, -, h⟩ := Run.exec_bind_eq_ok h
  split at h
  · obtain ⟨heap, _, -, h⟩ := Run.exec_bind_eq_ok h
    split at h
    · simp at h
    · split at h
      · simp at h
      · obtain ⟨x, _, -, h⟩ := Run.exec_bind_eq_ok h
        obtain ⟨n, _, -, h⟩ := Run.exec_bind_eq_ok h
        simp only [Run.exec_pure, Prod.mk.injEq, Except.ok.injEq] at h
        exact ⟨n, h.1.symm⟩
  · obtain ⟨inner, _, -, h⟩ := Run.exec_bind_eq_ok h
    obtain ⟨heap, _, -, h⟩ := Run.exec_bind_eq_ok h
    split at h
    · simp only [Run.exec_pure, Prod.mk.injEq, Except.ok.injEq] at h
      exact ⟨_, h.1.symm⟩
    · simp at h

theorem Value.exec_field?_shape (a : View) (w : World) :
    exec (Value.field? (.array a) "shape") w = (.ok (some (ofShape a.shape)), w) := rfl

theorem Value.exec_axisRange_array {a : View} {dim : Nat} (hdim : dim < a.shape.length) (w : World) :
    exec (Value.axisRange (.array a) dim) w = (.ok (.upTo a.shape[dim]), w) := by
  unfold Value.axisRange
  rw [Run.exec_bind_ok (Value.exec_field?_shape a w)]
  simp only [Value.ofShape, Value.length?, Value.sequence?, Option.map_some, List.length_map]
  rw [Run.exec_bind_ok (Run.exec_heap w), if_neg (Nat.not_le.2 hdim)]
  have hitem : exec (Value.item (.tuple (a.shape.map fun (n : Nat) => Value.int n)) (.int dim)) w =
      (.ok (.int a.shape[dim]), w) := by
    unfold Value.item
    rw [Run.exec_bind_ok (Run.exec_heap w)]
    simp [Value.itemOf, Value.position?, resolvePosition, hdim, Except.mapError]
  rw [Run.exec_bind_ok hitem]
  rfl

/-- A dimension of an array has the positions that its shape says. -/
theorem Value.axisRange_array {a : View} {dim : Nat} {w w' : World} {r : Range}
    (h : exec (Value.axisRange (.array a) dim) w = (.ok r, w')) :
    ∃ n, a.shape[dim]? = some n ∧ r = .upTo n := by
  by_cases hdim : dim < a.shape.length
  · rw [Value.exec_axisRange_array hdim] at h
    cases h
    exact ⟨_, List.getElem?_eq_getElem hdim, rfl⟩
  · unfold Value.axisRange at h
    rw [Run.exec_bind_ok (Value.exec_field?_shape a w)] at h
    simp only [Value.ofShape, Value.length?, Value.sequence?, Option.map_some, List.length_map] at h
    rw [Run.exec_bind_ok (Run.exec_heap w), if_pos (Nat.not_lt.1 hdim)] at h
    simp at h

namespace Axis

variable {scope : Scope} {indices : List String} {w w' : World} {r : Range}

/-- An axis has no gaps. -/
theorem step_of_resolve {axis : Axis} (h : exec (axis.resolve scope indices) w = (.ok r, w')) :
    r.step = 1 := by
  cases axis with
  | array source dim =>
    obtain ⟨v, _, -, h⟩ := Run.exec_bind_eq_ok h
    obtain ⟨n, rfl⟩ := Value.axisRange_eq_ok h
    rfl
  | between lower upper =>
    cases lower with
    | none =>
      obtain ⟨_, _, -, h⟩ := Run.exec_bind_eq_ok h
      obtain ⟨_, _, -, h⟩ := Run.exec_bind_eq_ok h
      obtain ⟨_, _, -, h⟩ := Run.exec_bind_eq_ok h
      cases h
      rfl
    | some e =>
      obtain ⟨_, _, -, h⟩ := Run.exec_bind_eq_ok h
      obtain ⟨_, _, -, h⟩ := Run.exec_bind_eq_ok h
      obtain ⟨_, _, -, h⟩ := Run.exec_bind_eq_ok h
      obtain ⟨_, _, -, h⟩ := Run.exec_bind_eq_ok h
      cases h
      rfl

theorem resolve_array {source : Expr} {dim : Nat}
    (h : exec ((array source dim).resolve scope indices) w = (.ok r, w')) : ∃ n, r = .upTo n := by
  obtain ⟨v, _, -, h⟩ := Run.exec_bind_eq_ok h
  exact Value.axisRange_eq_ok h

/-- The range of a dimension of an array that a name is bound to. -/
theorem resolve_name {name : String} {pos : Option Pos} {dim : Nat} {a : View}
    (hname : scope.bindings.lookup name = some (.array a))
    (h : exec ((array (.name name pos) dim).resolve scope indices) w = (.ok r, w')) :
    ∃ n, a.shape[dim]? = some n ∧ r = .upTo n := by
  obtain ⟨v, u, hv, h⟩ := Run.exec_bind_eq_ok h
  have hv : v = .array a := by
    obtain ⟨c, _, hc, hv⟩ := Run.exec_bind_eq_ok hv
    simp only [Run.exec_lift, Prod.mk.injEq, Expr.resolve] at hc
    have hlookup : scope.lookup name = .ok (.array a) := by simp [Scope.lookup, hname]
    split at hc
    · obtain ⟨hc, rfl⟩ := hc
      cases hc
      simp [Code.run] at hv
    · rw [hlookup] at hc
      obtain ⟨hc, rfl⟩ := hc
      cases hc
      cases hv
      rfl
  subst hv
  exact Value.axisRange_array h

/-- An axis whose range can be told without a look at the heap: a dimension of an array that a name
is bound to, or the integers between two that are written down. -/
def isPlain (scope : Scope) (indices : List String) : Axis → Bool
  | array (.name id _) dim =>
    match scope.bindings.lookup id with
    | some (.array a) => !indices.contains id && dim < a.shape.length
    | _ => false
  | between lower (.number (.int _) _) =>
    match lower with
    | none | some (.number (.int _) _) => true
    | _ => false
  | _ => false

theorem exists_resolve_of_isPlain {axis : Axis} (h : axis.isPlain scope indices = true) :
    ∃ r, ∀ w, exec (axis.resolve scope indices) w = (.ok r, w) := by
  unfold isPlain at h
  split at h
  · split at h
    · rename_i id pos dim _ a hlookup
      simp only [Bool.and_eq_true, Bool.not_eq_true', decide_eq_true_eq] at h
      have heval (w : World) : exec ((Expr.name id pos).eval scope indices []) w = (.ok (.array a), w) := by
        simp only [Expr.eval, Expr.resolve, h.1, Scope.lookup, hlookup]
        rfl
      exact ⟨_, fun w => by rw [resolve, Run.exec_bind_ok (heval w), Value.exec_axisRange_array h.2]⟩
    · simp at h
  · split at h
    · exact ⟨_, fun _ => rfl⟩
    · exact ⟨_, fun _ => rfl⟩
    · simp at h
  · simp at h

theorem determined_of_isPlain {axis : Axis} (h : axis.isPlain scope indices = true) (w : World) :
    Determined w (axis.resolve scope indices) := by
  obtain ⟨r, hr⟩ := exists_resolve_of_isPlain h
  intro u _
  rw [hr, hr]

theorem keeps_of_isPlain {axis : Axis} (h : axis.isPlain scope indices = true) :
    (axis.resolve scope indices).Keeps := by
  obtain ⟨r, hr⟩ := exists_resolve_of_isPlain h
  intro w
  rw [hr]
  exact .refl w

end Axis

/-! ## The ranges of a run -/

theorem exists_of_forall₂ {α β : Type} {R : α → β → Prop} {as : List α} {bs : List β}
    (h : List.Forall₂ R as bs) {b : β} (hb : b ∈ bs) : ∃ a ∈ as, R a b := by
  induction h with
  | nil => simp at hb
  | cons hr _ ih =>
    rcases List.mem_cons.1 hb with rfl | hb
    · exact ⟨_, .head _, hr⟩
    · obtain ⟨a, ha, hab⟩ := ih hb
      exact ⟨a, .tail _ ha, hab⟩

/-- What stands for a name in one list has its counterpart for that name in the other. -/
theorem exists_lookup_of_forall₂ {α β : Type} {R : α → β → Prop} {as : List (String × α)}
    {bs : List (String × β)} (h : List.Forall₂ (fun a b => b.1 = a.1 ∧ R a.2 b.2) as bs) {i : String} {a : α}
    (ha : as.lookup i = some a) : ∃ b, bs.lookup i = some b ∧ R a b := by
  induction h with
  | nil => simp at ha
  | @cons p q as bs hpq _ ih =>
    obtain ⟨j, x⟩ := p
    obtain ⟨j', y⟩ := q
    obtain ⟨rfl, hxy⟩ := hpq
    rw [List.lookup_cons] at ha ⊢
    cases hij : i == j' with
    | true =>
      rw [hij] at ha
      cases ha
      exact ⟨y, rfl, hxy⟩
    | false =>
      rw [hij] at ha
      exact ih ha

namespace Catalog

/-- The ranges are those of the axes, and the checks have been made. -/
structure Resolved (c : Catalog) (scope : Scope) (indices : List String) (w : World) (rs : Ranges) :
    Prop where
  axes : List.Forall₂ (fun a r => r.1 = a.1 ∧ Yields w (a.2.resolve scope indices) r.2) c.axes rs
  checks : ∀ check ∈ c.checks, ∃ r r', Yields w (check.expected.resolve scope indices) r ∧
    Yields w (check.actual.resolve scope indices) r' ∧ r.same r'

section

variable {resolver : Axis → Run Range} {axes : List (String × Axis)} {axis : Axis} {w u : World}

theorem resolveAxes_of_error {e : Error} (h : exec (resolver axis) w = (.error e, u)) (i : String) :
    (resolveAxes resolver ((i, axis) :: axes)).run w = (([], some e), u) := by
  rw [resolveAxes, StateT.run_bind, show (resolver axis).run.run w = (.error e, u) from h]
  rfl

theorem resolveAxes_of_ok {r : Range} (h : exec (resolver axis) w = (.ok r, u)) (i : String) :
    (resolveAxes resolver ((i, axis) :: axes)).run w =
      ((fun p => ((i, r) :: p.1, p.2)) <$> resolveAxes resolver axes).run u := by
  rw [resolveAxes, StateT.run_bind, show (resolver axis).run.run w = (.ok r, u) from h]
  rfl

/-- First the axes are resolved, then the checks are made. -/
theorem exec_rangesBy (c : Catalog) (resolver : Axis → Run Range) (w : World) :
    exec (c.rangesBy resolver) w =
      match (resolveAxes resolver c.axes).run w with
      | ((_, some e), u) => (.error e, u)
      | ((rs, none), u) => exec ((fun _ => rs) <$> runChecks resolver c.checks) u := by
  have hranges : exec (c.rangesBy resolver) w =
      match (c.resolveBy resolver).run w with
      | ((_, some e), u) => (.error e, u)
      | ((rs, none), u) => (.ok rs, u) := by
    rw [rangesBy, Run.exec_bind_ok (Run.exec_liftState (c.resolveBy resolver) w)]
    rcases (c.resolveBy resolver).run w with ⟨⟨rs, _ | e⟩, u⟩ <;> rfl
  have hresolve : (c.resolveBy resolver).run w =
      match (resolveAxes resolver c.axes).run w with
      | ((rs, some e), u) => ((rs, some e), u)
      | ((rs, none), u) =>
        match exec (runChecks resolver c.checks) u with
        | (.error e, u') => ((rs, some e), u')
        | (.ok _, u') => ((rs, none), u') := by
    rw [resolveBy, StateT.run_bind]
    rcases (resolveAxes resolver c.axes).run w with ⟨⟨rs, _ | e⟩, u⟩
    · rcases hchecks : exec (runChecks resolver c.checks) u with ⟨e | _, u'⟩ <;>
        · refine (StateT.run_bind ..).trans ?_
          rw [show (runChecks resolver c.checks).run.run u = _ from hchecks]
          simp only [hchecks]
          rfl
    · rfl
  rw [hranges, hresolve]
  rcases (resolveAxes resolver c.axes).run w with ⟨⟨rs, _ | e⟩, u⟩
  · dsimp only
    rw [Run.exec_map]
    rcases exec (runChecks resolver c.checks) u with ⟨e | _, u'⟩ <;> rfl
  · rfl

end

section

variable {resolver : Axis → Run Range}

theorem resolveAxes_spec {axes : List (String × Axis)} (keeps : ∀ a ∈ axes, (resolver a.2).Keeps)
    {rs : Ranges} {w w' : World} (h : (resolveAxes resolver axes).run w = ((rs, none), w')) :
    w.Keeps w' ∧ List.Forall₂ (fun a r => r.1 = a.1 ∧ Yields w (resolver a.2) r.2) axes rs := by
  induction axes generalizing w rs with
  | nil =>
    cases h
    exact ⟨.refl _, .nil⟩
  | cons a axes ih =>
    have hkeeps := keeps a (.head _) w
    rcases hr : exec (resolver a.2) w with ⟨e | r, u⟩
    · rw [resolveAxes_of_error hr] at h
      cases h
    · rw [resolveAxes_of_ok hr, StateT.run_map] at h
      rw [hr] at hkeeps
      rcases hrest : (resolveAxes resolver axes).run u with ⟨⟨rest, failed⟩, u'⟩
      rw [hrest] at h
      cases h
      obtain ⟨hk, hall⟩ := ih (fun a ha => keeps a (.tail _ ha)) hrest
      exact ⟨hkeeps.trans hk, .cons ⟨rfl, .of_exec (.refl w) hr⟩
        (hall.imp fun _ _ hx => ⟨hx.1, hx.2.mono hkeeps⟩)⟩

theorem runChecks_spec {checks : List AxisCheck}
    (keeps : ∀ check ∈ checks, (resolver check.expected).Keeps ∧ (resolver check.actual).Keeps) {w w' : World}
    (h : exec (runChecks resolver checks) w = (.ok ⟨⟩, w')) :
    w.Keeps w' ∧ ∀ check ∈ checks, ∃ r r', Yields w (resolver check.expected) r ∧
      Yields w (resolver check.actual) r' ∧ r.same r' := by
  induction checks generalizing w with
  | nil =>
    cases h
    exact ⟨.refl _, by simp⟩
  | cons check checks ih =>
    obtain ⟨_, u, hcheck, h⟩ := Run.exec_bind_eq_ok h
    obtain ⟨r, u₁, hr, hcheck⟩ := Run.exec_bind_eq_ok hcheck
    obtain ⟨r', u₂, hr', hcheck⟩ := Run.exec_bind_eq_ok hcheck
    have hk₁ := (keeps check (.head _)).1 w
    have hk₂ := (keeps check (.head _)).2 u₁
    rw [hr] at hk₁
    rw [hr'] at hk₂
    have hsame : r.same r' ∧ u = u₂ := by
      split at hcheck
      · simp at hcheck
      · rename_i hs
        cases hcheck
        exact ⟨by simpa using hs, rfl⟩
    obtain ⟨hsame, rfl⟩ := hsame
    have hk := hk₁.trans hk₂
    obtain ⟨hk', hall⟩ := ih (fun c hc => keeps c (.tail _ hc)) h
    refine ⟨hk.trans hk', fun c hc => ?_⟩
    rcases List.mem_cons.1 hc with rfl | hc
    · exact ⟨r, r', .of_exec (.refl w) hr, .of_exec hk₁ hr', hsame⟩
    · obtain ⟨r, r', h₁, h₂, hs⟩ := hall c hc
      exact ⟨r, r', h₁.mono hk, h₂.mono hk, hs⟩

end

/-- Resolving the axes, for the ranges and for the checks, changes nothing that is there. -/
structure Still (c : Catalog) (scope : Scope) (indices : List String) : Prop where
  axes : ∀ a ∈ c.axes, (a.2.resolve scope indices).Keeps
  checks : ∀ check ∈ c.checks, (check.expected.resolve scope indices).Keeps ∧
    (check.actual.resolve scope indices).Keeps

theorem still_of_quiet {scope : Scope} (quiet : scope.Quiet) (c : Catalog) (indices : List String) :
    c.Still scope indices :=
  have keeps := Axis.keeps_resolve quiet indices
  ⟨fun _ _ => keeps _, fun _ _ => ⟨keeps _, keeps _⟩⟩

/-- Whether or not the ranges are found, nothing is changed. -/
theorem Still.keeps {scope : Scope} {indices : List String} {c : Catalog} (still : c.Still scope indices) :
    (c.ranges scope indices).Keeps := by
  have haxes (axes : List (String × Axis)) (h : ∀ a ∈ axes, (a.2.resolve scope indices).Keeps) (w : World) :
      w.Keeps ((resolveAxes (Axis.resolve scope indices) axes).run w).2 := by
    induction axes generalizing w with
    | nil => exact .refl w
    | cons a axes ih =>
      have hkeeps := h a (.head _) w
      rcases hr : exec (a.2.resolve scope indices) w with ⟨e | r, u⟩ <;> rw [hr] at hkeeps
      · rwa [resolveAxes_of_error hr]
      · rw [resolveAxes_of_ok hr, StateT.run_map]
        exact hkeeps.trans (ih (fun a ha => h a (.tail _ ha)) u)
  have hcheck (check : AxisCheck) (h : check ∈ c.checks) :
      (runCheck (Axis.resolve scope indices) check).Keeps := by
    refine (still.checks check h).1.bind fun r => (still.checks check h).2.bind fun r' => ?_
    split
    · exact Run.keeps_throw _
    · exact Run.keeps_pure _
  have hchecks : (runChecks (Axis.resolve scope indices) c.checks).Keeps := Run.keeps_forM hcheck
  intro w
  have hfirst := haxes c.axes still.axes w
  rw [ranges, exec_rangesBy]
  rcases hrun : (resolveAxes (Axis.resolve scope indices) c.axes).run w with ⟨⟨rs, _ | e⟩, u⟩ <;> rw [hrun] at hfirst
  · exact hfirst.trans (hchecks.map _ u)
  · exact hfirst

/-- A run that has found its ranges has made all checks. -/
theorem Still.resolved {scope : Scope} {indices : List String} {c : Catalog} (still : c.Still scope indices)
    {rs : Ranges} {w w' : World} (h : exec (c.ranges scope indices) w = (.ok rs, w')) :
    w.Keeps w' ∧ c.Resolved scope indices w rs := by
  rw [ranges, exec_rangesBy] at h
  rcases haxes : (resolveAxes (Axis.resolve scope indices) c.axes).run w with ⟨⟨rs', _ | e⟩, u⟩
  · rw [haxes] at h
    obtain ⟨_, hchecks, rfl⟩ := Run.exec_map_eq_ok h
    obtain ⟨hk, hall⟩ := resolveAxes_spec still.axes haxes
    obtain ⟨hk', hchecks⟩ := runChecks_spec still.checks hchecks
    refine ⟨hk.trans hk', hall, fun check hcheck => ?_⟩
    obtain ⟨r, r', h₁, h₂, hs⟩ := hchecks check hcheck
    exact ⟨r, r', h₁.mono hk, h₂.mono hk, hs⟩
  · rw [haxes] at h
    cases h

/-! ## Ranges have no gaps -/

theorem step_of_resolveAxes {scope : Scope} {indices : List String} {axes : List (String × Axis)}
    {rs : Ranges} {failed : Option Error} {w w' : World}
    (h : (resolveAxes (Axis.resolve scope indices) axes).run w = ((rs, failed), w')) :
    ∀ q ∈ rs, q.2.step = 1 := by
  induction axes generalizing w rs with
  | nil =>
    cases h
    simp
  | cons a axes ih =>
    rcases hr : exec (a.2.resolve scope indices) w with ⟨e | r, u⟩
    · rw [resolveAxes_of_error hr] at h
      cases h
      simp
    · rw [resolveAxes_of_ok hr, StateT.run_map] at h
      rcases hrest : (resolveAxes (Axis.resolve scope indices) axes).run u with ⟨⟨rs', failed'⟩, u'⟩
      rw [hrest] at h
      cases h
      exact List.forall_mem_cons.2 ⟨Axis.step_of_resolve hr, ih hrest⟩

/-- Whatever the values that are asked do, the ranges that are found have no gaps. -/
theorem gapless_of_ranges {c : Catalog} {scope : Scope} {indices : List String} {rs : Ranges}
    {w w' : World} (h : exec (c.ranges scope indices) w = (.ok rs, w')) : rs.Gapless := by
  rw [ranges, exec_rangesBy] at h
  rcases haxes : (resolveAxes (Axis.resolve scope indices) c.axes).run w with ⟨⟨rs', _ | e⟩, u⟩
  · rw [haxes] at h
    obtain ⟨_, -, rfl⟩ := Run.exec_map_eq_ok h
    intro i
    rw [Ranges.get]
    cases hi : rs'.lookup i with
    | none => rfl
    | some r => exact step_of_resolveAxes haxes _ (Env.mem_of_lookup hi)
  · rw [haxes] at h
    cases h

namespace Resolved

variable {c : Catalog} {scope : Scope} {indices : List String} {w : World} {rs : Ranges} {i : String}

theorem lookup (h : c.Resolved scope indices w rs) {axis : Axis} (hi : c.get? i = some axis) :
    ∃ r, rs.lookup i = some r ∧ Yields w (axis.resolve scope indices) r :=
  exists_lookup_of_forall₂ (R := fun axis r => Yields w (axis.resolve scope indices) r) h.axes hi

theorem get (h : c.Resolved scope indices w rs) {axis : Axis} (hi : c.get? i = some axis) :
    Yields w (axis.resolve scope indices) (rs.get i) := by
  obtain ⟨r, hr, hyields⟩ := h.lookup hi
  rwa [Ranges.get, hr]

theorem gapless (h : c.Resolved scope indices w rs) : rs.Gapless := by
  intro i
  rw [Ranges.get]
  cases hi : rs.lookup i with
  | none => rfl
  | some r =>
    obtain ⟨a, -, -, u, u', -, hr⟩ := exists_of_forall₂ h.axes (Env.mem_of_lookup hi)
    exact Axis.step_of_resolve hr

/-- An index whose axis has to agree with a dimension of an array runs over that dimension. -/
theorem same_of_answers (h : c.Resolved scope indices w rs) (hc : c.Sound)
    (hdet : ∀ axis, c.get? i = some axis → Determined w (axis.resolve scope indices))
    {name : String} {pos : Option Pos} {dim : Nat} {a : View}
    (hname : scope.bindings.lookup name = some (.array a))
    (ha : c.Answers i (.array (.name name pos) dim)) :
    ∃ n : Nat, a.shape[dim]? = some n ∧ (rs.get i).same (.upTo n) := by
  obtain ⟨known, hknown, hlike⟩ := ha
  have hget := h.get hknown
  rcases hlike with hlike | ⟨check, hcheck, hindex, hlike⟩
  · obtain ⟨pos', rfl⟩ := hlike.eq_array
    obtain ⟨u, u', -, hr⟩ := hget
    obtain ⟨n, hn, hr⟩ := Axis.resolve_name hname hr
    exact ⟨n, hn, by simp [hr, Range.same]⟩
  · obtain ⟨pos', hactual⟩ := hlike.eq_array
    obtain ⟨r, r', hr, hr', hsame⟩ := h.checks check hcheck
    have hexpected : known = check.expected := by
      have := hc.expected check hcheck
      rw [hindex, hknown] at this
      exact Option.some.inj this
    -- The axis of the index has been resolved twice, and comes out the same.
    have heq : r = rs.get i := by
      have h₁ := (hdet known hknown).eq_of_yields (hexpected ▸ hr)
      have h₂ := (hdet known hknown).eq_of_yields hget
      exact Except.ok.inj (h₁.symm.trans h₂)
    rw [hactual] at hr'
    obtain ⟨u, u', -, hr'⟩ := hr'
    obtain ⟨n, hn, rfl⟩ := Axis.resolve_name hname hr'
    exact ⟨n, hn, heq ▸ hsame⟩

end Resolved

end Catalog

end IndexNotation
