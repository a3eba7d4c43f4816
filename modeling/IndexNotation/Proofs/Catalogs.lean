import IndexNotation.Proofs.Agreement
import IndexNotation.Proofs.Positions

/-!
# Catalogs that say the same

The order in which indices get their axes does not matter, nor where the axes are written: what
matters for an index is the list of axes that are derived for it. Catalogs that agree on that find
the same ranges, if resolving an axis comes out the same whenever it is done.
-/

namespace IndexNotation

open Run (exec Yields Determined)

def AxisCheck.bare (c : AxisCheck) : AxisCheck :=
  ⟨c.index, c.expected.bare, c.actual.bare⟩

theorem AxisCheck.same_bare (a b : AxisCheck) : a.bare.same b.bare = a.same b := by
  simp only [AxisCheck.same, AxisCheck.bare, Axis.same_bare]

namespace Catalog

/-- The checks of one index. -/
def checksOf (c : Catalog) (i : String) : List AxisCheck :=
  c.checks.filter (·.index == i)

/-- Catalogs agree on every index, up to the places where axes are written. -/
structure Alike (c c' : Catalog) : Prop where
  axis : ∀ i, (c.get? i).map Axis.bare = (c'.get? i).map Axis.bare
  checks : ∀ i, (c.checksOf i).map AxisCheck.bare = (c'.checksOf i).map AxisCheck.bare

variable {c c' : Catalog}

theorem Alike.symm (h : c.Alike c') : c'.Alike c :=
  ⟨fun i => (h.axis i).symm, fun i => (h.checks i).symm⟩

/-- Whether a check is there already depends on the checks of its index. -/
theorem any_same (c : Catalog) (check : AxisCheck) :
    c.checks.any (·.same check) =
      ((c.checksOf check.index).map AxisCheck.bare).any (·.same check.bare) := by
  rw [checksOf, List.any_map, List.any_filter]
  refine congrArg c.checks.any (funext fun d => ?_)
  rw [Function.comp, AxisCheck.same_bare]
  cases h : d.index == check.index <;> simp [AxisCheck.same, h]

theorem Alike.bind (h : c.Alike c') (j : String) {a a' : Axis} (ha : a.bare = a'.bare) :
    (c.bind j a).Alike (c'.bind j a') := by
  have hj := h.axis j
  unfold Catalog.bind
  cases hget : c.get? j with
  | none =>
    cases hget' : c'.get? j with
    | some known' => simp [hget, hget'] at hj
    | none =>
      refine ⟨fun i => ?_, h.checks⟩
      have hi : (c.axes.lookup i).map Axis.bare = (c'.axes.lookup i).map Axis.bare := h.axis i
      simp only [get?, List.lookup_append, Option.map_or, hi]
      refine congrArg _ ?_
      rw [List.lookup_cons, List.lookup_cons]
      cases i == j <;> simp [ha]
  | some known =>
    cases hget' : c'.get? j with
    | none => simp [hget, hget'] at hj
    | some known' =>
      have hknown : known.bare = known'.bare := by simpa [hget, hget'] using hj
      have hsame : known.same a = known'.same a' := by
        rw [← Axis.same_bare, hknown, ha, Axis.same_bare]
      have hbare : AxisCheck.bare ⟨j, known, a⟩ = AxisCheck.bare ⟨j, known', a'⟩ := by
        simp only [AxisCheck.bare, hknown, ha]
      have hany : c.checks.any (·.same ⟨j, known, a⟩) = c'.checks.any (·.same ⟨j, known', a'⟩) := by
        rw [any_same, any_same, h.checks, hbare]
      dsimp only
      rw [hsame, hany]
      split
      · exact h
      · split
        · exact h
        · refine ⟨h.axis, fun i => ?_⟩
          have hi := h.checks i
          simp only [checksOf, List.filter_append, List.map_append] at hi ⊢
          rw [hi]
          refine congrArg _ ?_
          cases hij : j == i <;> simp [hij, hbare]

theorem Alike.bindAll (h : c.Alike c') {axes axes' : List (String × Axis)}
    (haxes : bareAxes axes = bareAxes axes') : (c.bindAll axes).Alike (c'.bindAll axes') := by
  induction axes generalizing c c' axes' with
  | nil =>
    cases axes' with
    | nil => exact h
    | cons a' axes' => simp [bareAxes] at haxes
  | cons a axes ih =>
    cases axes' with
    | nil => simp [bareAxes] at haxes
    | cons a' axes' =>
      obtain ⟨ha, haxes⟩ := List.cons.inj haxes
      obtain ⟨hj, ha⟩ := Prod.mk.inj ha
      have hbind := h.bind a.1 ha
      rw [show c'.bind a.1 a'.2 = c'.bind a'.1 a'.2 by rw [hj]] at hbind
      exact ih hbind haxes

/-- Axes of different indices are all adopted. -/
theorem bindAll_of_nodup {axes : List (String × Axis)} (h : (axes.map Prod.fst).Nodup) :
    empty.bindAll axes = ⟨axes, []⟩ := by
  have hstep (axes axes' : List (String × Axis)) (h : ((axes' ++ axes).map Prod.fst).Nodup) :
      bindAll ⟨axes', []⟩ axes = ⟨axes' ++ axes, []⟩ := by
    induction axes generalizing axes' with
    | nil => simp [bindAll]
    | cons a axes ih =>
      have hnone : get? ⟨axes', []⟩ a.1 = none := by
        refine Option.not_isSome_iff_eq_none.1 fun hsome => ?_
        have hmem := Env.lookup_isSome.1 hsome
        rw [List.map_append, List.nodup_append] at h
        exact h.2.2 a.1 hmem a.1 (by simp) rfl
      have hbind : bind ⟨axes', []⟩ a.1 a.2 = ⟨axes' ++ [a], []⟩ := by
        rw [bind, hnone]
      change bindAll (bind ⟨axes', []⟩ a.1 a.2) axes = _
      rw [hbind, ih _ (by simpa using h), List.append_assoc, List.singleton_append]
  exact hstep axes [] h

/-! ## Ranges -/

/-- Every axis that matters comes out the same whenever it is resolved. -/
structure Steady (c : Catalog) (scope : Scope) (indices : List String) (w : World) : Prop where
  axes : ∀ a ∈ c.axes, Determined w (a.2.resolve scope indices)
  checks : ∀ check ∈ c.checks, Determined w (check.expected.resolve scope indices) ∧
    Determined w (check.actual.resolve scope indices)

theorem Steady.get? {c : Catalog} {scope : Scope} {indices : List String} {w : World}
    (h : c.Steady scope indices w) {i : String} {axis : Axis} (hi : c.get? i = some axis) :
    Determined w (axis.resolve scope indices) :=
  h.axes _ (Env.mem_of_lookup hi)

/-- Every axis is a dimension of an array that is bound to a name, or between numbers. -/
def isPlain (c : Catalog) (scope : Scope) (indices : List String) : Bool :=
  c.axes.all (·.2.isPlain scope indices) &&
    c.checks.all fun check => check.expected.isPlain scope indices && check.actual.isPlain scope indices

theorem steady_of_isPlain {c : Catalog} {scope : Scope} {indices : List String}
    (h : c.isPlain scope indices = true) (w : World) : c.Steady scope indices w := by
  simp only [isPlain, Bool.and_eq_true, List.all_eq_true] at h
  refine ⟨fun a ha => Axis.determined_of_isPlain (h.1 a ha) w, fun check hcheck => ?_⟩
  obtain ⟨hexpected, hactual⟩ := h.2 check hcheck
  exact ⟨Axis.determined_of_isPlain hexpected w, Axis.determined_of_isPlain hactual w⟩

/-- Every axis can be resolved, and the checks hold. -/
structure Consistent (c : Catalog) (scope : Scope) (indices : List String) (w : World) : Prop where
  axes : ∀ a ∈ c.axes, ∃ r, (exec (a.2.resolve scope indices) w).1 = .ok r
  checks : ∀ check ∈ c.checks, ∃ r r', (exec (check.expected.resolve scope indices) w).1 = .ok r ∧
    (exec (check.actual.resolve scope indices) w).1 = .ok r' ∧ r.same r'

section

variable {scope : Scope} {indices : List String} {w : World}

/-- What comes out the same whenever it is done is found whenever it is asked for. -/
theorem finds_of_determined {axis : Axis} (keeps : (axis.resolve scope indices).Keeps)
    (hdet : Determined w (axis.resolve scope indices)) :
    Finds w (Axis.resolve scope indices) (fun a => (exec (a.resolve scope indices) w).1) axis :=
  fun u hu => ⟨hdet u hu, hu.trans (keeps u)⟩

/-- The ranges are found exactly if the catalog is consistent. -/
theorem exists_ranges_iff {c : Catalog} (still : c.Still scope indices) (hsteady : c.Steady scope indices w) :
    (∃ rs w', exec (c.ranges scope indices) w = (.ok rs, w')) ↔ c.Consistent scope indices w := by
  have hfound : (exec (c.ranges scope indices) w).1 = c.rangesOf fun a => (exec (a.resolve scope indices) w).1 :=
    exec_rangesBy_eq (fun a ha => finds_of_determined (still.axes a ha) (hsteady.axes a ha))
      fun d hd => ⟨finds_of_determined (still.checks d hd).1 (hsteady.checks d hd).1,
        finds_of_determined (still.checks d hd).2 (hsteady.checks d hd).2⟩
  constructor
  · rintro ⟨rs, w', h⟩
    rw [h] at hfound
    obtain ⟨haxes, hchecks⟩ := rangesOf_eq_ok hfound.symm
    refine ⟨fun a ha => ?_, hchecks⟩
    obtain ⟨r, -, -, hr⟩ := exists_of_forall₂ haxes.flip ha
    exact ⟨r.2, hr⟩
  · intro h
    rcases hrun : exec (c.ranges scope indices) w with ⟨e | rs, w'⟩
    · rw [hrun] at hfound
      rcases rangesOf_eq_error hfound.symm with ⟨a, ha, he⟩ | ⟨d, hd, he⟩
      · obtain ⟨r, hr⟩ := h.axes a ha
        rw [hr] at he
        cases he
      · obtain ⟨r, s, hr, hs, hsame⟩ := h.checks d hd
        rw [AxisCheck.outcome_of_ok hr hs, hsame] at he
        cases he
    · exact ⟨rs, w', rfl⟩

/-- Where there is no axis there is no range. -/
theorem Resolved.get_of_none {c : Catalog} {rs : Ranges} (h : c.Resolved scope indices w rs) {i : String}
    (hi : c.get? i = none) : rs.get i = .upTo 0 := by
  have hfst : rs.map Prod.fst = c.axes.map Prod.fst := by
    have hall := h.axes
    clear h
    generalize c.axes = axes at hall
    induction hall with
    | nil => rfl
    | cons ha _ ih => simp [ha.1, ih]
  have hnone : rs.lookup i = none := by
    refine Option.not_isSome_iff_eq_none.1 fun hsome => ?_
    rw [Env.lookup_isSome, hfst, ← Env.lookup_isSome, show c.axes.lookup i = none from hi] at hsome
    cases hsome
  rw [Ranges.get, hnone]
  rfl

end

namespace Alike

variable {scope : Scope} {indices : List String} {w : World}

theorem exists_axis (h : c.Alike c') {i : String} {a : Axis} (ha : c.get? i = some a) :
    ∃ a', c'.get? i = some a' ∧ a'.resolve scope indices = a.resolve scope indices := by
  have hi := h.axis i
  rw [ha] at hi
  cases ha' : c'.get? i with
  | none => simp [ha'] at hi
  | some a' =>
    have hbare : a.bare = a'.bare := by simpa [ha'] using hi
    exact ⟨a', rfl, by rw [← Axis.resolve_bare, ← hbare, Axis.resolve_bare]⟩

theorem exists_check (h : c.Alike c') {check : AxisCheck} (hc : check ∈ c.checks) :
    ∃ check' ∈ c'.checks, check'.expected.resolve scope indices = check.expected.resolve scope indices ∧
      check'.actual.resolve scope indices = check.actual.resolve scope indices := by
  have hmem : check.bare ∈ (c'.checksOf check.index).map AxisCheck.bare := by
    rw [← h.checks]
    exact List.mem_map_of_mem (List.mem_filter.2 ⟨hc, by simp⟩)
  obtain ⟨check', hc', hbare⟩ := List.mem_map.1 hmem
  obtain ⟨-, hexpected, hactual⟩ := AxisCheck.mk.inj hbare
  refine ⟨check', (List.mem_filter.1 hc').1, ?_, ?_⟩
  · rw [← Axis.resolve_bare, hexpected, Axis.resolve_bare]
  · rw [← Axis.resolve_bare, hactual, Axis.resolve_bare]

variable (h : c.Alike c') (hc' : c'.Sound)

include h hc'

theorem forall_axes {P : Run Range → Prop} (hP : ∀ a ∈ c.axes, P (a.2.resolve scope indices)) :
    ∀ a ∈ c'.axes, P (a.2.resolve scope indices) := by
  intro a ha
  obtain ⟨a₁, ha₁, hresolve⟩ := h.symm.exists_axis ((Env.lookup_eq_some_iff hc'.nodup).2 ha)
  rw [← hresolve]
  exact hP _ (Env.mem_of_lookup ha₁)

omit hc' in
theorem forall_checks {P : Run Range → Run Range → Prop}
    (hP : ∀ check ∈ c.checks, P (check.expected.resolve scope indices) (check.actual.resolve scope indices)) :
    ∀ check ∈ c'.checks, P (check.expected.resolve scope indices) (check.actual.resolve scope indices) := by
  intro check hcheck
  obtain ⟨check₁, hcheck₁, hexpected, hactual⟩ := h.symm.exists_check hcheck
  rw [← hexpected, ← hactual]
  exact hP check₁ hcheck₁

theorem steady (hsteady : c.Steady scope indices w) : c'.Steady scope indices w :=
  ⟨h.forall_axes hc' hsteady.axes,
    h.forall_checks (P := fun x y => Determined w x ∧ Determined w y) hsteady.checks⟩

theorem still (hstill : c.Still scope indices) : c'.Still scope indices :=
  ⟨h.forall_axes hc' hstill.axes, h.forall_checks (P := fun x y => x.Keeps ∧ y.Keeps) hstill.checks⟩

theorem consistent (hcons : c.Consistent scope indices w) : c'.Consistent scope indices w :=
  ⟨h.forall_axes hc' (P := fun x => ∃ r, (exec x w).1 = .ok r) hcons.axes,
    h.forall_checks (P := fun x y => ∃ r r', (exec x w).1 = .ok r ∧ (exec y w).1 = .ok r' ∧ r.same r')
      hcons.checks⟩

/-- Catalogs that agree find the same ranges. -/
theorem exists_ranges (still : c.Still scope indices) (hsteady : c.Steady scope indices w) {rs : Ranges} {w₁ : World}
    (hrs : exec (c.ranges scope indices) w = (.ok rs, w₁)) :
    ∃ rs' w₁', exec (c'.ranges scope indices) w = (.ok rs', w₁') ∧ ∀ i, rs'.get i = rs.get i := by
  have still' := h.still hc' still
  have hsteady' := h.steady hc' hsteady
  have hcons := (exists_ranges_iff still hsteady).1 ⟨rs, w₁, hrs⟩
  obtain ⟨rs', w₁', hrs'⟩ := (exists_ranges_iff still' hsteady').2 (h.consistent hc' hcons)
  refine ⟨rs', w₁', hrs', fun i => ?_⟩
  obtain ⟨-, hresolved⟩ := still.resolved hrs
  obtain ⟨-, hresolved'⟩ := still'.resolved hrs'
  cases hi : c.get? i with
  | none =>
    have hi' : c'.get? i = none := by simpa [hi] using (h.axis i).symm
    rw [hresolved.get_of_none hi, hresolved'.get_of_none hi']
  | some a =>
    obtain ⟨a', ha', hresolve⟩ := h.exists_axis hi
    have hr := (hsteady.axes _ (Env.mem_of_lookup hi)).eq_of_yields (hresolved.get hi)
    have hr' := (hsteady'.axes _ (Env.mem_of_lookup ha')).eq_of_yields (hresolved'.get ha')
    dsimp only at hr hr'
    rw [hresolve, hr] at hr'
    exact (Except.ok.inj hr').symm

end Alike

end Catalog
end IndexNotation
