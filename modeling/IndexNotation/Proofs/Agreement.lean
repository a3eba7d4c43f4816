import IndexNotation.Proofs.Axes

/-!
# Agreement of axes

A catalog keeps one axis of every index and drops the axes that are derived in the same way, so it
does not hold all that was bound. Nothing is lost by that: whatever the axes are resolved to, the
ranges are found exactly if all axes that were bound for an index have the same elements, and an
index that is reported is one whose axes differ.
-/

namespace IndexNotation

open Run (exec)

/-! ## What resolving finds -/

/-- Whenever it is asked for `axis`, the resolver finds `f axis`, and keeps what was there. -/
def Finds (w : World) (resolver : Axis → Run Range) (f : Axis → Except Error Range) (axis : Axis) : Prop :=
  ∀ u, w.Keeps u → (exec (resolver axis) u).1 = f axis ∧ w.Keeps (exec (resolver axis) u).2

/-- What comes of a check if resolving finds `f`. -/
def AxisCheck.outcome (f : Axis → Except Error Range) (c : AxisCheck) : Except Error PUnit := do
  let expected ← f c.expected
  let actual ← f c.actual
  if !expected.same actual then throw (.axisMismatch c.index expected actual)

namespace AxisCheck

variable {f : Axis → Except Error Range} {c : AxisCheck} {r s : Range}

theorem outcome_of_ok (hr : f c.expected = .ok r) (hs : f c.actual = .ok s) :
    c.outcome f = if r.same s then .ok ⟨⟩ else .error (.axisMismatch c.index r s) := by
  rw [outcome, bind_of_ok hr, bind_of_ok hs]
  cases r.same s <;> rfl

theorem outcome_eq_ok (h : c.outcome f = .ok ⟨⟩) :
    ∃ r s, f c.expected = .ok r ∧ f c.actual = .ok s ∧ r.same s := by
  obtain ⟨r, hr, h'⟩ := bind_eq_ok h
  obtain ⟨s, hs, -⟩ := bind_eq_ok h'
  rw [outcome_of_ok hr hs] at h
  by_cases hsame : r.same s
  · exact ⟨r, s, hr, hs, hsame⟩
  · simp [hsame] at h

end AxisCheck

namespace Catalog

/-- The ranges of all indices if resolving finds `f`. -/
def rangesOf (c : Catalog) (f : Axis → Except Error Range) : Except Error Ranges := do
  let ranges ← c.axes.mapM fun a => (f a.2).map (Prod.mk a.1)
  c.checks.forM (AxisCheck.outcome f)
  return ranges

section

variable {w : World} {resolver : Axis → Run Range} {f : Axis → Except Error Range}

theorem run_resolveAxes {axes : List (String × Axis)} (h : ∀ a ∈ axes, Finds w resolver f a.2) {u : World}
    (hu : w.Keeps u) : ∃ rs failed u', (resolveAxes resolver axes).run u = ((rs, failed), u') ∧ w.Keeps u' ∧
      (axes.mapM fun a => (f a.2).map (Prod.mk a.1)) = match failed with
        | some e => .error e
        | none => .ok rs := by
  induction axes generalizing u with
  | nil => exact ⟨[], none, u, rfl, hu, rfl⟩
  | cons a axes ih =>
    obtain ⟨hfound, hkeeps⟩ := h a (.head _) u hu
    rcases ha : exec (resolver a.2) u with ⟨e | r, u₁⟩
    · rw [ha] at hfound hkeeps
      refine ⟨[], some e, u₁, resolveAxes_of_error ha a.1, hkeeps, ?_⟩
      rw [List.mapM_cons, ← hfound]
      rfl
    · rw [ha] at hfound hkeeps
      obtain ⟨rs, failed, u', hrun, hu', hrest⟩ := ih (fun a ha => h a (.tail _ ha)) hkeeps
      refine ⟨(a.1, r) :: rs, failed, u', ?_, hu', ?_⟩
      · rw [resolveAxes_of_ok ha, StateT.run_map, hrun]
        rfl
      · rw [List.mapM_cons, hrest, ← hfound]
        cases failed <;> rfl

theorem exec_runCheck {c : AxisCheck} (hexpected : Finds w resolver f c.expected)
    (hactual : Finds w resolver f c.actual) {u : World} (hu : w.Keeps u) :
    (exec (runCheck resolver c) u).1 = c.outcome f ∧ w.Keeps (exec (runCheck resolver c) u).2 := by
  obtain ⟨hr, hu₁⟩ := hexpected u hu
  rcases hx : exec (resolver c.expected) u with ⟨e | r, u₁⟩
  · rw [hx] at hr hu₁
    rw [runCheck, Run.exec_bind_error hx, AxisCheck.outcome, ← hr]
    exact ⟨rfl, hu₁⟩
  rw [hx] at hr hu₁
  obtain ⟨hs, hu₂⟩ := hactual u₁ hu₁
  rcases hy : exec (resolver c.actual) u₁ with ⟨e | s, u₂⟩
  · rw [hy] at hs hu₂
    rw [runCheck, Run.exec_bind_ok hx, Run.exec_bind_error hy, AxisCheck.outcome, ← hr, ← hs]
    exact ⟨rfl, hu₂⟩
  rw [hy] at hs hu₂
  rw [runCheck, Run.exec_bind_ok hx, Run.exec_bind_ok hy, AxisCheck.outcome_of_ok hr.symm hs.symm]
  cases r.same s <;> exact ⟨rfl, hu₂⟩

theorem exec_runChecks {checks : List AxisCheck}
    (h : ∀ c ∈ checks, Finds w resolver f c.expected ∧ Finds w resolver f c.actual) {u : World}
    (hu : w.Keeps u) : (exec (runChecks resolver checks) u).1 = checks.forM (AxisCheck.outcome f) := by
  induction checks generalizing u with
  | nil => rfl
  | cons c checks ih =>
    obtain ⟨hexpected, hactual⟩ := h c (.head _)
    obtain ⟨hc, hu'⟩ := exec_runCheck hexpected hactual hu
    have hrest {u : World} := @ih (fun c hc => h c (.tail _ hc)) u
    change (exec (runCheck resolver c >>= fun _ => runChecks resolver checks) u).1 =
      (c.outcome f >>= fun _ => checks.forM (AxisCheck.outcome f))
    rcases hx : exec (runCheck resolver c) u with ⟨e | _, u'⟩
    · rw [hx] at hc
      rw [Run.exec_bind_error hx, ← hc]
      rfl
    · rw [hx] at hc hu'
      rw [Run.exec_bind_ok hx, hrest hu', ← hc]
      rfl

/-- What a resolver finds determines the ranges. -/
theorem exec_rangesBy_eq {c : Catalog} (haxes : ∀ a ∈ c.axes, Finds w resolver f a.2)
    (hchecks : ∀ d ∈ c.checks, Finds w resolver f d.expected ∧ Finds w resolver f d.actual) :
    (exec (c.rangesBy resolver) w).1 = c.rangesOf f := by
  obtain ⟨rs, failed, u, hrun, hu, hmap⟩ := run_resolveAxes haxes (.refl w)
  rw [exec_rangesBy, hrun, rangesOf, hmap]
  cases failed with
  | some e => rfl
  | none =>
    change (exec ((fun _ => rs) <$> runChecks resolver c.checks) u).1 = _
    rw [Run.exec_map, exec_runChecks hchecks hu]
    change _ = (do c.checks.forM (AxisCheck.outcome f); return rs)
    cases c.checks.forM (AxisCheck.outcome f) <;> rfl

theorem rangesOf_eq_ok {c : Catalog} {rs : Ranges} (h : c.rangesOf f = .ok rs) :
    List.Forall₂ (fun a r => r.1 = a.1 ∧ f a.2 = .ok r.2) c.axes rs ∧
      ∀ d ∈ c.checks, ∃ r s, f d.expected = .ok r ∧ f d.actual = .ok s ∧ r.same s := by
  obtain ⟨rs', hmap, h⟩ := bind_eq_ok h
  obtain ⟨_, hchecks, h⟩ := bind_eq_ok h
  cases h
  refine ⟨(mapM_eq_ok hmap).imp fun a p hp => ?_, fun d hd => AxisCheck.outcome_eq_ok (forM_eq_ok hchecks d hd)⟩
  obtain ⟨r, hr, rfl⟩ := map_eq_ok hp
  exact ⟨rfl, hr⟩

theorem rangesOf_eq_error {c : Catalog} {e : Error} (h : c.rangesOf f = .error e) :
    (∃ a ∈ c.axes, f a.2 = .error e) ∨ ∃ d ∈ c.checks, d.outcome f = .error e := by
  rcases bind_eq_error h with h | ⟨rs, -, h⟩
  · obtain ⟨a, ha, h⟩ := mapM_eq_error h
    refine .inl ⟨a, ha, ?_⟩
    cases hf : f a.2 with
    | error e' =>
      rw [hf] at h
      cases h
      rfl
    | ok r =>
      rw [hf] at h
      cases h
  · rcases bind_eq_error h with h | ⟨_, -, h⟩
    · exact .inr (forM_eq_error h)
    · cases h

end

/-! ## What was bound -/

theorem get?_bind_eq (c : Catalog) (i j : String) (b : Axis) :
    (c.bind j b).get? i = (c.get? i).or (if i == j then some b else none) := by
  rcases c.bind_cases j b with ⟨-, e⟩ | ⟨known, hknown, e, -⟩ | ⟨known, hknown, e⟩
  · rw [e]
    change (c.axes ++ [(j, b)]).lookup i = _
    rw [List.lookup_append, List.lookup_cons]
    cases i == j <;> rfl
  all_goals
    rw [e]
    change c.get? i = _
    by_cases hij : i = j
    · subst hij
      rw [hknown, Option.some_or]
    · simp [hij]

/-- The axis of an index is the first one that was bound. -/
theorem get?_bindAll_eq (c : Catalog) (axes : List (String × Axis)) (i : String) :
    (c.bindAll axes).get? i = (c.get? i).or (axes.lookup i) := by
  induction axes generalizing c with
  | nil => exact (Option.or_none).symm
  | cons p axes ih =>
    change ((c.bind p.1 p.2).bindAll axes).get? i = _
    rw [ih, get?_bind_eq, Option.or_assoc, List.lookup_cons]
    cases i == p.1 <;> rfl

theorem get?_bindAll_empty (axes : List (String × Axis)) (i : String) :
    (empty.bindAll axes).get? i = axes.lookup i :=
  get?_bindAll_eq empty axes i

theorem bindAll_append (c : Catalog) (axes axes' : List (String × Axis)) :
    c.bindAll (axes ++ axes') = (c.bindAll axes).bindAll axes' :=
  List.foldl_append

/-- An axis that is checked was bound. -/
theorem mem_of_mem_checks {c : Catalog} {axes : List (String × Axis)} {d : AxisCheck}
    (h : d ∈ (c.bindAll axes).checks) : d ∈ c.checks ∨ (d.index, d.actual) ∈ axes := by
  induction axes generalizing c with
  | nil => exact .inl h
  | cons p axes ih =>
    rcases ih h with h | h
    · dsimp only at h
      rcases c.bind_cases p.1 p.2 with ⟨-, e⟩ | ⟨_, -, e, -⟩ | ⟨known, -, e⟩
      · exact .inl (by rwa [e] at h)
      · exact .inl (by rwa [e] at h)
      · rw [e] at h
        rcases List.mem_append.1 h with h | h
        · exact .inl h
        · obtain rfl := List.mem_singleton.1 h
          exact .inr (.head _)
    · exact .inr (.tail _ h)

section

variable {axes : List (String × Axis)} {f : Axis → Except Error Range}

/-- An axis that a catalog holds, or compares with another, was bound. -/
theorem forall_axes_bindAll {P : Axis → Prop} (h : ∀ p ∈ axes, P p.2) :
    (∀ a ∈ (empty.bindAll axes).axes, P a.2) ∧
      ∀ d ∈ (empty.bindAll axes).checks, P d.expected ∧ P d.actual := by
  have hfirst {i : String} {a : Axis} (ha : (empty.bindAll axes).get? i = some a) : P a := by
    rw [get?_bindAll_empty] at ha
    exact h _ (Env.mem_of_lookup ha)
  have hsound := sound_empty.bindAll axes
  refine ⟨fun a ha => hfirst ((Env.lookup_eq_some_iff hsound.nodup).2 ha), fun d hd => ⟨?_, ?_⟩⟩
  · exact hfirst (hsound.expected d hd)
  · rcases mem_of_mem_checks hd with hd | hd
    · simp [empty] at hd
    · exact h _ hd

/-- Ranges that were found are those of every axis that was bound. -/
theorem agree_of_rangesOf (hsame : ∀ p ∈ axes, ∀ q ∈ axes, p.2.same q.2 → f p.2 = f q.2) {rs : Ranges}
    (h : (empty.bindAll axes).rangesOf f = .ok rs) {p : String × Axis} (hp : p ∈ axes) :
    ∃ r s, rs.lookup p.1 = some r ∧ f p.2 = .ok s ∧ r.toList = s.toList := by
  obtain ⟨haxes, hchecks⟩ := rangesOf_eq_ok h
  have hsound := sound_empty.bindAll axes
  obtain ⟨known, hknown, hanswer⟩ := answers_bindAll hp empty
  have hlike {a : Axis} {i : String} (ha : (i, a) ∈ axes) (hlike : a.Like p.2) : f a = f p.2 := by
    rcases hlike with rfl | hlike
    · rfl
    · exact hsame _ ha _ hp hlike
  have hmem : (p.1, known) ∈ axes := by
    rw [get?_bindAll_empty] at hknown
    exact Env.mem_of_lookup hknown
  obtain ⟨r, hr, hfr⟩ : ∃ r, rs.lookup p.1 = some r ∧ f known = .ok r :=
    exists_lookup_of_forall₂ (R := fun a r => f a = .ok r) haxes hknown
  refine ⟨r, ?_⟩
  rcases hanswer with hanswer | ⟨d, hd, hindex, hanswer⟩
  · exact ⟨r, hr, (hlike hmem hanswer).symm.trans hfr, rfl⟩
  · obtain ⟨r', s, hr', hs, hrs⟩ := hchecks d hd
    have hexpected := hsound.expected d hd
    rw [hindex, hknown] at hexpected
    cases hexpected
    rw [hfr] at hr'
    cases hr'
    have hactual : (d.index, d.actual) ∈ axes := (mem_of_mem_checks hd).resolve_left (by simp [empty])
    exact ⟨s, hr, (hlike hactual hanswer).symm.trans hs, Range.same_iff_toList_eq.1 hrs⟩

/-- What is reported when all axes can be resolved is a difference, seen from the first axis of an
index. -/
theorem differ_of_rangesOf (hok : ∀ p ∈ axes, ∃ r, f p.2 = .ok r) {e : Error}
    (h : (empty.bindAll axes).rangesOf f = .error e) :
    ∃ i first other r s, axes.lookup i = some first ∧ (i, other) ∈ axes ∧ f first = .ok r ∧
      f other = .ok s ∧ r.toList ≠ s.toList ∧ e = .axisMismatch i r s := by
  obtain ⟨haxes, hchecks⟩ := forall_axes_bindAll (P := fun a => ∃ r, f a = .ok r) hok
  rcases rangesOf_eq_error h with ⟨a, ha, he⟩ | ⟨d, hd, he⟩
  · obtain ⟨r, hr⟩ := haxes a ha
    rw [hr] at he
    cases he
  obtain ⟨⟨r, hr⟩, ⟨s, hs⟩⟩ := hchecks d hd
  have hfirst := (sound_empty.bindAll axes).expected d hd
  rw [get?_bindAll_empty] at hfirst
  have hother : (d.index, d.actual) ∈ axes := (mem_of_mem_checks hd).resolve_left (by simp [empty])
  rw [AxisCheck.outcome_of_ok hr hs] at he
  by_cases hsame : r.same s
  · simp [hsame] at he
  · simp only [hsame, Bool.false_eq_true, if_false, Except.error.injEq] at he
    exact ⟨d.index, d.expected, d.actual, r, s, hfirst, hother, hr, hs,
      fun hlist => hsame (Range.same_iff_toList_eq.2 hlist), he.symm⟩

/-- However axes are bound and resolved, the ranges are found exactly if all axes of an index have
the same elements, and these are the elements of its range. If all axes can be resolved, what is
reported is an index two of whose axes differ, the first one and another. -/
theorem ranges_found_iff_axes_agree (axes : List (String × Axis)) {w : World} {resolver : Axis → Run Range}
    {f : Axis → Except Error Range} (hfinds : ∀ p ∈ axes, Finds w resolver f p.2)
    (hsame : ∀ p ∈ axes, ∀ q ∈ axes, p.2.same q.2 → f p.2 = f q.2) :
    let found := (exec ((empty.bindAll axes).rangesBy resolver) w).1
    ((∃ rs, found = .ok rs) ↔
      (∀ p ∈ axes, ∃ r, f p.2 = .ok r) ∧
        ∀ p ∈ axes, ∀ q ∈ axes, p.1 = q.1 → ∀ r s, f p.2 = .ok r → f q.2 = .ok s → r.toList = s.toList) ∧
    (∀ rs, found = .ok rs → ∀ p ∈ axes, ∃ r s, rs.lookup p.1 = some r ∧ f p.2 = .ok s ∧ r.toList = s.toList) ∧
    ((∀ p ∈ axes, ∃ r, f p.2 = .ok r) → ∀ e, found = .error e →
      ∃ i first other r s, axes.lookup i = some first ∧ (i, other) ∈ axes ∧ f first = .ok r ∧
        f other = .ok s ∧ r.toList ≠ s.toList ∧ e = .axisMismatch i r s) := by
  intro found
  have hfound : found = (empty.bindAll axes).rangesOf f :=
    have hbound := forall_axes_bindAll hfinds
    exec_rangesBy_eq hbound.1 hbound.2
  rw [hfound]
  refine ⟨⟨?_, ?_⟩, fun rs h p hp => agree_of_rangesOf hsame h hp, fun hok e h => differ_of_rangesOf hok h⟩
  · rintro ⟨rs, h⟩
    refine ⟨fun p hp => ?_, fun p hp q hq hpq r s hr hs => ?_⟩
    · obtain ⟨_, s, -, hs, -⟩ := agree_of_rangesOf hsame h hp
      exact ⟨s, hs⟩
    · obtain ⟨t, r', ht, hr', hrt⟩ := agree_of_rangesOf hsame h hp
      obtain ⟨t', s', ht', hs', hst⟩ := agree_of_rangesOf hsame h hq
      rw [hpq, ht'] at ht
      cases ht
      rw [hr] at hr'
      rw [hs] at hs'
      cases hr'
      cases hs'
      rw [← hrt, hst]
  · rintro ⟨hok, hagree⟩
    cases h : (empty.bindAll axes).rangesOf f with
    | ok rs => exact ⟨rs, rfl⟩
    | error e =>
      obtain ⟨i, first, other, r, s, hfirst, hother, hr, hs, hne, -⟩ := differ_of_rangesOf hok h
      exact absurd (hagree _ (Env.mem_of_lookup hfirst) _ hother rfl r s hr hs) hne

/-- The axes of `A[i, j] * B[j] + A[k, j]`, in the order in which they are bound. -/
def tableAxes : List (String × Axis) :=
  [("i", .array (.name "A" none) 0), ("j", .array (.name "A" none) 1), ("j", .array (.name "B" none) 0),
    ("k", .array (.name "A" none) 0), ("j", .array (.name "A" none) 1)]

/-- Shapes of `A` and `B` that do not agree. -/
def tableShape : Axis → Except Error Range
  | .array (.name "A" _) 0 => .ok (.upTo 2)
  | .array (.name "A" _) 1 => .ok (.upTo 3)
  | .array (.name "B" _) 0 => .ok (.upTo 4)
  | _ => .error (.fault .wrongKind)

theorem ranges_found_iff_axes_agree_table :
    (exec ((empty.bindAll tableAxes).rangesBy fun a => liftM (tableShape a)) {}).1 =
      .error (.axisMismatch "j" (.upTo 3) (.upTo 4)) ∧
    ∃ i first other r s, tableAxes.lookup i = some first ∧ (i, other) ∈ tableAxes ∧
      tableShape first = .ok r ∧ tableShape other = .ok s ∧ r.toList ≠ s.toList ∧
      Error.axisMismatch "j" (.upTo 3) (.upTo 4) = .axisMismatch i r s := by
  have hfinds : ∀ p ∈ tableAxes, Finds {} (fun a => liftM (tableShape a)) tableShape p.2 :=
    fun _ _ _ hu => ⟨rfl, hu⟩
  have hsame : ∀ p ∈ tableAxes, ∀ q ∈ tableAxes, p.2.same q.2 → tableShape p.2 = tableShape q.2 := by
    simp [tableAxes, tableShape, Axis.same, Expr.same]
  have hok : ∀ p ∈ tableAxes, ∃ r, tableShape p.2 = .ok r := by simp [tableAxes, tableShape]
  exact ⟨rfl, (ranges_found_iff_axes_agree tableAxes hfinds hsame).2.2 hok _ rfl⟩

end

end Catalog
end IndexNotation
