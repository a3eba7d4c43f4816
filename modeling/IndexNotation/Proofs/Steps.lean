import IndexNotation.Proofs.Noting
import IndexNotation.Proofs.Preparation

/-!
# The steps of a run

The loops of a run evaluate the right-hand side, take values into accumulators and store them. A
recorded run does the same and writes down every such step before it takes it.
-/

namespace IndexNotation

open Run (exec)

/-- One thing that the loops of a run do. -/
inductive Step where
  /-- The right-hand side is evaluated for values of all indices. -/
  | evaluate (env : Env)
  /-- One more value is taken into an accumulator. -/
  | combine (acc v : Value)
  /-- A value is stored at the output cell of values of the output indices. -/
  | store (env : Env) (v : Value)

/-- The values of the output indices for which a step stores something. -/
def Step.storedAt? : Step → Option Env
  | store env _ => some env
  | _ => none

/-- A machine that writes down its steps. -/
def Machine.recorded (k : Machine Run Value) : Machine (Noting Step) Value where
  element env := do
    Noting.note (.evaluate env)
    k.element env
  combine acc v := do
    Noting.note (.combine acc v)
    k.combine acc v
  store env v := do
    Noting.note (.store env v)
    k.store env v
  init := k.init

namespace Kernel

/-- A run that writes down the steps of its loops. -/
def runRecorded (k : Kernel) (scope : Scope) : Noting Step Value := do
  let s ← k.prepare scope
  runPlan (s.machine k scope).recorded k.config.workerCount k.outputIndices k.plan s.ranges
  return s.out

end Kernel

/-- A machine that does the same as another and makes notes on the way. -/
theorem Machine.follows_erasing {ν : Type} {k' : Machine (Noting ν) Value} {k : Machine Run Value}
    (helement : ∀ env s, ((exec (k'.element env) s).1, (exec (k'.element env) s).2.1) = exec (k.element env) s.1)
    (hcombine : ∀ acc v s,
      ((exec (k'.combine acc v) s).1, (exec (k'.combine acc v) s).2.1) = exec (k.combine acc v) s.1)
    (hstore : ∀ env v s, ((exec (k'.store env v) s).1, (exec (k'.store env v) s).2.1) = exec (k.store env v) s.1)
    (hinit : k'.init = k.init) (p : Plan) (rs : Ranges) : k'.Follows Noting.erasing () (fun _ => Eq) p rs k where
  mono _ _ _ _ _ := id
  element _ env _ _ s :=
    ⟨congrArg Prod.snd (helement env s), Noting.concur_of_eq (fun _ => rfl) (congrArg Prod.fst (helement env s))⟩
  init _ := hinit
  combine _ _ acc _ v _ _ hacc hv s := by
    cases hacc
    cases hv
    exact ⟨congrArg Prod.snd (hcombine acc v s),
      Noting.concur_of_eq (fun _ => rfl) (congrArg Prod.fst (hcombine acc v s))⟩
  store _ env v _ _ _ hv s := by
    cases hv
    exact ⟨congrArg Prod.snd (hstore env v s),
      Noting.concur_of_eq (fun _ => trivial) (congrArg Prod.fst (hstore env v s))⟩

namespace Kernel

/-- A run with a machine that makes notes is a run. -/
theorem exec_noting {ν : Type} {k : Kernel} {read : Reduction.Partial} (hk : k.Planned read) {start : Run Setup}
    (hstart : ∀ w s w', exec start w = (.ok s, w') → s.ranges.Gapless) {m : Setup → Machine Run Value}
    {m' : Setup → Machine (Noting ν) Value}
    (hm : ∀ s, (m' s).Follows Noting.erasing () (fun _ => Eq) k.plan s.ranges (m s)) (s : World × List ν) :
    let noting : Noting ν Value := do
      let s ← start
      runPlan (m' s) k.config.workerCount k.outputIndices k.plan s.ranges
      return s.out
    ((exec noting s).1, (exec noting s).2.1) = exec (do
      let s ← start
      runPlan (m s) k.config.workerCount k.outputIndices k.plan s.ranges
      return s.out) s.1 := by
  refine Noting.exec_of_erasing ?_ s
  have hsetup : Noting.erasing.Rel () (fun _ s s' => s = s' ∧ s.ranges.Gapless)
      (liftM start : Noting ν Setup) start := by
    intro s
    refine ⟨rfl, ?_⟩
    rw [Noting.exec_lift]
    rcases hs : exec start s.1 with ⟨e | setup, w⟩
    · rfl
    · exact ⟨rfl, hstart s.1 setup w hs⟩
  refine Noting.erasing.bind hsetup fun _ setup _ _ hsetup => ?_
  obtain ⟨rfl, hgapless⟩ := hsetup
  refine Noting.erasing.bind (runPlan_rel k.outputIndices (hm setup) k.config.workerCount hgapless
    (fun g hg => (hk.group_sound hg).2.1) (by simp [hk.outer_eq])) fun _ _ _ _ _ => ?_
  exact Noting.erasing.pure rfl

/-- A recorded run is a run. -/
theorem exec_runRecorded {k : Kernel} {read : Reduction.Partial} (hk : k.Planned read) (scope : Scope)
    (s : World × List Step) :
    ((exec (k.runRecorded scope) s).1, (exec (k.runRecorded scope) s).2.1) = exec (k.run scope) s.1 := by
  rw [run_eq]
  exact exec_noting hk (fun _ _ _ => gapless_of_prepare)
    (fun s => Machine.follows_erasing (fun _ _ => rfl) (fun _ _ _ => rfl) (fun _ _ _ => rfl) rfl _ _) s

end Kernel
end IndexNotation
