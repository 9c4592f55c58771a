import Mathlib
import HybridRelaxation.Proofs.Relaxation.Records
import HybridRelaxation.Proofs.System.Positions

/-!
# The books of an assembly

The assembly over an accepted system leaves a record for the flow in each mode, for each target set
and for each transition, ordered by mode, kind and target.  Each record has the scope and the
inequalities of its kind, and says where its statements are.  This holds for numbers of any kind and
for every program that the assembly starts from.
-/

namespace HybridRelaxation

variable {K : Type} [Scalar K]

/-! ## What a system asks for -/

/-- A constraint of a system, with its scope and the inequalities of its set. -/
inductive SystemData.AsksFor (s : HybridSystem K) (T : K) :
    ConstraintPlace → List Symbol → List (Expression K) → Prop
  | liouville {i : ℕ} {m : Mode K} (hm : s.modes[i]? = some m) :
      s.AsksFor T ⟨.liouville, i, none⟩ (s.time :: m.states ++ m.controls)
        (timeWindow s.time T :: m.domain ++ m.controlSet)
  | terminal {i : ℕ} {m : Mode K} (hm : s.modes[i]? = some m) (htarget : m.targetSet ≠ []) :
      s.AsksFor T ⟨.terminal, i, none⟩ m.states m.targetSet
  | transition {t : Transition K} {i j : ℕ} {m : Mode K} (ht : t ∈ s.transitions)
      (joins : t.JoinsAt s.modeCount (i, j)) (hm : s.modes[i]? = some m) :
      s.AsksFor T ⟨.transition, i, some (j : ℤ)⟩ (s.time :: m.states)
        (timeWindow s.time T :: t.guard)

def SystemData.positionOf (s : HybridSystem K) (label : Datum) : ℕ :=
  (PartCheck.modePosition? s.modeCount label).getD 0

/-- A place for each mode, for each target set and for each transition. -/
def SystemData.constraintPlaces (s : HybridSystem K) : List ConstraintPlace :=
  s.modes.zipIdx.map (fun (_, i) => ⟨.liouville, i, none⟩) ++
    (s.modes.zipIdx.filter (fun (m, _) => !m.targetSet.isEmpty)).map
      (fun (_, i) => ⟨.terminal, i, none⟩) ++
    s.transitions.map (fun t =>
      ⟨.transition, s.positionOf t.source, some (s.positionOf t.target : ℤ)⟩)

/-! ## Order -/

def ConstraintKind.rank : ConstraintKind → ℕ
  | .liouville => 0
  | .terminal => 1
  | .transition => 2
  | .other _ => 3

/-- By mode, then by kind, then by target. -/
def ConstraintPlace.Before (a b : ConstraintPlace) : Prop :=
  a.mode < b.mode ∨ a.mode = b.mode ∧ (a.kind.rank < b.kind.rank ∨
    a.kind.rank = b.kind.rank ∧ a.target.getD 0 < b.target.getD 0)

theorem ConstraintPlace.not_before_self (a : ConstraintPlace) : ¬ a.Before a := by
  simp [Before]

def AssemblyStep.Precedes (x y : AssemblyStep K) : Prop :=
  ∀ q, x = .certify q → ∀ q', y = .certify q' → q.place.Before q'.place

omit [Scalar K] in
theorem pairwise_certifiedBy {steps : List (AssemblyStep K)}
    (h : steps.Pairwise AssemblyStep.Precedes) :
    (certifiedBy steps).Pairwise (fun q q' => q.place.Before q'.place) := by
  rw [certifiedBy, List.pairwise_filterMap]
  refine h.imp (fun {x y} hxy q hq q' hq' => ?_)
  cases x <;> cases y <;> simp only [Option.some.injEq, reduceCtorEq] at hq hq'
  exact hxy q (by rw [hq]) q' (by rw [hq'])

/-! ## Steps -/

section

variable {s : HybridSystem K} {templates : List (ValueTemplate K)} {T : K} {i : ℕ} {m : Mode K}
  {template : ValueTemplate K}

theorem mem_terminalSteps {step : AssemblyStep K} :
    step ∈ terminalSteps false i m template ↔
      m.targetSet ≠ [] ∧ step = .certify (terminalInequality i m template) := by
  unfold terminalSteps
  by_cases h : m.targetSet = [] <;> simp [h]

theorem cases_of_mem_steps {freeFinalTime : Bool} {step : AssemblyStep K}
    (h : step ∈ terminalSteps freeFinalTime i m template ++
      (List.range s.modeCount).flatMap (transitionSteps s templates T i m template) ++
        objectiveSteps s.time m template) :
    step = .certify (terminalInequality i m template) ∨
      (∃ j next guard reset, step =
        .certify (transitionInequality s.time T i j m template next guard reset)) ∨
      (∃ f, step = .refuse f) ∨ ∃ e, step = .addToObjective e := by
  rcases List.mem_append.mp h with h | h
  · rcases List.mem_append.mp h with h | h
    · unfold terminalSteps at h
      split at h
      · simp at h
      · split at h
        · exact .inr (.inr (.inl ⟨_, List.mem_singleton.mp h⟩))
        · exact .inl (List.mem_singleton.mp h)
    · obtain ⟨j, -, h⟩ := List.mem_flatMap.mp h
      unfold transitionSteps at h
      dsimp only at h
      split at h
      · simp at h
      · split at h
        · exact .inr (.inl ⟨_, _, _, _, List.mem_singleton.mp h⟩)
        · exact .inr (.inr (.inl ⟨_, List.mem_singleton.mp h⟩))
        · exact .inr (.inr (.inl ⟨_, List.mem_singleton.mp h⟩))
  · obtain ⟨state, -, rfl⟩ := mem_objectiveSteps.mp h
    exact .inr (.inr (.inr ⟨_, rfl⟩))

theorem exists_reset_at {j : ℕ} {t : Transition K}
    (h : s.transition? (.integer i) (.integer j) = some t) (hm : s.modes[i]? = some m) :
    ∃ reset, s.reset (.integer i) (.integer j) = .ok reset := by
  simp only [HybridSystem.reset, SystemData.resetWith, h]
  cases t.reset with
  | some grid => exact ⟨grid, rfl⟩
  | none =>
      have position : (Datum.integer i).position = .ok (i : ℤ) := rfl
      have entry : entryAt s.modes (i : ℤ) = .ok m := by
        rw [entryAt, entryAt?_natCast, hm]
      simp only [position, entry, ok_bind]
      exact ⟨_, rfl⟩

section

variable (hs : s.IsJoined) (hguards : ∀ t ∈ s.transitions, t.guard ≠ [])
  (hlength : templates.length = s.modeCount) (hm : s.modes[i]? = some m)

include hs hguards hlength hm

variable (T template) in
theorem transitionSteps_of_joinsAt {j : ℕ} {t : Transition K} (ht : t ∈ s.transitions)
    (joins : t.JoinsAt s.modeCount (i, j)) : ∃ next reset, templates[j]? = some next ∧
      s.reset (.integer i) (.integer j) = .ok reset ∧
      transitionSteps s templates T i m template j =
        [.certify (transitionInequality s.time T i j m template next t.guard reset)] := by
  have found := hs.transition?_eq_some.mpr ⟨ht, joins⟩
  obtain ⟨reset, hreset⟩ := exists_reset_at found hm
  have bound : j < templates.length := hlength ▸ lt_of_modePosition? joins.2
  have next := List.getElem?_eq_getElem bound
  refine ⟨templates[j], reset, next, hreset, ?_⟩
  simp only [transitionSteps, SystemData.guard, found, List.isEmpty_iff, hguards t ht, if_false,
    next, hreset]

theorem mem_transitionSteps {j : ℕ} {step : AssemblyStep K}
    (hstep : step ∈ transitionSteps s templates T i m template j) : ∃ t ∈ s.transitions,
      t.JoinsAt s.modeCount (i, j) ∧ ∃ next reset, templates[j]? = some next ∧
        s.reset (.integer i) (.integer j) = .ok reset ∧
        step = .certify (transitionInequality s.time T i j m template next t.guard reset) := by
  cases found : s.transition? (.integer i) (.integer j) with
  | none => simp [transitionSteps, SystemData.guard, found] at hstep
  | some t =>
      obtain ⟨ht, joins⟩ := hs.transition?_eq_some.mp found
      obtain ⟨next, reset, hnext, hreset, steps⟩ :=
        transitionSteps_of_joinsAt T template hs hguards hlength hm ht joins
      rw [steps] at hstep
      exact ⟨t, ht, joins, next, reset, hnext, hreset, List.mem_singleton.mp hstep⟩

theorem modeSteps_cases {step : AssemblyStep K}
    (hstep : step ∈ modeSteps s templates T false i m template) :
    step = .certify (liouvilleInequality s.time T i m template) ∨
      (m.targetSet ≠ [] ∧ step = .certify (terminalInequality i m template)) ∨
      (∃ j, ∃ t ∈ s.transitions, t.JoinsAt s.modeCount (i, j) ∧ ∃ next reset,
        templates[j]? = some next ∧ s.reset (.integer i) (.integer j) = .ok reset ∧
        step = .certify (transitionInequality s.time T i j m template next t.guard reset)) ∨
      ∃ e, step = .addToObjective e := by
  rcases mem_modeSteps.mp hstep with rfl | hstep | ⟨j, -, hstep⟩ | ⟨state, -, rfl⟩
  · exact .inl rfl
  · exact .inr (.inl (mem_terminalSteps.mp hstep))
  · exact .inr (.inr (.inl ⟨j, mem_transitionSteps hs hguards hlength hm hstep⟩))
  · exact .inr (.inr (.inr ⟨_, rfl⟩))

theorem step_of_mem_modeSteps {step : AssemblyStep K}
    (hstep : step ∈ modeSteps s templates T false i m template) :
    (∃ q, step = .certify q ∧ s.AsksFor T q.place q.scope q.constraints ∧ q.place.mode = i) ∨
      ∃ e, step = .addToObjective e := by
  rcases modeSteps_cases hs hguards hlength hm hstep with
    rfl | ⟨htarget, rfl⟩ | ⟨j, t, ht, joins, next, reset, -, -, rfl⟩ | objective
  · exact .inl ⟨_, rfl, .liouville hm, rfl⟩
  · exact .inl ⟨_, rfl, .terminal hm htarget, rfl⟩
  · exact .inl ⟨_, rfl, .transition ht joins hm, rfl⟩
  · exact .inr objective

theorem place_of_mem_transitionSteps {j : ℕ} {q : Inequality K}
    (hstep : .certify q ∈ transitionSteps s templates T i m template j) :
    q.place = ⟨.transition, i, some (j : ℤ)⟩ := by
  obtain ⟨t, -, -, next, reset, -, -, heq⟩ := mem_transitionSteps hs hguards hlength hm hstep
  obtain rfl := AssemblyStep.certify.inj heq
  rfl

variable (T template) in
theorem pairwise_transitionSteps : ((List.range s.modeCount).flatMap
    (transitionSteps s templates T i m template)).Pairwise AssemblyStep.Precedes := by
  refine List.pairwise_flatMap.mpr ⟨fun j _ => ?_, List.pairwise_lt_range.imp ?_⟩
  · cases found : s.transition? (.integer i) (.integer j) with
    | none => simp [transitionSteps, SystemData.guard, found]
    | some t =>
        obtain ⟨ht, joins⟩ := hs.transition?_eq_some.mp found
        obtain ⟨next, reset, -, -, steps⟩ :=
          transitionSteps_of_joinsAt T template hs hguards hlength hm ht joins
        rw [steps]
        exact List.pairwise_singleton _ _
  · rintro j k hjk x hx y hy q rfl q' rfl
    rw [place_of_mem_transitionSteps hs hguards hlength hm hx,
      place_of_mem_transitionSteps hs hguards hlength hm hy]
    simp [ConstraintPlace.Before, hjk]

theorem pairwise_modeSteps :
    (modeSteps s templates T false i m template).Pairwise AssemblyStep.Precedes := by
  have terminal {q : Inequality K} (hstep : .certify q ∈ terminalSteps false i m template) :
      q.place = ⟨.terminal, i, none⟩ := by
    obtain ⟨-, heq⟩ := mem_terminalSteps.mp hstep
    obtain rfl := AssemblyStep.certify.inj heq
    rfl
  have objective {q : Inequality K} (hstep : .certify q ∈ objectiveSteps s.time m template) :
      False := by
    obtain ⟨state, -, heq⟩ := mem_objectiveSteps.mp hstep
    simp at heq
  have targets : (terminalSteps false i m template).Pairwise AssemblyStep.Precedes := by
    unfold terminalSteps
    split
    · exact .nil
    · exact List.pairwise_singleton _ _
  have objectives : (objectiveSteps s.time m template).Pairwise AssemblyStep.Precedes := by
    unfold objectiveSteps
    split
    · exact .nil
    · exact List.pairwise_singleton _ _
  have transitions := pairwise_transitionSteps T template hs hguards hlength hm
  refine List.pairwise_cons.mpr ⟨?_, List.pairwise_append.mpr ⟨List.pairwise_append.mpr
    ⟨targets, transitions, ?_⟩, objectives, ?_⟩⟩
  · rintro y hy q ⟨⟩ q' rfl
    rcases List.mem_append.mp hy with hy | hy
    · rcases List.mem_append.mp hy with hy | hy
      · rw [terminal hy]
        simp [ConstraintPlace.Before, liouvilleInequality, ConstraintKind.rank]
      · obtain ⟨j, -, hy⟩ := List.mem_flatMap.mp hy
        rw [place_of_mem_transitionSteps hs hguards hlength hm hy]
        simp [ConstraintPlace.Before, liouvilleInequality, ConstraintKind.rank]
    · exact (objective hy).elim
  · rintro x hx y hy q rfl q' rfl
    obtain ⟨j, -, hy⟩ := List.mem_flatMap.mp hy
    rw [terminal hx, place_of_mem_transitionSteps hs hguards hlength hm hy]
    simp [ConstraintPlace.Before, ConstraintKind.rank]
  · rintro x _ y hy q _ q' rfl
    exact (objective hy).elim

omit hm

theorem isPlain_assemblySteps :
    ∀ step ∈ assemblySteps s templates T false, Assembly.IsPlain step := by
  intro step hstep
  obtain ⟨i, m, template, hm, -, hstep⟩ := mem_assemblySteps_iff.mp hstep
  rcases step_of_mem_modeSteps hs hguards hlength hm hstep with ⟨q, rfl, -⟩ | ⟨e, rfl⟩
  · trivial
  · trivial

theorem asksFor_of_mem {q : Inequality K}
    (hq : q ∈ certifiedBy (assemblySteps s templates T false)) :
    s.AsksFor T q.place q.scope q.constraints := by
  obtain ⟨i, m, template, hm, -, hstep⟩ := mem_assemblySteps_iff.mp (mem_certifiedBy.mp hq)
  rcases step_of_mem_modeSteps hs hguards hlength hm hstep with ⟨q', heq, asks, -⟩ | ⟨e, heq⟩
  · obtain rfl := AssemblyStep.certify.inj heq
    exact asks
  · simp at heq

theorem exists_mem_of_asksFor {place : ConstraintPlace} {scope : List Symbol}
    {constraints : List (Expression K)} (h : s.AsksFor T place scope constraints) :
    ∃ q ∈ certifiedBy (assemblySteps s templates T false), q.place = place := by
  have template {i : ℕ} {m : Mode K} (hm : s.modes[i]? = some m) :
      ∃ template, templates[i]? = some template :=
    ⟨_, List.getElem?_eq_getElem (hlength ▸ (List.getElem?_eq_some_iff.mp hm).1)⟩
  have listed {i : ℕ} {m : Mode K} {template : ValueTemplate K} (hm : s.modes[i]? = some m)
      (ht : templates[i]? = some template) {q : Inequality K}
      (hstep : .certify q ∈ modeSteps s templates T false i m template) :
      q ∈ certifiedBy (assemblySteps s templates T false) :=
    mem_certifiedBy.mpr (mem_assemblySteps_iff.mpr ⟨i, m, template, hm, ht, hstep⟩)
  cases h with
  | liouville hm =>
      obtain ⟨t, ht⟩ := template hm
      exact ⟨_, listed hm ht (mem_modeSteps.mpr (.inl rfl)), rfl⟩
  | terminal hm htarget =>
      obtain ⟨t, ht⟩ := template hm
      exact ⟨_, listed hm ht (mem_modeSteps.mpr (.inr (.inl
        (mem_terminalSteps.mpr ⟨htarget, rfl⟩)))), rfl⟩
  | @transition t i j m ht joins hm =>
      obtain ⟨here, hhere⟩ := template hm
      obtain ⟨next, reset, -, -, steps⟩ :=
        transitionSteps_of_joinsAt T here hs hguards hlength hm ht joins
      refine ⟨transitionInequality s.time T i j m here next t.guard reset, listed hm hhere
        (mem_modeSteps.mpr (.inr (.inr (.inl ⟨j, lt_of_modePosition? joins.2, ?_⟩)))), rfl⟩
      rw [steps]
      exact List.mem_singleton_self _

theorem pairwise_assemblySteps :
    (certifiedBy (assemblySteps s templates T false)).Pairwise
      (fun q q' => q.place.Before q'.place) := by
  refine pairwise_certifiedBy (List.pairwise_flatMap.mpr ⟨?_, ?_⟩)
  · rintro ⟨⟨m, template⟩, i⟩ hmem
    obtain ⟨hm, -⟩ := List.getElem?_zip_eq_some.mp (List.mem_zipIdx_iff_getElem?.mp hmem)
    exact pairwise_modeSteps hs hguards hlength hm
  · refine List.pairwise_iff_getElem.mpr (fun a b ha hb hab x hx y hy q hq q' hq' => ?_)
    have mode {a : ℕ} (ha : a < (s.modes.zip templates).zipIdx.length) {x : AssemblyStep K}
        (hx : x ∈ modeSteps s templates T false ((s.modes.zip templates).zipIdx[a]).2
          ((s.modes.zip templates).zipIdx[a]).1.1 ((s.modes.zip templates).zipIdx[a]).1.2)
        {q : Inequality K} (hq : x = .certify q) : q.place.mode = a := by
      have hmem := List.mem_zipIdx_iff_getElem?.mp (List.getElem_mem ha)
      obtain ⟨hm, -⟩ := List.getElem?_zip_eq_some.mp hmem
      rcases step_of_mem_modeSteps hs hguards hlength hm hx with ⟨q', heq, -, hmode⟩ | ⟨e, heq⟩
      · obtain rfl := AssemblyStep.certify.inj (hq.symm.trans heq)
        rw [hmode]
        simp
      · rw [hq] at heq
        simp at heq
    refine .inl ?_
    rw [mode ha hx hq, mode hb hy hq']
    exact_mod_cast hab

end

end

end HybridRelaxation
