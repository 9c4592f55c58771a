import Mathlib
import HybridRelaxation.Proofs.Relaxation.Reordering
import HybridRelaxation.Proofs.System.Renumbering

/-!
# Relaxations of renumbered systems

A relaxation does not depend on how the modes are numbered.  In another order of the modes the same
inequalities are asked for in another order, those of a transition where its labels lead, and the
objective adds up the same values.  So the exact feasible points of the two relaxations correspond.
-/

namespace HybridRelaxation

def ConstraintPlace.renumber (ρ : ℕ → ℕ) (place : ConstraintPlace) : ConstraintPlace where
  kind := place.kind
  mode := ρ place.mode.toNat
  target := place.target.map (fun j => (ρ j.toNat : ℤ))

/-! ## Inequalities -/

structure Inequality.IsRenumbered (ρ : Equiv.Perm ℕ)
    (templates templates' : List (ValueTemplate Rat)) (q q' : Inequality Rat) : Prop
    extends q.StandsFor ρ templates templates' q' where
  place : q'.place = q.place.renumber ρ

theorem Inequality.isRenumbered_of_agrees {ρ : Equiv.Perm ℕ}
    {templates templates' : List (ValueTemplate Rat)} {q q' : Inequality Rat}
    (scope : q'.scope = q.scope) (constraints : q'.constraints = q.constraints)
    (place : q'.place = q.place.renumber ρ)
    (h : ∀ {A : Type} [CommRing A] [Algebra ℚ A] {φ ψ : ℕ → A},
      AreSolvedAlike φ ψ ρ templates templates' → q.Agrees φ ψ q') :
    q.IsRenumbered ρ templates templates' q' :=
  ⟨⟨scope, constraints, fun alike => (h alike).polynomial⟩, place⟩

theorem certifiedBy_append {K : Type} (steps more : List (AssemblyStep K)) :
    certifiedBy (steps ++ more) = certifiedBy steps ++ certifiedBy more := List.filterMap_append

theorem certifiedBy_flatMap {K α : Type} (xs : List α) (steps : α → List (AssemblyStep K)) :
    certifiedBy (xs.flatMap steps) = xs.flatMap (fun x => certifiedBy (steps x)) :=
  List.filterMap_flatMap

theorem certifiedBy_modeSteps {s : HybridSystem Rat} {templates : List (ValueTemplate Rat)}
    (freeFinalTime : Bool) (i : ℕ) (m : Mode Rat) (template : ValueTemplate Rat) :
    certifiedBy (modeSteps s templates horizon freeFinalTime i m template) =
      liouvilleInequality s.time horizon i m template ::
        (certifiedBy (terminalSteps freeFinalTime i m template) ++
          (List.range s.modeCount).flatMap (fun j =>
            certifiedBy (transitionSteps s templates horizon i m template j))) := by
  have initial : certifiedBy (objectiveSteps s.time m template) = [] := by
    unfold objectiveSteps
    cases m.initialState <;> rfl
  rw [← certifiedBy_flatMap, ← certifiedBy_append, ← List.append_nil (certifiedBy (_ ++ _)),
    ← initial, ← certifiedBy_append]
  rfl

namespace Problem

section

variable {ρ : Equiv.Perm ℕ} {p p' : Problem Rat} {r r' : Relaxation Rat}
  {cs cs' : List SquareProgram.Certificate} (h : p.HasRelaxation r cs)
  (h' : p'.HasRelaxation r' cs') (hs : p.system.IsRenumbered ρ p'.system)

include hs

section

variable {i : ℕ} {m : Mode Rat} (hm : p.system.modes[i]? = some m) {t t' : ValueTemplate Rat}
  (ht : r.templates[i]? = some t) (ht' : r'.templates[ρ i]? = some t')

include hm

theorem getElem?_renumbered : p'.system.modes[ρ i]? = some m := by
  obtain ⟨_, hm', rfl⟩ := hs.modes.exists_right hm
  exact hm'

include h' ht'

theorem fits_renumbered :
    t'.Fits p.system.time p'.degree.value r'.program.decisions m := by
  rw [← hs.time]
  exact related_at h'.relaxed.templates (getElem?_renumbered hs hm) ht'

include h ht

theorem isRenumbered_liouville : Inequality.IsRenumbered ρ r.templates r'.templates
    (liouvilleInequality p.system.time horizon i m t)
    (liouvilleInequality p'.system.time horizon (ρ i) m t') := by
  rw [hs.time]
  exact Inequality.isRenumbered_of_agrees rfl rfl rfl (fun alike =>
    agrees_liouville h.wellPosed.polynomial h.wellPosed.consistent (List.mem_of_getElem? hm)
      (related_at h.relaxed.templates hm ht) (fits_renumbered h' hs hm ht')
      (alike.related ht ht') i (ρ i))

theorem isRenumbered_terminal : List.Forall₂ (Inequality.IsRenumbered ρ r.templates r'.templates)
    (certifiedBy (terminalSteps p.settings.freeFinalTime i m t))
    (certifiedBy (terminalSteps p'.settings.freeFinalTime (ρ i) m t')) := by
  have hm' := getElem?_renumbered hs hm
  rw [terminalSteps_of_supported (fun hfree => h.wellPosed.final hfree m (List.mem_of_getElem? hm)),
    terminalSteps_of_supported
      (fun hfree => h'.wellPosed.final hfree m (List.mem_of_getElem? hm'))]
  by_cases hempty : m.targetSet = []
  · rw [if_pos hempty, if_pos hempty]
    exact .nil
  · rw [if_neg hempty, if_neg hempty]
    refine .cons (Inequality.isRenumbered_of_agrees rfl rfl rfl (fun alike => ?_)) .nil
    exact agrees_terminal h.wellPosed.polynomial h.wellPosed.consistent
      (fun _ hd => h.relaxed.regular.isNamed_of_mem hd)
      (fun _ hd => h'.relaxed.regular.isNamed_of_mem hd) (List.mem_of_getElem? hm)
      (related_at h.relaxed.templates hm ht) (fits_renumbered h' hs hm ht')
      (alike.related ht ht') i (ρ i)

theorem isRenumbered_transition (j : ℕ) :
    List.Forall₂ (Inequality.IsRenumbered ρ r.templates r'.templates)
      (certifiedBy (transitionSteps p.system r.templates horizon i m t j))
      (certifiedBy (transitionSteps p'.system r'.templates horizon (ρ i) m t' (ρ j))) := by
  have jump := hs.jumps i j
  generalize found : p.system.transition? (.integer i) (.integer j) = o at jump
  generalize found' : p'.system.transition? (.integer (ρ i)) (.integer (ρ j)) = o' at jump
  cases jump with
  | none => simp [transitionSteps, SystemData.guard, found, found', certifiedBy]
  | @some d d' same =>
      obtain ⟨guard, reset⟩ := same
      by_cases hguard : d.guard = []
      · simp [transitionSteps, guard_of_transition? found, guard_of_transition? found', hguard,
          guard, certifiedBy]
      · obtain ⟨hd, source, target, fits⟩ := fits_of_transition? h.wellPosed.consistent found
        obtain ⟨hd', source', target', fits'⟩ := fits_of_transition? h'.wellPosed.consistent found'
        obtain rfl : source = m := Option.some.inj (fits.sourceMode.symm.trans hm)
        obtain rfl : source' = source :=
          Option.some.inj (fits'.sourceMode.symm.trans (getElem?_renumbered hs hm))
        obtain ⟨next, hnext, hfits⟩ := exists_right_at h.relaxed.templates fits.targetMode
        obtain ⟨next', hnext', -⟩ := exists_right_at h'.relaxed.templates fits'.targetMode
        have hfits' := fits_renumbered h' hs fits.targetMode hnext'
        obtain ⟨grid, entries, steps⟩ :=
          transitionSteps_of_fits h.wellPosed.consistent hd hguard fits t hnext
        obtain ⟨grid', entries', steps'⟩ := transitionSteps_of_fits h'.wellPosed.consistent hd'
          (guard ▸ hguard) fits' t' hnext'
        have resets : d'.resetEntries source' = d.resetEntries source' := by
          rw [TransitionData.resetEntries, TransitionData.resetEntries, reset]
        rw [steps, steps', hs.time, guard]
        refine .cons (Inequality.isRenumbered_of_agrees rfl rfl rfl (fun alike => ?_)) .nil
        exact agrees_transition h.wellPosed.polynomial
          (fun _ hd => h.relaxed.regular.isNamed_of_mem hd)
          (fun _ hd => h'.relaxed.regular.isNamed_of_mem hd) hd fits hfits hfits'
          (alike.related ht ht') (alike.related hnext hnext') entries (entries'.trans resets)
          (ρ i) (ρ j)

end

include h h'

theorem rel_modeSteps {i : ℕ} {m : Mode Rat} (hm : p.system.modes[i]? = some m)
    {t t' : ValueTemplate Rat} (ht : r.templates[i]? = some t)
    (ht' : r'.templates[ρ i]? = some t') :
    Multiset.Rel (Inequality.IsRenumbered ρ r.templates r'.templates)
      (certifiedBy (modeSteps p.system r.templates horizon p.settings.freeFinalTime i m t))
      (certifiedBy
        (modeSteps p'.system r'.templates horizon p'.settings.freeFinalTime (ρ i) m t')) := by
  have jumps := hs.modes.range.rel_flatMap (fun j _ same => same ▸
    rel_coe_of_forall₂ (isRenumbered_transition h h' hs hm ht ht' j))
  have final := rel_coe_of_forall₂ (isRenumbered_terminal h h' hs hm ht ht')
  rw [certifiedBy_modeSteps, certifiedBy_modeSteps, ← Multiset.cons_coe, ← Multiset.cons_coe,
    ← Multiset.coe_add, ← Multiset.coe_add]
  exact .cons (isRenumbered_liouville h h' hs hm ht ht') (final.add jumps)

theorem rel_inequalities : Multiset.Rel (Inequality.IsRenumbered ρ r.templates r'.templates)
    (p.inequalities r : List (Inequality Rat)) (p'.inequalities r' : List (Inequality Rat)) := by
  have templates : Rearranges ρ (fun _ _ => True) r.templates r'.templates :=
    (hs.modes.transport h.relaxed.templates h'.relaxed.templates).imp (fun _ _ _ => trivial)
  rw [inequalities, inequalities, assemblySteps, assemblySteps, certifiedBy_flatMap,
    certifiedBy_flatMap]
  refine (hs.modes.zip templates).zipIdx.rel_flatMap ?_
  rintro ⟨⟨m, t⟩, i⟩ ⟨⟨m', t'⟩, i'⟩ ⟨⟨same, -⟩, number, here, here'⟩
  dsimp only at same number here here' ⊢
  subst same number
  obtain ⟨hm, ht⟩ := List.getElem?_zip_eq_some.mp here
  exact rel_modeSteps h h' hs hm ht (List.getElem?_zip_eq_some.mp here').2

end

end Problem

/-! ## Points -/

/-- The same constraint at the new numbers of its modes, and the same certificate at both points. -/
structure ConstraintRecord.CorrespondsTo (ρ : ℕ → ℕ) {p p' : SquareProgram Rat}
    (x : FeasiblePoint p) (y : FeasiblePoint p') (c c' : ConstraintRecord Rat) : Prop where
  place : c'.place = c.place.renumber ρ
  scope : c'.scope = c.scope
  constraints : c'.constraints = c.constraints
  multiplierCount : c'.multiplierCount = c.multiplierCount
  degree : c'.degree = c.degree
  polynomial : y.solved c'.polynomial = x.solved c.polynomial
  statements : List.Forall₂ (fun s s' => s.HasFormOf s' ∧
      y.solved s'.polynomial = x.solved s.polynomial)
    (slice p.statements c.offset c.stop) (slice p'.statements c'.offset c'.stop)
  grams : slice y.grams c'.offset c'.stop = slice x.grams c.offset c.stop

/-- The same value functions, constraint records and objective, under the new numbers. -/
structure Relaxation.PointCorrespondsTo (ρ τ : Equiv.Perm ℕ) (r r' : Relaxation Rat)
    (x : FeasiblePoint r.program) (y : FeasiblePoint r'.program) : Prop where
  valueFunctions : ∀ i, y.valueFunction r'.templates (ρ i) = x.valueFunction r.templates i
  records : Rearranges τ (ConstraintRecord.CorrespondsTo ρ x y) r.records r'.records
  objective : y.solved r'.objective = x.solved r.objective

/-- The feasible points correspond one to one, with all records in some other order. -/
def Relaxation.IsRenumbered (ρ : Equiv.Perm ℕ) (r r' : Relaxation Rat) : Prop :=
  ∃ (τ : Equiv.Perm ℕ) (e : FeasiblePoint r.program ≃ FeasiblePoint r'.program),
    ∀ x, r.PointCorrespondsTo ρ τ r' x (e x)

namespace Problem

section

variable {ρ : Equiv.Perm ℕ} {p p' : Problem Rat} {r r' : Relaxation Rat}
  {cs cs' : List SquareProgram.Certificate}

theorem HasRelaxation.exists_reorders (h : p.HasRelaxation r cs) (h' : p'.HasRelaxation r' cs')
    (hs : p.system.IsRenumbered ρ p'.system) (hdegree : p'.degree.value = p.degree.value) :
    ∃ τ, p.Reorders ρ τ r cs p' r' cs' ∧ Rearranges τ
      (Inequality.IsRenumbered ρ r.templates r'.templates) (p.inequalities r)
        (p'.inequalities r') := by
  obtain ⟨τ, inequalities⟩ := exists_rearranges (rel_inequalities h h' hs)
  refine ⟨τ, ⟨h, h', hs.time, hdegree, hs.modes.imp ?_,
    inequalities.imp (fun _ _ renumbered => renumbered.toStandsFor)⟩, inequalities⟩
  rintro m _ rfl
  exact ⟨rfl, rfl⟩

theorem Reorders.correspondsTo {τ : Equiv.Perm ℕ} (h : p.Reorders ρ τ r cs p' r' cs')
    (hplaces : Rearranges τ (Inequality.IsRenumbered ρ r.templates r'.templates) (p.inequalities r)
      (p'.inequalities r'))
    {x : FeasiblePoint r.program} {y : FeasiblePoint r'.program} (hxy : Matches ρ τ r r' x y) :
    r.PointCorrespondsTo ρ τ r' x y := by
  refine ⟨FeasiblePoint.valueFunction_congr hxy.templates, ?_,
    solvedAt_objective_congr h.left.wellPosed h.left.relaxed h.right.wellPosed h.right.relaxed
      h.time h.modes hxy.templates⟩
  have own := forall₂_recordsFrom p.degree.value 0 (p.inequalities r)
  have own' := forall₂_recordsFrom p'.degree.value 0 (p'.inequalities r')
  rw [← (records_of_build h.left.wellPosed h.left.built).1] at own
  rw [← (records_of_build h.right.wellPosed h.right.built).1] at own'
  refine (hplaces.transport own own').imp_at (fun k c c' hc hc' => ?_)
  rintro ⟨q, q', same, ⟨j, rfl⟩, ⟨j', rfl⟩⟩
  exact ⟨same.place, same.scope, same.constraints, congrArg (fun gs => (List.length gs : ℤ))
    same.constraints, h.degree, same.polynomial hxy.templates,
    (h.solved_statements hxy).related hc hc', hxy.grams.related hc hc'⟩

theorem exists_build_renumbered (hp : p.IsWellPosed) (hp' : p'.IsWellPosed)
    (hs : p.system.IsRenumbered ρ p'.system) (hdegree : p'.degree.value = p.degree.value)
    (hwidth : ∀ m ∈ p.system.modes, m.drift.width = 1) :
    ∃ r r', p.build = .ok r ∧ p'.build = .ok r' ∧ r.IsRenumbered ρ r' := by
  obtain ⟨r, cs, built, relaxed⟩ := exists_build hp hwidth
  obtain ⟨r', cs', built', relaxed'⟩ := exists_build hp' (fun m' hm' => by
    obtain ⟨k, hk⟩ := List.mem_iff_getElem?.mp hm'
    obtain ⟨m, hm, rfl⟩ := hs.modes.exists_left hk
    exact hwidth m' (List.mem_of_getElem? hm))
  obtain ⟨τ, reorders, places⟩ := HasRelaxation.exists_reorders ⟨hp, built, relaxed⟩
    ⟨hp', built', relaxed'⟩ hs hdegree
  obtain ⟨e, matched⟩ := reorders.exists_equiv
  exact ⟨r, r', built, built', τ, e, fun x => reorders.correspondsTo places (matched x)⟩

end

end Problem

/--
The numbers of the modes do not matter.  If the modes of an accepted polynomial system are put in
another order, and the labels of its transitions follow, the system is accepted again.  It has a
relaxation exactly if the original has one, which is so if all drifts are columns; and then the
exact feasible points of the two correspond one to one.  Corresponding points have the same value
function for each mode, the same certificate for each constraint, under the new numbers, and the
same objective.
-/
theorem isRenumbered_of_renumber {s : HybridSystem Rat} (hs : s.IsPolynomial)
    (σ : Equiv.Perm (Fin s.modes.length)) {degree : Datum} {settings : Settings} {p : Problem Rat}
    (hpose : Problem.pose s degree settings = .ok p) :
    ∃ p', Problem.pose (s.renumber σ) degree settings = .ok p' ∧
      ((∀ m ∈ s.modes, m.drift.width = 1) → ∃ r, p.build = .ok r) ∧
        (∀ r, p.build = .ok r → ∃ r', p'.build = .ok r' ∧ r.IsRenumbered (positions σ) r') ∧
          ∀ r', p'.build = .ok r' → ∃ r, p.build = .ok r ∧ r.IsRenumbered (positions σ) r' := by
  obtain ⟨wellPosed, rfl, -⟩ := Problem.isWellPosed_of_pose hs hpose
  have valid := (validate_eq_ok (hs.renumber σ)).mpr (wellPosed.consistent.renumber σ)
  have posed := Problem.pose_of_valid hpose valid
    (fun m hm htarget => ⟨m, (p.system.mem_modes_renumber σ).mp hm, htarget⟩)
  obtain ⟨wellPosed', -⟩ := Problem.isWellPosed_of_pose (hs.renumber σ) posed
  have relaxed := Problem.exists_build_renumbered wellPosed wellPosed'
    (SystemData.isRenumbered_renumber σ wellPosed.consistent.isJoined) rfl
  refine ⟨_, posed, fun hwidth => ?_, fun r hr => ?_, fun r' hr' => ?_⟩
  · obtain ⟨r, -, built, -⟩ := relaxed hwidth
    exact ⟨r, built⟩
  · obtain ⟨_, r', built, built', same⟩ := relaxed (Problem.width_of_build hr)
    obtain rfl := Except.ok.inj (hr.symm.trans built)
    exact ⟨r', built', same⟩
  · have width := Problem.width_of_build hr'
    obtain ⟨r, _, built, built', same⟩ := relaxed
      (fun m hm => width m ((p.system.mem_modes_renumber σ).mpr hm))
    obtain rfl := Except.ok.inj (hr'.symm.trans built')
    exact ⟨r, built, same⟩

/-! ### Three modes of different dimensions -/

def symbolOf (name : String) : Expression Rat := .ofSymbol (.named name)

def waitingMode : Mode Rat where
  states := [.named "x"]
  controls := []
  drift := ⟨1, [[.zero]]⟩
  input := ⟨0, [[]]⟩
  domain := [symbolOf "x"]
  controlSet := []
  targetSet := []
  runningCost := .zero
  terminalCost := .zero
  initialState := some [0]
  name := none

def steeredMode : Mode Rat where
  states := [.named "x", .named "y"]
  controls := [.named "u"]
  drift := ⟨1, [[symbolOf "y"], [.zero]]⟩
  input := ⟨1, [[.zero], [.number 1]]⟩
  domain := [symbolOf "x"]
  controlSet := [symbolOf "u"]
  targetSet := [symbolOf "y"]
  runningCost := .zero
  terminalCost := .zero
  initialState := some [0, 1]
  name := none

def driftingMode : Mode Rat where
  states := [.named "x", .named "y", .named "z"]
  controls := []
  drift := ⟨1, [[symbolOf "y"], [symbolOf "z"], [symbolOf "x"]]⟩
  input := ⟨0, [[], [], []]⟩
  domain := []
  controlSet := []
  targetSet := [symbolOf "x", symbolOf "z"]
  runningCost := .zero
  terminalCost := .zero
  initialState := none
  name := none

/-- Jumps around the three modes, one back, and one that stays; a flag is the label of mode one. -/
def roundSystem : HybridSystem Rat where
  time := .named "t"
  modes := [waitingMode, steeredMode, driftingMode]
  transitions := [
    ⟨.integer 2, .integer 0, [symbolOf "z"], some (.ofColumn [symbolOf "y"])⟩,
    ⟨.integer 0, .flag true, [symbolOf "x"], some (.ofColumn [symbolOf "x", .zero])⟩,
    ⟨.flag true, .integer 0, [symbolOf "y"], some (.ofColumn [symbolOf "y"])⟩,
    ⟨.flag true, .integer 2, [symbolOf "x"],
      some (.ofColumn [symbolOf "y", symbolOf "x", symbolOf "y"])⟩,
    ⟨.integer 2, .integer 2, [symbolOf "x", symbolOf "y"], none⟩]

theorem isPolynomial_roundSystem : roundSystem.IsPolynomial := by
  have symbol (name : String) : (symbolOf name).IsPolynomial := Expression.isPolynomial_ofSymbol _
  refine ⟨fun m hm => ?_, fun t ht => ?_⟩
  · have cases : m = waitingMode ∨ m = steeredMode ∨ m = driftingMode := by
      simpa [roundSystem] using hm
    rcases cases with rfl | rfl | rfl <;> constructor <;>
      simp [roundSystem, waitingMode, steeredMode, driftingMode, Grid.entries, Grid.IsRectangular,
        Symbol.isNamed, symbol]
  · simp only [roundSystem, List.mem_cons, List.not_mem_nil, or_false] at ht
    rcases ht with rfl | rfl | rfl | rfl | rfl <;> constructor <;>
      simp [Grid.entries, Grid.IsColumn, Grid.ofColumn, symbol, Expression.isPolynomial_zero,
        forall_and]

theorem isRenumbered_of_renumber_roundSystem : ∃ p r p' r',
    Problem.pose roundSystem (.integer 2) Settings.defaults = .ok p ∧ p.build = .ok r ∧
      Problem.pose (roundSystem.renumber (finRotate 3)) (.integer 2) Settings.defaults = .ok p' ∧
        p'.build = .ok r' ∧ Nonempty (FeasiblePoint r.program) ∧
          r.IsRenumbered (positions (finRotate 3)) r' := by
  have valid : HybridSystem.validate roundSystem = .ok () := by decide +kernel
  have posed : Problem.pose roundSystem (.integer 2) Settings.defaults =
      .ok ⟨roundSystem, ⟨2, false⟩, Settings.defaults⟩ :=
    Problem.pose_eq_ok.mpr ⟨valid, by simp [Settings.defaults], _, rfl, rfl⟩
  obtain ⟨wellPosed, -⟩ := Problem.isWellPosed_of_pose isPolynomial_roundSystem posed
  have modes {P : Mode Rat → Prop} (waiting : P waitingMode) (steered : P steeredMode)
      (drifting : P driftingMode) : ∀ m ∈ roundSystem.modes, P m := by
    simp [roundSystem, waiting, steered, drifting]
  obtain ⟨r, cs, built, relaxed⟩ := Problem.exists_build wellPosed (modes rfl rfl rfl)
  obtain ⟨p', posed', -, renumbered, -⟩ :=
    isRenumbered_of_renumber isPolynomial_roundSystem (finRotate 3) posed
  obtain ⟨r', built', same⟩ := renumbered r built
  obtain ⟨point, -⟩ := Problem.exists_feasiblePoint_zero wellPosed relaxed
    (modes (isSumOfSquares_zero _) (isSumOfSquares_zero _) (isSumOfSquares_zero _))
    (modes (isSumOfSquares_zero _) (isSumOfSquares_zero _) (isSumOfSquares_zero _))
  exact ⟨_, r, p', r', posed, built, posed', built', ⟨point⟩, same⟩

end HybridRelaxation
