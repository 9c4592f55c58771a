import Mathlib
import HybridRelaxation.Proofs.Certificate.CoefficientNorms
import HybridRelaxation.Proofs.Relaxation.Soundness
import HybridRelaxation.Results.Basic

/-!
# The objective of a relaxation

The objective is the sum of the values at the initial states.  It is affine in the decisions and has
no other symbols, so it has a linear form, and at values for the decisions it is a number: the bound
that is reported.
-/

namespace HybridRelaxation

open MvPolynomial (C X coeff)

/-! ## The values that are added up -/

section

variable {s : HybridSystem Rat} {templates : List (ValueTemplate Rat)}

theorem addedBy_append (steps more : List (AssemblyStep Rat)) :
    addedBy (steps ++ more) = addedBy steps ++ addedBy more := List.filterMap_append

theorem addedBy_flatMap {α : Type} (xs : List α) (steps : α → List (AssemblyStep Rat)) :
    addedBy (xs.flatMap steps) = xs.flatMap (fun x => addedBy (steps x)) := List.filterMap_flatMap

theorem addedBy_terminalSteps (freeFinalTime : Bool) (i : ℕ) (m : Mode Rat)
    (template : ValueTemplate Rat) : addedBy (terminalSteps freeFinalTime i m template) = [] := by
  unfold terminalSteps
  split
  · rfl
  · split <;> rfl

theorem addedBy_transitionSteps (i : ℕ) (m : Mode Rat) (template : ValueTemplate Rat) (j : ℕ) :
    addedBy (transitionSteps s templates horizon i m template j) = [] := by
  unfold transitionSteps
  dsimp only
  split
  · rfl
  · split <;> rfl

theorem addedBy_modeSteps (freeFinalTime : Bool) (i : ℕ) (m : Mode Rat)
    (template : ValueTemplate Rat) :
    addedBy (modeSteps s templates horizon freeFinalTime i m template) =
      (m.initialState.map (initialValue s.time m template)).toList := by
  have transitions : addedBy ((List.range s.modeCount).flatMap
      (transitionSteps s templates horizon i m template)) = [] := by
    rw [addedBy_flatMap]
    exact List.flatMap_eq_nil_iff.mpr (fun j _ => addedBy_transitionSteps i m template j)
  have initial : addedBy (objectiveSteps s.time m template) =
      (m.initialState.map (initialValue s.time m template)).toList := by
    unfold objectiveSteps
    cases m.initialState <;> rfl
  rw [modeSteps, ← initial]
  change addedBy (_ ++ _ ++ _) = _
  rw [addedBy_append, addedBy_append, addedBy_terminalSteps, transitions, List.nil_append,
    List.nil_append]

/-- The sum of numbers, one for each mode with an initial state. -/
def SystemData.initialSum (s : HybridSystem Rat) (w : ℕ → ℝ) : ℝ :=
  (s.modes.zipIdx.map (fun (m, i) => if m.initialState.isSome then w i else 0)).sum

end

section

variable {A : Type} [CommRing A] [Algebra ℚ A]

theorem solvedAt_foldl_add (φ : ℕ → A) (e : Expression Rat) (es : List (Expression Rat)) :
    solvedAt φ (es.foldl (· + ·) e) = solvedAt φ e + (es.map (solvedAt φ)).sum := by
  induction es generalizing e with
  | nil => simp
  | cons f es ih =>
      rw [List.foldl_cons, ih, solvedAt_add, List.map_cons, List.sum_cons, add_assoc]

end

namespace Problem

variable {p : Problem Rat} {r : Relaxation Rat} {cs : List SquareProgram.Certificate}
  (hp : p.IsWellPosed) (hr : p.IsRelaxedBy r cs)

include hp hr

theorem objective_spec : r.objective.IsPolynomial ∧
    r.objective.eval X ∈ affineSpan [] r.program.decisions := by
  have named : ∀ t ∈ r.program.decisions, t.isNamed = false :=
    fun t ht => hr.regular.isNamed_of_mem ht
  have values : ∀ step ∈ assemblySteps p.system r.templates horizon p.settings.freeFinalTime,
      ∀ e, step = .addToObjective e →
        e.IsPolynomial ∧ e.eval X ∈ affineSpan [] r.program.decisions := by
    refine forall_assemblySteps hp.consistent hr.templates hp.final
      (fun _ _ _ _ _ _ _ h => by simp at h) (fun _ _ _ _ _ _ _ h => by simp at h)
      (fun _ _ _ _ _ _ _ _ _ _ _ _ _ _ _ _ h => by simp at h)
      (fun m hm template _ fits state hstate => ?_)
    rintro e ⟨⟩
    have replacement :=
      isReplacement_initial (hp.polynomial.modes m hm) (hp.consistent.modes m hm) hstate
    exact ⟨fits.isPolynomial_replaced replacement, fits.replaced_mem_affineSpan replacement
      (fun t ht => replacement.notMem_keys (named_places hp.polynomial hm) (named t ht))⟩
  have total (es : List (Expression Rat)) (hes : ∀ e ∈ es,
      e.IsPolynomial ∧ e.eval X ∈ affineSpan [] r.program.decisions) (e : Expression Rat)
      (he : e.IsPolynomial ∧ e.eval X ∈ affineSpan [] r.program.decisions) :
      (es.foldl (· + ·) e).IsPolynomial ∧
        (es.foldl (· + ·) e).eval X ∈ affineSpan [] r.program.decisions := by
    induction es generalizing e with
    | nil => exact he
    | cons f es ih =>
        have hf := hes f (by simp)
        refine ih (fun g hg => hes g (by simp [hg])) _
          ⟨Expression.isPolynomial_add he.1 hf.1, ?_⟩
        rw [Expression.eval_add]
        exact add_mem he.2 hf.2
  rw [hr.objective]
  refine total _ (fun e he => ?_) _ ⟨Expression.isPolynomial_zero, by simp⟩
  obtain ⟨step, hstep, h⟩ := List.mem_filterMap.mp he
  cases step <;> simp only [Option.some.injEq, reduceCtorEq] at h
  exact values _ hstep _ (by rw [h])

theorem exists_linearForm_objective : ∃ form, linearForm r.objective r.program.index = .ok form := by
  obtain ⟨polynomial, affine⟩ := objective_spec hp hr
  exact hr.regular.exists_linearForm polynomial affine

theorem boundOf_eq {values : List Rat} (hlength : values.length = r.program.size)
    {sol : Solution Rat} (hsol : sol.values = Solution.valuesOf r.program values) :
    ∃ b, Results.boundOf r sol = .ok b ∧ ∀ x : Symbol → ℝ,
      (b : ℝ) = r.objective.eval (decided (fun k => (values.getD k 0 : ℝ)) x) := by
  obtain ⟨polynomial, affine⟩ := objective_spec hp hr
  let σ : Symbol → ℚ := decided (fun k => values.getD k 0) (fun _ => 0)
  have number : evaluate r.objective (Solution.valuesOf r.program values) =
      .number (r.objective.eval σ) := by
    refine Expression.IsCanonical.eq_number (Expression.isCanonical_expand
      (Expression.isPolynomial_substitute polynomial
        (fun _ _ => isPolynomial_of_valueReplacements))) ?_
    have solved := eval_evaluate_decided hr.regular hlength polynomial affine (by simp)
      (X : Symbol → MvPolynomial Symbol ℚ)
    have constant : r.objective.eval (scopePoint [] σ : Symbol → MvPolynomial Symbol ℚ) =
        MvPolynomial.C (r.objective.eval σ) := Expression.eval_scopePoint_of_free σ (by simp)
    refine solved.trans (Eq.trans ?_ constant)
    rw [Expression.eval_eq_aeval, Expression.eval_eq_aeval (scopePoint [] σ)]
    refine aeval_congr_of_mem_affineSpan affine (by simp) (fun t ht => ?_)
    obtain ⟨k, hk⟩ := List.mem_iff_getElem?.mp ht
    obtain ⟨label, rfl⟩ := hr.regular.decisions k t hk
    rw [scopePoint_of_notMem (by simp)]
    rfl
  refine ⟨r.objective.eval σ, ?_, fun x => ?_⟩
  · rw [Results.boundOf, Solution.evaluate, hsol, number, machineValue_number]
  · rw [← eval_evaluate_values hr.regular hlength polynomial affine (by simp), number,
      Expression.eval_number]
    rfl

/-! ## Sums of initial values -/

omit hp in
theorem solvedAt_objective {A : Type} [CommRing A] [Algebra ℚ A] (φ : ℕ → A) :
    solvedAt φ r.objective = ((p.system.modes.zip r.templates).map (fun entry =>
      ((entry.1.initialState.map (initialValue p.system.time entry.1 entry.2)).toList.map
        (solvedAt φ)).sum)).sum := by
  have zero : solvedAt φ (Expression.zero : Expression Rat) = 0 := Expression.eval_zero _
  rw [hr.objective, solvedAt_foldl_add, zero, zero_add, assemblySteps, addedBy_flatMap,
    List.map_flatMap, List.flatMap_def, List.sum_flatten, List.map_map]
  simp only [addedBy_modeSteps]
  conv_rhs => rw [← List.zipIdx_map_fst 0 (p.system.modes.zip r.templates), List.map_map]
  rfl

/-- The objective only sees the decisions through the solved templates, whatever their order. -/
theorem solvedAt_objective_congr {A : Type} [CommRing A] [Algebra ℚ A] {φ ψ : ℕ → A}
    {p' : Problem Rat} {r' : Relaxation Rat} {cs' : List SquareProgram.Certificate}
    (hp' : p'.IsWellPosed) (hr' : p'.IsRelaxedBy r' cs') (htime : p'.system.time = p.system.time)
    {τ : Equiv.Perm ℕ} (hmodes : Rearranges τ (fun (m m' : Mode Rat) =>
      m'.states = m.states ∧ m'.initialState = m.initialState) p.system.modes p'.system.modes)
    (hsolved : AreSolvedAlike φ ψ τ r.templates r'.templates) :
    solvedAt ψ r'.objective = solvedAt φ r.objective := by
  rw [solvedAt_objective hr, solvedAt_objective hr']
  refine ((hmodes.zip hsolved).sum_map_eq ?_).symm
  rintro ⟨m, t⟩ hmem ⟨m', t'⟩ hmem' ⟨⟨states, initial⟩, solved⟩
  dsimp only at states initial solved ⊢
  have fits := List.forall₂_zip hr.templates hmem
  have fits' := List.forall₂_zip hr'.templates hmem'
  rw [initial]
  cases hstate : m.initialState with
  | none => simp
  | some state =>
      have value := solvedAt_initialValue φ hp.polynomial hp.consistent
        (fun _ h => hr.regular.isNamed_of_mem h) (List.of_mem_zip hmem).1 fits hstate
      have value' := solvedAt_initialValue ψ hp'.polynomial hp'.consistent
        (fun _ h => hr'.regular.isNamed_of_mem h) (List.of_mem_zip hmem').1 fits'
        (initial.trans hstate)
      simp only [Option.map_some, Option.toList_some, List.map_cons, List.map_nil,
        List.sum_singleton]
      rw [value, value', htime, states, solved]

theorem eval_initialValue (φ : ℕ → ℝ) {m : Mode Rat} (hm : m ∈ p.system.modes)
    {template : ValueTemplate Rat}
    (fits : template.Fits p.system.time p.degree.value r.program.decisions m) {state : List Rat}
    (hstate : m.initialState = some state) {x y : Symbol → ℝ} (htime : y p.system.time = 0)
    (hstates : m.states.map y = state.map (fun c : Rat => (c : ℝ))) :
    MvPolynomial.eval x (solvedAt φ (initialValue p.system.time m template state)) =
      MvPolynomial.eval y (solvedAt φ template.value) := by
  have replacement :=
    isReplacement_initial (hp.polynomial.modes m hm) (hp.consistent.modes m hm) hstate
  refine (aeval_solvedAt φ _ x).trans (Eq.trans ?_ (aeval_solvedAt φ _ y).symm)
  refine fits.eval_replaced_decided replacement (fun _ h => hr.regular.isNamed_of_mem h)
    (named_places hp.polynomial hm) (by simp) φ (fun pair hpair => ?_)
    (fun t ht hkey => absurd (replacement.kept t ht hkey) (by simp))
  rcases List.mem_cons.mp hpair with rfl | hpair
  · rw [htime, Expression.eval_zero]
  · obtain ⟨k, hk⟩ := List.mem_iff_getElem?.mp hpair
    obtain ⟨hplace, hvalue⟩ := List.getElem?_zip_eq_some.mp hk
    rw [List.getElem?_map] at hvalue
    obtain ⟨c, hc, hnumber⟩ := Option.map_eq_some_iff.mp hvalue
    have same := congrArg (fun l => l[k]?) hstates
    simp only [List.getElem?_map, hplace, hc, Option.map_some, Option.some.injEq] at same
    rw [same, ← hnumber, Expression.eval_number]
    rfl

theorem objective_eq_initialSum (φ : ℕ → ℝ) {w : ℕ → ℝ}
    (hw : ∀ (i : ℕ) (m : Mode Rat) (state : List Rat) (template : ValueTemplate Rat),
      p.system.modes[i]? = some m → m.initialState = some state →
        r.templates[i]? = some template → ∃ y : Symbol → ℝ, y p.system.time = 0 ∧
          m.states.map y = state.map (fun c : Rat => (c : ℝ)) ∧
            MvPolynomial.eval y (solvedAt φ template.value) = w i) (x : Symbol → ℝ) :
    MvPolynomial.eval x (solvedAt φ r.objective) = p.system.initialSum w := by
  have length := hr.templates.length_eq
  rw [solvedAt_objective hr, map_list_sum, List.map_map, SystemData.initialSum]
  congr 1
  refine List.ext_getElem (by simp [← length]) (fun i h h' => ?_)
  have bound : i < p.system.modes.length := by simpa using h'
  have hm := List.getElem?_eq_getElem bound
  obtain ⟨template, htemplate, fits⟩ := exists_right_at hr.templates hm
  obtain ⟨bound', rfl⟩ := List.getElem?_eq_some_iff.mp htemplate
  simp only [List.getElem_map, List.getElem_zipIdx, List.getElem_zip, zero_add,
    Function.comp_apply]
  cases hstate : p.system.modes[i].initialState with
  | none => simp
  | some state =>
      obtain ⟨y, htime, hstates, solved⟩ := hw i _ state _ hm hstate htemplate
      have initial := eval_initialValue hp hr φ (List.getElem_mem bound) fits hstate (x := x) htime
        hstates
      simp [initial, solved]

theorem objective_le_initialSum (point : FeasiblePoint r.program) {w : ℕ → ℝ}
    (hw : ∀ (i : ℕ) (m : Mode Rat) (state : List Rat), p.system.modes[i]? = some m →
      m.initialState = some state → ∃ y : Symbol → ℝ, y p.system.time = 0 ∧
        m.states.map y = state.map (fun c : Rat => (c : ℝ)) ∧
          MvPolynomial.eval y (point.valueFunction r.templates i) ≤ w i) (x : Symbol → ℝ) :
    MvPolynomial.eval x (point.solved r.objective) ≤ p.system.initialSum w := by
  have start (i : ℕ) : ∃ y : Symbol → ℝ, ∀ (m : Mode Rat) (state : List Rat),
      p.system.modes[i]? = some m → m.initialState = some state → y p.system.time = 0 ∧
        m.states.map y = state.map (fun c : Rat => (c : ℝ)) ∧
          MvPolynomial.eval y (point.valueFunction r.templates i) ≤ w i := by
    by_cases h : ∃ m state, p.system.modes[i]? = some m ∧ m.initialState = some state
    · obtain ⟨m, state, hm, hstate⟩ := h
      obtain ⟨y, hy⟩ := hw i m state hm hstate
      refine ⟨y, fun m' state' hm' hstate' => ?_⟩
      obtain rfl := Option.some.inj (hm.symm.trans hm')
      obtain rfl := Option.some.inj (hstate.symm.trans hstate')
      exact hy
    · exact ⟨fun _ => 0, fun m state hm hstate => absurd ⟨m, state, hm, hstate⟩ h⟩
  choose y hy using start
  have objective := objective_eq_initialSum hp hr point.values
    (w := fun i => MvPolynomial.eval (y i) (point.valueFunction r.templates i))
    (fun i m state template hm hstate htemplate => by
      obtain ⟨htime, hstates, -⟩ := hy i m state hm hstate
      exact ⟨y i, htime, hstates, by rw [point.valueFunction_of_getElem? htemplate]; rfl⟩) x
  rw [FeasiblePoint.solved, objective, SystemData.initialSum, SystemData.initialSum]
  refine List.sum_le_sum (fun entry hentry => ?_)
  have hm := List.mem_zipIdx_iff_getElem?.mp hentry
  cases hstate : entry.1.initialState with
  | none => simp [hstate]
  | some state => simpa [hstate] using (hy entry.2 entry.1 state hm hstate).2.2

end Problem

end HybridRelaxation
