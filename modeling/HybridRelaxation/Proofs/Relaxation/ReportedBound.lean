import Mathlib
import HybridRelaxation.Proofs.Certificate.Subresidual
import HybridRelaxation.Proofs.Relaxation.Translation

/-!
# The reported bound

The bound is calculated in three ways: as the linear objective that the backend minimizes, up to the
sign; as the objective at the solved values; and as the sum of the solved value functions at time
zero and the initial states.  Over exact numbers all three agree at every vector of free values.
-/

namespace HybridRelaxation

/-! ## The minimized objective -/

theorem LinearForm.value_eq_eval (form : LinearForm Rat) (free : List Rat) :
    form.value free = form.eval (fun j => free.getD j.toNat 0) := by
  have row : inner form.row free = form.row.map (fun entry => entry.2 * free.getD entry.1.toNat 0) :=
    List.map_congr_left (fun entry _ => by rw [List.getD_eq_getElem?_getD])
  rw [LinearForm.value, Matching.machineSum_rat, List.sum_append, List.sum_singleton, row, LinearForm.eval,
    add_comm]
  rfl

theorem ConicProblem.ofProgram_inversion {p : SquareProgram Rat} {e : Expression Rat}
    {c : ConicProblem Rat} (h : ofProgram p e = .ok c) :
    c.columns = p.size ∧ linearForm e p.index = .ok c.objective := by
  obtain ⟨-, matchings, form, -, hform, rfl⟩ := ofProgram_eq_ok.mp h
  exact ⟨rfl, hform⟩

theorem ConicProblem.solution_inversion {c : ConicProblem Rat} {p : SquareProgram Rat}
    (hcolumns : c.columns = p.size) {numbers : Prescription Rat} {sol : Solution Rat}
    (h : c.solution p (.finished numbers) = .ok sol) : ∃ free : List Rat, free.length = p.size ∧
      sol.values = Solution.valuesOf p free ∧ sol.value = c.objective.value free := by
  obtain ⟨-, free, hfree, h⟩ := solution_eq_ok.mp h
  obtain ⟨free', grams, duals, hfree', -, -, rfl⟩ := Prescription.solution_eq_ok.mp h
  -- The free values are read twice, with the same count.
  obtain rfl := Except.ok.inj ((hcolumns ▸ hfree).symm.trans hfree')
  have length := (mapM_eq_ok.mp hfree').length_eq
  exact ⟨free, by simpa using length.symm, rfl, rfl⟩

/-! ## Initial points -/

/-- Each mode with an initial state has a point at time zero and that state. -/
def SystemData.AreInitial (s : HybridSystem Rat) (x : ℕ → Symbol → ℝ) : Prop :=
  ∀ (i : ℕ) (m : Mode Rat) (state : List Rat), s.modes[i]? = some m →
    m.initialState = some state →
      x i s.time = 0 ∧ m.states.map (x i) = state.map (fun c : Rat => (c : ℝ))

def Relaxation.valueFunctions (r : Relaxation Rat) (sol : Solution Rat) : List (Expression Rat) :=
  r.templates.map (fun template => sol.evaluate template.value)

namespace Problem

variable {p : Problem Rat} {r : Relaxation Rat} {cs : List SquareProgram.Certificate}
  (hp : p.IsWellPosed) (hr : p.IsRelaxedBy r cs) {free : List Rat}
  (hfree : free.length = r.program.size) {sol : Solution Rat}
  (hsol : sol.values = Solution.valuesOf r.program free)

include hp hr hfree hsol

theorem objectiveValue_eq_neg {form : LinearForm Rat}
    (hform : linearForm (-r.objective) r.program.index = .ok form) {b : Rat}
    (hb : Results.boundOf r sol = .ok b) : form.value free = -b := by
  obtain ⟨b', hb', value⟩ := boundOf_eq hp hr hfree hsol
  obtain rfl := Except.ok.inj (hb'.symm.trans hb)
  obtain ⟨polynomial, -⟩ := objective_spec hp hr
  have read : form.eval (fun j => ((free.getD j.toNat 0 : ℚ) : ℝ)) =
      (-r.objective).eval (decided (fun k => ((free.getD k 0 : ℚ) : ℝ)) (fun _ => 0)) := by
    refine eval_of_linearForm (Expression.isPolynomial_neg polynomial) hform (fun t j hj => ?_)
    obtain ⟨i, label, rfl, rfl, -⟩ := SquareProgram.index_eq_some hj
    rfl
  have cast : form.eval (fun j => ((free.getD j.toNat 0 : ℚ) : ℝ)) =
      ((form.eval (fun j => free.getD j.toNat 0) : ℚ) : ℝ) := by
    simp only [LinearForm.eval, rowValue, Rat.cast_add, Rat.cast_list_sum, List.map_map]
    congr 2
    exact List.map_congr_left (fun entry _ => (Rat.cast_mul _ _).symm)
  rw [cast, Expression.eval_neg, ← value, ← LinearForm.value_eq_eval] at read
  exact_mod_cast read

theorem boundOf_eq_initialSum {b : Rat} (hb : Results.boundOf r sol = .ok b)
    {x : ℕ → Symbol → ℝ} (hx : p.system.AreInitial x) :
    (b : ℝ) = p.system.initialSum (fun i => ((r.valueFunctions sol).getD i .zero).eval (x i)) := by
  obtain ⟨b', hb', value⟩ := boundOf_eq hp hr hfree hsol
  obtain rfl := Except.ok.inj (hb'.symm.trans hb)
  have solved := aeval_solvedAt (fun k => ((free.getD k 0 : ℚ) : ℝ)) r.objective
    (fun _ => (0 : ℝ))
  refine (value (fun _ => 0)).trans (solved.symm.trans ?_)
  refine objective_eq_initialSum hp hr _ (fun i m state template hm hstate htemplate => ?_) _
  obtain ⟨htime, hstates⟩ := hx i m state hm hstate
  refine ⟨x i, htime, hstates, ?_⟩
  have fits := related_at hr.templates hm htemplate
  have affine : template.value.eval MvPolynomial.X ∈
      affineSpan (p.system.time :: m.states) r.program.decisions :=
    fits.mem_affineSpan (fun _ _ => rfl) (fun t ht => X_mem_scopePolynomials ht)
  have evaluated := eval_evaluate_values hr.regular hfree fits.isPolynomial affine
    (named_places hp.polynomial (List.mem_of_getElem? hm)) (x i)
  rw [List.getD_eq_getElem?_getD, Relaxation.valueFunctions, List.getElem?_map, htemplate,
    Option.map_some, Option.getD_some, Solution.evaluate, hsol, evaluated]
  exact aeval_solvedAt _ _ _

end Problem

/-! ## Agreement -/

/--
The three bounds agree.  The relaxation of an accepted system is translated to a conic problem, and
at every vector of free values there is a number that is the reported bound and the sum of the value
functions at the initial points, while the minimized objective is its negative.  The results of a
solve hold that number and these value functions, and a backend reports the negative as its value.
-/
theorem exists_conicProblem_bound {s : HybridSystem Rat} {degree : Datum} {settings : Settings}
    {p : Problem Rat} {r : Relaxation Rat} (hs : s.IsPolynomial)
    (hpose : Problem.pose s degree settings = .ok p) (hbuild : p.build = .ok r) :
    ∃ c, ConicProblem.ofProgram r.program (-r.objective) = .ok c ∧
      (∀ (free : List Rat) (sol : Solution Rat), free.length = r.program.size →
        sol.values = Solution.valuesOf r.program free →
          ∃ b, Results.boundOf r sol = .ok b ∧ c.objective.value free = -b ∧
            (∀ x, s.AreInitial x → (b : ℝ) =
              s.initialSum (fun i => ((r.valueFunctions sol).getD i .zero).eval (x i))) ∧
            ∀ seconds results, Results.ofSolution p r sol seconds = .ok results →
              results.bound = b ∧ results.valueFunctions = r.valueFunctions sol) ∧
      ∀ (numbers : Prescription Rat) (sol : Solution Rat),
        c.solution r.program (.finished numbers) = .ok sol →
          Results.boundOf r sol = .ok (-sol.value) := by
  obtain ⟨wellPosed, rfl, hdegree⟩ := Problem.isWellPosed_of_pose hs hpose
  obtain ⟨cs, relaxed⟩ := Problem.isRelaxedBy_of_build wellPosed hbuild
  obtain ⟨c, hc⟩ := Problem.exists_conicProblem wellPosed relaxed
    (RelaxationDegree.pos_of_ofDatum hdegree).le
  obtain ⟨columns, form⟩ := ConicProblem.ofProgram_inversion hc
  refine ⟨c, hc, fun free sol hfree hsol => ?_, fun numbers sol hreport => ?_⟩
  · obtain ⟨b, hb, -⟩ := Problem.boundOf_eq wellPosed relaxed hfree hsol
    refine ⟨b, hb, Problem.objectiveValue_eq_neg wellPosed relaxed hfree hsol form hb,
      fun x hx => Problem.boundOf_eq_initialSum wellPosed relaxed hfree hsol hb hx,
      fun seconds results hresults => ?_⟩
    obtain ⟨bound, valueFunctions, -⟩ := Results.ofSolution_inversion hresults
    exact ⟨Except.ok.inj (bound.symm.trans hb), valueFunctions⟩
  · obtain ⟨free, hfree, hsol, value⟩ := ConicProblem.solution_inversion columns hreport
    obtain ⟨b, hb, -⟩ := Problem.boundOf_eq wellPosed relaxed hfree hsol
    rw [value, Problem.objectiveValue_eq_neg wellPosed relaxed hfree hsol form hb, neg_neg, hb]

theorem exists_conicProblem_bound_parkingSystem : ∃ p r c,
    Problem.pose parkingSystem (.integer 2) Settings.defaults = .ok p ∧ p.build = .ok r ∧
      ConicProblem.ofProgram r.program (-r.objective) = .ok c ∧
      ∀ sol : Solution Rat,
        sol.values = Solution.valuesOf r.program (List.replicate r.program.size 1) →
          ∃ b : Rat, c.objective.value (List.replicate r.program.size 1) = -b ∧
            (b : ℝ) = parkingSystem.initialSum (fun i =>
              ((r.valueFunctions sol).getD i .zero).eval (fun _ => 0)) := by
  obtain ⟨p, r, posed, built, -⟩ := exists_relaxation_parkingSystem (n := 2) (by decide)
  obtain ⟨c, hc, agree, -⟩ := exists_conicProblem_bound isPolynomial_parkingSystem posed built
  refine ⟨p, r, c, posed, built, hc, fun sol hsol => ?_⟩
  obtain ⟨b, -, minimized, sum, -⟩ := agree _ sol (List.length_replicate ..) hsol
  refine ⟨b, minimized, sum (fun _ _ => 0) (fun i m state hm hstate => ?_)⟩
  obtain ⟨-, rfl, rfl⟩ := eq_of_initialState_parkingSystem hm hstate
  simp [drivingMode]

end HybridRelaxation
