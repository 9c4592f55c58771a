import Mathlib
import HybridRelaxation.Conic.ConicProblem
import HybridRelaxation.Expression.Arithmetic
import HybridRelaxation.Proofs.Relaxation.Objective
import HybridRelaxation.Proofs.Relaxation.Residuals
import HybridRelaxation.Results.Basic

/-!
# Translation to conic problems

Every accepted system of polynomials is translated to a conic problem: its relaxation is built, all
statements have matching equations, and the objective has a linear form.  The numbers of the
polynomials matter here.  A constant that is no number, as the root of two is, may be the
coefficient of a decision, but a constant term of this kind is refused, although it was accepted in
the data.
-/

namespace HybridRelaxation

open MvPolynomial (C X)

/-! ## From a program to results -/

section

variable {K : Type} [Scalar K] {p : SquareProgram K} {c : ConicProblem K} {sol : Solution K}

theorem ConicProblem.ofProgram_eq_ok {e : Expression K} :
    ofProgram p e = .ok c ↔ p.size ≠ 0 ∧ ∃ matchings form,
      p.statements.mapM (fun s => s.matching p.index p.size) = .ok matchings ∧
        linearForm e p.index = .ok form ∧
        ⟨p.size, p.statements.map SquareSum.gramSize, matchings, form⟩ = c := by
  unfold ofProgram
  split
  · next hsize => simp [hsize]
  · next hsize => simp [hsize, bind_eq_ok]

theorem ConicProblem.solution_eq_ok {numbers : Prescription K} :
    c.solution p (.finished numbers) = .ok sol ↔ numbers.status ∈ successStatuses ∧
      ∃ free, numbers.freeValues c.columns = .ok free ∧
        numbers.solution p c.matchings (c.objective.value free) = .ok sol := by
  simp only [ConicProblem.solution]
  split
  · next hstatus => simp [hstatus, bind_eq_ok]
  · next hstatus => simp [hstatus]

theorem Prescription.solution_eq_ok {numbers : Prescription K} {matchings : List (Matching K)}
    {value : K} : numbers.solution p matchings value = .ok sol ↔ ∃ free grams duals,
      numbers.freeValues p.size = .ok free ∧
        numbers.grams (p.statements.map SquareSum.gramSize) = .ok grams ∧
        matchings.zipIdx.mapM (fun entry => numbers.duals entry.2 entry.1.rows.length) =
          .ok duals ∧
        { status := numbers.status
          value := value
          free := free
          grams := grams
          duals := duals
          dualBasis := List.zipWith Solution.dualMonomials p.statements matchings
          values := Solution.valuesOf p free } = sol := by
  simp only [Prescription.solution, bind_eq_ok, Except.ok.injEq]
  constructor
  · rintro ⟨free, hfree, grams, hgrams, duals, hduals, rfl⟩
    exact ⟨free, grams, duals, hfree, hgrams, hduals, rfl⟩
  · rintro ⟨free, grams, duals, hfree, hgrams, hduals, rfl⟩
    exact ⟨free, hfree, grams, hgrams, duals, hduals, rfl⟩

theorem Results.ofSolution_inversion {problem : Problem K} {r : Relaxation K} {seconds : K}
    {results : Results K} (h : ofSolution problem r sol seconds = .ok results) :
    boundOf r sol = .ok results.bound ∧
      results.valueFunctions = r.templates.map (fun template => sol.evaluate template.value) ∧
      results.synthesis = if problem.settings.withInputs then
        some (SynthesisData.ofSolution problem r sol) else none := by
  obtain ⟨eigenvalues, -, h⟩ := bind_eq_ok.mp h
  obtain ⟨-, -, h⟩ := bind_eq_ok.mp h
  obtain ⟨bound, hbound, h⟩ := bind_eq_ok.mp h
  obtain rfl := Except.ok.inj h
  exact ⟨hbound, rfl, rfl⟩

end

/-! ## Constants that are no numbers -/

section

variable {K : Type} [Scalar K] {index : Symbol → Option ℤ}

/-- One of the terms has no symbols and is no number. -/
def Expression.HasOpaqueTerm (e : Expression K) : Prop :=
  ∃ t ∈ e.expand.terms, t.2 ≠ .one ∧ t.2.symbols = []

instance (e : Expression K) : Decidable e.HasOpaqueTerm := by
  unfold Expression.HasOpaqueTerm
  infer_instance

theorem addLinearTerm_of_symbols_eq_nil {form : LinearForm K} {c : K} {p : Product K}
    (hone : p ≠ .one) (hp : p.symbols = []) : addLinearTerm index form c p = .error .notAffine := by
  cases p with
  | one => exact absurd rfl hone
  | times b e p => simp only [addLinearTerm, hp, List.eraseDups_nil]

theorem linearForm_of_hasOpaqueTerm {e : Expression K} (h : e.HasOpaqueTerm) :
    ∃ f, linearForm e index = .error f := by
  have all : ∀ (ts : List (K × Product K)) (form : LinearForm K),
      (∃ t ∈ ts, t.2 ≠ .one ∧ t.2.symbols = []) →
        ∃ f, ts.foldlM (fun form t => addLinearTerm index form t.1 t.2) form = .error f := by
    intro ts
    induction ts with
    | nil => simp
    | cons t ts ih =>
        obtain ⟨c, p⟩ := t
        rintro form ⟨u, hu, hone, hsymbols⟩
        rw [List.foldlM_cons]
        -- The fold stops at this term or before it.
        rcases List.mem_cons.mp hu with rfl | hu
        · simp only [addLinearTerm_of_symbols_eq_nil hone hsymbols, error_bind]
          exact ⟨_, rfl⟩
        · cases hnext : addLinearTerm index form c p with
          | error f => exact ⟨f, by simp only [error_bind]⟩
          | ok next =>
              simp only [ok_bind]
              exact ih next ⟨u, hu, hone, hsymbols⟩
  exact all _ _ h

theorem SquareSum.matching_of_hasOpaqueTerm {s : SquareSum K} {v : Exponents} {c : Expression K}
    (hc : s.coefficientOf v = some c) (h : c.HasOpaqueTerm) (columns : ℤ) :
    ∃ f, s.matching index columns = .error f := by
  have listed : v ∈ s.matchedExponents := by
    obtain ⟨entry, hentry, -⟩ := Option.map_eq_some_iff.mp hc
    have heq : entry.1 = v := by simpa using List.find?_some hentry
    exact mem_matchedExponents.mpr (.inl (heq ▸ List.mem_map_of_mem
      (List.mem_of_find?_eq_some hentry)))
  have row : ∃ f, s.matchingRow index v = .error f := by
    obtain ⟨f, hf⟩ : ∃ f, linearForm c index = .error f := linearForm_of_hasOpaqueTerm h
    exact ⟨f, by rw [matchingRow, hc]; simp only [hf, error_bind]⟩
  obtain ⟨f, hf⟩ := exists_mapM_eq_error listed row
  exact ⟨f, by rw [matching, hf]; rfl⟩

theorem ConicProblem.ofProgram_of_hasOpaqueTerm {p : SquareProgram K} {s : SquareSum K}
    (hs : s ∈ p.statements) {v : Exponents} {c : Expression K} (hc : s.coefficientOf v = some c)
    (h : c.HasOpaqueTerm) (objective : Expression K) :
    ∃ f, ConicProblem.ofProgram p objective = .error f := by
  obtain ⟨f, hf⟩ := exists_mapM_eq_error (f := fun t => t.matching p.index p.size) hs
    (SquareSum.matching_of_hasOpaqueTerm hc h p.size)
  rw [ConicProblem.ofProgram]
  split
  · exact ⟨_, rfl⟩
  · exact ⟨f, by rw [hf]; rfl⟩

end

/-! ## Systems of polynomials -/

theorem RelaxationDegree.pos_of_ofDatum {d : Datum} {degree : RelaxationDegree}
    (h : RelaxationDegree.ofDatum d = .ok degree) : 0 < degree.value := by
  unfold RelaxationDegree.ofDatum at h
  split at h
  · next n =>
      split at h
      · next hn =>
          obtain rfl := Except.ok.inj h
          exact hn.trans_le (le_ofPositive n)
      · simp at h
  · simp at h

namespace Problem

variable {p : Problem Rat} {r : Relaxation Rat} {cs : List SquareProgram.Certificate}
  (hp : p.IsWellPosed) (hr : p.IsRelaxedBy r cs)

include hp hr

/-- A relaxation has decisions: its templates can be other polynomials than zero. -/
theorem size_ne_zero (hdegree : 0 ≤ p.degree.value) : r.program.size ≠ 0 := by
  intro hzero
  -- Without decisions all templates are zero, but they can be the constant one.
  have none : r.program.decisions = [] := List.length_eq_zero_iff.mp hzero
  let constant (m : Mode Rat) : MvPolynomial Symbol ℚ := MvPolynomial.monomial
    (monomialPowers (p.system.time :: m.states)
      (List.replicate (p.system.time :: m.states).length 0)) 1
  obtain ⟨ψ, solved, -⟩ := hr.assigns (p.system.modes.map constant) _
    (List.forall₂_map_right_iff.mpr (List.forall₂_same.mpr (fun m _ =>
      isOfDegree_monomial (Exponents.replicate_mem_exponents _ hdegree) 1)))
    (areShares_zero p.degree.value _)
  obtain ⟨m, hm⟩ := List.exists_mem_of_ne_nil _ hp.consistent.nonempty
  obtain ⟨template, htemplate, hvalue⟩ :=
    exists_left_of_mem solved (List.mem_map_of_mem (f := constant) hm)
  obtain ⟨m', -, fits⟩ := exists_left_of_mem hr.templates htemplate
  have free : template.decisions = [] :=
    List.eq_nil_iff_forall_not_mem.mpr (fun s hs => by simpa [none] using fits.known s hs)
  have vanishes : solvedAt ψ template.value = 0 := by
    rw [solvedAt, fits.eval, free]
    simp
  rw [vanishes] at hvalue
  exact one_ne_zero (MvPolynomial.monomial_eq_zero.mp hvalue.symm)

theorem exists_conicProblem (hdegree : 0 ≤ p.degree.value) :
    ∃ c, ConicProblem.ofProgram r.program (-r.objective) = .ok c := by
  obtain ⟨polynomial, affine⟩ := objective_spec hp hr
  have negated : (-r.objective).eval X ∈ affineSpan [] r.program.decisions := by
    rw [Expression.eval_neg]
    exact neg_mem affine
  obtain ⟨form, hform⟩ :=
    hr.regular.exists_linearForm (Expression.isPolynomial_neg polynomial) negated
  obtain ⟨matchings, hmatchings⟩ := exists_mapM_eq_ok
    (f := fun t : SquareSum Rat => t.matching r.program.index r.program.size)
    (fun t ht => hr.regular.exists_matching ht)
  exact ⟨_, ConicProblem.ofProgram_eq_ok.mpr
    ⟨size_ne_zero hp hr hdegree, matchings, form, hmatchings, hform, rfl⟩⟩

end Problem

/-! ## Accepted systems -/

/--
An accepted system of polynomials is translated: its relaxation is built, each statement has matching
equations, the objective has a linear form, and the conic problem is found.  For other accepted
systems, a constant term that is no number always stops the translation.  A drift is stated as a
list of expressions, so that it is one column.
-/
theorem exists_translation {s : HybridSystem Rat} {degree : Datum} {settings : Settings}
    {p : Problem Rat} (hpose : Problem.pose s degree settings = .ok p) :
    (s.IsPolynomial → (∀ m ∈ s.modes, m.drift.width = 1) → ∃ r, p.build = .ok r ∧
      (∀ t ∈ r.program.statements, ∃ m, t.matching r.program.index r.program.size = .ok m) ∧
      (∃ form, linearForm r.objective r.program.index = .ok form) ∧
      ∃ c, ConicProblem.ofProgram r.program (-r.objective) = .ok c) ∧
    ∀ r, p.build = .ok r → ∀ t ∈ r.program.statements, ∀ v c, t.coefficientOf v = some c →
      c.HasOpaqueTerm → (∃ f, t.matching r.program.index r.program.size = .error f) ∧
        ∃ f, ConicProblem.ofProgram r.program (-r.objective) = .error f := by
  refine ⟨fun hs hwidth => ?_, fun r _ t ht v c hc h =>
    ⟨SquareSum.matching_of_hasOpaqueTerm hc h r.program.size,
      ConicProblem.ofProgram_of_hasOpaqueTerm ht hc h (-r.objective)⟩⟩
  obtain ⟨wellPosed, rfl, hdegree⟩ := Problem.isWellPosed_of_pose hs hpose
  obtain ⟨r, cs, built, relaxed⟩ := Problem.exists_build wellPosed hwidth
  exact ⟨r, built, fun t ht => relaxed.regular.exists_matching ht,
    Problem.exists_linearForm_objective wellPosed relaxed,
    Problem.exists_conicProblem wellPosed relaxed (RelaxationDegree.pos_of_ofDatum hdegree).le⟩

def rootSystem : HybridSystem Rat :=
  ⟨.named "t", [{ parkedMode with
    domain := []
    targetSet := []
    runningCost := Expression.sqrt (.number 2)
    terminalCost := .zero }], []⟩

/-- The parking system is translated; the root of two as a cost is accepted but not translated. -/
theorem exists_translation_parkingSystem :
    (∃ p r, Problem.pose parkingSystem (.integer 2) Settings.defaults = .ok p ∧ p.build = .ok r ∧
      ∃ c, ConicProblem.ofProgram r.program (-r.objective) = .ok c) ∧
    ∃ p r, Problem.pose rootSystem (.integer 2) Settings.defaults = .ok p ∧ p.build = .ok r ∧
      ∃ f, ConicProblem.ofProgram r.program (-r.objective) = .error f := by
  constructor
  · obtain ⟨p, r, posed, built, -⟩ := exists_relaxation_parkingSystem (n := 2) (by decide)
    obtain ⟨r', built', -, -, c, hc⟩ := (exists_translation posed).1 isPolynomial_parkingSystem
      width_drift_parkingSystem
    exact ⟨p, r', posed, built', c, hc⟩
  · -- The root is a term of the constant coefficient in the base of the flow constraint.
    have checked : (do
        let p ← Problem.pose rootSystem (.integer 2) Settings.defaults
        let r ← p.build
        Except.ok (r.program.statements.any (fun (t : SquareSum Rat) =>
          (t.coefficientOf [0, 0]).any (fun (c : Expression Rat) =>
            decide c.HasOpaqueTerm)))).toOption = some true := by
      decide +kernel
    cases posed : Problem.pose rootSystem (.integer 2) Settings.defaults with
    | error f => simp [posed, Except.toOption] at checked
    | ok p =>
        cases built : p.build with
        | error f => simp [posed, built, Except.toOption] at checked
        | ok r =>
            simp only [posed, built, ok_bind, Except.toOption, Option.some.injEq,
              List.any_eq_true, Option.any_eq_true, decide_eq_true_eq] at checked
            obtain ⟨t, ht, c, hc, h⟩ := checked
            exact ⟨p, r, rfl, built, ((exists_translation posed).2 r built t ht [0, 0] c hc h).2⟩

end HybridRelaxation
