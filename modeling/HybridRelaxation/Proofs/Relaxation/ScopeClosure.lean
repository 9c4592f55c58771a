import Mathlib
import HybridRelaxation.Proofs.Relaxation.Coupling

/-!
# Solved statements have numbers as coefficients

No symbols are left over in an assembled program.  At values for all decisions every statement, and
every polynomial that a record certifies, is a polynomial in its variables with numbers as
coefficients.  So the residuals of a relaxation can always be worked out, unless the given Gram
matrices are too few or have other sizes than their bases.
-/

namespace HybridRelaxation

open MvPolynomial (C X coeff)

/-! ## Failures -/

section

variable {K : Type} [Scalar K] {f : Failure}

theorem failure_of_exponentVector {scope : List Symbol} {powers : List (BasePower K)}
    (h : exponentVector scope powers = .error f) : ∃ names, f = .notPolynomial names := by
  induction powers with
  | nil => simp [exponentVector] at h
  | cons power powers ih =>
      obtain ⟨b, e⟩ := power
      rcases bind_eq_error.mp h with h | ⟨v, -, h⟩
      · exact ih h
      · split at h
        · split at h
          · simp at h
          · exact ⟨_, (Except.error.inj h).symm⟩
        · exact ⟨_, (Except.error.inj h).symm⟩

theorem failure_of_collectTerms {scope : List Symbol} {ts : List (K × Product K)}
    {m : CoefficientMap K} (h : collectTerms scope ts m = .error f) :
    ∃ names, f = .notPolynomial names := by
  induction ts generalizing m with
  | nil => simp [collectTerms] at h
  | cons t ts ih =>
      obtain ⟨c, p⟩ := t
      rw [collectTerms] at h
      split at h
      · exact ih h
      · rcases bind_eq_error.mp h with h | ⟨split, -, h⟩
        · rcases bind_eq_error.mp h with h | ⟨v, -, h⟩
          · exact failure_of_exponentVector h
          · simp at h
        · exact ih h

theorem failure_of_machineValue {e : Expression K} (h : e.machineValue = .error f) :
    f = .wrongType := by
  unfold Expression.machineValue at h
  split at h
  · split at h
    · exact (Except.error.inj h).symm
    · simp at h
  · split at h
    · split at h
      · simp at h
      · exact (Except.error.inj h).symm
    · exact (Except.error.inj h).symm

theorem failure_of_coefficientNorms {e : Expression K} {scope : List Symbol}
    (h : coefficientNorms e scope = .error f) :
    f = .wrongType ∨ ∃ names, f = .notPolynomial names := by
  rcases bind_eq_error.mp h with h | ⟨m, -, h⟩
  · rcases bind_eq_error.mp h with h | ⟨m, -, h⟩
    · exact .inr (failure_of_collectTerms h)
    · simp at h
  · rcases bind_eq_error.mp h with h | ⟨numbers, -, h⟩
    · obtain ⟨part, -, h⟩ := exists_of_mapM_eq_error h
      exact .inl (failure_of_machineValue h)
    · simp at h

theorem SquareSum.failure_of_gramForm {s : SquareSum K} {gram : Grid K}
    (h : s.gramForm gram = .error f) : f = .shapeMismatch ∨ f = .outOfRange := by
  unfold gramForm at h
  split at h
  · exact .inl (Except.error.inj h).symm
  · split at h
    · exact .inr (Except.error.inj h).symm
    · simp at h

theorem failure_of_approximations {p : SquareProgram K} {sol : Solution K}
    (h : approximations p sol = .error f) : f = .shapeMismatch ∨ f = .outOfRange := by
  obtain ⟨⟨s, gram⟩, -, h⟩ := exists_of_mapM_eq_error h
  exact SquareSum.failure_of_gramForm h

end

/-! ## Quadratic forms of any matrices -/

theorem SquareSum.isPolynomial_of_gramForm {s : SquareSum Rat}
    (natural : ∀ v ∈ s.basis, v.IsNatural s.scope.length) {gram : Grid Rat}
    {form : Expression Rat} (h : s.gramForm gram = .ok form) :
    form.IsPolynomial ∧ form.eval X ∈ scopePolynomials s.scope := by
  have monomials : ∀ z ∈ s.monomialBasis, z.IsPolynomial ∧
      (z.eval X : MvPolynomial Symbol ℚ) ∈ scopePolynomials s.scope := fun z hz => by
    obtain ⟨v, hv, rfl⟩ := List.mem_map.mp hz
    refine ⟨isPolynomial_monomial (natural v hv), ?_⟩
    rw [eval_monomial X (natural v hv)]
    exact monomialValue_mem (fun t ht => X_mem_scopePolynomials ht) v
  unfold gramForm at h
  split at h
  · simp at h
  split at h
  · simp at h
  obtain rfl := Except.ok.inj h
  have terms : ∀ e ∈ (List.zipWith (fun z row => quadraticRow z row s.monomialBasis)
      s.monomialBasis gram.rows).flatten, e.IsPolynomial ∧
        (e.eval X : MvPolynomial Symbol ℚ) ∈ scopePolynomials s.scope := fun e he => by
    obtain ⟨row, hrow, he⟩ := List.mem_flatten.mp he
    obtain ⟨i, hi, rfl⟩ := List.mem_iff_getElem.mp hrow
    rw [List.getElem_zipWith, quadraticRow] at he
    obtain ⟨j, hj, rfl⟩ := List.mem_iff_getElem.mp he
    rw [List.getElem_zipWith]
    rw [List.length_zipWith] at hi hj
    obtain ⟨z, zmem⟩ := monomials _ (List.getElem_mem (n := i) (by omega))
    obtain ⟨w, wmem⟩ := monomials _ (List.getElem_mem (n := j) (by omega))
    refine ⟨Expression.isPolynomial_scale (Expression.isPolynomial_mul z w), ?_⟩
    rw [Expression.eval_scale, Expression.eval_mul _ z w]
    exact mul_mem ((scopePolynomials s.scope).algebraMap_mem _) (mul_mem zmem wmem)
  have polynomial := Expression.isPolynomial_sum (fun e he => (terms e he).1)
  refine ⟨Expression.isPolynomial_expand polynomial, ?_⟩
  rw [Expression.eval_expand _ polynomial, Expression.eval_sum]
  exact list_sum_mem (fun q hq => by
    obtain ⟨e, he, rfl⟩ := List.mem_map.mp hq
    exact (terms e he).2)

/-! ## Solved polynomials -/

/-- Over the variables all coefficients of the expression are numbers. -/
def Expression.IsNumericOver (e : Expression Rat) (scope : List Symbol) : Prop :=
  ∃ m, coefficients e scope = .ok m ∧ ∀ t ∈ m, ∃ c, t.2 = .number c

theorem Expression.isNumericOver_of_mem {e : Expression Rat} (he : e.IsPolynomial)
    {scope : List Symbol} (hscope : scope.Nodup) (hmem : e.eval X ∈ scopePolynomials scope) :
    e.IsNumericOver scope := by
  obtain ⟨m, hm, regular, -⟩ := exists_coefficients.{0} he scope
  refine ⟨m, hm, fun t ht => ⟨coeff (monomialPowers scope t.1) (e.eval X), ?_⟩⟩
  rw [← CoefficientMap.coefficientAt_of_mem regular (v := t.1) (c := t.2) ht]
  exact eq_number_of_coefficients he hscope hmem hm (regular.vectors t ht)

section

variable {p : SquareProgram Rat} (hp : p.IsRegular) {values : List Rat}
  (hvalues : values.length = p.size) {sol : Solution Rat}
  (hsol : sol.values = Solution.valuesOf p values)

include hp hvalues hsol

theorem isNumericOver_evaluate {e : Expression Rat} (he : e.IsPolynomial) {scope : List Symbol}
    (hscope : scope.Nodup) (hnamed : ∀ t ∈ scope, t.isNamed = true)
    (haffine : e.eval X ∈ affineSpan scope p.decisions) :
    (sol.evaluate e).IsNumericOver scope := by
  obtain ⟨polynomial, -, member⟩ := evaluate_spec hp hvalues he haffine hnamed
  rw [← hsol] at polynomial member
  exact Expression.isNumericOver_of_mem polynomial hscope member

/-! ## Filling records -/

variable {forms : List (Expression Rat)} (hforms : approximations p sol = .ok forms)

include hforms

theorem failure_of_subresidualAt {k : ℕ} {s : SquareSum Rat} (hs : p.statements[k]? = some s)
    {eigenvalues : List Rat} {f : Failure}
    (h : subresidualAt ⟨solvedPolynomials p sol, forms, eigenvalues⟩ s.scope k = .error f) :
    f = .outOfRange := by
  cases hform : forms[k]? with
  | some form =>
      obtain ⟨t, gram, ht, -, result⟩ := exists_gramForm_at hforms hform
      obtain rfl := Option.some.inj (hs.symm.trans ht)
      obtain ⟨polynomial, member⟩ := SquareSum.isPolynomial_of_gramForm
        (hp.statements s (List.mem_of_getElem? hs)).natural result
      obtain ⟨size, found⟩ :=
        exists_subresidualAt_of_form hp hvalues hsol hs hform polynomial member eigenvalues
      simp [found] at h
  | none =>
      have entry : entryAt (solvedPolynomials p sol) k = .ok (sol.evaluate s.polynomial) := by
        rw [entryAt_eq_ok, solvedPolynomials, List.getElem?_map, hs]
        rfl
      have missing : entryAt forms k = .error .outOfRange := by
        rw [entryAt, entryAt?_natCast, hform]
      simp only [subresidualAt, entry, missing, ok_bind, error_bind] at h
      exact (Except.error.inj h).symm

theorem failure_of_fillRecord {degree : ℤ} {q : Inequality Rat} (hq : q.IsRegular p.decisions)
    {c : SquareProgram.Certificate} (hc : p.Secures degree q c)
    {before after : List (SquareSum Rat)}
    (hstatements : p.statements = before ++ c.statements ++ after) {offset : ℕ}
    {eigenvalues : List Rat} {f : Failure}
    (h : (fillRecord ⟨solvedPolynomials p sol, forms, eigenvalues⟩ sol before.length
      (Assembly.recordOf q degree offset)).2 = .error f) : f = .outOfRange := by
  have enough : ¬ (Assembly.recordOf q degree offset).multiplierCount < -1 := by
    have := Int.natCast_nonneg q.constraints.length
    change ¬ (q.constraints.length : ℤ) < -1
    omega
  simp only [fillRecord, withResidual_recordOf hp hvalues hsol hc hstatements offset hq,
    withSubresiduals, if_neg enough] at h
  cases hsizes : (positionsFrom before.length (Assembly.recordOf q degree offset)).mapM
      (subresidualAt ⟨solvedPolynomials p sol, forms, eigenvalues⟩
        (Assembly.recordOf q degree offset).scope) with
  | ok sizes => simp [hsizes] at h
  | error f' =>
      obtain rfl : f' = f := by simpa [hsizes] using h
      obtain ⟨position, hposition, failed⟩ := exists_of_mapM_eq_error hsizes
      obtain ⟨k, s, rfl, found, scope⟩ :=
        statement_of_mem_positionsFrom hc hstatements offset hposition
      rw [show (Assembly.recordOf q degree offset).scope = s.scope from scope.symm] at failed
      exact failure_of_subresidualAt hp hvalues hsol hforms found failed

end

theorem exists_of_fillRecords_eq_error {solved : SolvedStatements Rat} {sol : Solution Rat}
    {start : ℤ} {records : List (ConstraintRecord Rat)} {f : Failure}
    (h : (fillRecords solved sol start records).2 = .error f) :
    ∃ i c, records[i]? = some c ∧
      (fillRecord solved sol (start + recordStart records i) c).2 = .error f := by
  induction records generalizing start with
  | nil => simp [fillRecords] at h
  | cons first records ih =>
      rcases fillRecords_cons_eq_error.mp h with failed | ⟨first', -, hothers⟩
      · exact ⟨0, first, rfl, by simpa [recordStart] using failed⟩
      · obtain ⟨i, c, hc, failed⟩ := ih hothers
        refine ⟨i + 1, c, by simpa using hc, ?_⟩
        rwa [recordStart_cons_succ, ← add_assoc, ← add_assoc]

/-! ## Built relaxations -/

namespace Problem

variable {p : Problem Rat} {r : Relaxation Rat} (hp : p.IsWellPosed) (h : p.build = .ok r)
  {values : List Rat} (hvalues : values.length = r.program.size) {sol : Solution Rat}
  (hsol : sol.values = Solution.valuesOf r.program values)

include hp h hvalues hsol

theorem failure_of_computeResiduals {eigenvalues : List Rat} {f : Failure}
    (hf : (computeResiduals r.records r.program sol eigenvalues).2 = .error f) :
    f = .shapeMismatch ∨ f = .outOfRange := by
  cases hforms : approximations r.program sol with
  | error f' =>
      obtain rfl : f' = f := by simpa [computeResiduals, residualsFrom, hforms] using hf
      exact failure_of_approximations hforms
  | ok forms =>
      obtain ⟨cs, relaxed⟩ := isRelaxedBy_of_build hp h
      simp only [computeResiduals, residualsFrom, hforms] at hf
      obtain ⟨i, c, hc, failed⟩ := exists_of_fillRecords_eq_error hf
      obtain ⟨q, d, before, after, rfl, hq, secured, parts, start⟩ := exists_certificate_at hp h hc
      rw [zero_add, start] at failed
      exact .inr (failure_of_fillRecord relaxed.regular hvalues hsol hforms hq secured parts failed)

end Problem

/--
The assembled program is closed, whatever symbols its modes share.  Its decisions come in blocks:
the coefficients of the values, and one block for each multiplier.  Every statement is a polynomial in
its variables whose coefficients are affine in decisions; a multiplier mentions its own block, and
the base of a record the blocks of its multipliers and the coefficients of the values that it
compares.  So at all values for the decisions every statement and every certified polynomial has
numbers as coefficients.  Residuals are computed for all Gram matrices of the right sizes, and if
they are not computed for others, then it is not for a coefficient or a number that is not found.
-/
theorem isCoupled_of_build {s : HybridSystem Rat} {degree : Datum} {settings : Settings}
    {p : Problem Rat} {r : Relaxation Rat} (hs : s.IsPolynomial)
    (hpose : Problem.pose s degree settings = .ok p) (hbuild : p.build = .ok r) :
    (∃ blocks, r.IsCoupled blocks) ∧
      ∀ (values : List Rat) (sol : Solution Rat), values.length = r.program.size →
        sol.values = Solution.valuesOf r.program values →
        (∀ t ∈ r.program.statements, (sol.evaluate t.polynomial).IsNumericOver t.scope) ∧
        (∀ c ∈ r.records, (sol.evaluate c.polynomial).IsNumericOver c.scope) ∧
        ∀ eigenvalues : List Rat,
          (List.Forall₂ SquareSum.FitsGram r.program.statements sol.grams →
            ∃ filled, computeResiduals r.records r.program sol eigenvalues = (filled, .ok ())) ∧
          ∀ f, (computeResiduals r.records r.program sol eigenvalues).2 = .error f →
            ∀ (e : Expression Rat) (scope : List Symbol), coefficientNorms e scope ≠ .error f := by
  obtain ⟨wellPosed, -⟩ := Problem.isWellPosed_of_pose hs hpose
  obtain ⟨cs, relaxed⟩ := Problem.isRelaxedBy_of_build wellPosed hbuild
  refine ⟨Problem.exists_isCoupled wellPosed hbuild, fun values sol hvalues hsol =>
    ⟨fun t ht => ?_, fun c hc => ?_, fun eigenvalues =>
      ⟨fun hgrams => ?_, fun f hf e scope he => ?_⟩⟩⟩
  · have regular := relaxed.regular.statements t ht
    exact isNumericOver_evaluate relaxed.regular hvalues hsol regular.polynomial regular.distinct
      (relaxed.regular.named t ht) (relaxed.regular.affine t ht)
  · obtain ⟨i, hi⟩ := List.mem_iff_getElem?.mp hc
    obtain ⟨q, d, before, after, rfl, hq, -⟩ := Problem.exists_certificate_at wellPosed hbuild hi
    exact isNumericOver_evaluate relaxed.regular hvalues hsol hq.polynomial hq.distinct hq.named
      hq.affine
  · obtain ⟨forms, filled, hforms, hfilled, -⟩ :=
      Problem.exists_fillRecords_of_build hs hpose hbuild hvalues hsol hgrams eigenvalues
    exact ⟨filled, by rw [computeResiduals, hforms]; exact hfilled⟩
  · rcases Problem.failure_of_computeResiduals wellPosed hbuild hvalues hsol hf with rfl | rfl <;>
      rcases failure_of_coefficientNorms he with h | ⟨names, h⟩ <;> simp at h

theorem isCoupled_of_build_parkingSystem : ∃ p r,
    Problem.pose parkingSystem (.integer 2) Settings.defaults = .ok p ∧ p.build = .ok r ∧
      (∃ blocks, r.IsCoupled blocks) ∧ ∃ sol filled, sol.values =
          Solution.valuesOf r.program (List.replicate r.program.size (1 : Rat)) ∧
        (∀ t ∈ r.program.statements, (sol.evaluate t.polynomial).IsNumericOver t.scope) ∧
        computeResiduals r.records r.program sol [] = (filled, .ok ()) := by
  obtain ⟨p, r, posed, built, -⟩ := exists_relaxation_parkingSystem (n := 2) (by decide)
  obtain ⟨coupled, solved⟩ := isCoupled_of_build isPolynomial_parkingSystem posed built
  obtain ⟨numeric, -, computes⟩ := solved _ r.program.unitSolution List.length_replicate rfl
  obtain ⟨filled, computed⟩ := (computes []).1 r.program.fitsGram_unitSolution
  exact ⟨p, r, posed, built, coupled, r.program.unitSolution, filled, rfl, numeric, computed⟩

end HybridRelaxation
