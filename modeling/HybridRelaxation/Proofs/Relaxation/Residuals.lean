import Mathlib
import HybridRelaxation.Proofs.Certificate.Subresidual
import HybridRelaxation.Proofs.Relaxation.Layout
import HybridRelaxation.Proofs.Relaxation.Soundness
import HybridRelaxation.Proofs.SquareSum.Completeness

/-!
# Residuals of built relaxations

The records of a built relaxation say how its statements add up, and the residuals are computed from
what the records say.  In exact arithmetic nothing is left: at all values of the decisions the
evaluated base and multipliers add up to the evaluated polynomial.  The Gram matrices do not matter.
-/

namespace HybridRelaxation

open MvPolynomial (C X coeff)

/-! ## Vanishing polynomials -/

theorem coefficientNorms_of_eval_eq_zero {e : Expression Rat} {scope : List Symbol}
    (he : e.IsPolynomial) (hscope : scope.Nodup)
    (hzero : e.eval (X : Symbol → MvPolynomial Symbol ℚ) = 0) :
    coefficientNorms e scope = .ok ⟨0, 0⟩ := by
  obtain ⟨m, hm, regular, nonzero, -⟩ := exists_coefficients.{0} he scope
  have none : m = [] := by
    refine List.eq_nil_iff_forall_not_mem.mpr (fun t ht => nonzero t ht ?_)
    rw [← CoefficientMap.coefficientAt_of_mem regular (v := t.1) (c := t.2) ht,
      eq_number_of_coefficients he hscope (hzero ▸ zero_mem _) hm (regular.vectors t ht), hzero]
    simp [Expression.number]
  rw [coefficientNorms, hm, none]
  rfl

/-! ## Statements of certificates -/

namespace SquareProgram

variable {p : SquareProgram Rat} {e : Expression Rat} {scope : List Symbol}
  {constraints : List (Expression Rat)} {degree : ℤ} {c : Certificate}
  (h : p.Certifies e scope constraints degree c)

include h

theorem Certifies.scope_eq : ∀ s ∈ c.statements, s.scope = scope := by
  intro s hs
  rcases List.mem_append.mp hs with hs | hs
  · obtain ⟨g, -, multiplier⟩ := exists_right_of_mem h.weights hs
    exact multiplier.scope_eq
  · rw [List.mem_singleton.mp hs, h.base_scope]

theorem Certifies.length_statements_append (before : List (SquareSum Rat)) :
    (before ++ c.statements).length = before.length + (constraints.length + 1) := by
  rw [List.length_append, Certificate.statements, List.length_append, h.weights.length_eq]
  rfl

theorem Certifies.basis_ne_nil (hp : p.IsRegular) : ∀ s ∈ c.statements, s.basis ≠ [] := by
  intro s hs
  rcases List.mem_append.mp hs with hs | hs
  · obtain ⟨g, -, multiplier⟩ := exists_right_of_mem h.weights hs
    obtain ⟨d, symbols, -, basis, -⟩ := multiplier.shape
    rw [basis]
    exact List.ne_nil_of_mem (Exponents.replicate_mem_exponents _ (le_max_left _ _))
  · rw [List.mem_singleton.mp hs, h.base_basis]
    have base := hp.statements _ h.base_mem
    have bound := (isRegular_of_coefficients base.polynomial base.coefficients).totalDegree_nonneg
    exact List.ne_nil_of_mem (Exponents.replicate_mem_exponents _ (by rw [halfDegree]; omega))

end SquareProgram

/-! ## Evaluated statements -/

section

variable {p : SquareProgram Rat} (hp : p.IsRegular) {values : List Rat}
  (hvalues : values.length = p.size)

include hp hvalues

theorem evaluate_spec {e : Expression Rat} (he : e.IsPolynomial) {scope : List Symbol}
    (haffine : e.eval X ∈ affineSpan scope p.decisions)
    (hscope : ∀ s ∈ scope, s.isNamed = true) :
    (evaluate e (Solution.valuesOf p values)).IsPolynomial ∧
      (evaluate e (Solution.valuesOf p values)).eval X =
        solvedAt (fun k => values.getD k 0) e ∧
      (evaluate e (Solution.valuesOf p values)).eval X ∈ scopePolynomials scope := by
  have value : (evaluate e (Solution.valuesOf p values)).eval X =
      solvedAt (fun k => values.getD k 0) e :=
    eval_evaluate_decided hp hvalues he haffine hscope X
  refine ⟨isPolynomial_evaluate he, value, ?_⟩
  rw [value, ← hp.eval_scopePoint_of_affine _ haffine hscope (fun _ => 0)]
  exact eval_scopePoint_mem e _

variable {sol : Solution Rat} (hsol : sol.values = Solution.valuesOf p values)

include hsol

theorem evaluate_statement_spec {s : SquareSum Rat} (hs : s ∈ p.statements) :
    (sol.evaluate s.polynomial).IsPolynomial ∧
      (sol.evaluate s.polynomial).eval X = solvedAt (fun k => values.getD k 0) s.polynomial := by
  obtain ⟨polynomial, value, -⟩ := evaluate_spec hp hvalues (hp.statements s hs).polynomial
    (hp.affine s hs) (hp.named s hs)
  rw [Solution.evaluate, hsol]
  exact ⟨polynomial, value⟩

theorem evaluate_mul_spec {q : Inequality Rat} (hq : q.IsRegular p.decisions) {s : SquareSum Rat}
    (hs : s ∈ p.statements) {g : Expression Rat} (hg : g ∈ q.constraints) :
    (sol.evaluate s.polynomial * g).IsPolynomial ∧
      (sol.evaluate s.polynomial * g).eval X =
        solvedAt (fun k => values.getD k 0) s.polynomial *
          solvedAt (fun k => values.getD k 0) g := by
  obtain ⟨polynomial, value⟩ := evaluate_statement_spec hp hvalues hsol hs
  have constraint := hq.constraints g hg
  refine ⟨Expression.isPolynomial_mul polynomial constraint, ?_⟩
  rw [Expression.eval_mul _ polynomial constraint, value, solvedAt_of_mem hq.named (hq.within g hg)]

/-- Evaluated base and multipliers of a certificate add up to the evaluated polynomial. -/
theorem eval_evaluate_eq_reconstruction {degree : ℤ} {q : Inequality Rat}
    (hq : q.IsRegular p.decisions) {c : SquareProgram.Certificate} (hc : p.Secures degree q c) :
    (reconstruction (sol.evaluate c.base.polynomial)
        (c.multipliers.map (fun s => sol.evaluate s.polynomial)) q.constraints).IsPolynomial ∧
      (sol.evaluate q.polynomial).eval X = (reconstruction (sol.evaluate c.base.polynomial)
        (c.multipliers.map (fun s => sol.evaluate s.polynomial)) q.constraints).eval
          (X : Symbol → MvPolynomial Symbol ℚ) := by
  have multiplier : ∀ s ∈ c.multipliers, s ∈ p.statements := by
    intro s hs
    obtain ⟨g, -, h⟩ := exists_right_of_mem hc.weights hs
    exact h.mem
  have product (k : ℕ) (hk : k < c.multipliers.length) (hk' : k < q.constraints.length) :=
    evaluate_mul_spec hp hvalues hsol hq (multiplier _ (List.getElem_mem hk))
      (List.getElem_mem hk')
  obtain ⟨base, baseValue⟩ := evaluate_statement_spec hp hvalues hsol hc.base_mem
  refine ⟨Expression.isPolynomial_add base (Expression.isPolynomial_sum (fun e he => ?_)), ?_⟩
  · obtain ⟨k, hk, rfl⟩ := List.mem_iff_getElem.mp he
    rw [List.length_zipWith, List.length_map] at hk
    rw [List.getElem_zipWith, List.getElem_map]
    exact (product k (by omega) (by omega)).1
  · have terms : (List.zipWith (· * ·) (c.multipliers.map (fun s => sol.evaluate s.polynomial))
        q.constraints).map (Expression.eval X) = List.zipWith
          (fun s g => solvedAt (fun k => values.getD k 0) s.polynomial *
            solvedAt (fun k => values.getD k 0) g) c.multipliers q.constraints := by
      refine List.ext_getElem (by simp) (fun k hk hk' => ?_)
      rw [List.length_zipWith] at hk'
      simp only [List.getElem_map, List.getElem_zipWith]
      exact (product k (by omega) (by omega)).2
    have value := hc.value (decided (fun k => C (values.getD k 0)) X)
    rw [reconstruction, Expression.eval_add, baseValue, Expression.eval_sum, terms,
      Solution.evaluate, hsol, (evaluate_spec hp hvalues hq.polynomial hq.affine hq.named).2.1]
    exact value.symm

/-! ## Filled records -/

/-- The base and the multipliers from a position on add up to the polynomial of the record. -/
def ConstraintRecord.IsReconstructed (r : ConstraintRecord Rat) (sol : Solution Rat)
    (polynomials : List (Expression Rat)) (start : ℤ) : Prop :=
  ∃ base, entryAt polynomials (start + r.multiplierCount) = .ok base ∧
    (sol.evaluate r.polynomial).eval X = (reconstruction base
      (slice polynomials start (start + r.multiplierCount)) r.constraints).eval
        (X : Symbol → MvPolynomial Symbol ℚ)

def AreForms (ss : List (SquareSum Rat)) (forms : List (Expression Rat)) : Prop :=
  List.Forall₂ (fun s form => form.IsPolynomial ∧ form.eval X ∈ scopePolynomials s.scope) ss forms

variable {forms : List (Expression Rat)}

theorem exists_subresidualAt_of_form {k : ℕ} {s : SquareSum Rat} (hs : p.statements[k]? = some s)
    {form : Expression Rat} (hform : forms[k]? = some form) (polynomial : form.IsPolynomial)
    (member : form.eval X ∈ scopePolynomials s.scope) (eigenvalues : List Rat) :
    ∃ size, subresidualAt ⟨solvedPolynomials p sol, forms, eigenvalues⟩ s.scope k = .ok size := by
  have hmem := List.mem_of_getElem? hs
  have entry : (solvedPolynomials p sol)[k]? = some (sol.evaluate s.polynomial) := by
    rw [solvedPolynomials, List.getElem?_map, hs]
    rfl
  obtain ⟨evaluated, -, bound⟩ := evaluate_spec hp hvalues (hp.statements s hmem).polynomial
    (hp.affine s hmem) (hp.named s hmem)
  rw [← hsol] at evaluated bound
  obtain ⟨norms, hnorms, -⟩ := coefficientNorms_spec (e := sol.evaluate s.polynomial - form)
    (Expression.isPolynomial_sub evaluated polynomial) (hp.statements s hmem).distinct
    (by rw [Expression.eval_sub]; exact sub_mem bound member)
  refine ⟨norms.max, ?_⟩
  simp only [subresidualAt, entryAt_eq_ok.mpr entry, entryAt_eq_ok.mpr hform, ok_bind, hnorms]
  rfl

variable (hforms : AreForms p.statements forms)

include hforms in
theorem exists_subresidualAt {k : ℕ} {s : SquareSum Rat} (hs : p.statements[k]? = some s)
    (eigenvalues : List Rat) : ∃ size, subresidualAt
      ⟨solvedPolynomials p sol, forms, eigenvalues⟩ s.scope k = .ok size := by
  obtain ⟨form, hform, polynomial, member⟩ := exists_right_at hforms hs
  exact exists_subresidualAt_of_form hp hvalues hsol hs hform polynomial member eigenvalues

section

variable {degree : ℤ} {q : Inequality Rat} {c : SquareProgram.Certificate}
  (hc : p.Secures degree q c) {before after : List (SquareSum Rat)}
  (hstatements : p.statements = before ++ c.statements ++ after) (offset : ℕ)

omit hp hvalues hsol

include hc hstatements

variable (sol) in
theorem entries_recordOf :
    entryAt (solvedPolynomials p sol)
        (before.length + (Assembly.recordOf q degree offset).multiplierCount) =
      .ok (sol.evaluate c.base.polynomial) ∧
    slice (solvedPolynomials p sol) before.length
        (before.length + (Assembly.recordOf q degree offset).multiplierCount) =
      c.multipliers.map (fun s => sol.evaluate s.polynomial) := by
  have count : (before.length : ℤ) + (Assembly.recordOf q degree offset).multiplierCount =
      ((before.length + c.multipliers.length : ℕ) : ℤ) := by
    rw [hc.weights.length_eq]
    rfl
  rw [count]
  constructor
  · rw [entryAt_eq_ok, solvedPolynomials, List.getElem?_map, hstatements]
    simp [SquareProgram.Certificate.statements]
  · have parts : solvedPolynomials p sol =
        before.map (fun s => sol.evaluate s.polynomial) ++
          c.multipliers.map (fun s => sol.evaluate s.polynomial) ++
          (sol.evaluate c.base.polynomial :: after.map (fun s => sol.evaluate s.polynomial)) := by
      simp [solvedPolynomials, hstatements, SquareProgram.Certificate.statements]
    have part := slice_append (before.map (fun s => sol.evaluate s.polynomial))
      (c.multipliers.map (fun s => sol.evaluate s.polynomial))
      (sol.evaluate c.base.polynomial :: after.map (fun s => sol.evaluate s.polynomial))
    rw [List.length_map, List.length_map] at part
    rw [parts, part]

theorem statement_of_mem_positionsFrom {position : ℤ}
    (h : position ∈ positionsFrom before.length (Assembly.recordOf q degree offset)) :
    ∃ (k : ℕ) (s : SquareSum Rat), position = k ∧ p.statements[k]? = some s ∧ s.scope = q.scope := by
  obtain ⟨j, hj, rfl⟩ := List.mem_map.mp h
  have count : (Assembly.recordOf q degree offset).multiplierCount =
      (c.multipliers.length : ℤ) := by
    rw [hc.weights.length_eq]
    rfl
  have bound : j < c.statements.length := by
    rw [List.mem_range, count] at hj
    rw [SquareProgram.Certificate.statements, List.length_append, List.length_singleton]
    omega
  refine ⟨before.length + j, c.statements[j], by push_cast; rfl, ?_,
    hc.scope_eq _ (List.getElem_mem bound)⟩
  rw [hstatements, List.append_assoc, List.getElem?_append_right (by omega),
    Nat.add_sub_cancel_left, List.getElem?_append_left bound, List.getElem?_eq_getElem bound]

variable (hq : q.IsRegular p.decisions)

include hp hvalues hsol hq

theorem isReconstructed_recordOf :
    (Assembly.recordOf q degree offset).IsReconstructed sol (solvedPolynomials p sol)
      before.length := by
  obtain ⟨entry, part⟩ := entries_recordOf sol hc hstatements offset
  refine ⟨_, entry, ?_⟩
  rw [part]
  exact (eval_evaluate_eq_reconstruction hp hvalues hsol hq hc).2

theorem withResidual_recordOf (forms : List (Expression Rat)) (eigenvalues : List Rat) :
    withResidual ⟨solvedPolynomials p sol, forms, eigenvalues⟩ sol before.length
      (Assembly.recordOf q degree offset) = .ok (Assembly.recordOf q degree offset) := by
  obtain ⟨entry, part⟩ := entries_recordOf sol hc hstatements offset
  obtain ⟨polynomial, identity⟩ := eval_evaluate_eq_reconstruction hp hvalues hsol hq hc
  have evaluated : (sol.evaluate q.polynomial).IsPolynomial := isPolynomial_evaluate hq.polynomial
  have vanishes := coefficientNorms_of_eval_eq_zero
    (Expression.isPolynomial_sub evaluated polynomial) hq.distinct
    (by rw [Expression.eval_sub, ← identity, sub_self])
  simp only [withResidual, residualAt, entry, part, ok_bind]
  change (coefficientNorms (sol.evaluate q.polynomial - reconstruction _ _ q.constraints) q.scope >>=
    _) = _
  rw [vanishes]
  rfl

include hforms

omit hq in
theorem exists_subresiduals (eigenvalues : List Rat) :
    ∃ sizes, (positionsFrom before.length (Assembly.recordOf q degree offset)).mapM
      (subresidualAt ⟨solvedPolynomials p sol, forms, eigenvalues⟩ q.scope) = .ok sizes := by
  refine exists_mapM_eq_ok (fun position hposition => ?_)
  obtain ⟨k, s, rfl, found, scope⟩ :=
    statement_of_mem_positionsFrom hc hstatements offset hposition
  rw [← scope]
  exact exists_subresidualAt hp hvalues hsol hforms found eigenvalues

theorem fillRecord_recordOf (eigenvalues : List Rat) : ∃ filled,
    fillRecord ⟨solvedPolynomials p sol, forms, eigenvalues⟩ sol before.length
        (Assembly.recordOf q degree offset) = (filled, .ok ()) ∧
      filled.place = q.place ∧ filled.residualMax = 0 ∧ filled.residualSum = 0 := by
  obtain ⟨sizes, hsizes⟩ :=
    exists_subresiduals hp hvalues hsol hforms hc hstatements offset eigenvalues
  have enough : ¬ (Assembly.recordOf q degree offset).multiplierCount < -1 := by
    have := Int.natCast_nonneg q.constraints.length
    change ¬ (q.constraints.length : ℤ) < -1
    omega
  refine ⟨{ Assembly.recordOf q degree offset with
    subresidualMax := sizes
    minEigenvalues := slice eigenvalues before.length
      (before.length + (Assembly.recordOf q degree offset).multiplierCount + 1) }, ?_, rfl, rfl, rfl⟩
  have scope : (Assembly.recordOf q degree offset).scope = q.scope := rfl
  simp only [fillRecord, withResidual_recordOf hp hvalues hsol hc hstatements offset hq,
    withSubresiduals, enough, if_false, scope, hsizes, ok_bind]

end

include hforms in
theorem fillRecords_recordsFrom {degree : ℤ} {qs : List (Inequality Rat)}
    {cs : List SquareProgram.Certificate} (hqs : ∀ q ∈ qs, q.IsRegular p.decisions)
    (hcs : List.Forall₂ (p.Secures degree) qs cs) {before : List (SquareSum Rat)}
    (hstatements :
      p.statements = before ++ cs.flatMap SquareProgram.Certificate.statements)
    (eigenvalues : List Rat) :
    ∃ filled, fillRecords ⟨solvedPolynomials p sol, forms, eigenvalues⟩ sol before.length
        (recordsFrom degree before.length qs) = (filled, .ok ()) ∧
      List.Forall₂ (fun r r' => r'.place = r.place ∧ r'.residualMax = 0 ∧ r'.residualSum = 0)
        (recordsFrom degree before.length qs) filled ∧
      ∀ i r, (recordsFrom degree before.length qs)[i]? = some r →
        r.offset = before.length + recordStart (recordsFrom degree before.length qs) i ∧
          r.IsReconstructed sol (solvedPolynomials p sol) r.offset := by
  induction hcs generalizing before with
  | nil => exact ⟨[], rfl, .nil, by simp [recordsFrom]⟩
  | @cons q c qs cs hc _ ih =>
      have hq := hqs q (by simp)
      -- Before the other records stand the statements before this one, and its own.
      have here : p.statements = before ++ c.statements ++
          cs.flatMap SquareProgram.Certificate.statements := by
        rw [hstatements, List.flatMap_cons, List.append_assoc]
      have next := hc.length_statements_append before
      obtain ⟨first, hfirst, zeros⟩ := fillRecord_recordOf hp hvalues hsol hforms hc here
        before.length hq eigenvalues
      obtain ⟨others, hothers, all, rebuilt⟩ := ih (fun q' hq' => hqs q' (by simp [hq'])) here
      rw [next] at hothers all rebuilt
      have start : (before.length : ℤ) +
          (Assembly.recordOf q degree before.length).multiplierCount + 1 =
            ((before.length + (q.constraints.length + 1) : ℕ) : ℤ) := by
        push_cast
        rw [← add_assoc]
        rfl
      refine ⟨first :: others, ?_, .cons zeros all, fun i r hr => ?_⟩
      · exact fillRecords_cons_eq_ok.mpr ⟨first, others, hfirst, start ▸ hothers, rfl⟩
      · cases i with
        | zero =>
            obtain rfl : Assembly.recordOf q degree before.length = r := by
              simpa [recordsFrom] using hr
            exact ⟨by simp [recordStart, Assembly.recordOf],
              isReconstructed_recordOf hp hvalues hsol hc here before.length hq⟩
        | succ i =>
            obtain ⟨offset, reconstructed⟩ := rebuilt i r (by simpa [recordsFrom] using hr)
            refine ⟨?_, reconstructed⟩
            rw [offset, recordsFrom, recordStart_cons_succ, ← start]
            ring

end

theorem exists_certificate_of_recordsFrom {p : SquareProgram Rat} {degree : ℤ}
    {qs : List (Inequality Rat)} {cs : List SquareProgram.Certificate}
    (hcs : List.Forall₂ (p.Secures degree) qs cs) {start : List (SquareSum Rat)}
    (hstatements : p.statements = start ++ cs.flatMap SquareProgram.Certificate.statements)
    {i : ℕ} {r : ConstraintRecord Rat} (hr : (recordsFrom degree start.length qs)[i]? = some r) :
    ∃ q c before after, q ∈ qs ∧ p.Secures degree q c ∧
      r = Assembly.recordOf q degree before.length ∧
      p.statements = before ++ c.statements ++ after ∧
      (before.length : ℤ) = start.length + recordStart (recordsFrom degree start.length qs) i := by
  induction hcs generalizing start i with
  | nil => simp [recordsFrom] at hr
  | @cons q c qs cs hc _ ih =>
      have here : p.statements = start ++ c.statements ++
          cs.flatMap SquareProgram.Certificate.statements := by
        rw [hstatements, List.flatMap_cons, List.append_assoc]
      cases i with
      | zero =>
          obtain rfl : Assembly.recordOf q degree start.length = r := by
            simpa [recordsFrom] using hr
          exact ⟨q, c, start, _, by simp, hc, rfl, here, by simp [recordStart]⟩
      | succ i =>
          have next := hc.length_statements_append start
          obtain ⟨q', c', before, after, hq', secured, record, parts, length⟩ :=
            ih here (by rw [next]; simpa [recordsFrom] using hr)
          refine ⟨q', c', before, after, by simp [hq'], secured, record, parts, ?_⟩
          rw [length, next, recordsFrom, recordStart_cons_succ, Assembly.recordOf]
          push_cast
          ring

/-! ## Built relaxations -/

def SquareSum.FitsGram (s : SquareSum Rat) (gram : Grid Rat) : Prop :=
  ∃ G : Matrix (Fin s.gramSize) (Fin s.gramSize) Rat, gram = gridOf G

/-- The identity for each statement, and one for each decision. -/
def SquareProgram.unitSolution (p : SquareProgram Rat) : Solution Rat where
  status := "optimal"
  value := 0
  free := []
  grams := p.statements.map
    (fun s => gridOf (1 : Matrix (Fin s.gramSize) (Fin s.gramSize) Rat))
  duals := []
  dualBasis := []
  values := Solution.valuesOf p (List.replicate p.size 1)

theorem SquareProgram.fitsGram_unitSolution (p : SquareProgram Rat) :
    List.Forall₂ SquareSum.FitsGram p.statements p.unitSolution.grams :=
  List.forall₂_map_right_iff.mpr (List.forall₂_same.mpr (fun _ _ => ⟨1, rfl⟩))

theorem exists_approximations {p : SquareProgram Rat} (hp : p.IsRegular)
    (hbasis : ∀ s ∈ p.statements, s.basis ≠ []) {sol : Solution Rat}
    (hgrams : List.Forall₂ SquareSum.FitsGram p.statements sol.grams) :
    ∃ forms, approximations p sol = .ok forms ∧ AreForms p.statements forms := by
  have all : ∀ {ss : List (SquareSum Rat)} {grams : List (Grid Rat)}, (∀ s ∈ ss, s.IsRegular) →
      (∀ s ∈ ss, s.basis ≠ []) → List.Forall₂ SquareSum.FitsGram ss grams → ∃ forms,
        List.Forall₂ (fun pair form => pair.1.gramForm pair.2 = .ok form) (ss.zip grams) forms ∧
          AreForms ss forms := by
    intro ss grams hss hne h
    induction h with
    | nil => exact ⟨[], .nil, .nil⟩
    | @cons s gram ss grams fits _ ih =>
        obtain ⟨forms, found, areForms⟩ :=
          ih (fun t ht => hss t (by simp [ht])) (fun t ht => hne t (by simp [ht]))
        obtain ⟨G, rfl⟩ := fits
        obtain ⟨form, hform, polynomial, value⟩ :=
          SquareSum.gramForm_spec (hss s (by simp)).natural (hne s (by simp)) G
        exact ⟨form :: forms, .cons hform found,
          .cons ⟨polynomial, value ▸ SquareSum.quadratic_mem s _⟩ areForms⟩
  obtain ⟨forms, found, areForms⟩ := all hp.statements hbasis hgrams
  exact ⟨forms, mapM_eq_ok.mpr found, areForms⟩

theorem AssemblyStep.IsRegular.isPlain {decisions : List Symbol} {step : AssemblyStep Rat}
    (h : step.IsRegular decisions) : Assembly.IsPlain step := by
  cases step with
  | certify q => trivial
  | addToObjective e => trivial
  | abandon q f => exact h
  | refuse f => exact h

namespace Problem

variable {p : Problem Rat} {r : Relaxation Rat}

theorem statements_of_templates (hp : p.IsWellPosed) {program : SquareProgram Rat}
    {templates : List (ValueTemplate Rat)} (h : p.templates = (program, .ok templates)) :
    program.statements = [] := by
  obtain ⟨program', templates', h', -, -, statements, -⟩ :=
    registerModes_spec hp.polynomial.modes hp.consistent.modes (width_of_registerModes h)
      p.degree.value 0 (SquareProgram.isRegular_empty.withIndeterminates [p.system.time])
  obtain ⟨rfl, -⟩ := Prod.mk.inj (h.symm.trans h')
  rw [statements]
  rfl

theorem records_of_build (hp : p.IsWellPosed) (h : p.build = .ok r) :
    r.records = recordsFrom p.degree.value 0
        (certifiedBy (assemblySteps p.system r.templates horizon p.settings.freeFinalTime)) ∧
      ∀ q ∈ certifiedBy (assemblySteps p.system r.templates horizon p.settings.freeFinalTime),
        q.IsRegular r.program.decisions := by
  obtain ⟨cs, relaxed⟩ := isRelaxedBy_of_build hp h
  have regular := isRegular_assemblySteps hp.polynomial hp.consistent
    (fun _ hs => relaxed.regular.isNamed_of_mem hs) relaxed.templates hp.final
  refine ⟨?_, fun q hq => regular _ (mem_certifiedBy.mp hq)⟩
  obtain ⟨q, b, hregister, assembled, -, kept⟩ := build_inversion h
  obtain ⟨-, -, -, records, -⟩ := Assembly.takeAll_inversion
    (fun step hstep => (regular step hstep).isPlain) assembled
  rw [show (Assembly.start q).program.statements = [] from statements_of_templates hp hregister]
    at records
  exact kept.trans records

theorem exists_certificate_at (hp : p.IsWellPosed) (h : p.build = .ok r) {i : ℕ}
    {c : ConstraintRecord Rat} (hc : r.records[i]? = some c) :
    ∃ q d before after, c = Assembly.recordOf q p.degree.value before.length ∧
      q.IsRegular r.program.decisions ∧ r.program.Secures p.degree.value q d ∧
      r.program.statements = before ++ d.statements ++ after ∧
      recordStart r.records i = before.length := by
  obtain ⟨cs, relaxed⟩ := isRelaxedBy_of_build hp h
  obtain ⟨records, regular⟩ := records_of_build hp h
  rw [records] at hc ⊢
  have statements : r.program.statements =
      [] ++ cs.flatMap SquareProgram.Certificate.statements := relaxed.statements
  obtain ⟨q, d, before, after, hq, secured, record, parts, start⟩ :=
    exists_certificate_of_recordsFrom relaxed.secured statements hc
  rw [List.length_nil, Int.natCast_zero, zero_add] at start
  exact ⟨q, d, before, after, record, regular q hq, secured, parts, start.symm⟩

theorem IsRelaxedBy.basis_ne_nil {cs : List SquareProgram.Certificate} (h : p.IsRelaxedBy r cs) :
    ∀ t ∈ r.program.statements, t.basis ≠ [] := by
  intro t ht
  rw [h.statements] at ht
  obtain ⟨c, hc, ht⟩ := List.mem_flatMap.mp ht
  obtain ⟨q, -, secured⟩ := exists_left_of_mem h.secured hc
  exact SquareProgram.Certifies.basis_ne_nil secured h.regular t ht

theorem exists_fillRecords_of_build {s : HybridSystem Rat} {degree : Datum} {settings : Settings}
    (hs : s.IsPolynomial) (hpose : pose s degree settings = .ok p) (hbuild : p.build = .ok r)
    {values : List Rat} (hvalues : values.length = r.program.size) {sol : Solution Rat}
    (hsol : sol.values = Solution.valuesOf r.program values)
    (hgrams : List.Forall₂ SquareSum.FitsGram r.program.statements sol.grams)
    (eigenvalues : List Rat) :
    ∃ forms filled, approximations r.program sol = .ok forms ∧
      fillRecords ⟨solvedPolynomials r.program sol, forms, eigenvalues⟩ sol 0 r.records =
        (filled, .ok ()) ∧
      List.Forall₂ (fun c c' => c'.place = c.place ∧ c'.residualMax = 0 ∧ c'.residualSum = 0)
        r.records filled ∧
      ∀ (i : ℕ) (c : ConstraintRecord Rat), r.records[i]? = some c →
        c.offset = recordStart r.records i ∧
          c.IsReconstructed sol (solvedPolynomials r.program sol) (recordStart r.records i) := by
  obtain ⟨wellPosed, -⟩ := isWellPosed_of_pose hs hpose
  obtain ⟨cs, relaxed⟩ := isRelaxedBy_of_build wellPosed hbuild
  obtain ⟨records, regular⟩ := records_of_build wellPosed hbuild
  obtain ⟨forms, hforms, areForms⟩ :=
    exists_approximations relaxed.regular relaxed.basis_ne_nil hgrams
  have statements : r.program.statements =
      [] ++ cs.flatMap SquareProgram.Certificate.statements := relaxed.statements
  obtain ⟨filled, hfilled, zeros, exactly⟩ := fillRecords_recordsFrom relaxed.regular hvalues hsol
    areForms regular relaxed.secured statements eigenvalues
  rw [List.length_nil, ← records] at hfilled zeros exactly
  refine ⟨forms, filled, hforms, hfilled, zeros, fun i c hc => ?_⟩
  obtain ⟨offset, reconstructed⟩ := exactly i c hc
  rw [Int.natCast_zero, zero_add] at offset
  exact ⟨offset, offset ▸ reconstructed⟩

/--
The residuals of a built relaxation vanish.  At all values of the decisions, and for every family of
Gram matrices of the right sizes, the residuals are computed and are zero for every record: what each
record finds from its offset on adds up to its polynomial.
-/
theorem computeResiduals_eq_zero {s : HybridSystem Rat} {degree : Datum} {settings : Settings}
    (hs : s.IsPolynomial) (hpose : pose s degree settings = .ok p) (hbuild : p.build = .ok r)
    {values : List Rat} (hvalues : values.length = r.program.size) {sol : Solution Rat}
    (hsol : sol.values = Solution.valuesOf r.program values)
    (hgrams : List.Forall₂ SquareSum.FitsGram r.program.statements sol.grams)
    (eigenvalues : List Rat) :
    ∃ filled, computeResiduals r.records r.program sol eigenvalues = (filled, .ok ()) ∧
      List.Forall₂ (fun c c' => c'.place = c.place ∧ c'.residualMax = 0 ∧ c'.residualSum = 0)
        r.records filled ∧
      ∀ (i : ℕ) (c : ConstraintRecord Rat), r.records[i]? = some c →
        c.offset = recordStart r.records i ∧
          c.IsReconstructed sol (solvedPolynomials r.program sol) (recordStart r.records i) := by
  obtain ⟨forms, filled, hforms, hfilled, found⟩ :=
    exists_fillRecords_of_build hs hpose hbuild hvalues hsol hgrams eigenvalues
  refine ⟨filled, ?_, found⟩
  rw [computeResiduals, hforms]
  exact hfilled

theorem computeResiduals_eq_zero_parkingSystem : ∃ p r,
    Problem.pose parkingSystem (.integer 2) Settings.defaults = .ok p ∧ p.build = .ok r ∧
      ∃ sol filled, sol.values =
          Solution.valuesOf r.program (List.replicate r.program.size (1 : Rat)) ∧
        computeResiduals r.records r.program sol [] = (filled, .ok ()) ∧
        ∀ c ∈ filled, c.residualMax = 0 ∧ c.residualSum = 0 := by
  obtain ⟨p, r, posed, built, -⟩ := exists_relaxation_parkingSystem (n := 2) (by decide)
  obtain ⟨filled, computed, zeros, -⟩ := computeResiduals_eq_zero isPolynomial_parkingSystem posed
    built List.length_replicate rfl r.program.fitsGram_unitSolution []
  refine ⟨p, r, posed, built, r.program.unitSolution, filled, rfl, computed, fun c hc => ?_⟩
  obtain ⟨c', -, -, zero⟩ := exists_left_of_mem zeros hc
  exact zero

end Problem

end HybridRelaxation
