import Mathlib
import HybridRelaxation.Proofs.Relaxation.Residuals

/-!
# Errors of certificates

A record certifies its polynomial by Gram matrices: the quadratic form of the base, and those of
the multipliers times the inequalities, add up to the polynomial but for an error.  No coefficient
of the error is larger than the subresidual of the base together with those of the multipliers,
each times the sizes of all coefficients of its inequality.  If all of these are zero, then positive
semidefinite Gram matrices prove that the polynomial is nonnegative where the inequalities hold.
-/

namespace HybridRelaxation

open MvPolynomial (X coeff)

/-! ## Sizes of polynomials -/

/-- No coefficient is larger in size. -/
def IsBounded (a : ℚ) (q : MvPolynomial Symbol ℚ) : Prop := ∀ n, |coeff n q| ≤ a

noncomputable def sizeSum (q : MvPolynomial Symbol ℚ) : ℚ := ∑ n ∈ q.support, |coeff n q|

section

variable {a b : ℚ} {f g : MvPolynomial Symbol ℚ}

theorem isBounded_zero : IsBounded 0 0 := by
  intro n
  simp

theorem IsBounded.add (hf : IsBounded a f) (hg : IsBounded b g) : IsBounded (a + b) (f + g) := by
  intro n
  rw [MvPolynomial.coeff_add]
  exact (abs_add_le _ _).trans (add_le_add (hf n) (hg n))

theorem IsBounded.eq_zero (h : IsBounded 0 f) : f = 0 := by
  ext n
  rw [MvPolynomial.coeff_zero]
  exact abs_eq_zero.mp (le_antisymm (h n) (abs_nonneg _))

theorem IsBounded.mul_monomial (hf : IsBounded a f) (m : Symbol →₀ ℕ) (c : ℚ) :
    IsBounded (a * |c|) (f * MvPolynomial.monomial m c) := by
  classical
  intro n
  have nonneg : 0 ≤ a := (abs_nonneg _).trans (hf 0)
  rw [MvPolynomial.coeff_mul_monomial']
  split
  · rw [abs_mul]
    exact mul_le_mul_of_nonneg_right (hf _) (abs_nonneg c)
  · rw [abs_zero]
    exact mul_nonneg nonneg (abs_nonneg c)

theorem IsBounded.sum {ι : Type*} {s : Finset ι} {bounds : ι → ℚ} {fs : ι → MvPolynomial Symbol ℚ}
    (h : ∀ i ∈ s, IsBounded (bounds i) (fs i)) : IsBounded (∑ i ∈ s, bounds i) (∑ i ∈ s, fs i) := by
  intro n
  rw [MvPolynomial.coeff_sum]
  exact (Finset.abs_sum_le_sum_abs _ _).trans (Finset.sum_le_sum (fun i hi => h i hi n))

theorem IsBounded.mul (hf : IsBounded a f) (g : MvPolynomial Symbol ℚ) :
    IsBounded (a * sizeSum g) (f * g) := by
  have product : f * g = ∑ m ∈ g.support, f * MvPolynomial.monomial m (coeff m g) := by
    rw [← Finset.mul_sum, MvPolynomial.support_sum_monomial_coeff]
  rw [product, sizeSum, Finset.mul_sum]
  exact IsBounded.sum (fun m _ => hf.mul_monomial m _)

end

theorem isBounded_of_coefficientNorms {e : Expression Rat} (he : e.IsPolynomial)
    {scope : List Symbol} (hscope : scope.Nodup) (hmem : e.eval X ∈ scopePolynomials scope)
    {norms : CoefficientNorms Rat} (h : coefficientNorms e scope = .ok norms) :
    IsBounded norms.max (e.eval X) := by
  obtain ⟨norms', h', nonneg, bound, -⟩ := coefficientNorms_spec he hscope hmem
  obtain rfl := Except.ok.inj (h.symm.trans h')
  obtain ⟨m, hm, -⟩ := exists_coefficients.{0} he scope
  have monomials : IsOver scope (e.eval X : MvPolynomial Symbol ℚ) := by
    have agree := aeval_congr_of_mem (ρ := scopePoint scope (fun _ => (0 : ℚ))) (τ := X) hmem
      (fun s hs => scopePoint_of_mem hs _)
    rw [Expression.eval_eq_aeval, ← agree, ← Expression.eval_eq_aeval]
    exact isOver_of_coefficients _ he hm
  intro n
  by_cases hn : coeff n (e.eval X : MvPolynomial Symbol ℚ) = 0
  · rwa [hn, abs_zero]
  · obtain ⟨v, hv, rfl⟩ := monomials n hn
    exact bound v hv

/-! ## Statements with Gram matrices -/

structure GramPart where
  statement : SquareSum Rat
  gram : Matrix (Fin statement.gramSize) (Fin statement.gramSize) Rat

namespace GramPart

noncomputable def form (x : GramPart) : MvPolynomial Symbol ℚ :=
  x.statement.quadratic (entriesOf x.gram)

def IsPositive (x : GramPart) : Prop := (x.gram.map (algebraMap ℚ ℝ)).PosSemidef

theorem entriesOf_map {n : ℕ} (G : Matrix (Fin n) (Fin n) Rat) (i j : ℕ) :
    algebraMap ℚ ℝ (entriesOf G i j) = entriesOf (G.map (algebraMap ℚ ℝ)) i j := by
  unfold entriesOf
  split <;> simp

theorem aeval_form_nonneg {x : GramPart} (hs : x.statement.IsRegular) (hx : x.IsPositive)
    (y : Symbol → ℝ) : 0 ≤ MvPolynomial.aeval y x.form := by
  have real : MvPolynomial.map (algebraMap ℚ ℝ) x.form =
      x.statement.quadratic (entriesOf (x.gram.map (algebraMap ℚ ℝ))) := by
    simp only [form, SquareSum.quadratic, map_sum, MvPolynomial.map_monomial, entriesOf_map]
  rw [MvPolynomial.aeval_def, MvPolynomial.eval₂_eq_eval_map, real, hs.eval_quadratic]
  exact sum_entriesOf_nonneg hx _

end GramPart

/-! ## Certificates of a record -/

/-- The form of the base, and the forms of the multipliers times the inequalities. -/
noncomputable def certificateForm (multipliers : List GramPart) (base : GramPart)
    (constraints : List (Expression Rat)) : MvPolynomial Symbol ℚ :=
  base.form + weightedShares (multipliers.map GramPart.form) constraints

/-- The bound for the base, and those for the multipliers times the sizes of the inequalities. -/
noncomputable def errorBound (sizes : List ℚ) (size : ℚ) (constraints : List (Expression Rat)) :
    ℚ :=
  size + (List.zipWith (fun a g => a * sizeSum (g.eval X)) sizes constraints).sum

theorem errorBound_of_zeros {sizes : List ℚ} {size : ℚ} (h : ∀ a ∈ sizes ++ [size], a = 0)
    (constraints : List (Expression Rat)) : errorBound sizes size constraints = 0 := by
  have last : size = 0 := h size (by simp)
  have products : ∀ a ∈ List.zipWith (fun a (g : Expression Rat) => a * sizeSum (g.eval X)) sizes
      constraints, a = 0 := by
    intro a ha
    obtain ⟨k, hk, rfl⟩ := List.mem_iff_getElem.mp ha
    rw [List.getElem_zipWith, h _ (List.mem_append_left _ (List.getElem_mem _)), zero_mul]
  rw [errorBound, last, zero_add, List.sum_eq_zero products]

theorem isBounded_weightedShares {solved : GramPart → MvPolynomial Symbol ℚ}
    {multipliers : List GramPart} {sizes : List ℚ}
    (h : List.Forall₂ (fun x a => IsBounded a (solved x - x.form)) multipliers sizes)
    (constraints : List (Expression Rat)) :
    IsBounded (List.zipWith (fun a g => a * sizeSum (g.eval X)) sizes constraints).sum
      (weightedShares (multipliers.map solved) constraints -
        weightedShares (multipliers.map GramPart.form) constraints) := by
  induction h generalizing constraints with
  | nil => simpa [weightedShares] using isBounded_zero
  | @cons x a multipliers sizes head _ ih =>
      cases constraints with
      | nil => simpa [weightedShares] using isBounded_zero
      | cons g constraints =>
          have errors := (head.mul (g.eval X)).add (ih constraints)
          have split : weightedShares ((x :: multipliers).map solved) (g :: constraints) -
              weightedShares ((x :: multipliers).map GramPart.form) (g :: constraints) =
                (solved x - x.form) * g.eval X +
                  (weightedShares (multipliers.map solved) constraints -
                    weightedShares (multipliers.map GramPart.form) constraints) := by
            simp only [weightedShares, List.map_cons, List.zipWith_cons_cons, List.sum_cons]
            ring
          rw [split, List.zipWith_cons_cons, List.sum_cons]
          exact errors

theorem aeval_certificateForm_nonneg {multipliers : List GramPart} {base : GramPart}
    (hregular : ∀ x ∈ multipliers ++ [base], x.statement.IsRegular)
    (hpositive : ∀ x ∈ multipliers ++ [base], x.IsPositive) {constraints : List (Expression Rat)}
    {y : Symbol → ℝ} (hy : ∀ g ∈ constraints, 0 ≤ g.eval y) :
    0 ≤ MvPolynomial.aeval y (certificateForm multipliers base constraints) := by
  have nonneg (x : GramPart) (hx : x ∈ multipliers ++ [base]) :=
    GramPart.aeval_form_nonneg (hregular x hx) (hpositive x hx) y
  rw [certificateForm, map_add, weightedShares, map_list_sum]
  refine add_nonneg (nonneg base (by simp)) (List.sum_nonneg (fun a ha => ?_))
  obtain ⟨q, hq, rfl⟩ := List.mem_map.mp ha
  obtain ⟨k, hk, rfl⟩ := List.mem_iff_getElem.mp hq
  rw [List.getElem_zipWith, List.getElem_map, map_mul, ← Expression.eval_eq_aeval]
  exact mul_nonneg (nonneg _ (List.mem_append_left _ (List.getElem_mem _)))
    (hy _ (List.getElem_mem _))

theorem aeval_nonneg_of_zeros {q : MvPolynomial Symbol ℚ} {sizes : List ℚ} {size : ℚ}
    {multipliers : List GramPart} {base : GramPart} {constraints : List (Expression Rat)}
    (error : IsBounded (errorBound sizes size constraints)
      (q - certificateForm multipliers base constraints))
    (zeros : ∀ a ∈ sizes ++ [size], a = 0)
    (hregular : ∀ x ∈ multipliers ++ [base], x.statement.IsRegular)
    (hpositive : ∀ x ∈ multipliers ++ [base], x.IsPositive) {y : Symbol → ℝ}
    (hy : ∀ g ∈ constraints, 0 ≤ g.eval y) : 0 ≤ MvPolynomial.aeval y q := by
  rw [errorBound_of_zeros zeros] at error
  rw [sub_eq_zero.mp error.eq_zero]
  exact aeval_certificateForm_nonneg hregular hpositive hy

section

variable {p : SquareProgram Rat} (hp : p.IsRegular) {values : List Rat}
  (hvalues : values.length = p.size) {sol : Solution Rat}
  (hsol : sol.values = Solution.valuesOf p values)

def Solution.Bounds (sol : Solution Rat) (x : GramPart) (a : ℚ) : Prop :=
  IsBounded a ((sol.evaluate x.statement.polynomial).eval X - x.form)

include hp hvalues hsol

/-- Statements add up to the polynomial exactly, so that only their own errors are left. -/
theorem isBounded_sub_certificateForm {degree : ℤ} {q : Inequality Rat}
    (hq : q.IsRegular p.decisions) {c : SquareProgram.Certificate} (hc : p.Secures degree q c)
    {multipliers : List GramPart}
    (hmultipliers : multipliers.map GramPart.statement = c.multipliers)
    {base : GramPart} (hbase : base.statement = c.base) {sizes : List ℚ}
    (hsizes : List.Forall₂ sol.Bounds multipliers sizes) {size : ℚ} (hsize : sol.Bounds base size) :
    IsBounded (errorBound sizes size q.constraints)
      ((sol.evaluate q.polynomial).eval X - certificateForm multipliers base q.constraints) := by
  let solved (x : GramPart) : MvPolynomial Symbol ℚ :=
    (sol.evaluate x.statement.polynomial).eval X
  have shares : List.Forall₂ (fun s share => solvedAt (fun k => values.getD k 0) s.polynomial =
      share) c.multipliers (multipliers.map solved) := by
    rw [← hmultipliers, List.forall₂_map_left_iff, List.forall₂_map_right_iff]
    refine List.forall₂_same.mpr (fun x hx => ?_)
    have listed : x.statement ∈ c.multipliers :=
      hmultipliers ▸ List.mem_map_of_mem (f := GramPart.statement) hx
    obtain ⟨g, -, multiplier⟩ := exists_right_of_mem hc.weights listed
    exact (evaluate_statement_spec hp hvalues hsol multiplier.mem).2.symm
  have identity := hc.solvedAt_base shares
    (fun g hg => solvedAt_of_mem hq.named (hq.within g hg) _)
  have whole : (sol.evaluate q.polynomial).eval X =
      solvedAt (fun k => values.getD k 0) q.polynomial := by
    rw [Solution.evaluate, hsol, (evaluate_spec hp hvalues hq.polynomial hq.affine hq.named).2.1]
  have own : solvedAt (fun k => values.getD k 0) c.base.polynomial = solved base := by
    rw [← (evaluate_statement_spec hp hvalues hsol hc.base_mem).2, ← hbase]
  have errors : (sol.evaluate q.polynomial).eval X -
      certificateForm multipliers base q.constraints = (solved base - base.form) +
        (weightedShares (multipliers.map solved) q.constraints -
          weightedShares (multipliers.map GramPart.form) q.constraints) := by
    rw [whole, certificateForm, ← own, identity]
    ring
  rw [errors]
  exact hsize.add (isBounded_weightedShares hsizes q.constraints)

/-! ## Reported subresiduals -/

variable {parts : List GramPart} (hparts : parts.map GramPart.statement = p.statements)
  (hgrams : sol.grams = parts.map (fun x => gridOf x.gram)) {forms : List (Expression Rat)}
  (hforms : approximations p sol = .ok forms)

include hparts hgrams hforms

theorem bounds_of_subresidualAt {k : ℕ} {x : GramPart} (hx : parts[k]? = some x)
    {eigenvalues : List Rat} {size : ℚ} (h : subresidualAt
      ⟨solvedPolynomials p sol, forms, eigenvalues⟩ x.statement.scope k = .ok size) :
    sol.Bounds x size := by
  have listed : p.statements[k]? = some x.statement := by
    rw [← hparts, List.getElem?_map, hx]
    rfl
  have gram : sol.grams[k]? = some (gridOf x.gram) := by
    rw [hgrams, List.getElem?_map, hx]
    rfl
  have hmem := List.mem_of_getElem? listed
  have regular := hp.statements _ hmem
  obtain ⟨form, norms, result, hnorms, rfl⟩ := exists_norms_of_subresidualAt hforms listed gram h
  obtain ⟨polynomial, value⟩ := SquareSum.gramForm_inversion regular result
  obtain ⟨evaluated, -, member⟩ := evaluate_spec hp hvalues regular.polynomial
    (hp.affine _ hmem) (hp.named _ hmem)
  rw [← hsol] at evaluated member
  have difference : (sol.evaluate x.statement.polynomial - form).eval X =
      (sol.evaluate x.statement.polynomial).eval X - x.form := by
    rw [Expression.eval_sub, value, GramPart.form]
  have within : (sol.evaluate x.statement.polynomial - form).eval X ∈
      scopePolynomials x.statement.scope := by
    rw [difference]
    exact sub_mem member (SquareSum.quadratic_mem _ _)
  rw [Solution.Bounds, ← difference]
  exact isBounded_of_coefficientNorms (Expression.isPolynomial_sub evaluated polynomial)
    regular.distinct within hnorms

theorem forall₂_bounds {r : ConstraintRecord Rat} {before own after : List GramPart}
    (hown : parts = before ++ own ++ after) (hcount : r.multiplierCount + 1 = own.length)
    (hscope : ∀ x ∈ own, x.statement.scope = r.scope) {eigenvalues sizes : List Rat}
    (h : (positionsFrom before.length r).mapM (subresidualAt
      ⟨solvedPolynomials p sol, forms, eigenvalues⟩ r.scope) = .ok sizes) :
    List.Forall₂ sol.Bounds own sizes := by
  have reported := mapM_eq_ok.mp h
  have length := reported.length_eq
  rw [positionsFrom, List.length_map, List.length_range, hcount, Int.toNat_natCast] at length
  refine List.forall₂_iff_get.mpr ⟨length, fun j hj hj' => ?_⟩
  have found : parts[before.length + j]? = some own[j] := by
    rw [hown, List.append_assoc, List.getElem?_append_right (by omega), Nat.add_sub_cancel_left,
      List.getElem?_append_left hj, List.getElem?_eq_getElem hj]
  have position : (positionsFrom before.length r)[j]? = some ((before.length + j : ℕ) : ℤ) := by
    have bound : j < (r.multiplierCount + 1).toNat := by omega
    simp [positionsFrom, bound]
  have size := related_at reported position (List.getElem?_eq_getElem hj')
  rw [← hscope _ (List.getElem_mem hj)] at size
  exact bounds_of_subresidualAt hp hvalues hsol hparts hgrams hforms found size

end

/-! ## Built relaxations -/

theorem GramPart.exists_of_statements {parts : List GramPart} {before after : List (SquareSum Rat)}
    {c : SquareProgram.Certificate}
    (h : parts.map GramPart.statement = before ++ c.statements ++ after) :
    ∃ start multipliers base rest, parts = start ++ (multipliers ++ [base]) ++ rest ∧
      start.length = before.length ∧ multipliers.map GramPart.statement = c.multipliers ∧
      base.statement = c.base := by
  obtain ⟨first, rest, rfl, hfirst, -⟩ := List.map_eq_append_iff.mp h
  obtain ⟨start, own, rfl, hstart, hown⟩ := List.map_eq_append_iff.mp hfirst
  obtain ⟨multipliers, last, rfl, hmultipliers, hlast⟩ := List.map_eq_append_iff.mp hown
  obtain ⟨base, rfl, hbase⟩ := List.map_eq_singleton_iff.mp hlast
  exact ⟨start, multipliers, base, rest, rfl, by rw [← hstart, List.length_map], hmultipliers,
    hbase⟩

theorem GramPart.statement_mem {multipliers : List GramPart} {base : GramPart}
    {c : SquareProgram.Certificate}
    (hmultipliers : multipliers.map GramPart.statement = c.multipliers)
    (hbase : base.statement = c.base) : ∀ x ∈ multipliers ++ [base], x.statement ∈ c.statements := by
  intro x hx
  rw [SquareProgram.Certificate.statements, ← hmultipliers, ← hbase]
  simpa using List.mem_map_of_mem (f := GramPart.statement) hx

/--
The subresiduals bound the error of a certificate.  At all values of the decisions, and for all
Gram matrices, the residuals of a built relaxation are computed.  For each record the forms of its
own Gram matrices certify its polynomial up to an error whose coefficients are at most the
subresidual of the base and those of the multipliers times the sizes of the inequalities.  If the
subresiduals are zero and the Gram matrices are positive semidefinite, then the polynomial is
nonnegative at every point where the inequalities hold.
-/
theorem isBounded_of_computeResiduals {s : HybridSystem Rat} {degree : Datum}
    {settings : Settings} {p : Problem Rat} {r : Relaxation Rat} (hs : s.IsPolynomial)
    (hpose : Problem.pose s degree settings = .ok p) (hbuild : p.build = .ok r)
    {values : List Rat} (hvalues : values.length = r.program.size) {sol : Solution Rat}
    (hsol : sol.values = Solution.valuesOf r.program values) {parts : List GramPart}
    (hparts : parts.map GramPart.statement = r.program.statements)
    (hgrams : sol.grams = parts.map (fun x => gridOf x.gram)) (eigenvalues : List Rat) :
    ∃ filled, computeResiduals r.records r.program sol eigenvalues = (filled, .ok ()) ∧
      ∀ (i : ℕ) (c : ConstraintRecord Rat), r.records[i]? = some c →
        ∃ c' multipliers base sizes size, filled[i]? = some c' ∧
          slice parts c.offset c.stop = multipliers ++ [base] ∧
          c'.subresidualMax = sizes ++ [size] ∧ c.multiplierCount = multipliers.length ∧
          multipliers.length = c.constraints.length ∧ sizes.length = multipliers.length ∧
          IsBounded (errorBound sizes size c.constraints) ((sol.evaluate c.polynomial).eval X -
            certificateForm multipliers base c.constraints) ∧
          ((∀ a ∈ c'.subresidualMax, a = 0) →
            (∀ x ∈ slice parts c.offset c.stop, x.IsPositive) →
              ∀ y : Symbol → ℝ, (∀ g ∈ c.constraints, 0 ≤ g.eval y) →
                0 ≤ (sol.evaluate c.polynomial).eval y) := by
  obtain ⟨wellPosed, -⟩ := Problem.isWellPosed_of_pose hs hpose
  obtain ⟨cs, relaxed⟩ := Problem.isRelaxedBy_of_build wellPosed hbuild
  have fits : List.Forall₂ SquareSum.FitsGram r.program.statements sol.grams := by
    rw [← hparts, hgrams, List.forall₂_map_left_iff, List.forall₂_map_right_iff]
    exact List.forall₂_same.mpr (fun x _ => ⟨x.gram, rfl⟩)
  obtain ⟨forms, filled, hforms, hfilled, -⟩ :=
    Problem.exists_fillRecords_of_build hs hpose hbuild hvalues hsol fits eigenvalues
  refine ⟨filled, by rw [computeResiduals, hforms]; exact hfilled, fun i c hc => ?_⟩
  obtain ⟨q, d, before, after, rfl, hq, secured, statements, start⟩ :=
    Problem.exists_certificate_at wellPosed hbuild hc
  obtain ⟨front, multipliers, base, rest, split, length, hmultipliers, hbase⟩ :=
    GramPart.exists_of_statements (hparts.trans statements)
  have count : multipliers.length = q.constraints.length := by
    rw [← secured.weights.length_eq, ← hmultipliers, List.length_map]
  have own : slice parts (Assembly.recordOf q p.degree.value before.length).offset
      (Assembly.recordOf q p.degree.value before.length).stop = multipliers ++ [base] := by
    have part := slice_append front (multipliers ++ [base]) rest
    rw [length, List.length_append, List.length_singleton, count, ← split] at part
    push_cast [← add_assoc] at part
    exact part
  have listed := GramPart.statement_mem hmultipliers hbase
  have scopes : ∀ x ∈ multipliers ++ [base], x.statement.scope = q.scope :=
    fun x hx => secured.scope_eq _ (listed x hx)
  have regular : ∀ x ∈ multipliers ++ [base], x.statement.IsRegular := by
    intro x hx
    refine relaxed.regular.statements _ ?_
    rw [statements]
    exact List.mem_append_left _ (List.mem_append_right _ (listed x hx))
  obtain ⟨c', hc', reported⟩ := fillRecords_inversion hfilled hc
  rw [zero_add, start, ← length] at reported
  have bounds := forall₂_bounds relaxed.regular hvalues hsol hparts hgrams hforms split
    (r := Assembly.recordOf q p.degree.value before.length)
    (by rw [List.length_append, List.length_singleton, count]; rfl) scopes reported
  obtain ⟨sizes, size, hsizes, each, last⟩ := exists_last_right bounds
  have error := isBounded_sub_certificateForm relaxed.regular hvalues hsol hq secured hmultipliers
    hbase each last
  refine ⟨c', multipliers, base, sizes, size, hc', own, hsizes, by rw [count]; rfl, count,
    each.length_eq.symm, error, fun zeros positive y hy => ?_⟩
  rw [own] at positive
  rw [hsizes] at zeros
  rw [Expression.eval_eq_aeval]
  exact aeval_nonneg_of_zeros error zeros regular positive hy

theorem isBounded_of_computeResiduals_parkingSystem : ∃ p r parts sol filled,
    Problem.pose parkingSystem (.integer 2) Settings.defaults = .ok p ∧ p.build = .ok r ∧
      parts.map GramPart.statement = r.program.statements ∧
      sol.grams = parts.map (fun x => gridOf x.gram) ∧
      computeResiduals r.records r.program sol [] = (filled, .ok ()) ∧
      ∀ (i : ℕ) (c : ConstraintRecord Rat), r.records[i]? = some c →
        ∃ c' multipliers base sizes size, filled[i]? = some c' ∧
          slice parts c.offset c.stop = multipliers ++ [base] ∧
          c'.subresidualMax = sizes ++ [size] ∧
          IsBounded (errorBound sizes size c.constraints) ((sol.evaluate c.polynomial).eval X -
            certificateForm multipliers base c.constraints) := by
  obtain ⟨p, r, posed, built, -⟩ := exists_relaxation_parkingSystem (n := 2) (by decide)
  let parts : List GramPart := r.program.statements.map (fun s => ⟨s, 1⟩)
  have statements : parts.map GramPart.statement = r.program.statements := by
    simp [parts, Function.comp_def]
  have grams : r.program.unitSolution.grams = parts.map (fun x => gridOf x.gram) := by
    simp [parts, SquareProgram.unitSolution, Function.comp_def]
  obtain ⟨filled, computed, each⟩ := isBounded_of_computeResiduals isPolynomial_parkingSystem posed
    built List.length_replicate rfl statements grams []
  refine ⟨p, r, parts, r.program.unitSolution, filled, posed, built, statements, grams, computed,
    fun i c hc => ?_⟩
  obtain ⟨c', multipliers, base, sizes, size, hc', own, hsizes, -, -, -, error, -⟩ := each i c hc
  exact ⟨c', multipliers, base, sizes, size, hc', own, hsizes, error⟩

end HybridRelaxation
