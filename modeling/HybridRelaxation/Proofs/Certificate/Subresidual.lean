import Mathlib
import HybridRelaxation.Proofs.Certificate.CoefficientNorms
import HybridRelaxation.Proofs.Certificate.Filling
import HybridRelaxation.Proofs.SquareSum.Evaluation
import HybridRelaxation.Proofs.SquareSum.QuadraticForm

/-!
# Equations and subresiduals

The equations of a statement and its quadratic form are worked out separately, the one from pairs of
exponent vectors and the other by multiplying expressions.  They agree: the gap of each equation is a
coefficient of the polynomial less the quadratic form, and the subresidual that is reported for a
statement is the largest violation of its equations.
-/

namespace HybridRelaxation

open MvPolynomial (C X coeff)

/-! ## Columns -/

section

variable {index : List (Symbol × ℤ)} {s : Symbol} {j : ℤ}

theorem mem_of_columnIn (h : columnIn index s = some j) : (s, j) ∈ index := by
  obtain ⟨entry, hfound, rfl⟩ := Option.map_eq_some_iff.mp h
  have key : entry.1 = s := by simpa using List.find?_some hfound
  rw [← key]
  exact List.mem_reverse.mp (List.mem_of_find?_eq_some hfound)

theorem exists_columnIn (h : s ∈ index.map Prod.fst) : ∃ j, columnIn index s = some j := by
  obtain ⟨entry, hentry, rfl⟩ := List.mem_map.mp h
  cases found : columnIn index entry.1 with
  | some j => exact ⟨j, rfl⟩
  | none =>
      rw [columnIn, Option.map_eq_none_iff, List.find?_eq_none] at found
      exact absurd (by simp) (found entry (List.mem_reverse.mpr hentry))

theorem columnIn_of_mem (hdistinct : (index.map Prod.fst).Nodup) (h : (s, j) ∈ index) :
    columnIn index s = some j := by
  obtain ⟨k, hk⟩ := exists_columnIn (List.mem_map_of_mem (f := Prod.fst) h)
  have same := List.inj_on_of_nodup_map hdistinct h (mem_of_columnIn hk) rfl
  rw [hk, (Prod.mk.inj same).2]

end

def valuesAt {n : ℕ} (index : List (Symbol × ℤ)) (free : Fin n → Rat) : List (Symbol × Rat) :=
  index.map (fun entry => (entry.1, columnValues free entry.2))

theorem keys_valuesAt {n : ℕ} (index : List (Symbol × ℤ)) (free : Fin n → Rat) :
    (valuesAt index free).map Prod.fst = index.map Prod.fst := by
  rw [valuesAt, List.map_map]
  rfl

/-- An index of decisions, in which a polynomial over a scope is affine. -/
structure IsIndexed (e : Expression Rat) (scope : List Symbol) (index : List (Symbol × ℤ))
    (columns : ℕ) : Prop where
  distinct : (index.map Prod.fst).Nodup
  fresh : ∀ s ∈ index.map Prod.fst, s ∉ scope
  columns : ∀ entry ∈ index, 0 ≤ entry.2 ∧ entry.2 < columns
  affine : e.eval X ∈ affineSpan scope (index.map Prod.fst)

/-! ## Violations -/

namespace Matching

variable {n size : ℕ}

/-- By how much an equation is missed at free values and a Gram matrix. -/
def missedBy (m : Matching Rat) (free : Fin n → Rat) (G : Matrix (Fin size) (Fin size) Rat)
    (row : MatchingRow Rat) : Rat :=
  row.violation (List.ofFn free) (triangle (gridOf G) m.pairs)

theorem entry_gridOf (G : Matrix (Fin size) (Fin size) Rat) (i j : ℕ) :
    (Grid.entry? (gridOf G) i j).getD 0 = entriesOf G i j := by
  unfold entriesOf
  by_cases hi : i < size <;> by_cases hj : j < size <;>
    simp [Grid.entry?, gridOf, hi, hj]

theorem machineSum_rat (xs : List Rat) : Scalar.machineSum xs = xs.sum := by
  rw [List.sum_eq_foldl]
  rfl

theorem missedBy_eq_gap (m : Matching Rat) (free : Fin n → Rat)
    (G : Matrix (Fin size) (Fin size) Rat) {row : MatchingRow Rat}
    (hfits : ∀ entry ∈ row.free, 0 ≤ entry.1 ∧ entry.1 < n) :
    m.missedBy free G row = row.gap (columnValues free)
      (m.pairs.map (fun pair => entriesOf G pair.1 pair.2)) := by
  have left : inner row.free (List.ofFn free) =
      row.free.map (fun entry => entry.2 * columnValues free entry.1) := by
    refine List.map_congr_left (fun entry hentry => ?_)
    obtain ⟨nonneg, bound⟩ := hfits entry hentry
    have inside : entry.1.toNat < n := by omega
    simp [columnValues, nonneg, inside]
  have upper : triangle (gridOf G) m.pairs =
      m.pairs.map (fun pair => entriesOf G pair.1 pair.2) :=
    List.map_congr_left (fun pair _ => entry_gridOf G pair.1 pair.2)
  have negated : (row.gram.map (fun entry => -(entry.2 *
      ((m.pairs.map (fun pair => entriesOf G pair.1 pair.2))[entry.1]?).getD 0))).sum =
        -(row.gram.map (fun entry => algebraMap ℚ ℚ entry.2 *
          ((m.pairs.map (fun pair => entriesOf G pair.1 pair.2))[entry.1]?).getD 0)).sum := by
    rw [List.sum_neg, List.map_map]
    rfl
  rw [missedBy, MatchingRow.violation, machineSum_rat, left, upper, List.sum_append,
    List.sum_append, List.sum_singleton, MatchingRow.gap, rowValue, sub_eq_add_neg, sub_eq_add_neg]
  exact congrArg₂ (· + ·) (congrArg₂ (· + ·) rfl negated) rfl

def largestViolation (m : Matching Rat) (free : Fin n → Rat)
    (G : Matrix (Fin size) (Fin size) Rat) : Rat :=
  ((m.violations (List.ofFn free) (gridOf G)).map (fun c => |c|)).foldl max 0

/-- The equations are those between the coefficients of two polynomials over a scope. -/
structure Compares (m : Matching Rat) (scope : List Symbol) (free : Fin n → Rat)
    (G : Matrix (Fin size) (Fin size) Rat) (solved form : Expression Rat) : Prop where
  listed : ∀ row ∈ m.rows,
    m.missedBy free G row = coeff (monomialPowers scope row.exponents) ((solved - form).eval X)
  others : ∀ v : Symbol →₀ ℕ, (∀ row ∈ m.rows, monomialPowers scope row.exponents ≠ v) →
    coeff v ((solved - form).eval X : MvPolynomial Symbol ℚ) = 0
  holds_iff : (∀ row ∈ m.rows, m.missedBy free G row = 0) ↔
    solved.eval (X : Symbol → MvPolynomial Symbol ℚ) = form.eval X

end Matching

namespace SquareSum

variable {s : SquareSum Rat} (hs : s.IsRegular) {index : List (Symbol × ℤ)} {n : ℕ}
  (hindex : IsIndexed s.polynomial s.scope index n) {m : Matching Rat}
  (hm : s.matching (columnIn index) n = .ok m) (free : Fin n → Rat)
  {G : Matrix (Fin s.gramSize) (Fin s.gramSize) Rat} (hG : G.IsSymm)
  {form : Expression Rat} (hform : s.gramForm (gridOf G) = .ok form)

def columnPoint {n : ℕ} (index : List (Symbol × ℤ)) (free : Fin n → Rat) (t : Symbol) : Rat :=
  ((columnIn index t).map (columnValues free)).getD 0

theorem columnPoint_of_columnIn {n : ℕ} (index : List (Symbol × ℤ)) (free : Fin n → Rat)
    (t : Symbol) (j : ℤ) (h : columnIn index t = some j) :
    columnPoint index free t = columnValues free j := by
  rw [columnPoint, h]
  rfl

theorem quadratic_mem (s : SquareSum Rat) (g : ℕ → ℕ → ℚ) : s.quadratic g ∈ scopePolynomials s.scope := by
  refine sum_mem (fun i _ => sum_mem (fun j _ => ?_))
  rw [← mul_one (g i j), ← MvPolynomial.C_mul_monomial, ← monomialValue_X]
  exact mul_mem ((scopePolynomials s.scope).algebraMap_mem _)
    (monomialValue_mem (fun t ht => X_mem_scopePolynomials ht) _)

include hs hform

theorem gramForm_inversion : form.IsPolynomial ∧
    form.eval (X : Symbol → MvPolynomial Symbol ℚ) = s.quadratic (entriesOf G) := by
  by_cases hempty : s.basis = []
  · rw [gramForm_of_isEmpty hempty] at hform
    simp at hform
  · obtain ⟨f, hf, polynomial, value⟩ := gramForm_spec hs.natural hempty G
    obtain rfl := Except.ok.inj (hform.symm.trans hf)
    exact ⟨polynomial, value⟩

include hindex

omit hform in
theorem eval_solved :
    (evaluate s.polynomial (valuesAt index free)).eval X =
      s.polynomial.eval (scopePoint s.scope (columnPoint index free)) := by
  refine eval_evaluate_scopePoint hs.polynomial (by rw [keys_valuesAt]; exact hindex.distinct)
    (by rw [keys_valuesAt]; exact hindex.fresh) (by rw [keys_valuesAt]; exact hindex.affine)
    (fun entry hentry => ?_)
  obtain ⟨⟨t, j⟩, hmem, rfl⟩ := List.mem_map.mp hentry
  rw [columnPoint, columnIn_of_mem hindex.distinct hmem]
  rfl

theorem eval_solved_sub_form : (evaluate s.polynomial (valuesAt index free) - form).eval X =
    s.difference (columnPoint index free) (entriesOf G) := by
  rw [Expression.eval_sub, eval_solved hs hindex, (gramForm_inversion hs hform).2, difference]

include hm hG

/-- Equations are found for the monomials in which the two sides can differ. -/
theorem missedBy_eq_coeff {row : MatchingRow Rat} (hrow : row ∈ m.rows) :
    row.exponents.IsNatural s.scope.length ∧ m.missedBy free G row =
      coeff (monomialPowers s.scope row.exponents)
        ((evaluate s.polynomial (valuesAt index free) - form).eval X) := by
  obtain ⟨rows, pairs⟩ := matching_inversion hm
  obtain ⟨v, hv, hok⟩ := exists_left_of_mem rows hrow
  have natural := hs.isNatural_of_mem hv
  obtain rfl := exponents_of_matchingRow hok
  have value := hs.gap_eq_coeff (columnPoint_of_columnIn index free) (entriesOf_symm hG) natural hok
  rw [m.missedBy_eq_gap free G (fun entry hentry => fits_of_matching hm hrow hentry), pairs, value,
    eval_solved_sub_form hs hindex free hform]
  exact ⟨natural, rfl⟩

theorem coeff_eq_zero_of_notMem {v : Exponents} (hv : v.IsNatural s.scope.length)
    (hnot : ∀ row ∈ m.rows, row.exponents ≠ v) :
    coeff (monomialPowers s.scope v)
      ((evaluate s.polynomial (valuesAt index free) - form).eval X : MvPolynomial Symbol ℚ) = 0 := by
  obtain ⟨rows, -⟩ := matching_inversion hm
  rw [eval_solved_sub_form hs hindex free hform]
  refine hs.coeff_difference_eq_zero (entriesOf_symm hG) hv (fun hmem => ?_)
  obtain ⟨row, hrow, hok⟩ := exists_right_of_mem rows hmem
  exact hnot row hrow (exponents_of_matchingRow hok)

theorem compares : m.Compares s.scope free G (evaluate s.polynomial (valuesAt index free)) form := by
  refine ⟨fun row hrow => (missedBy_eq_coeff hs hindex hm free hG hform hrow).2,
    fun v hv => ?_, ?_⟩
  · by_contra hne
    have hover : IsOver s.scope (s.difference (columnPoint index free) (entriesOf G)) :=
      (isOver_of_coefficients _ hs.polynomial hs.coefficients).sub (hs.isOver_quadratic _)
    rw [← eval_solved_sub_form hs hindex free hform] at hover
    obtain ⟨e, he, rfl⟩ := hover v hne
    refine hne (coeff_eq_zero_of_notMem hs hindex hm free hG hform he (fun row hrow heq => ?_))
    exact hv row hrow (by rw [heq])
  · have equations : (∀ row ∈ m.rows, m.missedBy free G row = 0) ↔ ∀ row ∈ m.rows,
        row.gap (columnValues free) (m.pairs.map (fun pair => entriesOf G pair.1 pair.2)) = 0 :=
      forall₂_congr (fun row hrow => by
        rw [m.missedBy_eq_gap free G (fun entry hentry => fits_of_matching hm hrow hentry)])
    rw [equations, eval_solved hs hindex, (gramForm_inversion hs hform).2]
    exact hs.matching_iff (columnPoint_of_columnIn index free) (entriesOf_symm hG) hm

theorem coefficientNorms_solved_sub_form : ∃ norms, coefficientNorms
    (evaluate s.polynomial (valuesAt index free) - form) s.scope = .ok norms ∧
      norms.max = m.largestViolation free G := by
  obtain ⟨polynomial, value⟩ := gramForm_inversion hs hform
  have member : (evaluate s.polynomial (valuesAt index free) - form).eval X ∈
      scopePolynomials s.scope := by
    rw [Expression.eval_sub, eval_solved hs hindex, value]
    exact sub_mem (eval_scopePoint_mem _ _) (s.quadratic_mem _)
  obtain ⟨norms, hnorms, nonneg, bound, least⟩ := coefficientNorms_spec
    (Expression.isPolynomial_sub (isPolynomial_evaluate hs.polynomial) polynomial) hs.distinct member
  refine ⟨norms, hnorms, le_antisymm (least _ ?_ (fun v hv => ?_))
    (foldl_max_le.mpr ⟨nonneg, fun x hx => ?_⟩)⟩
  · exact (foldl_max_le.mp le_rfl).1
  · by_cases hlisted : ∃ row ∈ m.rows, row.exponents = v
    · obtain ⟨row, hrow, rfl⟩ := hlisted
      rw [← (missedBy_eq_coeff hs hindex hm free hG hform hrow).2]
      exact (foldl_max_le.mp le_rfl).2 _
        (List.mem_map_of_mem (List.mem_map_of_mem (f := m.missedBy free G) hrow))
    · push Not at hlisted
      rw [coeff_eq_zero_of_notMem hs hindex hm free hG hform hv hlisted, abs_zero]
      exact (foldl_max_le.mp le_rfl).1
  · obtain ⟨_, hviolation, rfl⟩ := List.mem_map.mp hx
    obtain ⟨row, hrow, rfl⟩ := List.mem_map.mp hviolation
    obtain ⟨natural, gap⟩ := missedBy_eq_coeff hs hindex hm free hG hform hrow
    change |m.missedBy free G row| ≤ _
    rw [gap]
    exact bound _ natural

end SquareSum

/-! ## Reported subresiduals -/

/-- The position of the first statement of each record. -/
def recordStart (records : List (ConstraintRecord Rat)) (i : ℕ) : ℤ :=
  ((records.take i).map (fun r => r.multiplierCount + 1)).sum

theorem recordStart_cons_succ (r : ConstraintRecord Rat) (records : List (ConstraintRecord Rat))
    (i : ℕ) : recordStart (r :: records) (i + 1) = r.multiplierCount + 1 + recordStart records i := by
  simp [recordStart]

section

variable {solved : SolvedStatements Rat} {sol : Solution Rat}

theorem fillRecords_inversion {start : ℤ} {records filled : List (ConstraintRecord Rat)}
    (h : fillRecords solved sol start records = (filled, .ok ())) {i : ℕ}
    {r : ConstraintRecord Rat} (hr : records[i]? = some r) :
    ∃ r', filled[i]? = some r' ∧
      (positionsFrom (start + recordStart records i) r).mapM (subresidualAt solved r.scope) =
        .ok r'.subresidualMax := by
  obtain ⟨r', hr', hfilled⟩ := (fillRecords_at h).2 i r hr
  obtain ⟨_, _, _, _, _, _, hsizes, rfl⟩ := fillRecord_eq_ok.mp hfilled
  exact ⟨_, hr', hsizes⟩

theorem entryAt_eq_ok {α : Type} {xs : List α} {k : ℕ} {x : α} :
    entryAt xs k = .ok x ↔ xs[k]? = some x := by
  rw [entryAt, entryAt?_natCast]
  cases xs[k]? <;> simp

theorem subresidualAt_inversion {scope : List Symbol} {k : ℕ} {size : Rat}
    (h : subresidualAt solved scope k = .ok size) {e : Expression Rat}
    (he : solved.polynomials[k]? = some e) {form : Expression Rat}
    (hform : solved.forms[k]? = some form) :
    ∃ norms, coefficientNorms (e - form) scope = .ok norms ∧ norms.max = size := by
  obtain ⟨e', he', h⟩ := bind_eq_ok.mp h
  obtain ⟨form', hform', h⟩ := bind_eq_ok.mp h
  obtain rfl := Option.some.inj (he.symm.trans (entryAt_eq_ok.mp he'))
  obtain rfl := Option.some.inj (hform.symm.trans (entryAt_eq_ok.mp hform'))
  exact map_eq_ok.mp h

end

theorem exists_norms_of_subresidualAt {p : SquareProgram Rat} {sol : Solution Rat}
    {forms : List (Expression Rat)} (hforms : approximations p sol = .ok forms) {k : ℕ}
    {s : SquareSum Rat} (hs : p.statements[k]? = some s) {gram : Grid Rat}
    (hgram : sol.grams[k]? = some gram) {scope : List Symbol} {eigenvalues : List Rat} {size : Rat}
    (h : subresidualAt ⟨solvedPolynomials p sol, forms, eigenvalues⟩ scope k = .ok size) :
    ∃ form norms, s.gramForm gram = .ok form ∧
      coefficientNorms (sol.evaluate s.polynomial - form) scope = .ok norms ∧ norms.max = size := by
  obtain ⟨form, hform, result⟩ := exists_right_at (mapM_eq_ok.mp hforms)
    (x := (s, gram)) (List.getElem?_zip_eq_some.mpr ⟨hs, hgram⟩)
  have solved : (solvedPolynomials p sol)[k]? = some (sol.evaluate s.polynomial) := by
    rw [solvedPolynomials, List.getElem?_map, hs]
    rfl
  obtain ⟨norms, hnorms, max⟩ := subresidualAt_inversion h solved hform
  exact ⟨form, norms, result, hnorms, max⟩

theorem subresidual_of_computeResiduals {p : SquareProgram Rat} {sol : Solution Rat}
    {records filled : List (ConstraintRecord Rat)} {eigenvalues : List Rat}
    (h : computeResiduals records p sol eigenvalues = (filled, .ok ())) {i j k : ℕ}
    {r : ConstraintRecord Rat} (hr : records[i]? = some r) (hj : j ≤ r.multiplierCount)
    (hk : recordStart records i + j = k) {s : SquareSum Rat} (hs : p.statements[k]? = some s)
    {gram : Grid Rat} (hgram : sol.grams[k]? = some gram) :
    ∃ r' size, filled[i]? = some r' ∧ r'.subresidualMax[j]? = some size ∧
      ∃ form norms, s.gramForm gram = .ok form ∧
        coefficientNorms (sol.evaluate s.polynomial - form) r.scope = .ok norms ∧ norms.max = size := by
  have position : (positionsFrom (recordStart records i) r)[j]? = some (k : ℤ) := by
    have bound : j < (r.multiplierCount + 1).toNat := by omega
    simp [positionsFrom, bound, hk]
  cases hforms : approximations p sol with
  | error f => simp [computeResiduals, residualsFrom, hforms] at h
  | ok forms =>
      rw [computeResiduals, hforms] at h
      obtain ⟨r', hr', sizes⟩ := fillRecords_inversion h hr
      rw [zero_add] at sizes
      obtain ⟨size, hsize, reported⟩ := exists_right_at (mapM_eq_ok.mp sizes) position
      exact ⟨r', size, hr', hsize, exists_norms_of_subresidualAt hforms hs hgram reported⟩

/-! ## Agreement -/

/--
The equations of a statement and its quadratic form agree.  Exactly over an empty basis there is no
quadratic form.  Over any other basis the equations compare the coefficients of the polynomial and
of the form, and a reported subresidual is the largest violation of the equations.
-/
theorem exists_matching_compares {e : Expression Rat} (he : e.IsPolynomial) {scope : List Symbol}
    (hscope : scope.Nodup) {basis : List Exponents}
    (hbasis : ∀ v ∈ basis, v.IsNatural scope.length) {index : List (Symbol × ℤ)} {n : ℕ}
    (hindex : IsIndexed e scope index n) (name : String) :
    ∃ s m, SquareSum.ofBasis e scope basis name = .ok s ∧
      s.matching (columnIn index) n = .ok m ∧
      ∀ (free : Fin n → Rat) (G : Matrix (Fin s.gramSize) (Fin s.gramSize) Rat), G.IsSymm →
        (s.gramForm (gridOf G) = .error .outOfRange ↔ basis = []) ∧
        (basis ≠ [] → ∃ form, s.gramForm (gridOf G) = .ok form ∧
          m.Compares scope free G (evaluate e (valuesAt index free)) form) ∧
        ∀ (p : SquareProgram Rat) (sol : Solution Rat) (eigenvalues : List Rat)
          (records filled : List (ConstraintRecord Rat)),
          computeResiduals records p sol eigenvalues = (filled, .ok ()) →
            ∀ (i j k : ℕ) (r : ConstraintRecord Rat), records[i]? = some r → r.scope = scope →
              j ≤ r.multiplierCount → recordStart records i + j = k → p.statements[k]? = some s →
                sol.grams[k]? = some (gridOf G) → sol.values = valuesAt index free →
                  ∃ r', filled[i]? = some r' ∧
                    r'.subresidualMax[j]? = some (m.largestViolation free G) := by
  obtain ⟨coefficients, hcoefficients, -⟩ := exists_coefficients.{0} he scope
  let s : SquareSum Rat := ⟨e, scope, basis, name, coefficients⟩
  have registered : SquareSum.ofBasis e scope basis name = .ok s := by
    rw [SquareSum.ofBasis, hcoefficients]
    rfl
  have regular : s.IsRegular := ⟨he, hscope, hbasis, hcoefficients⟩
  obtain ⟨m, hm⟩ := regular.exists_matching hindex.fresh hindex.affine
    (fun t ht => exists_columnIn ht) (fun t j hj => hindex.columns _ (mem_of_columnIn hj))
  refine ⟨s, m, registered, hm, fun free G hG => ⟨⟨fun h => ?_, fun h => ?_⟩, fun h => ?_, ?_⟩⟩
  · by_contra hne
    obtain ⟨form, hform, -⟩ := SquareSum.gramForm_spec regular.natural hne G
    rw [hform] at h
    simp at h
  · exact SquareSum.gramForm_of_isEmpty h G
  · obtain ⟨form, hform, -⟩ := SquareSum.gramForm_spec regular.natural h G
    exact ⟨form, hform, SquareSum.compares regular hindex hm free hG hform⟩
  · intro p sol eigenvalues records filled h i j k r hr hscope hj hk hs hgram hvalues
    obtain ⟨r', size, hr', hsize, form, norms, hform, hnorms, hmax⟩ :=
      subresidual_of_computeResiduals h hr hj hk hs hgram
    obtain ⟨norms', hnorms', hviolation⟩ :=
      SquareSum.coefficientNorms_solved_sub_form regular hindex hm free hG hform
    rw [Solution.evaluate, hvalues, hscope] at hnorms
    obtain rfl := Except.ok.inj (hnorms.symm.trans hnorms')
    exact ⟨r', hr', by rw [hsize, ← hmax, hviolation]⟩

theorem exists_matching_compares_decision : ∃ s m form,
    SquareSum.ofBasis (.ofSymbol (.decision 0 "c")) [.named "x"] [[0], [1]] "" = .ok s ∧
      s.matching (columnIn [(.decision 0 "c", 0)]) 1 = .ok m ∧
      s.gramForm (gridOf (1 : Matrix (Fin s.gramSize) (Fin s.gramSize) Rat)) = .ok form ∧
      m.Compares [.named "x"] ![2] (1 : Matrix (Fin s.gramSize) (Fin s.gramSize) Rat)
        (evaluate (.ofSymbol (.decision 0 "c")) (valuesAt [(.decision 0 "c", 0)] ![2])) form := by
  have natural : ∀ v ∈ ([[0], [1]] : List Exponents), v.IsNatural 1 := by simp
  have indexed : IsIndexed (.ofSymbol (.decision 0 "c")) [.named "x"] [(.decision 0 "c", 0)] 1 := by
    refine ⟨by simp, by simp, by simp, ?_⟩
    rw [Expression.eval_ofSymbol]
    exact X_mem_affineSpan (by simp)
  obtain ⟨s, m, hs, hm, agree⟩ := exists_matching_compares (Expression.isPolynomial_ofSymbol _)
    (List.nodup_singleton (Symbol.named "x")) natural indexed ""
  obtain ⟨-, compares, -⟩ := agree ![2] 1 (Matrix.transpose_one)
  obtain ⟨form, hform, compares⟩ := compares (by simp)
  exact ⟨s, m, form, hs, hm, hform, compares⟩

end HybridRelaxation
