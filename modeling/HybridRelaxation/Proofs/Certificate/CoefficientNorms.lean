import Mathlib
import HybridRelaxation.Certificate.Residual
import HybridRelaxation.Proofs.Polynomial.AffineSpan

/-!
# Sizes of polynomials

A polynomial in a scope has numbers as its coefficients.  The largest of them in size bounds all
coefficients of the polynomial, and it is reached unless the polynomial is zero.
-/

namespace HybridRelaxation

open MvPolynomial (C X coeff)

/-! ## Numbers -/

theorem abs_rat (c : Rat) : Scalar.abs c = |c| := by
  change (if c < 0 then -c else c) = |c|
  by_cases h : c < 0
  · rw [if_pos h, abs_of_neg h]
  · rw [if_neg h, abs_of_nonneg (not_lt.mp h)]

theorem largest_rat (xs : List Rat) : largest xs = xs.foldl max 0 := by
  have larger : (largerDefined : Rat → Rat → Rat) = max := by
    funext a b
    change (if a < b then b else a) = max a b
    rw [max_def_lt]
  rw [largest, larger]
  rfl

theorem foldl_max_le {α : Type} [LinearOrder α] {xs : List α} {a b : α} :
    xs.foldl max a ≤ b ↔ a ≤ b ∧ ∀ x ∈ xs, x ≤ b := by
  induction xs generalizing a with
  | nil => simp
  | cons x xs ih =>
      rw [List.foldl_cons, ih, max_le_iff, List.forall_mem_cons, and_assoc]

theorem Expression.IsCanonical.eq_number {e : Expression Rat} (he : e.IsCanonical) {a : ℚ}
    (h : e.eval (X : Symbol → MvPolynomial Symbol ℚ) = C a) : e = .number a := by
  classical
  have constant {c : Rat} {p : Product Rat} (hmem : (c, p) ∈ e.terms) : p = .one ∧ c = a := by
    have monomial := he.monomials _ hmem
    have coefficient := he.coeff_of_mem hmem
    rw [h, MvPolynomial.coeff_C] at coefficient
    by_cases hzero : 0 = p.exponent
    · rw [if_pos hzero] at coefficient
      exact ⟨monomial.eq_of_exponent .one hzero.symm, coefficient.symm⟩
    · rw [if_neg hzero] at coefficient
      exact absurd coefficient.symm (he.nonzero _ hmem)
  cases e with
  | zero =>
      have zero : a = 0 := by simpa using h.symm
      simp [zero, Expression.number]
  | plus c p rest =>
      obtain ⟨rfl, rfl⟩ := constant (c := c) (p := p) (by simp)
      obtain ⟨hc, -, hnot, -⟩ := Expression.isCanonical_plus.mp he
      cases rest with
      | zero => simp [Expression.number, hc]
      | plus d q rest =>
          obtain ⟨rfl, -⟩ := constant (c := d) (p := q) (by simp)
          simp at hnot

/-! ## Norms -/

section

variable {e : Expression Rat} {scope : List Symbol} (he : e.IsPolynomial) (hscope : scope.Nodup)
  (hmem : e.eval X ∈ scopePolynomials scope)

include he hscope hmem

theorem eq_number_of_coefficients {m : CoefficientMap Rat} (hm : coefficients e scope = .ok m)
    {v : Exponents} (hv : v.IsNatural scope.length) :
    m.coefficientAt v = .number (coeff (monomialPowers scope v) (e.eval X)) := by
  have regular := isRegular_of_coefficients he hm
  have value := coeff_of_coefficients (X : Symbol → MvPolynomial Symbol ℚ) he hscope hm hv
  rw [Expression.eval_eq_aeval, aeval_scopePoint _ hmem, MvPolynomial.coeff_map] at value
  exact (CoefficientMap.isCanonical_coefficientAt regular v).eq_number value.symm

theorem coefficientNorms_spec : ∃ norms, coefficientNorms e scope = .ok norms ∧ 0 ≤ norms.max ∧
    (∀ v : Exponents, v.IsNatural scope.length →
      |coeff (monomialPowers scope v) (e.eval X : MvPolynomial Symbol ℚ)| ≤ norms.max) ∧
    ∀ b, 0 ≤ b → (∀ v : Exponents, v.IsNatural scope.length →
      |coeff (monomialPowers scope v) (e.eval X : MvPolynomial Symbol ℚ)| ≤ b) →
        norms.max ≤ b := by
  obtain ⟨m, hm, regular, -⟩ := exists_coefficients.{0} he scope
  let value (t : Exponents × Expression Rat) : ℚ :=
    coeff (monomialPowers scope t.1) (e.eval X : MvPolynomial Symbol ℚ)
  have number {v : Exponents} (hv : v.IsNatural scope.length) :=
    eq_number_of_coefficients he hscope hmem hm hv
  have numbers : m.mapM (fun part => part.2.machineValue) = .ok (m.map value) := by
    refine mapM_eq_ok.mpr (List.forall₂_map_right_iff.mpr (List.forall₂_same.mpr (fun t ht => ?_)))
    have listed := CoefficientMap.coefficientAt_of_mem regular (v := t.1) (c := t.2) ht
    rw [← listed, number (regular.vectors t ht), machineValue_number]
  have sizes : largest ((m.map value).map Scalar.abs) = (m.map (fun t => |value t|)).foldl max 0 := by
    rw [largest_rat, List.map_map]
    exact congrArg (List.foldl max 0) (List.map_congr_left (fun t _ => abs_rat (value t)))
  refine ⟨⟨largest ((m.map value).map Scalar.abs), Scalar.machineSum ((m.map value).map Scalar.abs)⟩,
    ?_, ?_, fun v hv => ?_, fun b hb hall => ?_⟩
  · simp only [coefficientNorms, hm, ok_bind, numbers]
  · rw [sizes]
    exact (foldl_max_le.mp le_rfl).1
  · rw [sizes]
    by_cases hlisted : v ∈ m.map Prod.fst
    · obtain ⟨t, ht, rfl⟩ := List.mem_map.mp hlisted
      exact (foldl_max_le.mp le_rfl).2 _ (List.mem_map.mpr ⟨t, ht, rfl⟩)
    · have absent := number hv
      rw [CoefficientMap.coefficientAt_of_notMem hlisted] at absent
      have zero := congrArg (Expression.eval (fun _ => (0 : ℚ))) absent
      rw [Expression.eval_zero, Expression.eval_number] at zero
      have vanishes : coeff (monomialPowers scope v) (e.eval X : MvPolynomial Symbol ℚ) = 0 :=
        zero.symm
      rw [vanishes, abs_zero]
      exact (foldl_max_le.mp le_rfl).1
  · rw [sizes]
    refine foldl_max_le.mpr ⟨hb, fun x hx => ?_⟩
    obtain ⟨t, ht, rfl⟩ := List.mem_map.mp hx
    exact hall t.1 (regular.vectors t ht)

end

end HybridRelaxation
