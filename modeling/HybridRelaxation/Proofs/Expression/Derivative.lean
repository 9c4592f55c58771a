import Mathlib
import HybridRelaxation.Expression.Derivative
import HybridRelaxation.Proofs.Expression.Power

/-!
# Values of derivatives

The partial derivative of a polynomial expression is polynomial.  Where a derivation takes the
values of the symbols to zero, except one to that of the symbol itself, it takes the value of an
expression to the value of its derivative.
-/

namespace HybridRelaxation

variable {R : Type*} [CommRing R] [Algebra ℚ R] (ρ : Symbol → R)

theorem Base.toExpression_spec {b : Base Rat} (hb : b.IsPolynomial) :
    b.toExpression.IsPolynomial ∧ b.toExpression.eval ρ = b.eval ρ := by
  cases b with
  | symbol s => simp [Base.toExpression]
  | group e => simpa [Base.toExpression] using hb.2
  | constant c => simp at hb
  | number c => simp at hb
  | apply f e => simp at hb

theorem powerDerivative_spec {b : Base Rat} (hb : b.IsPolynomial) (n : ℕ)
    {base : Expression Rat} (hbase : base.IsPolynomial) (exponent : Expression Rat) :
    (powerDerivative b (.integer (n + 1)) base exponent).IsPolynomial ∧
      (powerDerivative b (.integer (n + 1)) base exponent).eval ρ =
        (n + 1 : ℕ) • b.eval ρ ^ n * base.eval ρ := by
  obtain ⟨polynomial, value⟩ := Base.toExpression_spec ρ hb
  obtain ⟨power, raised⟩ := Expression.intPower_spec ρ polynomial n
  have form : powerDerivative b (.integer (n + 1)) base exponent =
      .product [.number ((n + 1 : ℕ) : Rat), b.toExpression.intPower n, base] := by
    cases b with
    | constant c => simp at hb
    | _ => simp [powerDerivative, Scalar.ofInt]
  have all : ∀ e ∈ [Expression.number ((n + 1 : ℕ) : Rat), b.toExpression.intPower n, base],
      e.IsPolynomial := by
    simp [power, hbase]
  rw [form, Expression.eval_product ρ all]
  refine ⟨Expression.isPolynomial_product all, ?_⟩
  simp only [List.map_cons, List.map_nil, List.prod_cons, List.prod_nil, Expression.eval_number,
    raised, value, map_natCast, nsmul_eq_mul]
  ring

section

variable {s : Symbol} (D : Derivation ℚ R R)

mutual

theorem Expression.derivative_spec (hD : ∀ t, D (ρ t) = if s = t then 1 else 0) :
    ∀ e : Expression Rat, e.IsPolynomial →
      (e.derivative s).IsPolynomial ∧ (e.derivative s).eval ρ = D (e.eval ρ)
  | .zero, _ => by simp [Expression.derivative]
  | .plus c p e, h => by
      obtain ⟨hp, hrest⟩ := (Expression.isPolynomial_plus c p e).mp h
      obtain ⟨tail, rest⟩ := Expression.derivative_spec hD e hrest
      obtain ⟨product, value⟩ := Product.derivative_spec hD p hp
      have form : (Expression.plus c p e).derivative s =
          e.derivative s + (p.derivative s).scale c := by
        rw [Expression.derivative]
        rfl
      rw [form]
      refine ⟨Expression.isPolynomial_add tail (Expression.isPolynomial_scale product), ?_⟩
      rw [Expression.eval_add, Expression.eval_scale, rest, value, Expression.eval_plus, map_add,
        ← Algebra.smul_def, ← Algebra.smul_def, D.map_smul, add_comm]

theorem Product.derivative_spec (hD : ∀ t, D (ρ t) = if s = t then 1 else 0) :
    ∀ p : Product Rat, p.IsPolynomial →
      (p.derivative s).IsPolynomial ∧ (p.derivative s).eval ρ = D (p.eval ρ)
  | .one, _ => by simp [Product.derivative]
  | .times b x p, h => by
      obtain ⟨⟨hb, hx⟩, hrest⟩ := (Product.isPolynomial_times b x p).mp h
      obtain ⟨tail, rest⟩ := Product.derivative_spec hD p hrest
      obtain ⟨base, value⟩ := Base.derivative_spec hD b hb
      have factor : (Expression.ofFactor b x).IsPolynomial := by simp [hb, hx]
      obtain ⟨n, rfl⟩ := Exponent.exists_of_isPositive hx
      obtain ⟨power, raised⟩ := powerDerivative_spec ρ hb n base
        ((Exponent.integer (n + 1) : Exponent Rat).derivative s)
      have others : (Expression.ofTerm 1 p).IsPolynomial := Expression.isPolynomial_ofTerm hrest
      have form : (Product.times b (.integer (n + 1)) p).derivative s =
          powerDerivative b (.integer (n + 1)) (b.derivative s)
            ((Exponent.integer (n + 1) : Exponent Rat).derivative s) * Expression.ofTerm 1 p +
          Expression.ofFactor b (.integer (n + 1)) * p.derivative s := by
        rw [Product.derivative]
        rfl
      rw [form]
      refine ⟨Expression.isPolynomial_add (Expression.isPolynomial_mul power others)
        (Expression.isPolynomial_mul factor tail), ?_⟩
      rw [Expression.eval_add, Expression.eval_mul ρ power others,
        Expression.eval_mul ρ factor tail, raised, rest, value, Expression.eval_ofTerm,
        Expression.eval_ofFactor, Product.eval_times, D.leibniz, D.leibniz_pow]
      have natural : (Exponent.integer ((n : ℤ) + 1) : Exponent Rat).natural = n + 1 := by
        simp only [Exponent.natural_integer]
        omega
      rw [natural]
      simp only [map_one, one_mul, smul_eq_mul, nsmul_eq_mul, Nat.add_sub_cancel]
      ring

theorem Base.derivative_spec (hD : ∀ t, D (ρ t) = if s = t then 1 else 0) :
    ∀ b : Base Rat, b.IsPolynomial →
      (b.derivative s).IsPolynomial ∧ (b.derivative s).eval ρ = D (b.eval ρ)
  | .symbol t, _ => by
      rw [Base.derivative, Base.eval_symbol, hD t]
      by_cases h : s = t <;> simp [h]
  | .group e, h => by
      obtain ⟨-, he⟩ := (Base.isPolynomial_group e).mp h
      simpa [Base.derivative] using Expression.derivative_spec hD e he
  | .constant _, h => by simp at h
  | .number _, h => by simp at h
  | .apply _ _, h => by simp at h

end

end

theorem Expression.isPolynomial_derivative (s : Symbol) {e : Expression Rat}
    (he : e.IsPolynomial) : (e.derivative s).IsPolynomial := by
  classical
  have hD : ∀ t, (MvPolynomial.pderiv s : Derivation ℚ (MvPolynomial Symbol ℚ) _)
      (MvPolynomial.X t) = if s = t then 1 else 0 := by
    intro t
    rw [MvPolynomial.pderiv_X, Pi.single_apply]
    simp [eq_comm]
  exact (Expression.derivative_spec _ _ hD e he).1

end HybridRelaxation
