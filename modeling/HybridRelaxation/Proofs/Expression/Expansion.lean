import Mathlib
import HybridRelaxation.Expression.Expansion
import HybridRelaxation.Proofs.Expression.Canonical
import HybridRelaxation.Proofs.Expression.Multiplication

/-!
# Values of expanded expressions

A polynomial expression is multiplied out directly.  The result has the same value and is
canonical.
-/

namespace HybridRelaxation

variable {R : Type*} [CommRing R] [Algebra ℚ R] (ρ : Symbol → R)

namespace Expression

/-! ## Products of sums -/

theorem IsCanonical.distributeTerm {c : Rat} {p : Product Rat} {e : Expression Rat}
    (hp : p.IsMonomial) (he : e.IsCanonical) : (e.distributeTerm c p).IsCanonical := by
  induction e with
  | zero => exact isCanonical_zero
  | plus d q e ih =>
      obtain ⟨-, hq, -, hrest⟩ := isCanonical_plus.mp he
      exact (ih hrest).addTerms (isCanonical_ofTerm (c * d) (hp.mul hq))

theorem eval_distributeTerm {c : Rat} {p : Product Rat} {e : Expression Rat}
    (hp : p.IsPolynomial) (he : e.IsPolynomial) :
    (e.distributeTerm c p).eval ρ = algebraMap ℚ R c * p.eval ρ * e.eval ρ := by
  induction e with
  | zero => simp [Expression.distributeTerm]
  | plus d q e ih =>
      obtain ⟨hq, hrest⟩ := (isPolynomial_plus d q e).mp he
      rw [Expression.distributeTerm, eval_addTerms, ih hrest, eval_ofTerm,
        Product.eval_mul ρ hp hq, eval_plus, map_mul]
      ring

theorem IsCanonical.distribute {e f : Expression Rat} (he : e.IsCanonical)
    (hf : f.IsCanonical) : (e.distribute f).IsCanonical := by
  induction e with
  | zero => exact isCanonical_zero
  | plus c p e ih =>
      obtain ⟨-, hp, -, hrest⟩ := isCanonical_plus.mp he
      exact (ih hrest).addTerms (hf.distributeTerm hp)

theorem eval_distribute {e f : Expression Rat} (he : e.IsPolynomial) (hf : f.IsPolynomial) :
    (e.distribute f).eval ρ = e.eval ρ * f.eval ρ := by
  induction e with
  | zero => simp
  | plus c p e ih =>
      obtain ⟨hp, hrest⟩ := (isPolynomial_plus c p e).mp he
      rw [Expression.distribute, eval_addTerms, ih hrest, eval_distributeTerm ρ hp hf, eval_plus]
      ring

theorem IsCanonical.distributePower {e : Expression Rat} (he : e.IsCanonical) (n : ℕ) :
    (e.distributePower n).IsCanonical := by
  induction n with
  | zero => exact isCanonical_number 1
  | succ n ih => exact ih.distribute he

theorem eval_distributePower {e : Expression Rat} (he : e.IsCanonical) (n : ℕ) :
    (e.distributePower n).eval ρ = e.eval ρ ^ n := by
  induction n with
  | zero => simp
  | succ n ih =>
      rw [Expression.distributePower,
        eval_distribute ρ (he.distributePower n).isPolynomial he.isPolynomial, ih, pow_succ]

theorem isCanonical_ofFactor (s : Symbol) (n : ℕ) :
    (ofFactor (.symbol s) (.integer (n + 1)) : Expression Rat).IsCanonical :=
  isCanonical_plus.mpr ⟨one_ne_zero, .times s n .one .one (by simp [Product.symbols]), by simp,
    isCanonical_zero⟩

end Expression

/-! ## Multiplying out -/

mutual

theorem Expression.multiplyOut_spec :
    ∀ e : Expression Rat, e.IsPolynomial →
      e.multiplyOut.IsCanonical ∧ e.multiplyOut.eval ρ = e.eval ρ
  | .zero, _ => by simpa [Expression.multiplyOut] using Expression.isCanonical_zero
  | .plus c p e, h => by
      obtain ⟨hp, hrest⟩ := (Expression.isPolynomial_plus c p e).mp h
      obtain ⟨tail, rest⟩ := Expression.multiplyOut_spec e hrest
      obtain ⟨product, value⟩ := Product.multiplyOut_spec p hp
      rw [Expression.multiplyOut]
      refine ⟨tail.addTerms (product.scale c), ?_⟩
      rw [Expression.eval_addTerms, Expression.eval_scale, rest, value, Expression.eval_plus,
        add_comm]

theorem Product.multiplyOut_spec :
    ∀ p : Product Rat, p.IsPolynomial →
      p.multiplyOut.IsCanonical ∧ p.multiplyOut.eval ρ = p.eval ρ
  | .one, _ => by simpa [Product.multiplyOut] using Expression.isCanonical_number 1
  | .times (.symbol s) x p, h => by
      obtain ⟨⟨-, hx⟩, hrest⟩ := (Product.isPolynomial_times _ x p).mp h
      obtain ⟨tail, rest⟩ := Product.multiplyOut_spec p hrest
      obtain ⟨n, rfl⟩ := Exponent.exists_of_isPositive hx
      have factor := Expression.isCanonical_ofFactor s n
      have form : (Product.times (.symbol s) (.integer (n + 1)) p).multiplyOut =
          p.multiplyOut.distribute (.ofFactor (.symbol s) (.integer (n + 1))) := by
        rw [Product.multiplyOut]
        simp
      rw [form]
      refine ⟨tail.distribute factor, ?_⟩
      rw [Expression.eval_distribute ρ tail.isPolynomial factor.isPolynomial, rest,
        Expression.eval_ofFactor, Product.eval_times, mul_comm]
  | .times (.group e) x p, h => by
      obtain ⟨⟨hb, hx⟩, hrest⟩ := (Product.isPolynomial_times _ x p).mp h
      obtain ⟨-, he⟩ := (Base.isPolynomial_group e).mp hb
      obtain ⟨tail, rest⟩ := Product.multiplyOut_spec p hrest
      obtain ⟨base, value⟩ := Expression.multiplyOut_spec e he
      obtain ⟨n, rfl⟩ := Exponent.exists_of_isPositive hx
      rw [Product.multiplyOut]
      have power := base.distributePower ((n : ℤ) + 1).toNat
      refine ⟨tail.distribute power, ?_⟩
      rw [Expression.eval_distribute ρ tail.isPolynomial power.isPolynomial, rest,
        Expression.eval_distributePower ρ base, value, Product.eval_times, Base.eval_group,
        mul_comm, Exponent.natural_integer]
  | .times (.constant _) x p, h => by simp at h
  | .times (.number _) x p, h => by simp at h
  | .times (.apply _ _) x p, h => by simp at h

end

/-! ## Expansion -/

mutual

theorem Expression.isSimple_of_isPolynomial :
    ∀ e : Expression Rat, e.IsPolynomial → e.isSimple = true
  | .zero, _ => by simp [Expression.isSimple]
  | .plus c p e, h => by
      obtain ⟨hp, hrest⟩ := (Expression.isPolynomial_plus c p e).mp h
      have number : (Scalar.exactValue? c).isSome = true := rfl
      simp [Expression.isSimple, number, Product.isSimple_of_isPolynomial p hp,
        Expression.isSimple_of_isPolynomial e hrest]

theorem Product.isSimple_of_isPolynomial :
    ∀ p : Product Rat, p.IsPolynomial → p.isSimple = true
  | .one, _ => by simp [Product.isSimple]
  | .times (.symbol s) x p, h => by
      obtain ⟨⟨-, hx⟩, hrest⟩ := (Product.isPolynomial_times _ x p).mp h
      obtain ⟨n, rfl⟩ := Exponent.exists_of_isPositive hx
      simp [Product.isSimple, Product.isSimple_of_isPolynomial p hrest]
  | .times (.group e) x p, h => by
      obtain ⟨⟨hb, hx⟩, hrest⟩ := (Product.isPolynomial_times _ x p).mp h
      obtain ⟨-, he⟩ := (Base.isPolynomial_group e).mp hb
      obtain ⟨n, rfl⟩ := Exponent.exists_of_isPositive hx
      have positive : (0 : ℤ) ≤ n + 1 := by omega
      simp [Product.isSimple, positive, Expression.isSimple_of_isPolynomial e he,
        Product.isSimple_of_isPolynomial p hrest]
  | .times (.constant _) x p, h => by simp at h
  | .times (.number _) x p, h => by simp at h
  | .times (.apply _ _) x p, h => by simp at h

end

namespace Expression

theorem isPolynomialForm_of_isPolynomial {e : Expression Rat} (h : e.IsPolynomial) :
    e.isPolynomialForm = true := by
  induction e with
  | zero => rfl
  | plus c p e ih =>
      obtain ⟨hp, hrest⟩ := (isPolynomial_plus c p e).mp h
      simp [isPolynomialForm, Product.isSimple_of_isPolynomial p hp, ih hrest]

theorem expand_spec {e : Expression Rat} (h : e.IsPolynomial) :
    e.expand.IsCanonical ∧ e.expand.eval ρ = e.eval ρ := by
  rw [expand, if_pos (isPolynomialForm_of_isPolynomial h)]
  exact multiplyOut_spec ρ e h

theorem isCanonical_expand {e : Expression Rat} (h : e.IsPolynomial) : e.expand.IsCanonical :=
  (expand_spec (fun _ => (0 : ℚ)) h).1

theorem isPolynomial_expand {e : Expression Rat} (h : e.IsPolynomial) : e.expand.IsPolynomial :=
  (isCanonical_expand h).isPolynomial

theorem eval_expand {e : Expression Rat} (h : e.IsPolynomial) :
    e.expand.eval ρ = e.eval ρ := (expand_spec ρ h).2

end Expression

end HybridRelaxation
