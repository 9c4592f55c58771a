import Mathlib
import HybridRelaxation.Proofs.Expression.Derivative
import HybridRelaxation.Proofs.Expression.Substitution
import HybridRelaxation.Proofs.SquareSum.Degrees

/-!
# Ring laws of coefficients

The coefficients of a polynomial expression over distinct variables list a polynomial in these
variables whose coefficients are polynomials in the other symbols.  Sums, products, powers,
derivatives and substitutions of polynomial expressions are polynomial again, and they list what the
ring of polynomials says: entries are added, convolved, differentiated and composed, and those that
vanish are left out.  Over expressions that are polynomial only once they are expanded there is no
such law.
-/

namespace HybridRelaxation

open MvPolynomial (C X bind₁ bind₁_C_right bind₁_X_right coeff pderiv pderiv_C pderiv_X)

/-! ## Listed polynomials -/

/--
The map lists the coefficients of a polynomial in a scope: exactly its vectors with a coefficient
that is not zero, each of them once, with an expression of that value free of the scope.
-/
structure CoefficientMap.Lists (m : CoefficientMap Rat) (scope : List Symbol)
    (P : MvPolynomial Symbol (MvPolynomial Symbol ℚ)) : Prop where
  isOver : IsOver scope P
  distinct : (m.map Prod.fst).Nodup
  vectors : ∀ v, v ∈ m.map Prod.fst ↔
    v.IsNatural scope.length ∧ coeff (monomialPowers scope v) P ≠ 0
  values : ∀ t ∈ m, t.2.eval X = coeff (monomialPowers scope t.1) P
  free : ∀ t ∈ m, ∀ s ∈ t.2.symbols, s ∉ scope

/-- The expression is accepted, and its coefficients are those of a polynomial. -/
structure Expression.IsListedAs (e : Expression Rat) (scope : List Symbol)
    (P : MvPolynomial Symbol (MvPolynomial Symbol ℚ)) : Prop where
  accepted : isPolynomial e scope = true
  lists : ∀ m, coefficients e scope = .ok m → m.Lists scope P
  totalDegree : totalDegree e scope = .ok (P.totalDegree : ℤ)

noncomputable def Expression.polynomialIn (scope : List Symbol) (e : Expression Rat) :
    MvPolynomial Symbol (MvPolynomial Symbol ℚ) :=
  e.eval (scopePoint scope X)

section

variable {scope : List Symbol} (hscope : scope.Nodup)

include hscope

theorem Expression.isListedAs {e : Expression Rat} (he : e.IsPolynomial) :
    e.IsListedAs scope (e.polynomialIn scope) := by
  obtain ⟨m, hm, regular, nonzero, -⟩ := exists_coefficients.{0} he scope
  have isOver : IsOver scope (e.polynomialIn scope) := isOver_of_coefficients X he hm
  have listed {v : Exponents} (hv : v.IsNatural scope.length) :
      v ∈ m.map Prod.fst ↔ coeff (monomialPowers scope v) (e.polynomialIn scope) ≠ 0 := by
    rw [Expression.polynomialIn, coeff_of_coefficients X he hscope hm hv]
    constructor
    · intro hmem
      obtain ⟨t, ht, rfl⟩ := List.mem_map.mp hmem
      rw [CoefficientMap.coefficientAt_of_mem regular ht, Ne,
        (regular.canonical t ht).eval_X_eq_zero]
      exact nonzero t ht
    · intro value
      by_contra absent
      rw [CoefficientMap.coefficientAt_of_notMem absent] at value
      simp at value
  refine ⟨by rw [isPolynomial, hm], fun m' hm' => ?_, ?_⟩
  · obtain rfl := Except.ok.inj (hm.symm.trans hm')
    refine ⟨isOver, regular.distinct, fun v => ⟨fun hv => ?_, fun h => (listed h.1).mpr h.2⟩,
      fun t ht => ?_, regular.free⟩
    · obtain ⟨t, ht, rfl⟩ := List.mem_map.mp hv
      exact ⟨regular.vectors t ht, (listed (regular.vectors t ht)).mp hv⟩
    · rw [Expression.polynomialIn, coeff_of_coefficients X he hscope hm (regular.vectors t ht),
        CoefficientMap.coefficientAt_of_mem regular ht]
  · refine totalDegree_eq_of_occurs hscope hm isOver (fun v hv => ?_)
    rw [← listed hv]
    exact ⟨fun ⟨m', hm', h⟩ => Except.ok.inj (hm'.symm.trans hm) ▸ h, fun h => ⟨m, hm, h⟩⟩

end

/-! ## Operations -/

namespace Expression

variable {scope : List Symbol} {p q : Expression Rat}

theorem polynomialIn_add :
    (p + q).polynomialIn scope = p.polynomialIn scope + q.polynomialIn scope :=
  eval_add _ p q

theorem polynomialIn_mul (hp : p.IsPolynomial) (hq : q.IsPolynomial) :
    (p * q).polynomialIn scope = p.polynomialIn scope * q.polynomialIn scope :=
  eval_mul _ hp hq

theorem polynomialIn_power (hp : p.IsPolynomial) (k : ℕ) :
    (p.power (.ofInt k)).polynomialIn scope = p.polynomialIn scope ^ k := by
  simpa [polynomialIn] using (power_spec (scopePoint scope X) hp k).2

theorem isPolynomial_power (hp : p.IsPolynomial) (k : ℕ) : (p.power (.ofInt k)).IsPolynomial := by
  simpa using (power_spec (fun _ => (0 : ℚ)) hp k).1

theorem polynomialIn_derivative (hp : p.IsPolynomial) {s : Symbol} (hs : s ∈ scope) :
    (p.derivative s).polynomialIn scope = pderiv s (p.polynomialIn scope) := by
  classical
  have rule (t : Symbol) : (pderiv s : Derivation (MvPolynomial Symbol ℚ) _ _).restrictScalars ℚ
      (scopePoint scope X t) = if s = t then 1 else 0 := by
    change pderiv s (scopePoint scope X t) = _
    by_cases ht : t ∈ scope
    · rw [scopePoint_of_mem ht, pderiv_X, Pi.single_apply]
      simp [eq_comm]
    · rw [scopePoint_of_notMem ht, pderiv_C, if_neg (fun same : s = t => ht (same ▸ hs))]
  exact (derivative_spec _ _ rule p hp).2

theorem isPolynomial_of_replacements (hq : q.IsPolynomial) {s t : Symbol} {f : Expression Rat}
    (h : replacements [(s, q)] t = some f) : f.IsPolynomial := by
  obtain ⟨rfl, rfl⟩ := Prod.mk.inj (List.mem_singleton.mp (mem_of_replacements h))
  exact hq

theorem polynomialIn_substitute (hp : p.IsPolynomial) (hq : q.IsPolynomial) {s : Symbol}
    (hs : s ∈ scope) : (p.substitute (replacements [(s, q)])).polynomialIn scope =
      bind₁ (Function.update X s (q.polynomialIn scope)) (p.polynomialIn scope) := by
  have point (t : Symbol) : pointAfter (scopePoint scope X) (replacements [(s, q)]) t =
      bind₁ (Function.update X s (q.polynomialIn scope)) (scopePoint scope X t) := by
    by_cases hst : t = s
    · subst hst
      rw [pointAfter, replacements_of_mem (f := q) (by simp) (by simp), scopePoint_of_mem hs,
        bind₁_X_right, Function.update_self]
      rfl
    · rw [pointAfter, replacements_of_notMem (by simpa using hst)]
      by_cases ht : t ∈ scope
      · rw [scopePoint_of_mem ht, bind₁_X_right, Function.update_of_ne hst]
      · rw [scopePoint_of_notMem ht, bind₁_C_right]
  rw [polynomialIn, eval_substitute _ hp (fun _ _ => isPolynomial_of_replacements hq),
    funext point, polynomialIn]
  exact (map_eval ((bind₁ (Function.update X s (q.polynomialIn scope))).restrictScalars ℚ) _ p).symm

end Expression

/-! ## Closure -/

theorem Expression.IsListedAs.ne_zero {scope : List Symbol} {e : Expression Rat}
    {P : MvPolynomial Symbol (MvPolynomial Symbol ℚ)} (h : e.IsListedAs scope P)
    (hne : coefficients e scope ≠ .ok []) : P ≠ 0 := by
  rintro rfl
  cases hm : coefficients e scope with
  | error f => simpa [isPolynomial, hm] using h.accepted
  | ok m =>
      cases m with
      | nil => exact hne hm
      | cons t m => exact (((h.lists _ hm).vectors t.1).mp (by simp)).2 (MvPolynomial.coeff_zero _)

/--
Over distinct variables polynomial expressions are accepted, and so is what sums, products, natural
powers, derivatives and substitutions make of them.  Their coefficients list the sum, the product,
the power, the formal derivative and the composition of the listed polynomials.  The degree of a sum
is at most the larger one, and that of a product of expressions that are not zero is the sum of
both.
-/
theorem Expression.isListedAs_operations {scope : List Symbol} (hscope : scope.Nodup)
    {p q : Expression Rat} (hp : p.IsPolynomial) (hq : q.IsPolynomial) :
    ∃ P Q, p.IsListedAs scope P ∧ q.IsListedAs scope Q ∧
      (p + q).IsListedAs scope (P + Q) ∧ (p * q).IsListedAs scope (P * Q) ∧
      (∀ k : ℕ, (p.power (.ofInt k)).IsListedAs scope (P ^ k)) ∧
      (∀ s ∈ scope, (p.derivative s).IsListedAs scope (pderiv s P) ∧
        (p.substitute (replacements [(s, q)])).IsListedAs scope
          (bind₁ (Function.update X s Q) P)) ∧
      ∃ d d' sum : ℤ, totalDegree p scope = .ok d ∧ totalDegree q scope = .ok d' ∧
        totalDegree (p + q) scope = .ok sum ∧ sum ≤ max d d' ∧
        (coefficients p scope ≠ .ok [] → coefficients q scope ≠ .ok [] →
          totalDegree (p * q) scope = .ok (d + d')) := by
  have first := isListedAs hscope hp
  have second := isListedAs hscope hq
  have sum : (p + q).IsListedAs scope (p.polynomialIn scope + q.polynomialIn scope) := by
    rw [← polynomialIn_add]
    exact isListedAs hscope (isPolynomial_add hp hq)
  have product : (p * q).IsListedAs scope (p.polynomialIn scope * q.polynomialIn scope) := by
    rw [← polynomialIn_mul hp hq]
    exact isListedAs hscope (isPolynomial_mul hp hq)
  refine ⟨_, _, first, second, sum, product, fun k => ?_, fun s hs => ⟨?_, ?_⟩, _, _, _,
    first.totalDegree, second.totalDegree, sum.totalDegree, ?_, fun hne hne' => ?_⟩
  · rw [← polynomialIn_power hp k]
    exact isListedAs hscope (isPolynomial_power hp k)
  · rw [← polynomialIn_derivative hp hs]
    exact isListedAs hscope (isPolynomial_derivative s hp)
  · rw [← polynomialIn_substitute hp hq hs]
    exact isListedAs hscope
      (isPolynomial_substitute hp (fun _ _ => isPolynomial_of_replacements hq))
  · exact_mod_cast MvPolynomial.totalDegree_add _ _
  · rw [product.totalDegree,
      MvPolynomial.totalDegree_mul_of_isDomain (first.ne_zero hne) (second.ne_zero hne'),
      Nat.cast_add]

theorem Expression.isListedAs_operations_lines :
    ∃ p q : Expression Rat, p.IsPolynomial ∧ q.IsPolynomial ∧
      p = .ofSymbol (.named "a") * .ofSymbol (.named "x") + .number 1 ∧
      q = .ofSymbol (.named "x") + .ofSymbol (.named "b") ∧
      totalDegree (p * q) [.named "x"] = .ok 2 := by
  have hp : (ofSymbol (.named "a") * ofSymbol (.named "x") + number (1 : Rat)).IsPolynomial :=
    isPolynomial_add (isPolynomial_mul (by simp) (by simp)) (by simp)
  have hq : (ofSymbol (.named "x") + ofSymbol (.named "b") : Expression Rat).IsPolynomial :=
    isPolynomial_add (by simp) (by simp)
  refine ⟨_, _, hp, hq, rfl, rfl, ?_⟩
  obtain ⟨-, -, -, -, -, -, -, -, d, d', -, hd, hd', -, -, degree⟩ :=
    isListedAs_operations (List.nodup_singleton (Symbol.named "x")) hp hq
  obtain rfl : 1 = d := Except.ok.inj ((by decide +kernel : totalDegree _ _ = .ok 1).symm.trans hd)
  obtain rfl : 1 = d' :=
    Except.ok.inj ((by decide +kernel : totalDegree _ _ = .ok 1).symm.trans hd')
  exact degree (by decide +kernel) (by decide +kernel)

/--
Over expressions that are polynomial in x only once they are expanded there are no such laws.  From
1/(x(x + 1)) - 1/(x² + x) + x products, powers and derivatives lead out of the polynomials, and so
does replacing x by x - 1 in x(1/x + 1).
-/
theorem exists_not_isPolynomial_operations :
    ∃ x p q : Expression Rat, x = .ofSymbol (.named "x") ∧
      p = (x * (x + .number 1)).reciprocal - (x * x + x).reciprocal + x ∧
      q = x * (x.reciprocal + .number 1) ∧
      isPolynomial p [.named "x"] = true ∧ isPolynomial q [.named "x"] = true ∧
      isPolynomial (x - .number 1) [.named "x"] = true ∧
      isPolynomial (p * p) [.named "x"] = false ∧
      isPolynomial (p.power (.ofInt 2)) [.named "x"] = false ∧
      isPolynomial (p.derivative (.named "x")) [.named "x"] = false ∧
      isPolynomial (q.substitute (replacements [(.named "x", x - .number 1)])) [.named "x"] =
        false := by
  refine ⟨_, _, _, rfl, rfl, rfl, ?_, ?_, ?_, ?_, ?_, ?_, ?_⟩ <;> decide +kernel

end HybridRelaxation
