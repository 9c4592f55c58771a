import Mathlib
import HybridRelaxation.Proofs.Polynomial.Coefficients

/-!
# Coefficients at values of the other symbols

The variables of a scope may stay indeterminate while all other symbols have values.  The value of
an expression is then a polynomial in the scope, and its coefficients are the values of the
coefficients of the expression.
-/

namespace HybridRelaxation

open MvPolynomial (C X coeff)

variable {A : Type*} [CommRing A] {scope : List Symbol}

/-! ## Polynomials in a scope -/

/-- Every monomial is one of a natural vector over the scope. -/
def IsOver (scope : List Symbol) (q : MvPolynomial Symbol A) : Prop :=
  ∀ n, coeff n q ≠ 0 → ∃ v : Exponents, v.IsNatural scope.length ∧ monomialPowers scope v = n

theorem isOver_zero : IsOver scope (0 : MvPolynomial Symbol A) := by
  intro n hn
  simp at hn

theorem IsOver.add {p q : MvPolynomial Symbol A} (hp : IsOver scope p) (hq : IsOver scope q) :
    IsOver scope (p + q) := by
  intro n hn
  rw [MvPolynomial.coeff_add] at hn
  by_cases h : coeff n p = 0
  · exact hq n (by simpa [h] using hn)
  · exact hp n h

theorem IsOver.sub {p q : MvPolynomial Symbol A} (hp : IsOver scope p) (hq : IsOver scope q) :
    IsOver scope (p - q) := by
  intro n hn
  rw [MvPolynomial.coeff_sub] at hn
  by_cases h : coeff n p = 0
  · exact hq n (by simpa [h] using hn)
  · exact hp n h

theorem isOver_monomial {v : Exponents} (hv : v.IsNatural scope.length) (a : A) :
    IsOver scope (MvPolynomial.monomial (monomialPowers scope v) a) := by
  classical
  intro n hn
  rw [MvPolynomial.coeff_monomial] at hn
  by_cases h : monomialPowers scope v = n
  · exact ⟨v, hv, h⟩
  · simp [h] at hn

theorem isOver_one : IsOver scope (1 : MvPolynomial Symbol A) := by
  have constant := isOver_monomial (Exponents.isNatural_replicate scope.length) (1 : A)
  rw [← monomialValue_X, monomialValue_replicate] at constant
  exact constant

theorem isOver_sum {qs : List (MvPolynomial Symbol A)} (h : ∀ q ∈ qs, IsOver scope q) :
    IsOver scope qs.sum := by
  induction qs with
  | nil => exact isOver_zero
  | cons q qs ih =>
      rw [List.sum_cons]
      exact (h q (by simp)).add (ih (fun r hr => h r (by simp [hr])))

theorem IsOver.eq_zero {q : MvPolynomial Symbol A} (hq : IsOver scope q)
    (h : ∀ v : Exponents, v.IsNatural scope.length → coeff (monomialPowers scope v) q = 0) :
    q = 0 := by
  ext n
  rw [MvPolynomial.coeff_zero]
  by_contra hn
  obtain ⟨v, hv, rfl⟩ := hq n hn
  exact hn (h v hv)

/-! ## Values over a scope -/

/-- The variables of the scope stay, the other symbols have values. -/
noncomputable def scopePoint (scope : List Symbol) (σ : Symbol → A) (s : Symbol) :
    MvPolynomial Symbol A :=
  if s ∈ scope then X s else C (σ s)

theorem scopePoint_of_mem {s : Symbol} (hs : s ∈ scope) (σ : Symbol → A) :
    scopePoint scope σ s = X s := by
  simp [scopePoint, hs]

theorem scopePoint_of_notMem {s : Symbol} (hs : s ∉ scope) (σ : Symbol → A) :
    scopePoint scope σ s = C (σ s) := by
  simp [scopePoint, hs]

theorem monomialValue_congr {R : Type*} [CommRing R] {ρ τ : Symbol → R}
    (h : ∀ s ∈ scope, ρ s = τ s) (e : Exponents) :
    monomialValue ρ scope e = monomialValue τ scope e := by
  induction scope generalizing e with
  | nil => simp
  | cons s scope ih =>
      cases e with
      | nil => simp [monomialValue]
      | cons k e =>
          rw [monomialValue_cons, monomialValue_cons, h s (by simp),
            ih (fun t ht => h t (by simp [ht]))]

theorem monomialValue_scopePoint (σ : Symbol → A) (e : Exponents) :
    monomialValue (scopePoint scope σ) scope e =
      MvPolynomial.monomial (monomialPowers scope e) 1 := by
  rw [← monomialValue_X]
  exact monomialValue_congr (fun s hs => scopePoint_of_mem hs σ) e

variable [Algebra ℚ A] (σ : Symbol → A)

theorem Expression.eval_scopePoint_of_free {c : Expression Rat}
    (h : ∀ s ∈ c.symbols, s ∉ scope) : c.eval (scopePoint scope σ) = C (c.eval σ) := by
  have value := Expression.map_eval (IsScalarTower.toAlgHom ℚ A (MvPolynomial Symbol A)) σ c
  rw [Expression.eval_congr c (fun s hs => scopePoint_of_notMem (h s hs) σ)]
  exact value.symm

namespace CoefficientMap

def coefficientAt (m : CoefficientMap Rat) (v : Exponents) : Expression Rat :=
  ((m.find? (fun entry => entry.1 = v)).map Prod.snd).getD .zero

variable {m : CoefficientMap Rat}

theorem eval_scopePoint (hm : m.IsRegular scope) :
    m.eval (scopePoint scope σ) scope =
      (m.map (fun t => MvPolynomial.monomial (monomialPowers scope t.1) (t.2.eval σ))).sum := by
  rw [eval]
  congr 1
  refine List.map_congr_left (fun t ht => ?_)
  rw [Expression.eval_scopePoint_of_free σ (hm.free t ht), monomialValue_scopePoint,
    MvPolynomial.C_mul_monomial, mul_one]

theorem isOver_eval (hm : m.IsRegular scope) :
    IsOver scope (m.eval (scopePoint scope σ) scope) := by
  rw [eval_scopePoint σ hm]
  refine isOver_sum (fun q hq => ?_)
  obtain ⟨t, ht, rfl⟩ := List.mem_map.mp hq
  exact isOver_monomial (hm.vectors t ht) _

theorem coeff_eval (hm : m.IsRegular scope) (hscope : scope.Nodup) {v : Exponents}
    (hv : v.IsNatural scope.length) :
    coeff (monomialPowers scope v) (m.eval (scopePoint scope σ) scope) =
      (m.coefficientAt v).eval σ := by
  classical
  rw [eval_scopePoint σ hm]
  obtain ⟨distinct, vectors, -, -⟩ := hm
  induction m with
  | nil => simp [coefficientAt]
  | cons t m ih =>
      rw [List.map_cons, List.nodup_cons] at distinct
      have tail := ih distinct.2 (fun u hu => vectors u (by simp [hu]))
      rw [List.map_cons, List.sum_cons, MvPolynomial.coeff_add, tail, MvPolynomial.coeff_monomial]
      by_cases h : t.1 = v
      · have absent : m.find? (fun entry => entry.1 = v) = none := by
          rw [List.find?_eq_none]
          intro u hu heq
          refine distinct.1 (List.mem_map.mpr ⟨u, hu, ?_⟩)
          rw [h]
          simpa using heq
        simp [coefficientAt, h, absent]
      · have differ : monomialPowers scope t.1 ≠ monomialPowers scope v := fun heq =>
          h (monomialPowers_injective hscope (vectors t (by simp)) hv heq)
        simp [coefficientAt, h, differ]

theorem coefficientAt_of_mem (hm : m.IsRegular scope) {v : Exponents} {c : Expression Rat}
    (h : (v, c) ∈ m) : m.coefficientAt v = c := by
  have distinct := hm.distinct
  clear hm
  induction m with
  | nil => simp at h
  | cons t m ih =>
      rw [List.map_cons, List.nodup_cons] at distinct
      rw [List.mem_cons] at h
      rcases h with rfl | h
      · simp [coefficientAt]
      · have hne : t.1 ≠ v := fun heq => distinct.1 (heq ▸ List.mem_map_of_mem h)
        have := ih h distinct.2
        simpa [coefficientAt, hne] using this

theorem coefficientAt_of_notMem {v : Exponents} (h : v ∉ m.map Prod.fst) :
    m.coefficientAt v = .zero := by
  have absent : m.find? (fun entry => entry.1 = v) = none := by
    rw [List.find?_eq_none]
    intro t ht heq
    exact h (List.mem_map.mpr ⟨t, ht, by simpa using heq⟩)
  simp [coefficientAt, absent]

theorem isCanonical_coefficientAt (hm : m.IsRegular scope) (v : Exponents) :
    (m.coefficientAt v).IsCanonical := by
  by_cases h : v ∈ m.map Prod.fst
  · obtain ⟨⟨w, c⟩, hmem, rfl⟩ := List.mem_map.mp h
    rw [coefficientAt_of_mem hm hmem]
    exact hm.canonical _ hmem
  · rw [coefficientAt_of_notMem h]
    exact Expression.isCanonical_zero

end CoefficientMap

/-! ## Coefficients of expressions -/

section

variable {e : Expression Rat} {m : CoefficientMap Rat}

theorem isOver_of_coefficients (he : e.IsPolynomial) (h : coefficients e scope = .ok m) :
    IsOver scope (e.eval (scopePoint scope σ)) := by
  rw [← eval_of_coefficients _ he h]
  exact CoefficientMap.isOver_eval σ (isRegular_of_coefficients he h)

theorem isOver_X {s : Symbol} (hs : s ∈ scope) : IsOver scope (X s : MvPolynomial Symbol A) := by
  obtain ⟨m, hm, -⟩ := exists_coefficients.{0} (Expression.isPolynomial_ofSymbol s) scope
  simpa [scopePoint, hs] using
    isOver_of_coefficients (fun _ => (0 : A)) (Expression.isPolynomial_ofSymbol s) hm

theorem coeff_of_coefficients (he : e.IsPolynomial) (hscope : scope.Nodup)
    (h : coefficients e scope = .ok m) {v : Exponents} (hv : v.IsNatural scope.length) :
    coeff (monomialPowers scope v) (e.eval (scopePoint scope σ)) = (m.coefficientAt v).eval σ := by
  rw [← eval_of_coefficients _ he h]
  exact CoefficientMap.coeff_eval σ (isRegular_of_coefficients he h) hscope hv

end

end HybridRelaxation
