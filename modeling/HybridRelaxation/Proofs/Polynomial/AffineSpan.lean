import Mathlib
import HybridRelaxation.Proofs.Polynomial.LinearForm
import HybridRelaxation.Proofs.Polynomial.ScopePoint

/-!
# Polynomials that are affine in decisions

Such a polynomial is a combination of one and decision symbols with polynomials in a scope as
coefficients.  Sums, multiples by polynomials in the scope, and partial derivatives stay affine.
Over the scope, each of its coefficients has a linear form in the decisions.
-/

namespace HybridRelaxation

open MvPolynomial (C X coeff)

variable {scope : List Symbol} {decisions : List Symbol}

noncomputable abbrev scopePolynomials (scope : List Symbol) :
    Subalgebra ℚ (MvPolynomial Symbol ℚ) :=
  MvPolynomial.supported ℚ {s | s ∈ scope}

/-- The combinations of one and decision symbols with polynomials in the scope. -/
noncomputable def affineSpan (scope decisions : List Symbol) :
    Submodule (scopePolynomials scope) (MvPolynomial Symbol ℚ) :=
  Submodule.span _ (insert 1 (X '' {s | s ∈ decisions}))

/-! ## Closure -/

theorem X_mem_scopePolynomials {s : Symbol} (hs : s ∈ scope) :
    (X s : MvPolynomial Symbol ℚ) ∈ scopePolynomials scope :=
  MvPolynomial.X_mem_supported.mpr hs

theorem monomialValue_mem {ρ : Symbol → MvPolynomial Symbol ℚ} {scope places : List Symbol}
    (h : ∀ s ∈ places, ρ s ∈ scopePolynomials scope) (e : Exponents) :
    monomialValue ρ places e ∈ scopePolynomials scope := by
  induction places generalizing e with
  | nil => simp
  | cons s places ih =>
      cases e with
      | nil => simp [monomialValue]
      | cons k e =>
          rw [monomialValue_cons]
          exact mul_mem (pow_mem (h s (by simp)) _) (ih (fun t ht => h t (by simp [ht])) e)

theorem mul_mem_affineSpan {f q : MvPolynomial Symbol ℚ} (hf : f ∈ scopePolynomials scope)
    (hq : q ∈ affineSpan scope decisions) : f * q ∈ affineSpan scope decisions :=
  (affineSpan scope decisions).smul_mem ⟨f, hf⟩ hq

theorem mem_affineSpan_of_mem {f : MvPolynomial Symbol ℚ} (hf : f ∈ scopePolynomials scope) :
    f ∈ affineSpan scope decisions := by
  have one : (1 : MvPolynomial Symbol ℚ) ∈ affineSpan scope decisions :=
    Submodule.subset_span (Set.mem_insert _ _)
  simpa using mul_mem_affineSpan hf one

theorem X_mem_affineSpan {s : Symbol} (hs : s ∈ decisions) :
    (X s : MvPolynomial Symbol ℚ) ∈ affineSpan scope decisions :=
  Submodule.subset_span (Set.mem_insert_of_mem _ ⟨s, hs, rfl⟩)

theorem affineSpan_mono {more : List Symbol} (h : ∀ s ∈ decisions, s ∈ more) :
    affineSpan scope decisions ≤ affineSpan scope more :=
  Submodule.span_mono (Set.insert_subset_insert (Set.image_mono h))

theorem pderiv_mem_scopePolynomials (s : Symbol) {f : MvPolynomial Symbol ℚ}
    (hf : f ∈ scopePolynomials scope) : MvPolynomial.pderiv s f ∈ scopePolynomials scope := by
  induction hf using Algebra.adjoin_induction with
  | mem x hx =>
      obtain ⟨t, -, rfl⟩ := hx
      rw [MvPolynomial.pderiv_X, Pi.single_apply]
      split
      · exact one_mem _
      · exact zero_mem _
  | algebraMap r => simp [MvPolynomial.algebraMap_eq]
  | add f g _ _ hf hg =>
      rw [map_add]
      exact add_mem hf hg
  | mul f g hfmem hgmem hf hg =>
      rw [MvPolynomial.pderiv_mul]
      exact add_mem (mul_mem hf hgmem) (mul_mem hfmem hg)

theorem pderiv_mem_affineSpan {s : Symbol} (hs : s ∉ decisions) {q : MvPolynomial Symbol ℚ}
    (hq : q ∈ affineSpan scope decisions) :
    MvPolynomial.pderiv s q ∈ affineSpan scope decisions := by
  induction hq using Submodule.span_induction with
  | mem x hx =>
      rcases hx with rfl | ⟨t, ht, rfl⟩
      · simp
      · have differ : t ≠ s := fun h => hs (h ▸ ht)
        simp [MvPolynomial.pderiv_X, differ]
  | zero => simp
  | add p q _ _ hp hq =>
      rw [map_add]
      exact add_mem hp hq
  | smul f q hmem hq =>
      change MvPolynomial.pderiv s (f.1 * q) ∈ _
      rw [MvPolynomial.pderiv_mul]
      exact add_mem (mul_mem_affineSpan (pderiv_mem_scopePolynomials s f.2) hmem)
        (mul_mem_affineSpan f.2 hq)

/-! ## Values -/

theorem Expression.eval_eq_aeval {R : Type*} [CommRing R] [Algebra ℚ R] (ρ : Symbol → R)
    (e : Expression Rat) : e.eval ρ = MvPolynomial.aeval ρ (e.eval (X : Symbol → MvPolynomial Symbol ℚ)) := by
  rw [Expression.map_eval]
  simp

theorem Expression.eval_mem_scopePolynomials {e : Expression Rat}
    (h : ∀ s ∈ e.symbols, s ∈ scope) : e.eval X ∈ scopePolynomials scope := by
  let ρ : Symbol → scopePolynomials scope := fun s =>
    if hs : s ∈ scope then ⟨X s, X_mem_scopePolynomials hs⟩ else 0
  have value := Expression.map_eval (scopePolynomials scope).val ρ e
  have agree : e.eval (fun s => (scopePolynomials scope).val (ρ s)) = e.eval X :=
    Expression.eval_congr e (fun s hs => by simp [ρ, h s hs])
  rw [← agree, ← value]
  exact (e.eval ρ).2

section

variable {R : Type*} [CommRing R] [Algebra ℚ R] {ρ τ : Symbol → R}

theorem aeval_congr_of_mem {f : MvPolynomial Symbol ℚ} (hf : f ∈ scopePolynomials scope)
    (h : ∀ s ∈ scope, ρ s = τ s) : MvPolynomial.aeval ρ f = MvPolynomial.aeval τ f := by
  induction hf using Algebra.adjoin_induction with
  | mem x hx =>
      obtain ⟨t, ht, rfl⟩ := hx
      simpa using h t ht
  | algebraMap r => simp [MvPolynomial.algebraMap_eq]
  | add f g _ _ hf hg => rw [map_add, map_add, hf, hg]
  | mul f g _ _ hf hg => rw [map_mul, map_mul, hf, hg]

theorem aeval_congr_of_mem_affineSpan {q : MvPolynomial Symbol ℚ}
    (hq : q ∈ affineSpan scope decisions) (hscope : ∀ s ∈ scope, ρ s = τ s)
    (hdecisions : ∀ s ∈ decisions, ρ s = τ s) :
    MvPolynomial.aeval ρ q = MvPolynomial.aeval τ q := by
  induction hq using Submodule.span_induction with
  | mem x hx =>
      rcases hx with rfl | ⟨t, ht, rfl⟩
      · simp
      · simpa using hdecisions t ht
  | zero => simp
  | add p q _ _ hp hq => rw [map_add, map_add, hp, hq]
  | smul f q _ hq =>
      change MvPolynomial.aeval ρ (f.1 * q) = MvPolynomial.aeval τ (f.1 * q)
      rw [map_mul, map_mul, hq, aeval_congr_of_mem f.2 hscope]

end

/-! ## Symbols -/

theorem mem_scopePolynomials_of_mem_affineSpan {q : MvPolynomial Symbol ℚ}
    (hq : q ∈ affineSpan scope decisions) : q ∈ scopePolynomials (scope ++ decisions) := by
  have larger : scopePolynomials scope ≤ scopePolynomials (scope ++ decisions) :=
    MvPolynomial.supported_mono (fun s hs => List.mem_append_left _ hs)
  induction hq using Submodule.span_induction with
  | mem x hx =>
      rcases hx with rfl | ⟨t, ht, rfl⟩
      · exact one_mem _
      · exact X_mem_scopePolynomials (List.mem_append_right _ ht)
  | zero => exact zero_mem _
  | add p q _ _ hp hq => exact add_mem hp hq
  | smul f q _ hq => exact mul_mem (larger f.2) hq

theorem Expression.IsCanonical.isWithin {e : Expression Rat} (he : e.IsCanonical)
    (h : e.eval X ∈ scopePolynomials scope) : ∀ s ∈ e.symbols, s ∈ scope := by
  intro s hs
  obtain ⟨n, hn, hns⟩ := he.exists_support hs
  exact MvPolynomial.mem_supported.mp h ((MvPolynomial.mem_vars_iff_mem_support s).mpr
    ⟨n, hn, Finsupp.mem_support_iff.mpr hns⟩)

/-! ## Coefficients over the scope -/

theorem aeval_scopePoint {A : Type*} [CommRing A] [Algebra ℚ A] (σ : Symbol → A)
    {f : MvPolynomial Symbol ℚ} (hf : f ∈ scopePolynomials scope) :
    MvPolynomial.aeval (scopePoint scope σ) f = MvPolynomial.map (algebraMap ℚ A) f := by
  have agree := aeval_congr_of_mem (ρ := scopePoint scope σ) (τ := X) hf
    (fun s hs => scopePoint_of_mem hs σ)
  refine agree.trans ?_
  clear agree hf
  induction f using MvPolynomial.induction_on with
  | C r =>
      rw [MvPolynomial.aeval_C, MvPolynomial.map_C]
      rfl
  | add f g hf hg => rw [map_add, map_add, hf, hg]
  | mul_X f s hf => rw [map_mul, map_mul, hf, MvPolynomial.aeval_X, MvPolynomial.map_X]

theorem coeff_aeval_scopePoint_mem (hdisjoint : ∀ s ∈ decisions, s ∉ scope)
    {q : MvPolynomial Symbol ℚ} (hq : q ∈ affineSpan scope decisions) (n : Symbol →₀ ℕ) :
    coeff n (MvPolynomial.aeval (scopePoint scope (X : Symbol → MvPolynomial Symbol ℚ)) q) ∈
      Submodule.span ℚ (insert 1 (X '' {s | s ∈ decisions})) := by
  classical
  induction hq using Submodule.span_induction generalizing n with
  | mem x hx =>
      rcases hx with rfl | ⟨t, ht, rfl⟩
      · rw [map_one, MvPolynomial.coeff_one]
        split
        · exact Submodule.subset_span (Set.mem_insert _ _)
        · exact zero_mem _
      · rw [MvPolynomial.aeval_X, scopePoint_of_notMem (hdisjoint t ht), MvPolynomial.coeff_C]
        split
        · exact Submodule.subset_span (Set.mem_insert_of_mem _ ⟨t, ht, rfl⟩)
        · exact zero_mem _
  | zero => simp
  | add p q _ _ hp hq =>
      rw [map_add, MvPolynomial.coeff_add]
      exact add_mem (hp n) (hq n)
  | smul f q _ hq =>
      change coeff n (MvPolynomial.aeval _ (f.1 * q)) ∈ _
      rw [map_mul, aeval_scopePoint _ f.2, MvPolynomial.coeff_mul]
      refine sum_mem (fun split _ => ?_)
      rw [MvPolynomial.coeff_map, ← Algebra.smul_def]
      exact Submodule.smul_mem _ _ (hq split.2)

theorem isAffine_of_mem_span {index : Symbol → Option ℤ}
    (hindex : ∀ s ∈ decisions, ∃ j, index s = some j) {q : MvPolynomial Symbol ℚ}
    (hq : q ∈ Submodule.span ℚ (insert 1 (X '' {s | s ∈ decisions}))) : IsAffine index q := by
  classical
  induction hq using Submodule.span_induction with
  | mem x hx =>
      intro n hn
      rcases hx with rfl | ⟨t, ht, rfl⟩
      · rw [MvPolynomial.mem_support_iff, MvPolynomial.coeff_one] at hn
        exact .inl (by_contra (fun h => hn (by simp [Ne.symm h])))
      · obtain ⟨j, hj⟩ := hindex t ht
        rw [MvPolynomial.mem_support_iff, MvPolynomial.coeff_X] at hn
        exact .inr ⟨t, j, hj, by_contra (fun h => hn (by simp [Ne.symm h]))⟩
  | zero =>
      intro n hn
      simp at hn
  | add p q _ _ hp hq =>
      intro n hn
      rcases Finset.mem_union.mp (MvPolynomial.support_add hn) with h | h
      · exact hp n h
      · exact hq n h
  | smul r q _ hq =>
      intro n hn
      exact hq n (MvPolynomial.support_smul hn)

theorem aeval_scopePoint_nil (q : MvPolynomial Symbol ℚ) :
    MvPolynomial.aeval (scopePoint [] (X : Symbol → MvPolynomial Symbol ℚ)) q = C q := by
  have points : scopePoint [] (X : Symbol → MvPolynomial Symbol ℚ) = fun s => C (X s) := by
    funext s
    exact scopePoint_of_notMem (by simp) _
  rw [points]
  induction q using MvPolynomial.induction_on with
  | C a => exact MvPolynomial.aeval_C _ a
  | add p q hp hq => rw [map_add, map_add, hp, hq]
  | mul_X p s hp => rw [map_mul, map_mul, hp, MvPolynomial.aeval_X]

/-- Without variables, affine in decisions means a combination of one and decisions. -/
theorem mem_span_of_mem_affineSpan_nil {q : MvPolynomial Symbol ℚ}
    (hq : q ∈ affineSpan [] decisions) :
    q ∈ Submodule.span ℚ (insert 1 (X '' {s | s ∈ decisions})) := by
  have coefficient := coeff_aeval_scopePoint_mem (by simp) hq 0
  rwa [aeval_scopePoint_nil, MvPolynomial.coeff_zero_C] at coefficient

section

variable {e : Expression Rat} (he : e.IsPolynomial) (hscope : scope.Nodup)
  (hdisjoint : ∀ s ∈ decisions, s ∉ scope) (haffine : e.eval X ∈ affineSpan scope decisions)
  {m : CoefficientMap Rat} (hm : coefficients e scope = .ok m) {v : Exponents}
  {c : Expression Rat} (hc : (v, c) ∈ m)

include he hscope hdisjoint haffine hm hc

theorem eval_mem_span_of_coefficients :
    (c.eval X : MvPolynomial Symbol ℚ) ∈
      Submodule.span ℚ (insert 1 (X '' {s | s ∈ decisions})) := by
  have regular := isRegular_of_coefficients he hm
  rw [← CoefficientMap.coefficientAt_of_mem regular hc,
    ← coeff_of_coefficients X he hscope hm (regular.vectors _ hc), Expression.eval_eq_aeval]
  exact coeff_aeval_scopePoint_mem hdisjoint haffine _

theorem exists_linearForm_of_coefficients {index : Symbol → Option ℤ}
    (hindex : ∀ s ∈ decisions, ∃ j, index s = some j) :
    ∃ form, linearForm c index = .ok form ∧ ∀ entry ∈ form.row, ∃ s, index s = some entry.1 :=
  exists_linearForm ((isRegular_of_coefficients he hm).canonical _ hc).isPolynomial
    (isAffine_of_mem_span hindex
      (eval_mem_span_of_coefficients he hscope hdisjoint haffine hm hc))

end

end HybridRelaxation
