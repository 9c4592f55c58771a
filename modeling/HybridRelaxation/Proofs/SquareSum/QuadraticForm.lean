import Mathlib
import HybridRelaxation.Proofs.SquareSum.FeasiblePoint

/-!
# Quadratic forms as expressions

The quadratic form of a Gram matrix is worked out as an expression.  Over a basis that is not empty
it exists for every square matrix of the right size, and it is the polynomial that the matching
equations are about.
-/

namespace HybridRelaxation

open MvPolynomial (X)

def gridOf {n : ℕ} (G : Matrix (Fin n) (Fin n) Rat) : Grid Rat :=
  ⟨n, List.ofFn (fun i => List.ofFn (G i))⟩

namespace SquareSum

variable {s : SquareSum Rat}

def gramTerm (s : SquareSum Rat) (G : Matrix (Fin s.gramSize) (Fin s.gramSize) Rat)
    (i j : Fin s.gramSize) : Expression Rat :=
  Expression.scale (G i j)
    (monomial s.scope (s.basis.getD i []) * monomial s.scope (s.basis.getD j []))

section

variable (natural : ∀ v ∈ s.basis, v.IsNatural s.scope.length)
  (G : Matrix (Fin s.gramSize) (Fin s.gramSize) Rat)

include natural

theorem isNatural_basis (i : Fin s.gramSize) :
    (s.basis.getD i []).IsNatural s.scope.length := by
  rw [List.getD_eq_getElem _ _ i.isLt]
  exact natural _ (List.getElem_mem i.isLt)

theorem isPolynomial_gramTerm (i j : Fin s.gramSize) : (s.gramTerm G i j).IsPolynomial :=
  Expression.isPolynomial_scale (Expression.isPolynomial_mul
    (isPolynomial_monomial (isNatural_basis natural i))
    (isPolynomial_monomial (isNatural_basis natural j)))

theorem eval_gramTerm (i j : Fin s.gramSize) :
    (s.gramTerm G i j).eval (X : Symbol → MvPolynomial Symbol ℚ) =
      MvPolynomial.monomial (monomialPowers s.scope (s.pairExponents (i, j)))
        (entriesOf G i j) := by
  have hi := isNatural_basis natural i
  have hj := isNatural_basis natural j
  rw [gramTerm, Expression.eval_scale, Expression.eval_mul _ (isPolynomial_monomial hi)
    (isPolynomial_monomial hj), eval_monomial _ hi, eval_monomial _ hj,
    ← monomialValue_addExponents X hi hj, monomialValue_X, MvPolynomial.algebraMap_eq,
    MvPolynomial.C_mul_monomial, mul_one]
  simp [entriesOf, pairExponents]

end

/-- Over an empty basis the product of the basis and the matrix has no entry. -/
theorem gramForm_of_isEmpty (hs : s.basis = []) (G : Matrix (Fin s.gramSize) (Fin s.gramSize) Rat) :
    s.gramForm (gridOf G) = .error .outOfRange := by
  simp [gramForm, gridOf, Grid.height, hs]

theorem gramForm_of_ne_nil (hs : s.basis ≠ [])
    (G : Matrix (Fin s.gramSize) (Fin s.gramSize) Rat) :
    s.gramForm (gridOf G) = .ok (Expression.sum
      (List.ofFn (fun i => List.ofFn (s.gramTerm G i))).flatten).expand := by
  have length : s.monomialBasis.length = s.gramSize := List.length_map _
  have member (i : ℕ) (h : i < s.monomialBasis.length) :
      s.monomialBasis[i] = monomial s.scope (s.basis.getD i []) := by
    have bound : i < s.basis.length := h.trans_eq length
    rw [List.getD_eq_getElem _ _ bound]
    exact List.getElem_map _
  have rows : List.zipWith (fun z row => quadraticRow z row s.monomialBasis) s.monomialBasis
      (gridOf G).rows = List.ofFn (fun i => List.ofFn (s.gramTerm G i)) := by
    refine List.ext_getElem (by simp [gridOf, length]) (fun i h h' => ?_)
    refine List.ext_getElem (by simp [gridOf, quadraticRow, length]) (fun j k k' => ?_)
    simp [gridOf, quadraticRow, gramTerm, member]
  have shape : ¬ ((gridOf G).height ≠ s.gramSize ∨ (gridOf G).width ≠ s.gramSize) := by
    simp [gridOf, Grid.height]
  have nonempty : ¬ s.basis.isEmpty = true := by simpa using hs
  rw [gramForm, if_neg shape, if_neg nonempty, rows]

theorem gramForm_spec (natural : ∀ v ∈ s.basis, v.IsNatural s.scope.length) (hs : s.basis ≠ [])
    (G : Matrix (Fin s.gramSize) (Fin s.gramSize) Rat) :
    ∃ form, s.gramForm (gridOf G) = .ok form ∧ form.IsPolynomial ∧
      form.eval (X : Symbol → MvPolynomial Symbol ℚ) = s.quadratic (entriesOf G) := by
  have polynomial : (Expression.sum
      (List.ofFn (fun i => List.ofFn (s.gramTerm G i))).flatten).IsPolynomial := by
    refine Expression.isPolynomial_sum (fun e he => ?_)
    obtain ⟨row, hrow, he⟩ := List.mem_flatten.mp he
    obtain ⟨i, rfl⟩ := List.mem_ofFn.mp hrow
    obtain ⟨j, rfl⟩ := List.mem_ofFn.mp he
    exact isPolynomial_gramTerm natural G i j
  refine ⟨_, gramForm_of_ne_nil hs G, Expression.isPolynomial_expand polynomial, ?_⟩
  rw [Expression.eval_expand _ polynomial, Expression.eval_sum, quadratic, List.map_flatten,
    List.sum_flatten]
  simp only [List.map_ofFn, List.sum_ofFn, Function.comp_def, eval_gramTerm natural,
    Finset.sum_range]

end SquareSum

end HybridRelaxation
