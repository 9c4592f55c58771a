import Mathlib
import HybridRelaxation.Proofs.SquareSum.QuadraticForm

/-!
# Sums of squares and Gram matrices

The leading forms of real squares cannot cancel, so a sum of squares of degree at most `2 * n` is one
of polynomials of degree at most `n`.  Hence the quadratic forms of positive semidefinite matrices
over the monomials up to degree `n` are exactly the sums of squares of degree at most `2 * n`.
-/

namespace HybridRelaxation

open MvPolynomial (C coeff homogeneousComponent)

/-! ## Degrees of square roots -/

theorem eq_zero_of_sum_sq {σ : Type*} {fs : List (MvPolynomial σ ℝ)}
    (h : (fs.map (· ^ 2)).sum = 0) : ∀ f ∈ fs, f = 0 := by
  have nonneg (fs : List (MvPolynomial σ ℝ)) (x : σ → ℝ) :
      0 ≤ MvPolynomial.eval x (fs.map (· ^ 2)).sum := by
    rw [map_list_sum, List.map_map]
    refine List.sum_nonneg (fun a ha => ?_)
    obtain ⟨f, -, rfl⟩ := List.mem_map.mp ha
    simpa using sq_nonneg (MvPolynomial.eval x f)
  induction fs with
  | nil => simp
  | cons f fs ih =>
      rw [List.map_cons, List.sum_cons] at h
      have head : f = 0 := by
        refine MvPolynomial.funext (fun x => ?_)
        have total := congrArg (MvPolynomial.eval x) h
        rw [map_add, map_pow, map_zero] at total
        have square := sq_nonneg (MvPolynomial.eval x f)
        have rest := nonneg fs x
        exact (pow_eq_zero_iff two_ne_zero).mp (by linarith)
      rw [head, zero_pow two_ne_zero, zero_add] at h
      intro g hg
      obtain rfl | hg := List.mem_cons.mp hg
      · exact head
      · exact ih h g hg

theorem degree_le_of_mem_support {σ R : Type*} [CommRing R] {f : MvPolynomial σ R} {n : ℕ}
    (hf : f.totalDegree ≤ n) {m : σ →₀ ℕ} (hm : m ∈ f.support) : m.degree ≤ n :=
  (MvPolynomial.le_totalDegree hm).trans hf

theorem degree_lt_of_mem_support {σ : Type*} {f : MvPolynomial σ ℝ} {n : ℕ}
    (hf : f.totalDegree ≤ n) {m : σ →₀ ℕ} (hm : m ∈ (f - homogeneousComponent n f).support) :
    m.degree < n := by
  have hcoeff := MvPolynomial.mem_support_iff.mp hm
  rw [MvPolynomial.coeff_sub, MvPolynomial.coeff_homogeneousComponent] at hcoeff
  by_cases hdegree : m.degree = n
  · simp [hdegree] at hcoeff
  · rw [if_neg hdegree, sub_zero] at hcoeff
    exact lt_of_le_of_ne (degree_le_of_mem_support hf (MvPolynomial.mem_support_iff.mpr hcoeff))
      hdegree

theorem homogeneousComponent_sq {σ : Type*} {f : MvPolynomial σ ℝ} {n : ℕ}
    (hf : f.totalDegree ≤ n) :
    homogeneousComponent (2 * n) (f ^ 2) = homogeneousComponent n f ^ 2 := by
  classical
  have form : (homogeneousComponent n f).IsHomogeneous n :=
    MvPolynomial.homogeneousComponent_isHomogeneous n f
  have square : homogeneousComponent n f ^ 2 ∈ MvPolynomial.homogeneousSubmodule σ ℝ (2 * n) := by
    rw [MvPolynomial.mem_homogeneousSubmodule, mul_comm]
    exact form.pow 2
  have split : f ^ 2 = homogeneousComponent n f ^ 2 +
      (f - homogeneousComponent n f) * (f + homogeneousComponent n f) := by ring
  have lower : homogeneousComponent (2 * n)
      ((f - homogeneousComponent n f) * (f + homogeneousComponent n f)) = 0 := by
    refine MvPolynomial.homogeneousComponent_eq_zero' _ _ (fun m hm => ?_)
    obtain ⟨a, ha, b, hb, rfl⟩ := Finset.mem_add.mp (MvPolynomial.support_mul _ _ hm)
    have hb : b.degree ≤ n := by
      obtain hb | hb := Finset.mem_union.mp (MvPolynomial.support_add hb)
      · exact degree_le_of_mem_support hf hb
      · exact degree_le_of_mem_support form.totalDegree_le hb
    have ha := degree_lt_of_mem_support hf ha
    rw [map_add]
    omega
  rw [split, map_add, lower, add_zero, MvPolynomial.homogeneousComponent_of_mem square, if_pos rfl]

theorem totalDegree_le_of_homogeneousComponent {σ : Type*} {f : MvPolynomial σ ℝ} {n : ℕ}
    (hf : f.totalDegree ≤ n + 1) (h : homogeneousComponent (n + 1) f = 0) : f.totalDegree ≤ n := by
  refine Finset.sup_le (fun m hm => Nat.le_of_lt_succ ?_)
  refine degree_lt_of_mem_support hf ?_
  rwa [h, sub_zero]

/-- Square roots have at most half the degree of the sum of their squares. -/
theorem totalDegree_le_of_sum_sq {σ : Type*} {fs : List (MvPolynomial σ ℝ)} {n : ℕ}
    (h : ((fs.map (· ^ 2)).sum).totalDegree ≤ 2 * n) : ∀ f ∈ fs, f.totalDegree ≤ n := by
  -- The common bound is lowered step by step as long as it is larger than `n`.
  have lowered (k : ℕ) (hk : ∀ f ∈ fs, f.totalDegree ≤ n + k) : ∀ f ∈ fs, f.totalDegree ≤ n := by
    induction k with
    | zero => exact hk
    | succ k ih =>
        refine ih (fun f hf => totalDegree_le_of_homogeneousComponent (hk f hf) ?_)
        have forms : ((fs.map (homogeneousComponent (n + (k + 1)))).map (· ^ 2)).sum = 0 := by
          rw [← MvPolynomial.homogeneousComponent_eq_zero (2 * (n + (k + 1))) _
            (lt_of_le_of_lt h (by omega)), map_list_sum, List.map_map, List.map_map]
          exact congrArg List.sum
            (List.map_congr_left (fun g hg => (homogeneousComponent_sq (hk g hg)).symm))
        exact eq_zero_of_sum_sq forms _ (List.mem_map_of_mem hf)
  refine lowered (fs.map MvPolynomial.totalDegree).sum (fun f hf => ?_)
  exact (List.single_le_sum (by simp) _ (List.mem_map_of_mem hf)).trans (Nat.le_add_left _ _)

/-! ## Degrees over a scope -/

section

variable {A : Type*} [CommRing A] {scope : List Symbol} {f : MvPolynomial Symbol A} {n : ℕ}

theorem IsOver.mul {g : MvPolynomial Symbol A} (hf : IsOver scope f) (hg : IsOver scope g) :
    IsOver scope (f * g) := by
  classical
  intro m hm
  obtain ⟨a, ha, b, hb, rfl⟩ :=
    Finset.mem_add.mp (MvPolynomial.support_mul _ _ (MvPolynomial.mem_support_iff.mpr hm))
  obtain ⟨v, hv, rfl⟩ := hf a (MvPolynomial.mem_support_iff.mp ha)
  obtain ⟨w, hw, rfl⟩ := hg b (MvPolynomial.mem_support_iff.mp hb)
  refine ⟨addExponents v w, Exponents.isNatural_addExponents hv hw, ?_⟩
  have product := monomialValue_addExponents (MvPolynomial.X : Symbol → MvPolynomial Symbol ℚ) hv hw
  simp only [monomialValue_X, MvPolynomial.monomial_mul, mul_one] at product
  exact MvPolynomial.monomial_left_injective one_ne_zero product

theorem IsOver.isOfDegree (h : IsOver scope f) (hf : f.totalDegree ≤ n) :
    IsOfDegree scope n f := by
  intro m hm
  obtain ⟨v, hv, rfl⟩ := h m hm
  have bound := degree_le_of_mem_support hf (MvPolynomial.mem_support_iff.mpr hm)
  have degree := degree_monomialPowers hv
  exact ⟨v, Exponents.mem_exponents.mpr ⟨hv, hv.totalDegreeOf_nonneg, by omega⟩, rfl⟩

theorem IsOfDegree.totalDegree_le (h : IsOfDegree scope n f) : f.totalDegree ≤ n := by
  refine Finset.sup_le (fun m hm => ?_)
  obtain ⟨v, hv, rfl⟩ := h m (MvPolynomial.mem_support_iff.mp hm)
  obtain ⟨natural, -, bound⟩ := Exponents.mem_exponents.mp hv
  have degree := degree_monomialPowers natural
  change (monomialPowers scope v).degree ≤ n
  omega

end

/-! ## Quadratic forms -/

def IsSumOfSquares (scope : List Symbol) (q : MvPolynomial Symbol ℝ) : Prop :=
  ∃ fs : List (MvPolynomial Symbol ℝ), (∀ f ∈ fs, IsOver scope f) ∧ q = (fs.map (· ^ 2)).sum

theorem isSumOfSquares_zero (scope : List Symbol) : IsSumOfSquares scope 0 :=
  ⟨[], by simp, by simp⟩

theorem isSumOfSquares_sq {scope : List Symbol} {q : MvPolynomial Symbol ℝ} (hq : IsOver scope q) :
    IsSumOfSquares scope (q ^ 2) :=
  ⟨[q], by simpa using hq, by simp⟩

theorem IsSumOfSquares.isOver {scope : List Symbol} {q : MvPolynomial Symbol ℝ}
    (h : IsSumOfSquares scope q) : IsOver scope q := by
  obtain ⟨fs, hfs, rfl⟩ := h
  refine isOver_sum (fun q hq => ?_)
  obtain ⟨f, hf, rfl⟩ := List.mem_map.mp hq
  rw [sq]
  exact (hfs f hf).mul (hfs f hf)

namespace SquareSum

variable {s : SquareSum Rat}

noncomputable def basisMonomial (s : SquareSum Rat) (i : ℕ) : MvPolynomial Symbol ℝ :=
  MvPolynomial.monomial (monomialPowers s.scope (s.basis.getD i [])) 1

noncomputable def basisSum (s : SquareSum Rat) (w : Fin s.gramSize → ℝ) :
    MvPolynomial Symbol ℝ :=
  ∑ i : Fin s.gramSize, C (w i) * s.basisMonomial i

theorem isOver_basisSum (hnatural : ∀ v ∈ s.basis, v.IsNatural s.scope.length)
    (w : Fin s.gramSize → ℝ) : IsOver s.scope (s.basisSum w) := by
  rw [basisSum, ← List.sum_ofFn]
  refine isOver_sum (fun q hq => ?_)
  obtain ⟨i, rfl⟩ := List.mem_ofFn.mp hq
  rw [basisMonomial, MvPolynomial.C_mul_monomial]
  exact isOver_monomial (isNatural_basis hnatural i) _

theorem quadratic_entriesOf (hnatural : ∀ v ∈ s.basis, v.IsNatural s.scope.length)
    (G : Matrix (Fin s.gramSize) (Fin s.gramSize) ℝ) :
    s.quadratic (entriesOf G) = ∑ i : Fin s.gramSize, ∑ j : Fin s.gramSize,
      C (G i j) * (s.basisMonomial i * s.basisMonomial j) := by
  rw [quadratic, Finset.sum_range]
  refine Finset.sum_congr rfl (fun i _ => ?_)
  rw [Finset.sum_range]
  refine Finset.sum_congr rfl (fun j _ => ?_)
  have product := monomialValue_addExponents (MvPolynomial.X : Symbol → MvPolynomial Symbol ℝ)
    (isNatural_basis hnatural i) (isNatural_basis hnatural j)
  simp only [monomialValue_X] at product
  rw [basisMonomial, basisMonomial, ← product, MvPolynomial.C_mul_monomial, mul_one, pairExponents]
  simp only [entriesOf, i.isLt, j.isLt, and_self, dite_true]

theorem quadratic_vecMulVec (hnatural : ∀ v ∈ s.basis, v.IsNatural s.scope.length)
    (w : Fin s.gramSize → ℝ) :
    s.quadratic (entriesOf (Matrix.vecMulVec w w)) = s.basisSum w ^ 2 := by
  rw [quadratic_entriesOf hnatural, sq, basisSum, Finset.sum_mul_sum]
  refine Finset.sum_congr rfl (fun i _ => Finset.sum_congr rfl (fun j _ => ?_))
  rw [Matrix.vecMulVec_apply, map_mul]
  ring

theorem quadratic_add (hnatural : ∀ v ∈ s.basis, v.IsNatural s.scope.length)
    (G H : Matrix (Fin s.gramSize) (Fin s.gramSize) ℝ) :
    s.quadratic (entriesOf (G + H)) = s.quadratic (entriesOf G) + s.quadratic (entriesOf H) := by
  simp only [quadratic_entriesOf hnatural, Matrix.add_apply, map_add, add_mul,
    Finset.sum_add_distrib]

theorem quadratic_sum_vecMulVec (hnatural : ∀ v ∈ s.basis, v.IsNatural s.scope.length)
    {ι : Type} (ks : Finset ι) (w : ι → Fin s.gramSize → ℝ) :
    s.quadratic (entriesOf (∑ k ∈ ks, Matrix.vecMulVec (w k) (w k))) =
      ∑ k ∈ ks, s.basisSum (w k) ^ 2 := by
  classical
  induction ks using Finset.induction_on with
  | empty => simp [quadratic_entriesOf hnatural]
  | insert k ks hk ih =>
      rw [Finset.sum_insert hk, Finset.sum_insert hk, quadratic_add hnatural,
        quadratic_vecMulVec hnatural, ih]

theorem isSumOfSquares_quadratic (hnatural : ∀ v ∈ s.basis, v.IsNatural s.scope.length)
    {G : Matrix (Fin s.gramSize) (Fin s.gramSize) ℝ} (hG : G.PosSemidef) :
    IsSumOfSquares s.scope (s.quadratic (entriesOf G)) := by
  obtain ⟨m, w, rfl⟩ := Matrix.posSemidef_iff_eq_sum_vecMulVec.mp hG
  refine ⟨List.ofFn (fun k => s.basisSum (w k)), fun f hf => ?_, ?_⟩
  · obtain ⟨k, rfl⟩ := List.mem_ofFn.mp hf
    exact isOver_basisSum hnatural (w k)
  · simp only [star_trivial]
    rw [quadratic_sum_vecMulVec hnatural, List.map_ofFn, List.sum_ofFn]
    rfl

section

variable (hscope : s.scope.Nodup) {n : ℕ} (hbasis : s.basis = exponents s.scope.length n 0)

include hbasis in
theorem isNatural_of_basis : ∀ v ∈ s.basis, v.IsNatural s.scope.length := by
  intro v hv
  rw [hbasis] at hv
  exact (Exponents.mem_exponents.mp hv).1

include hscope hbasis

theorem exists_basisSum {f : MvPolynomial Symbol ℝ} (hf : IsOfDegree s.scope n f) :
    ∃ w, f = s.basisSum w := by
  refine ⟨fun i => coeff (monomialPowers s.scope (s.basis.getD i [])) f, ?_⟩
  rw [basisSum, ← List.sum_ofFn]
  conv_lhs => rw [hf.eq_sum hscope, ← hbasis]
  congr 1
  refine List.ext_getElem (by simp [gramSize]) (fun k hk hk' => ?_)
  rw [List.length_map] at hk
  simp [basisMonomial, MvPolynomial.C_mul_monomial, List.getElem?_eq_getElem hk]

/-- Every sum of squares up to twice the degree of the basis has a Gram matrix. -/
theorem exists_gram_of_isSumOfSquares {q : MvPolynomial Symbol ℝ} (hq : IsSumOfSquares s.scope q)
    (hdegree : q.totalDegree ≤ 2 * n) :
    ∃ G : Matrix (Fin s.gramSize) (Fin s.gramSize) ℝ, G.PosSemidef ∧
      q = s.quadratic (entriesOf G) := by
  obtain ⟨fs, hover, rfl⟩ := hq
  have root (k : Fin fs.length) : ∃ w, fs.get k = s.basisSum w :=
    exists_basisSum hscope hbasis ((hover _ (List.get_mem fs k)).isOfDegree
      (totalDegree_le_of_sum_sq hdegree _ (List.get_mem fs k)))
  choose w hw using root
  refine ⟨∑ k, Matrix.vecMulVec (w k) (w k),
    Matrix.posSemidef_iff_eq_sum_vecMulVec.mpr ⟨_, w, by simp only [star_trivial]⟩, ?_⟩
  rw [quadratic_sum_vecMulVec (isNatural_of_basis hbasis)]
  simp only [← hw, ← List.sum_ofFn]
  congr 1
  exact List.ext_getElem (by simp) (fun k hk hk' => by simp)

end

end SquareSum

end HybridRelaxation
