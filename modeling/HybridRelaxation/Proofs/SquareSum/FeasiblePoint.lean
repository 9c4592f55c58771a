import Mathlib
import HybridRelaxation.Proofs.SquareSum.Decisions

/-!
# Exact feasible points

A feasible point of a program gives every free coefficient a real value and every statement a
positive semidefinite Gram matrix, so that all matching equations hold exactly.  At such a point
each stated polynomial is nonnegative everywhere, and a polynomial certified on a set is nonnegative
on that set.
-/

namespace HybridRelaxation

open MvPolynomial (C X)

/-! ## Points of a program -/

section

variable {A : Type*}

/-- The entries of a square matrix by number; there are none outside. -/
def entriesOf [Zero A] {n : ℕ} (G : Matrix (Fin n) (Fin n) A) (i j : ℕ) : A :=
  if h : i < n ∧ j < n then G ⟨i, h.1⟩ ⟨j, h.2⟩ else 0

def columnValues [Zero A] {n : ℕ} (free : Fin n → A) (j : ℤ) : A :=
  if h : 0 ≤ j ∧ j.toNat < n then free ⟨j.toNat, h.2⟩ else 0

end

/-- Values of the free coefficients and Gram matrices that meet all matching equations. -/
structure FeasiblePoint (p : SquareProgram Rat) where
  free : Fin p.size → ℝ
  gram : ∀ k : Fin p.statements.length,
    Matrix (Fin (p.statements.get k).gramSize) (Fin (p.statements.get k).gramSize) ℝ
  posSemidef : ∀ k, (gram k).PosSemidef
  matched : ∀ k, ∃ m, (p.statements.get k).matching p.index p.size = .ok m ∧
    ∀ row ∈ m.rows, row.gap (columnValues free)
      (m.pairs.map (fun pair => entriesOf (gram k) pair.1 pair.2)) = 0

/-! ## Quadratic forms -/

theorem entriesOf_symm {A : Type*} [Zero A] {n : ℕ} {G : Matrix (Fin n) (Fin n) A}
    (hG : G.IsSymm) (i j : ℕ) : entriesOf G i j = entriesOf G j i := by
  unfold entriesOf
  by_cases h : i < n ∧ j < n
  · have entry := hG.apply ⟨j, h.2⟩ ⟨i, h.1⟩
    simpa [h, h.symm] using entry
  · have h' : ¬ (j < n ∧ i < n) := fun h' => h h'.symm
    simp [h, h']

theorem isSymm_of_posSemidef {n : ℕ} {G : Matrix (Fin n) (Fin n) ℝ} (hG : G.PosSemidef) :
    G.IsSymm :=
  Matrix.isHermitian_iff_isSymm.mp hG.isHermitian

theorem entriesOf_eq_zero_of_diagonal {n : ℕ} {G : Matrix (Fin n) (Fin n) ℝ} (hG : G.PosSemidef)
    {i : ℕ} (h : entriesOf G i i = 0) (j : ℕ) : entriesOf G i j = 0 := by
  by_cases hij : i < n ∧ j < n
  · have minor := (hG.submatrix ![⟨i, hij.1⟩, ⟨j, hij.2⟩]).det_nonneg
    have diagonal : G ⟨i, hij.1⟩ ⟨i, hij.1⟩ = 0 := by simpa [entriesOf, hij.1] using h
    have symmetric : G ⟨j, hij.2⟩ ⟨i, hij.1⟩ = G ⟨i, hij.1⟩ ⟨j, hij.2⟩ :=
      (isSymm_of_posSemidef hG).apply _ _
    rw [Matrix.det_fin_two] at minor
    simp only [Matrix.submatrix_apply, Matrix.cons_val_zero, Matrix.cons_val_one, diagonal,
      symmetric, zero_mul, zero_sub] at minor
    rw [entriesOf, dif_pos hij]
    exact mul_self_eq_zero.mp (le_antisymm (neg_nonneg.mp minor) (mul_self_nonneg _))
  · exact dif_neg hij

theorem sum_entriesOf {n : ℕ} (G : Matrix (Fin n) (Fin n) ℝ) (z : ℕ → ℝ) :
    ∑ i ∈ Finset.range n, ∑ j ∈ Finset.range n, entriesOf G i j * (z i * z j) =
      (fun i : Fin n => z i) ⬝ᵥ (G.mulVec (fun j : Fin n => z j)) := by
  simp only [dotProduct, Matrix.mulVec, Finset.sum_range, Finset.mul_sum]
  refine Finset.sum_congr rfl (fun i _ => Finset.sum_congr rfl (fun j _ => ?_))
  simp only [entriesOf, i.isLt, j.isLt, and_self, dite_true]
  ring

theorem sum_entriesOf_nonneg {n : ℕ} {G : Matrix (Fin n) (Fin n) ℝ} (hG : G.PosSemidef)
    (z : ℕ → ℝ) :
    0 ≤ ∑ i ∈ Finset.range n, ∑ j ∈ Finset.range n, entriesOf G i j * (z i * z j) := by
  rw [sum_entriesOf]
  simpa using (Matrix.posSemidef_iff_dotProduct_mulVec.mp hG).2 (fun i : Fin n => z i)

namespace SquareSum

variable {s : SquareSum Rat}

theorem IsRegular.eval_quadratic (hs : s.IsRegular) (g : ℕ → ℕ → ℝ) (x : Symbol → ℝ) :
    MvPolynomial.eval x (s.quadratic g) =
      ∑ i ∈ Finset.range s.gramSize, ∑ j ∈ Finset.range s.gramSize,
        g i j * (monomialValue x s.scope (s.basis.getD i []) *
          monomialValue x s.scope (s.basis.getD j [])) := by
  have value (v : Exponents) : MvPolynomial.eval x
      (MvPolynomial.monomial (monomialPowers s.scope v) (1 : ℝ)) = monomialValue x s.scope v := by
    rw [← monomialValue_X, map_monomialValue]
    simp only [MvPolynomial.eval_X]
  rw [quadratic, map_sum]
  refine Finset.sum_congr rfl (fun i hi => ?_)
  rw [map_sum]
  refine Finset.sum_congr rfl (fun j hj => ?_)
  have hi := hs.isNatural_getD (Finset.mem_range.mp hi)
  have hj := hs.isNatural_getD (Finset.mem_range.mp hj)
  rw [← mul_one (g i j), ← MvPolynomial.C_mul_monomial, map_mul, MvPolynomial.eval_C, value,
    mul_one, pairExponents, monomialValue_addExponents x hi hj]

end SquareSum

namespace FeasiblePoint

variable {p : SquareProgram Rat} (point : FeasiblePoint p)

def values (k : ℕ) : ℝ := columnValues point.free k

noncomputable def solved (e : Expression Rat) : MvPolynomial Symbol ℝ := solvedAt point.values e

theorem eval_solved (e : Expression Rat) (x : Symbol → ℝ) :
    MvPolynomial.eval x (point.solved e) = e.eval (decided point.values x) :=
  aeval_solvedAt point.values e x

theorem solved_eq_quadratic (hp : p.IsRegular) (k : Fin p.statements.length) :
    point.solved (p.statements.get k).polynomial =
      (p.statements.get k).quadratic (entriesOf (point.gram k)) := by
  obtain ⟨m, hm, gaps⟩ := point.matched k
  have hmem := List.get_mem p.statements k
  rw [solved, ← hp.eval_scopePoint point.values hmem (fun _ => 0)]
  refine ((hp.statements _ hmem).matching_iff (fun t j hj => ?_)
    (entriesOf_symm (isSymm_of_posSemidef (point.posSemidef k))) hm).mp gaps
  obtain ⟨i, label, rfl, rfl, -⟩ := SquareProgram.index_eq_some hj
  rfl

theorem exists_quadratic (hp : p.IsRegular) {s : SquareSum Rat} (hs : s ∈ p.statements) :
    ∃ G : Matrix (Fin s.gramSize) (Fin s.gramSize) ℝ, G.PosSemidef ∧
      point.solved s.polynomial = s.quadratic (entriesOf G) := by
  obtain ⟨k, rfl⟩ := List.mem_iff_get.mp hs
  exact ⟨point.gram k, point.posSemidef k, point.solved_eq_quadratic hp k⟩

theorem nonneg_of_mem (hp : p.IsRegular) {s : SquareSum Rat} (hs : s ∈ p.statements)
    (x : Symbol → ℝ) : 0 ≤ s.polynomial.eval (decided point.values x) := by
  obtain ⟨G, hG, identity⟩ := point.exists_quadratic hp hs
  rw [← eval_solved, identity, (hp.statements s hs).eval_quadratic]
  exact sum_entriesOf_nonneg hG _

end FeasiblePoint

/-! ## Lists of Gram matrices -/

structure SquareSum.HasGram (φ : ℕ → ℝ) (s : SquareSum Rat)
    (g : Σ n : ℕ, Matrix (Fin n) (Fin n) ℝ) : Prop where
  size : g.1 = s.gramSize
  posSemidef : g.2.PosSemidef
  identity : solvedAt φ s.polynomial = s.quadratic (entriesOf g.2)

namespace FeasiblePoint

variable {p : SquareProgram Rat}

def grams (point : FeasiblePoint p) : List (Σ n : ℕ, Matrix (Fin n) (Fin n) ℝ) :=
  List.ofFn (fun k => ⟨_, point.gram k⟩)

theorem hasGram_grams (point : FeasiblePoint p) (hp : p.IsRegular) :
    List.Forall₂ (SquareSum.HasGram point.values) p.statements point.grams := by
  refine List.forall₂_iff_get.mpr ⟨by simp [grams], fun k hk _ => ?_⟩
  simp only [grams, List.get_ofFn]
  exact ⟨rfl, point.posSemidef _, point.solved_eq_quadratic hp ⟨k, hk⟩⟩

theorem exists_of_grams (hp : p.IsRegular) (φ : ℕ → ℝ)
    {gs : List (Σ n : ℕ, Matrix (Fin n) (Fin n) ℝ)}
    (h : List.Forall₂ (SquareSum.HasGram φ) p.statements gs) :
    ∃ point : FeasiblePoint p, (∀ k < p.size, point.values k = φ k) ∧ point.grams = gs := by
  have single (k : Fin p.statements.length) :
      ∃ G : Matrix (Fin (p.statements.get k).gramSize) (Fin (p.statements.get k).gramSize) ℝ,
        gs[k.val]? = some ⟨_, G⟩ ∧ G.PosSemidef ∧
          solvedAt φ (p.statements.get k).polynomial =
            (p.statements.get k).quadratic (entriesOf G) := by
    obtain ⟨⟨n, G⟩, hG, size, posSemidef, identity⟩ :=
      exists_right_at h (List.getElem?_eq_getElem k.isLt)
    obtain rfl : n = (p.statements.get k).gramSize := size
    exact ⟨G, hG, posSemidef, identity⟩
  choose gram listed posSemidef identity using single
  have value (k : ℕ) (hk : k < p.size) :
      columnValues (fun i : Fin p.size => φ i) (k : ℤ) = φ k := by
    simp [columnValues, hk]
  refine ⟨⟨fun i => φ i, gram, posSemidef, fun k => ?_⟩, value, ?_⟩
  · have hmem := List.get_mem p.statements k
    obtain ⟨m, hm⟩ := hp.exists_matching hmem
    refine ⟨m, hm, ((hp.statements _ hmem).matching_iff (σ := decided φ (fun _ => 0))
      (fun t j hj => ?_) (entriesOf_symm (isSymm_of_posSemidef (posSemidef k))) hm).mpr ?_⟩
    · obtain ⟨i, label, rfl, rfl, hi⟩ := SquareProgram.index_eq_some hj
      exact (value i (List.getElem?_eq_some_iff.mp hi).1).symm
    · rw [hp.eval_scopePoint φ hmem, identity k]
  · refine List.ext_getElem? (fun k => ?_)
    by_cases hk : k < p.statements.length
    · rw [grams, List.getElem?_ofFn, dif_pos hk, listed ⟨k, hk⟩]
    · rw [List.getElem?_eq_none (by simpa [grams] using hk),
        List.getElem?_eq_none (by rw [← h.length_eq]; omega)]

theorem exists_of_quadratic (hp : p.IsRegular) (φ : ℕ → ℝ)
    (h : ∀ s ∈ p.statements, ∃ G : Matrix (Fin s.gramSize) (Fin s.gramSize) ℝ, G.PosSemidef ∧
      solvedAt φ s.polynomial = s.quadratic (entriesOf G)) :
    ∃ point : FeasiblePoint p, ∀ k < p.size, point.values k = φ k := by
  obtain ⟨gs, all⟩ := exists_forall₂_right (r := SquareSum.HasGram φ) (fun s hs => by
    obtain ⟨G, hG, identity⟩ := h s hs
    exact ⟨⟨_, G⟩, rfl, hG, identity⟩)
  obtain ⟨point, agree, -⟩ := exists_of_grams hp φ all
  exact ⟨point, agree⟩

theorem ext_values {x y : FeasiblePoint p} (hvalues : ∀ k < p.size, x.values k = y.values k)
    (hgrams : x.grams = y.grams) : x = y := by
  obtain ⟨free, gram, _, _⟩ := x
  obtain ⟨free', gram', _, _⟩ := y
  obtain rfl : free = free' := by
    funext i
    simpa [values, columnValues] using hvalues i i.isLt
  obtain rfl : gram = gram' := by
    funext k
    exact eq_of_heq (Sigma.mk.inj_iff.mp (congrFun (List.ofFn_injective hgrams) k)).2
  rfl

end FeasiblePoint

end HybridRelaxation
