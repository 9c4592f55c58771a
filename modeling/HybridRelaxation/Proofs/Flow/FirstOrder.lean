import Mathlib
import HybridRelaxation.Proofs.Flow.VectorField
import HybridRelaxation.Proofs.Polynomial.AffineSpan

/-!
# First-order expansion along a velocity

On a line through a point time runs at rate one and each state moves at its velocity.  The value of
a polynomial on such a line is a polynomial in the step, and its linear coefficient is the
derivative in time plus the derivative along the velocity.
-/

namespace HybridRelaxation

open MvPolynomial (X aeval pderiv)

section

variable {R : Type*} [CommRing R]

/-- One for time, its velocity for a state, and zero for every other symbol. -/
def rateOf (time : Symbol) (states : List Symbol) (velocity : List R) (s : Symbol) : R :=
  if s = time then 1 else velocity.getD (states.idxOf s) 0

theorem rateOf_time (time : Symbol) (states : List Symbol) (velocity : List R) :
    rateOf time states velocity time = 1 := if_pos rfl

theorem rateOf_of_notMem {time : Symbol} {states : List Symbol} {velocity : List R}
    (h : velocity.length = states.length) {s : Symbol} (hs : s ∉ time :: states) :
    rateOf time states velocity s = 0 := by
  rw [List.mem_cons, not_or] at hs
  rw [rateOf, if_neg hs.1, List.idxOf_eq_length hs.2, List.getD_eq_default _ _ h.le]

theorem map_rateOf {time : Symbol} {states : List Symbol} {velocity : List R}
    (hdistinct : (time :: states).Nodup) (h : velocity.length = states.length) :
    states.map (rateOf time states velocity) = velocity := by
  rw [List.nodup_cons] at hdistinct
  refine List.ext_getElem (by rw [List.length_map, h]) (fun k hk hk' => ?_)
  rw [List.length_map] at hk
  have differs : states[k] ≠ time := fun heq => hdistinct.1 (heq ▸ List.getElem_mem hk)
  rw [List.getElem_map, rateOf, if_neg differs, hdistinct.2.idxOf_getElem k hk,
    List.getD_eq_getElem _ _ hk']

/-- Where each symbol is after a step from a point at its rate; the step is the variable. -/
noncomputable def lineThrough (ρ rate : Symbol → R) (s : Symbol) : Polynomial R :=
  Polynomial.C (ρ s) + Polynomial.C (rate s) * Polynomial.X

variable (ρ rate : Symbol → R)

theorem coeff_zero_lineThrough (s : Symbol) : (lineThrough ρ rate s).coeff 0 = ρ s := by
  rw [lineThrough, Polynomial.coeff_add, Polynomial.coeff_C_zero, Polynomial.coeff_mul_X_zero,
    add_zero]

theorem coeff_one_lineThrough (s : Symbol) : (lineThrough ρ rate s).coeff 1 = rate s := by
  rw [lineThrough, Polynomial.coeff_add, Polynomial.coeff_C_succ, zero_add,
    Polynomial.coeff_mul_X, Polynomial.coeff_C_zero]

variable [Algebra ℚ R]

theorem coeff_zero_aeval_lineThrough (q : MvPolynomial Symbol ℚ) :
    (aeval (lineThrough ρ rate) q).coeff 0 = aeval ρ q := by
  induction q using MvPolynomial.induction_on with
  | C r =>
      rw [MvPolynomial.aeval_C, MvPolynomial.aeval_C, Polynomial.algebraMap_apply,
        Polynomial.coeff_C_zero]
  | add p q hp hq => rw [map_add, map_add, Polynomial.coeff_add, hp, hq]
  | mul_X p s hp =>
      rw [map_mul, map_mul, MvPolynomial.aeval_X, MvPolynomial.aeval_X, Polynomial.mul_coeff_zero,
        hp, coeff_zero_lineThrough]

theorem coeff_one_aeval_lineThrough {symbols : List Symbol} (hdistinct : symbols.Nodup)
    (hrate : ∀ s, s ∉ symbols → rate s = 0) (q : MvPolynomial Symbol ℚ) :
    (aeval (lineThrough ρ rate) q).coeff 1 =
      (symbols.map (fun s => aeval ρ (pderiv s q) * rate s)).sum := by
  classical
  induction q using MvPolynomial.induction_on with
  | C r =>
      rw [MvPolynomial.aeval_C, Polynomial.algebraMap_apply, Polynomial.coeff_C_succ]
      simp only [MvPolynomial.pderiv_C, map_zero, zero_mul, List.map_const', List.sum_replicate,
        smul_zero]
  | add p q hp hq =>
      rw [map_add, Polynomial.coeff_add, hp, hq, ← List.sum_map_add]
      simp only [map_add, add_mul]
  | mul_X p t hp =>
      have selected : (symbols.map (fun s => if t = s then rate s else 0)).sum = rate t := by
        simp only [eq_comm (a := t)]
        rw [List.sum_map_ite_eq]
        by_cases ht : t ∈ symbols
        · simp [List.count_eq_one_of_mem hdistinct ht]
        · simp [List.count_eq_zero_of_not_mem ht, hrate t ht]
      have split (s : Symbol) : aeval ρ (pderiv s (p * MvPolynomial.X t)) * rate s =
          ρ t * (aeval ρ (pderiv s p) * rate s) +
            aeval ρ p * (if t = s then rate s else 0) := by
        rw [MvPolynomial.pderiv_mul, MvPolynomial.pderiv_X, Pi.single_apply, map_add, map_mul,
          map_mul, MvPolynomial.aeval_X]
        by_cases hst : t = s
        · simp only [hst, if_true, map_one]
          ring
        · simp only [hst, if_false, map_zero]
          ring
      rw [map_mul, MvPolynomial.aeval_X, Polynomial.mul_coeff_one, hp,
        coeff_zero_aeval_lineThrough]
      simp only [split, List.sum_map_add, List.sum_map_mul_left, selected]
      rw [coeff_zero_lineThrough, coeff_one_lineThrough]
      ring

theorem coeff_one_lineThrough_rateOf {time : Symbol} {states : List Symbol} {velocity : List R}
    (hdistinct : (time :: states).Nodup) (h : velocity.length = states.length)
    (e : Expression Rat) :
    (e.eval (lineThrough ρ (rateOf time states velocity))).coeff 1 =
      aeval ρ (pderiv time (e.eval X : MvPolynomial Symbol ℚ)) +
        innerValue (states.map (fun s => aeval ρ (pderiv s (e.eval X : MvPolynomial Symbol ℚ))))
          velocity := by
  rw [Expression.eval_eq_aeval, coeff_one_aeval_lineThrough ρ _ hdistinct
    (fun s hs => rateOf_of_notMem h hs), List.map_cons, List.sum_cons, rateOf_time, mul_one]
  congr 1
  conv_rhs => rw [← map_rateOf hdistinct h]
  rw [innerValue, List.zipWith_map, List.zipWith_self]

end

end HybridRelaxation
