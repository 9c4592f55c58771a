import Mathlib
import HybridRelaxation.Proofs.Relaxation.ScopeClosure

/-!
# Coefficients at solved values

A polynomial expression can be split into coefficients before or after the decisions in it have
values: both ways give the same map.  The monomials may differ on the way, since a coefficient can
vanish at the values while the expression that it comes from is never multiplied out with symbols;
what vanishes is left out either way.  With a division in an expression this fails where the divisor
is zero at the values.
-/

namespace HybridRelaxation

open MvPolynomial (C X coeff)

variable {e : Expression Rat} {scope : List Symbol} {values : List (Symbol × Rat)}

/-! ## Values of evaluated expressions -/

/-- The last value that is listed for a symbol, or zero. -/
def valueOf (values : List (Symbol × Rat)) (s : Symbol) : Rat :=
  ((values.reverse.find? (fun entry => entry.1 = s)).map Prod.snd).getD 0

theorem replacements_valueReplacements (s : Symbol) :
    replacements (SquareProgram.valueReplacements values) s =
      (values.reverse.find? (fun entry => entry.1 = s)).map (fun entry => .number entry.2) := by
  rw [replacements, SquareProgram.valueReplacements, ← List.map_reverse, List.find?_map,
    Option.map_map]
  rfl

theorem eval_evaluate_pointAfter {R : Type*} [CommRing R] [Algebra ℚ R] (ρ : Symbol → R)
    (he : e.IsPolynomial) : (evaluate e values).eval ρ =
      e.eval (pointAfter ρ (replacements (SquareProgram.valueReplacements values))) := by
  have numbers : ∀ s f, replacements (SquareProgram.valueReplacements values) s = some f →
      f.IsPolynomial := fun _ _ => isPolynomial_of_valueReplacements
  rw [evaluate, Expression.eval_expand ρ (Expression.isPolynomial_substitute he numbers),
    Expression.eval_substitute ρ he numbers]

section

variable {R : Type*} [CommRing R] [Algebra ℚ R] (ρ : Symbol → R) {s : Symbol}

theorem pointAfter_of_notMem (h : s ∉ values.map Prod.fst) :
    pointAfter ρ (replacements (SquareProgram.valueReplacements values)) s = ρ s := by
  rw [pointAfter, replacements_of_notMem (by simpa [SquareProgram.valueReplacements] using h)]

theorem pointAfter_of_mem (h : s ∈ values.map Prod.fst) :
    pointAfter ρ (replacements (SquareProgram.valueReplacements values)) s =
      algebraMap ℚ R (valueOf values s) := by
  obtain ⟨entry, hentry, rfl⟩ := List.mem_map.mp h
  obtain ⟨found, hfound⟩ : ∃ found,
      values.reverse.find? (fun other => other.1 = entry.1) = some found :=
    Option.isSome_iff_exists.mp
      (List.find?_isSome.mpr ⟨entry, List.mem_reverse.mpr hentry, by simp⟩)
  rw [pointAfter, replacements_valueReplacements, valueOf, hfound]
  exact Expression.eval_number ρ found.2

end

theorem evaluate_of_disjoint (he : e.IsNormal) (h : ∀ s ∈ e.symbols, s ∉ values.map Prod.fst) :
    evaluate e values = e := by
  have polynomial := he.toIsCanonical.isPolynomial
  refine Expression.IsNormal.eq_of_eval_eq (Expression.isNormal_expand
    (Expression.isPolynomial_substitute polynomial (fun _ _ => isPolynomial_of_valueReplacements)))
    he ?_
  exact (eval_evaluate_pointAfter X polynomial).trans
    (Expression.eval_congr e (fun s hs => pointAfter_of_notMem X (h s hs)))

section

variable (he : e.IsPolynomial)

include he

theorem evaluate_eq_number (hall : ∀ s ∈ e.symbols, s ∈ values.map Prod.fst) :
    evaluate e values = .number (e.eval (valueOf values)) := by
  refine (Expression.isCanonical_expand (Expression.isPolynomial_substitute he
    (fun _ _ => isPolynomial_of_valueReplacements))).eq_number ?_
  refine (eval_evaluate_pointAfter X he).trans ?_
  rw [Expression.eval_congr e (fun s hs => pointAfter_of_mem X (hall s hs))]
  exact (Expression.map_eval (Algebra.ofId ℚ (MvPolynomial Symbol ℚ)) (valueOf values) e).symm

theorem eval_evaluate_of_subset (hfresh : ∀ s ∈ values.map Prod.fst, s ∉ scope)
    (hall : ∀ s ∈ e.symbols, s ∈ scope ∨ s ∈ values.map Prod.fst) :
    (evaluate e values).eval X = e.eval (scopePoint scope (valueOf values)) := by
  rw [eval_evaluate_pointAfter X he]
  refine Expression.eval_congr e (fun s hs => ?_)
  rcases hall s hs with hscope | hmem
  · rw [pointAfter_of_notMem X (fun hmem => hfresh s hmem hscope), scopePoint_of_mem hscope]
  · rw [pointAfter_of_mem X hmem, scopePoint_of_notMem (hfresh s hmem)]
    rfl

end

/-! ## Coefficients -/

/-- The entries at values for decisions, without those that vanish. -/
def CoefficientMap.evaluated {K : Type} [Scalar K] (m : CoefficientMap K)
    (values : List (Symbol × K)) : CoefficientMap K :=
  (m.map (fun t => (t.1, evaluate t.2 values))).filter (fun t => !t.2.isZero)

namespace CoefficientMap

theorem mem_of_coefficientAt_ne_zero {m : CoefficientMap Rat} (hm : m.IsRegular scope)
    {v : Exponents} (h : m.coefficientAt v ≠ .zero) : (v, m.coefficientAt v) ∈ m := by
  obtain ⟨t, ht, rfl⟩ := List.mem_map.mp (not_imp_comm.mp coefficientAt_of_notMem h)
  rwa [coefficientAt_of_mem hm (v := t.1) (c := t.2) ht]

theorem mem_evaluated {K : Type} [Scalar K] {m : CoefficientMap K} {values : List (Symbol × K)}
    {v : Exponents} {c : Expression K} :
    (v, c) ∈ m.evaluated values ↔ (∃ d, (v, d) ∈ m ∧ evaluate d values = c) ∧ c ≠ .zero := by
  simp only [evaluated, List.mem_filter, List.mem_map, Bool.not_eq_true', ← Bool.not_eq_true,
    Expression.isZero_iff, Prod.mk.injEq, Prod.exists]
  constructor
  · rintro ⟨⟨w, d, hd, rfl, rfl⟩, hc⟩
    exact ⟨⟨d, hd, rfl⟩, hc⟩
  · rintro ⟨⟨d, hd, rfl⟩, hc⟩
    exact ⟨⟨v, d, hd, rfl, rfl⟩, hc⟩

theorem nodup_evaluated {K : Type} [Scalar K] {m : CoefficientMap K} (values : List (Symbol × K))
    (h : (m.map Prod.fst).Nodup) : ((m.evaluated values).map Prod.fst).Nodup := by
  refine (List.Sublist.map Prod.fst List.filter_sublist).nodup ?_
  rwa [List.map_map]

end CoefficientMap

section

variable (he : e.IsPolynomial) (hscope : scope.Nodup)
  (hfresh : ∀ s ∈ values.map Prod.fst, s ∉ scope)
  (hall : ∀ s ∈ e.symbols, s ∈ scope ∨ s ∈ values.map Prod.fst)

include he hscope hfresh hall

theorem perm_evaluated {m m' : CoefficientMap Rat} (hm : coefficients e scope = .ok m)
    (hm' : coefficients (evaluate e values) scope = .ok m') : m'.Perm (m.evaluated values) := by
  have regular := isRegular_of_coefficients he hm
  have he' : (evaluate e values).IsPolynomial := isPolynomial_evaluate he
  obtain ⟨_, found, regular', nonzero', -⟩ := exists_coefficients.{0} he' scope
  obtain rfl := Except.ok.inj (hm'.symm.trans found)
  have value := eval_evaluate_of_subset he hfresh hall
  have member : (evaluate e values).eval X ∈ scopePolynomials scope :=
    value ▸ eval_scopePoint_mem e (valueOf values)
  -- Both maps have the number that the coefficient is at the values.
  have entry {v : Exponents} (hv : v.IsNatural scope.length) : m'.coefficientAt v =
      .number ((m.coefficientAt v).eval (valueOf values)) := by
    rw [eq_number_of_coefficients he' hscope member hm' hv, value,
      coeff_of_coefficients (valueOf values) he hscope hm hv]
  have solved {t : Exponents × Expression Rat} (ht : t ∈ m) :
      evaluate t.2 values = .number (t.2.eval (valueOf values)) := by
    refine evaluate_eq_number (regular.canonical t ht).isPolynomial (fun s hs => ?_)
    exact (hall s (symbols_subset_of_coefficients he hscope hm ht s hs)).resolve_left
      (regular.free t ht s hs)
  have same (t : Exponents × Expression Rat) : t ∈ m' ↔ t ∈ m.evaluated values := by
    obtain ⟨v, c⟩ := t
    rw [CoefficientMap.mem_evaluated]
    constructor
    · intro hc
      have listed := CoefficientMap.coefficientAt_of_mem regular' hc
      rw [entry (regular'.vectors _ hc)] at listed
      have source := CoefficientMap.mem_of_coefficientAt_ne_zero regular (v := v) (fun hzero =>
        nonzero' _ hc (by rw [← listed, hzero]; simp [Expression.number]))
      exact ⟨⟨_, source, (solved source).trans listed⟩, nonzero' _ hc⟩
    · rintro ⟨⟨d, hd, rfl⟩, hc⟩
      have listed : m'.coefficientAt v = evaluate d values := by
        rw [entry (regular.vectors _ hd), CoefficientMap.coefficientAt_of_mem regular hd, solved hd]
      exact listed ▸ CoefficientMap.mem_of_coefficientAt_ne_zero regular' (listed ▸ hc)
  exact (List.perm_ext_iff_of_nodup regular'.distinct.of_map
    (CoefficientMap.nodup_evaluated values regular.distinct).of_map).mpr same

end

/--
Values for all decisions can be put into a polynomial expression before or after it is split into
coefficients over distinct variables: up to their order the entries are the same, where those that
vanish at the values are left out.  No decision is left over, in the expression or in a coefficient,
and further values for decisions change nothing.
-/
theorem coefficients_evaluate (he : e.IsPolynomial) (hscope : scope.Nodup)
    (hfresh : ∀ s ∈ values.map Prod.fst, s ∉ scope)
    (hall : ∀ s ∈ e.symbols, s ∈ scope ∨ s ∈ values.map Prod.fst) :
    (∃ m m', coefficients e scope = .ok m ∧ coefficients (evaluate e values) scope = .ok m' ∧
      m'.Perm (m.evaluated values) ∧ ∀ t ∈ m', ∃ c, t.2 = .number c) ∧
    (∀ s ∈ (evaluate e values).symbols, s ∈ scope) ∧
    ∀ values' : List (Symbol × Rat), (∀ s ∈ values'.map Prod.fst, s ∉ scope) →
      evaluate (evaluate e values) values' = evaluate e values := by
  have he' : (evaluate e values).IsPolynomial := isPolynomial_evaluate he
  have normal : (evaluate e values).IsNormal := Expression.isNormal_expand
    (Expression.isPolynomial_substitute he (fun _ _ => isPolynomial_of_valueReplacements))
  have member : (evaluate e values).eval X ∈ scopePolynomials scope :=
    eval_evaluate_of_subset he hfresh hall ▸ eval_scopePoint_mem e (valueOf values)
  have within : ∀ s ∈ (evaluate e values).symbols, s ∈ scope := normal.toIsCanonical.isWithin member
  refine ⟨?_, within, fun values' hfresh' => ?_⟩
  · obtain ⟨m, hm, -⟩ := exists_coefficients.{0} he scope
    obtain ⟨m', hm', numbers⟩ := Expression.isNumericOver_of_mem he' hscope member
    exact ⟨m, m', hm, hm', perm_evaluated he hscope hfresh hall hm hm', numbers⟩
  · exact evaluate_of_disjoint normal (fun s hs hmem => hfresh' s hmem (within s hs))

def shiftedSquare : Expression Rat :=
  (.ofSymbol (.named "x") + .ofSymbol (.decision 0 "a")) *
      (.ofSymbol (.named "x") + .ofSymbol (.decision 0 "a")) -
    .ofSymbol (.decision 1 "b") * (.ofSymbol (.named "x") * .ofSymbol (.named "x"))

theorem isPolynomial_shiftedSquare : shiftedSquare.IsPolynomial := by
  have line := Expression.isPolynomial_add (Expression.isPolynomial_ofSymbol (.named "x"))
    (Expression.isPolynomial_ofSymbol (.decision 0 "a"))
  exact Expression.isPolynomial_sub (Expression.isPolynomial_mul line line)
    (Expression.isPolynomial_mul (by simp) (Expression.isPolynomial_mul (by simp) (by simp)))

def shiftedValues : List (Symbol × Rat) := [(.decision 0 "a", 3), (.decision 1 "b", 1)]

/-- Where a is 3 and b is 1 the square vanishes, and 6x + 9 is left. -/
theorem coefficients_evaluate_shiftedSquare :
    ∃ m', coefficients (evaluate shiftedSquare shiftedValues) [.named "x"] = .ok m' ∧
      m'.Perm [([1], .number 6), ([0], .number 9)] := by
  have fresh : ∀ s ∈ shiftedValues.map Prod.fst, s ∉ [Symbol.named "x"] := by
    simp [shiftedValues]
  obtain ⟨⟨m, m', hm, hm', same, -⟩, -⟩ := coefficients_evaluate isPolynomial_shiftedSquare
    (List.nodup_singleton (Symbol.named "x")) fresh (by decide +kernel)
  have listed : (coefficients shiftedSquare [.named "x"]).map (fun m =>
      m.evaluated shiftedValues) = .ok [([1], .number 6), ([0], .number 9)] := by decide +kernel
  rw [hm] at listed
  exact ⟨m', hm', Except.ok.inj listed ▸ same⟩

/-- With a division in the expression the law fails: x a (1/a + 1) lists 1 + a for x, which is 1
where a is zero, but the expression itself is undefined there. -/
theorem not_perm_evaluated_quotient :
    ∃ x a e : Expression Number, x = .ofSymbol (.named "x") ∧ a = .ofSymbol (.decision 0 "a") ∧
      e = x * (a * (a.reciprocal + .number 1)) ∧
      ∃ m m', coefficients e [.named "x"] = .ok m ∧ m = [([1], a + .number 1)] ∧
        coefficients (evaluate e [(.decision 0 "a", 0)]) [.named "x"] = .ok m' ∧
        m.evaluated [(.decision 0 "a", 0)] = [([1], .number 1)] ∧
        m' = [([0], .number (.float .undefined))] ∧
        ¬ m'.Perm (m.evaluated [(.decision 0 "a", 0)]) := by
  refine ⟨_, _, _, rfl, rfl, rfl, _, _, ?_, rfl, ?_, ?_, rfl, ?_⟩ <;> decide +kernel

end HybridRelaxation
