import Mathlib
import HybridRelaxation.Proofs.SquareSum.Program

/-!
# Expressions at values for decisions

An expression that is affine in decisions, at values for these, is a polynomial in its scope: the
one that the expression is where the decisions have the values.
-/

namespace HybridRelaxation

open MvPolynomial (C X)

variable {e : Expression Rat} {scope : List Symbol} {values : List (Symbol × Rat)}

theorem isPolynomial_of_valueReplacements {s : Symbol} {f : Expression Rat}
    (h : replacements (SquareProgram.valueReplacements values) s = some f) : f.IsPolynomial := by
  obtain ⟨entry, -, heq⟩ := List.mem_map.mp (mem_of_replacements h)
  rw [← (Prod.mk.inj heq).2]
  exact Expression.isPolynomial_number _

theorem isPolynomial_evaluate (he : e.IsPolynomial) : (evaluate e values).IsPolynomial :=
  Expression.isPolynomial_expand
    (Expression.isPolynomial_substitute he (fun _ _ => isPolynomial_of_valueReplacements))

section

variable (he : e.IsPolynomial) (hkeys : (values.map Prod.fst).Nodup)
  (hfresh : ∀ s ∈ values.map Prod.fst, s ∉ scope)
  (haffine : e.eval X ∈ affineSpan scope (values.map Prod.fst))

include he hkeys hfresh haffine

theorem eval_evaluate {R : Type*} [CommRing R] [Algebra ℚ R] {ρ τ : Symbol → R}
    (hscope : ∀ s ∈ scope, τ s = ρ s)
    (hvalues : ∀ entry ∈ values, τ entry.1 = algebraMap ℚ R entry.2) :
    (evaluate e values).eval ρ = e.eval τ := by
  have keys : (SquareProgram.valueReplacements values).map Prod.fst = values.map Prod.fst := by
    rw [SquareProgram.valueReplacements, List.map_map]
    rfl
  have numbers : ∀ s f, replacements (SquareProgram.valueReplacements values) s = some f →
      f.IsPolynomial := fun _ _ => isPolynomial_of_valueReplacements
  rw [evaluate, Expression.eval_expand ρ (Expression.isPolynomial_substitute he numbers),
    Expression.eval_substitute ρ he numbers, Expression.eval_eq_aeval,
    Expression.eval_eq_aeval τ]
  refine aeval_congr_of_mem_affineSpan haffine (fun s hs => ?_) (fun s hs => ?_)
  · have free : s ∉ (SquareProgram.valueReplacements values).map Prod.fst := by
      rw [keys]
      exact fun hmem => hfresh s hmem hs
    rw [pointAfter, replacements_of_notMem free, hscope s hs]
  · obtain ⟨entry, hentry, rfl⟩ := List.mem_map.mp hs
    have listed : (entry.1, (.number entry.2 : Expression Rat)) ∈
        SquareProgram.valueReplacements values := List.mem_map.mpr ⟨entry, hentry, rfl⟩
    rw [pointAfter, replacements_of_mem (by rwa [keys]) listed, hvalues entry hentry]
    exact Expression.eval_number _ _

theorem eval_evaluate_scopePoint {σ : Symbol → ℚ} (hvalues : ∀ entry ∈ values, σ entry.1 = entry.2) :
    (evaluate e values).eval X = e.eval (scopePoint scope σ) := by
  refine eval_evaluate he hkeys hfresh haffine (fun s hs => scopePoint_of_mem hs σ)
    (fun entry hentry => ?_)
  rw [scopePoint_of_notMem (hfresh _ (List.mem_map_of_mem hentry)), hvalues entry hentry]
  rfl

end

theorem eval_scopePoint_mem (e : Expression Rat) (σ : Symbol → ℚ) :
    e.eval (scopePoint scope σ) ∈ scopePolynomials scope := by
  have member (s : Symbol) : scopePoint scope σ s ∈ scopePolynomials scope := by
    by_cases hs : s ∈ scope
    · rw [scopePoint_of_mem hs]
      exact X_mem_scopePolynomials hs
    · rw [scopePoint_of_notMem hs]
      exact (scopePolynomials scope).algebraMap_mem (σ s)
  have value := Expression.map_eval (scopePolynomials scope).val
    (fun s => ⟨scopePoint scope σ s, member s⟩) e
  exact value ▸ SetLike.coe_mem _

end HybridRelaxation
