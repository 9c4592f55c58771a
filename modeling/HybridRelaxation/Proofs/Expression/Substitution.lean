import Mathlib
import HybridRelaxation.Expression.Substitution
import HybridRelaxation.Proofs.Expression.Power

/-!
# Values of substitutions

Replacing symbols by polynomial expressions gives a polynomial expression.  Its value at a point is
the value of the original where each replaced symbol has the value of its replacement.
-/

namespace HybridRelaxation

variable {R : Type*} [CommRing R] [Algebra ℚ R] (ρ : Symbol → R)

/-- The point with the values of the replacements for the symbols that have one. -/
def pointAfter (replacement : Symbol → Option (Expression Rat)) (s : Symbol) : R :=
  match replacement s with
  | some f => f.eval ρ
  | none => ρ s

theorem pointAfter_of_isNone {replacement : Symbol → Option (Expression Rat)} {s : Symbol}
    (h : (replacement s).isNone = true) : pointAfter ρ replacement s = ρ s := by
  unfold pointAfter
  cases hs : replacement s with
  | none => rfl
  | some f => simp [hs] at h

section

variable {replacement : Symbol → Option (Expression Rat)}

mutual

/-- The terms after the substitution are polynomial and add up to the value at the new point. -/
theorem Expression.substituteTerms_spec (hr : ∀ s f, replacement s = some f → f.IsPolynomial) :
    ∀ e : Expression Rat, e.IsPolynomial →
      (∀ f ∈ e.substituteTerms replacement, f.IsPolynomial) ∧
        ((e.substituteTerms replacement).map (Expression.eval ρ)).sum =
          e.eval (pointAfter ρ replacement)
  | .zero, _ => by simp [Expression.substituteTerms]
  | .plus c p e, h => by
      obtain ⟨hp, hrest⟩ := (Expression.isPolynomial_plus c p e).mp h
      obtain ⟨tail, total⟩ := Expression.substituteTerms_spec hr e hrest
      obtain ⟨factors, product⟩ := Product.substituteFactors_spec hr p hp
      rw [Expression.substituteTerms, Expression.eval_plus, ← total]
      by_cases hfree : p.symbols.all (fun s => (replacement s).isNone) = true
      · have same : p.eval (pointAfter ρ replacement) = p.eval ρ :=
          Product.eval_congr p (fun s hs =>
            pointAfter_of_isNone ρ (List.all_eq_true.mp hfree s hs))
        simp only [hfree, if_true, same]
        constructor
        · simpa [hp] using tail
        · simp
      · have all : ∀ f ∈ Expression.number c :: p.substituteFactors replacement,
            f.IsPolynomial := by
          simpa using factors
        simp only [hfree, Bool.false_eq_true, if_false]
        constructor
        · simpa [Expression.isPolynomial_product all] using tail
        · simp [Expression.eval_product ρ all, product]

theorem Product.substituteFactors_spec (hr : ∀ s f, replacement s = some f → f.IsPolynomial) :
    ∀ p : Product Rat, p.IsPolynomial →
      (∀ f ∈ p.substituteFactors replacement, f.IsPolynomial) ∧
        ((p.substituteFactors replacement).map (Expression.eval ρ)).prod =
          p.eval (pointAfter ρ replacement)
  | .one, _ => by simp [Product.substituteFactors]
  | .times b x p, h => by
      obtain ⟨⟨hb, hx⟩, hrest⟩ := (Product.isPolynomial_times b x p).mp h
      obtain ⟨tail, total⟩ := Product.substituteFactors_spec hr p hrest
      obtain ⟨base, value⟩ := Base.substitute_spec hr b hb
      obtain ⟨n, rfl⟩ := Exponent.exists_of_isPositive hx
      rw [Product.substituteFactors, Product.eval_times, ← total]
      by_cases hfree : (b.symbols ++ (Exponent.integer (n + 1) : Exponent Rat).symbols).all
          (fun s => (replacement s).isNone) = true
      · have same : b.eval (pointAfter ρ replacement) = b.eval ρ :=
          Base.eval_congr b (fun s hs =>
            pointAfter_of_isNone ρ (List.all_eq_true.mp hfree s (by simp [hs])))
        simp only [hfree, if_true, same]
        constructor
        · simpa [hb, hx] using tail
        · simp
      · obtain ⟨power, raised⟩ := Expression.power_spec ρ base (n + 1)
        have exponent : (Exponent.integer ((n : ℤ) + 1) : Exponent Rat).substitute replacement =
            Expression.number ((n + 1 : ℕ) : Rat) := by
          simp [Exponent.substitute]
        simp only [hfree, Bool.false_eq_true, if_false, exponent]
        constructor
        · simpa only [List.mem_cons, forall_eq_or_imp] using ⟨power, tail⟩
        · rw [List.map_cons, List.prod_cons, raised, value, Exponent.natural_integer]
          congr 2

theorem Base.substitute_spec (hr : ∀ s f, replacement s = some f → f.IsPolynomial) :
    ∀ b : Base Rat, b.IsPolynomial →
      (b.substitute replacement).IsPolynomial ∧
        (b.substitute replacement).eval ρ = b.eval (pointAfter ρ replacement)
  | .symbol s, _ => by
      rw [Base.substitute, Base.eval_symbol, pointAfter]
      cases hs : replacement s with
      | none => simp
      | some f => simpa using hr s f hs
  | .group e, h => by
      obtain ⟨-, he⟩ := (Base.isPolynomial_group e).mp h
      obtain ⟨terms, total⟩ := Expression.substituteTerms_spec hr e he
      rw [Base.substitute, Base.eval_group, ← total]
      exact ⟨Expression.isPolynomial_sum terms, Expression.eval_sum ρ _⟩
  | .constant _, h => by simp at h
  | .number _, h => by simp at h
  | .apply _ _, h => by simp at h

end

theorem Expression.isPolynomial_substitute {e : Expression Rat} (he : e.IsPolynomial)
    (hr : ∀ s f, replacement s = some f → f.IsPolynomial) :
    (e.substitute replacement).IsPolynomial :=
  Expression.isPolynomial_sum (Expression.substituteTerms_spec (fun _ => (0 : ℚ)) hr e he).1

theorem Expression.eval_substitute {e : Expression Rat} (he : e.IsPolynomial)
    (hr : ∀ s f, replacement s = some f → f.IsPolynomial) :
    (e.substitute replacement).eval ρ = e.eval (pointAfter ρ replacement) := by
  rw [Expression.substitute, Expression.eval_sum,
    (Expression.substituteTerms_spec ρ hr e he).2]

end

/-! ## Listed replacements -/

section

variable {K : Type} {pairs : List (Symbol × Expression K)} {s : Symbol} {f : Expression K}

theorem mem_of_replacements (h : replacements pairs s = some f) : (s, f) ∈ pairs := by
  obtain ⟨⟨t, g⟩, hfound, rfl⟩ := Option.map_eq_some_iff.mp h
  have hmem := List.mem_of_find?_eq_some hfound
  have hkey : t = s := by simpa using List.find?_some hfound
  rw [← hkey]
  exact List.mem_reverse.mp hmem

theorem replacements_of_notMem (h : s ∉ pairs.map Prod.fst) : replacements pairs s = none := by
  cases hr : replacements pairs s with
  | none => rfl
  | some f => exact absurd (List.mem_map_of_mem (mem_of_replacements hr)) h

theorem replacements_of_mem (hdistinct : (pairs.map Prod.fst).Nodup) (h : (s, f) ∈ pairs) :
    replacements pairs s = some f := by
  cases hr : replacements pairs s with
  | none =>
      rw [replacements, Option.map_eq_none_iff, List.find?_eq_none] at hr
      exact absurd (by simp) (hr (s, f) (List.mem_reverse.mpr h))
  | some g =>
      have same := List.inj_on_of_nodup_map hdistinct h (mem_of_replacements hr) rfl
      rw [(Prod.mk.inj same).2]

end

end HybridRelaxation
