import Mathlib
import HybridRelaxation.Proofs.Expression.Substitution
import HybridRelaxation.Proofs.Polynomial.AffineSpan
import HybridRelaxation.Proofs.SquareSum.Matching

/-!
# Registration in programs

Over polynomial data every registration succeeds and only adds at the end.  A free polynomial has
the value of its symbols times its basis.  All statements stay affine in the decisions, so each of
them has matching equations.
-/

namespace HybridRelaxation

open MvPolynomial (X)

/-! ## Growing programs -/

namespace SquareProgram

/-- Nothing is lost: decisions and statements are only added at the end. -/
structure Extends (p q : SquareProgram Rat) : Prop where
  decisions : p.decisions <+: q.decisions
  statements : p.statements <+: q.statements

theorem Extends.refl (p : SquareProgram Rat) : p.Extends p := ⟨List.prefix_rfl, List.prefix_rfl⟩

theorem Extends.trans {p q r : SquareProgram Rat} (hpq : p.Extends q) (hqr : q.Extends r) :
    p.Extends r :=
  ⟨hpq.decisions.trans hqr.decisions, hpq.statements.trans hqr.statements⟩

theorem Extends.mem {p q : SquareProgram Rat} (h : p.Extends q) {s : SquareSum Rat}
    (hs : s ∈ p.statements) : s ∈ q.statements := h.statements.subset hs

/--
Decision symbols know their positions, and every statement is regular over indeterminates and
affine in the decisions.
-/
structure IsRegular (p : SquareProgram Rat) : Prop where
  decisions : ∀ (k : ℕ) (s : Symbol), p.decisions[k]? = some s → ∃ label, s = .decision k label
  statements : ∀ s ∈ p.statements, s.IsRegular
  named : ∀ s ∈ p.statements, ∀ t ∈ s.scope, t.isNamed = true
  affine : ∀ s ∈ p.statements, s.polynomial.eval X ∈ affineSpan s.scope p.decisions

theorem isRegular_empty : (SquareProgram.empty : SquareProgram Rat).IsRegular :=
  ⟨by simp [empty], by simp [empty], by simp [empty], by simp [empty]⟩

theorem IsRegular.withIndeterminates {p : SquareProgram Rat} (hp : p.IsRegular)
    (symbols : List Symbol) : (p.withIndeterminates symbols).IsRegular :=
  ⟨hp.decisions, hp.statements, hp.named, hp.affine⟩

theorem IsRegular.isNamed_of_mem {p : SquareProgram Rat} (hp : p.IsRegular) {s : Symbol}
    (hs : s ∈ p.decisions) : s.isNamed = false := by
  obtain ⟨k, hk⟩ := List.mem_iff_getElem?.mp hs
  obtain ⟨label, rfl⟩ := hp.decisions k s hk
  rfl

theorem IsRegular.notMem_decisions {p : SquareProgram Rat} (hp : p.IsRegular) {s : Symbol}
    (hs : s.isNamed = true) : s ∉ p.decisions := by
  intro hmem
  rw [hp.isNamed_of_mem hmem] at hs
  simp at hs

theorem index_eq_some {K : Type} {p : SquareProgram K} {s : Symbol} {j : ℤ}
    (h : p.index s = some j) :
    ∃ k label, s = .decision k label ∧ j = k ∧ p.decisions[k]? = some s := by
  cases s with
  | named name => simp [index] at h
  | decision k label =>
      by_cases hk : p.decisions[k]? = some (.decision k label)
      · refine ⟨k, label, rfl, ?_, hk⟩
        simpa [index, hk, eq_comm] using h
      · simp [index, hk] at h

theorem IsRegular.exists_index {p : SquareProgram Rat} (hp : p.IsRegular) {s : Symbol}
    (hs : s ∈ p.decisions) : ∃ j, p.index s = some j := by
  obtain ⟨k, hk⟩ := List.mem_iff_getElem?.mp hs
  obtain ⟨label, rfl⟩ := hp.decisions k s hk
  exact ⟨k, by simp [index, hk]⟩

/-! ## Free polynomials -/

section

variable {R : Type*} [CommRing R] [Algebra ℚ R] (ρ : Symbol → R)

theorem combination_spec {basis : List (Expression Rat)} (h : ∀ e ∈ basis, e.IsPolynomial)
    (symbols : List Symbol) :
    (combination symbols basis).IsPolynomial ∧
      (combination symbols basis).eval ρ =
        (List.zipWith (fun s e => ρ s * e.eval ρ) symbols basis).sum := by
  have products : ∀ (symbols : List Symbol) (basis : List (Expression Rat)),
      (∀ e ∈ basis, e.IsPolynomial) →
      (∀ f ∈ List.zipWith (fun s (m : Expression Rat) => Expression.ofSymbol s * m) symbols basis,
        f.IsPolynomial) ∧
      (List.zipWith (fun s (m : Expression Rat) => Expression.ofSymbol s * m) symbols basis).map
        (Expression.eval ρ) = List.zipWith (fun s e => ρ s * e.eval ρ) symbols basis := by
    intro symbols
    induction symbols with
    | nil => intro basis _; simp
    | cons s symbols ih =>
        intro basis hbasis
        cases basis with
        | nil => simp
        | cons e basis =>
            have he := hbasis e (by simp)
            obtain ⟨tail, values⟩ := ih basis (fun f hf => hbasis f (by simp [hf]))
            have symbol := Expression.isPolynomial_ofSymbol s
            simp only [List.zipWith_cons_cons, List.mem_cons, forall_eq_or_imp, List.map_cons,
              values, Expression.eval_mul ρ symbol he, Expression.eval_ofSymbol, and_true]
            exact ⟨Expression.isPolynomial_mul symbol he, tail⟩
  obtain ⟨polynomial, values⟩ := products symbols basis h
  refine ⟨Expression.isPolynomial_sum polynomial, ?_⟩
  rw [combination, Expression.eval_sum, values]

theorem combination_monomials_spec (scope : List Symbol) (degree : ℤ) (symbols : List Symbol) :
    (combination symbols (monomials scope degree 0)).IsPolynomial ∧
      (combination symbols (monomials scope degree 0)).eval ρ =
        (List.zipWith (fun s e => ρ s * monomialValue ρ scope e) symbols
          (exponents scope.length degree 0)).sum := by
  have polynomial : ∀ f ∈ monomials scope degree 0, (f : Expression Rat).IsPolynomial := by
    intro f hf
    obtain ⟨e, he, rfl⟩ := List.mem_map.mp hf
    exact isPolynomial_monomial (Exponents.mem_exponents.mp he).1
  obtain ⟨combined, value⟩ := combination_spec ρ polynomial symbols
  refine ⟨combined, value.trans ?_⟩
  rw [monomials, List.zipWith_map_right]
  congr 1
  refine List.ext_getElem (by simp) (fun k hk hk' => ?_)
  simp only [List.getElem_zipWith]
  rw [eval_monomial ρ (Exponents.mem_exponents.mp (List.getElem_mem _)).1]

end

theorem symbols_combination {scope : List Symbol} {degree : ℤ} {symbols : List Symbol} {s : Symbol}
    (hs : s ∈ (combination symbols (monomials scope degree 0) : Expression Rat).symbols) :
    s ∈ scope ++ symbols := by
  obtain ⟨e, he, hs⟩ := Expression.symbols_sum hs
  obtain ⟨k, hk, rfl⟩ := List.mem_iff_getElem.mp he
  rw [List.length_zipWith, monomials, List.length_map] at hk
  simp only [List.getElem_zipWith, monomials, List.getElem_map] at hs
  have natural := (Exponents.mem_exponents.mp (List.getElem_mem (l := exponents scope.length degree 0)
    (n := k) (by omega))).1
  rw [List.mem_append]
  rcases Expression.symbols_mul (Expression.isPolynomial_ofSymbol _)
    (isPolynomial_monomial natural) hs with h | h
  · have symbol : s = symbols[k] := by
      simpa [Expression.ofSymbol, Expression.symbols, Product.symbols, Base.symbols,
        Exponent.symbols] using h
    rw [symbol]
    exact .inr (List.getElem_mem _)
  · exact .inl (symbols_monomial natural h)

theorem combination_mem_affineSpan {ρ : Symbol → MvPolynomial Symbol ℚ}
    {scope places symbols decisions : List Symbol}
    (hsymbols : ∀ s ∈ symbols, s ∈ decisions ∧ ρ s = X s)
    (hplaces : ∀ s ∈ places, ρ s ∈ scopePolynomials scope) (degree : ℤ) :
    (combination symbols (monomials places degree 0)).eval ρ ∈ affineSpan scope decisions := by
  rw [(combination_monomials_spec ρ places degree symbols).2]
  refine list_sum_mem (fun q hq => ?_)
  obtain ⟨k, hk, rfl⟩ := List.mem_iff_getElem.mp hq
  have hlength : k < symbols.length := by
    rw [List.length_zipWith] at hk
    omega
  obtain ⟨hmem, hvalue⟩ := hsymbols _ (List.getElem_mem hlength)
  rw [List.getElem_zipWith, hvalue, mul_comm]
  exact mul_mem_affineSpan (monomialValue_mem hplaces _) (X_mem_affineSpan hmem)

theorem isNamed_of_mem_freshDecisions {name : String} {start count : ℕ} {s : Symbol}
    (h : s ∈ freshDecisions name start count) : s.isNamed = false := by
  obtain ⟨k, -, rfl⟩ := List.mem_map.mp h
  rfl

theorem getElem?_freshDecisions {name : String} {start count k : ℕ} {s : Symbol}
    (h : (freshDecisions name start count)[k]? = some s) :
    ∃ label, s = .decision (start + k) label := by
  simp only [freshDecisions, List.getElem?_map, Option.map_eq_some_iff,
    List.getElem?_eq_some_iff, List.getElem_range] at h
  obtain ⟨i, ⟨-, rfl⟩, rfl⟩ := h
  exact ⟨_, rfl⟩

theorem IsRegular.newFreePolynomial {p : SquareProgram Rat} (hp : p.IsRegular)
    (basis : List (Expression Rat)) (name : String) :
    (p.newFreePolynomial basis name).1.IsRegular := by
  refine ⟨fun k s h => ?_, hp.statements, hp.named, fun s hs =>
    affineSpan_mono (fun t ht => List.mem_append_left _ ht) (hp.affine s hs)⟩
  simp only [SquareProgram.newFreePolynomial] at h
  by_cases hk : k < p.decisions.length
  · rw [List.getElem?_append_left hk] at h
    exact hp.decisions k s h
  · rw [List.getElem?_append_right (by omega)] at h
    obtain ⟨label, rfl⟩ := getElem?_freshDecisions h
    exact ⟨label, by rw [size]; congr 1; omega⟩

/-! ## Statements -/

theorem exists_statement {e : Expression Rat} (he : e.IsPolynomial) {scope : List Symbol}
    (hscope : scope.Nodup) (half : Option ℤ) (name : String) :
    ∃ s, statement e scope half name = .ok s ∧ s.IsRegular ∧ s.polynomial = e ∧
      s.scope = scope ∧ s.basis = exponents scope.length
        (half.getD (halfDegree s.coefficients.totalDegree)) 0 := by
  obtain ⟨m, hm, -⟩ := exists_coefficients.{0} he scope
  refine ⟨⟨e, scope, exponents scope.length (half.getD (halfDegree m.totalDegree)) 0, name, m⟩,
    ?_, ⟨he, hscope, ?_, hm⟩, rfl, rfl, rfl⟩
  · rw [statement, hm]
    rfl
  · exact fun v hv => (Exponents.mem_exponents.mp hv).1

theorem IsRegular.addStatement {p : SquareProgram Rat} (hp : p.IsRegular) {s : SquareSum Rat}
    (hs : s.IsRegular) (hnamed : ∀ t ∈ s.scope, t.isNamed = true)
    (haffine : s.polynomial.eval X ∈ affineSpan s.scope p.decisions) :
    ({ p with statements := p.statements ++ [s] } : SquareProgram Rat).IsRegular := by
  have added {P : SquareSum Rat → Prop} (hold : ∀ t ∈ p.statements, P t) (hnew : P s) :
      ∀ t ∈ p.statements ++ [s], P t := by
    intro t ht
    rcases List.mem_append.mp ht with h | h
    · exact hold t h
    · rwa [List.mem_singleton.mp h]
  exact ⟨hp.decisions, added hp.statements hs, added hp.named hnamed, added hp.affine haffine⟩

theorem IsRegular.withSquareSum {p : SquareProgram Rat} (hp : p.IsRegular) {e : Expression Rat}
    (he : e.IsPolynomial) {scope : List Symbol} (hscope : scope.Nodup)
    (hnamed : ∀ t ∈ scope, t.isNamed = true) (haffine : e.eval X ∈ affineSpan scope p.decisions)
    (half : Option ℤ) (name : String) : (p.withSquareSum e scope half name).1.IsRegular := by
  obtain ⟨s, hs, regular, rfl, rfl, -⟩ := exists_statement he hscope half name
  rw [SquareProgram.withSquareSum, hs]
  exact hp.addStatement regular hnamed haffine

theorem IsRegular.exists_matching {p : SquareProgram Rat} (hp : p.IsRegular) {s : SquareSum Rat}
    (hs : s ∈ p.statements) : ∃ m, s.matching p.index p.size = .ok m := by
  refine (hp.statements s hs).exists_matching
    (fun t ht hmem => hp.notMem_decisions (hp.named s hs t hmem) ht) (hp.affine s hs)
    (fun t ht => hp.exists_index ht) (fun t j hj => ?_)
  obtain ⟨k, label, -, rfl, hget⟩ := index_eq_some hj
  have bound : k < p.size := (List.getElem?_eq_some_iff.mp hget).1
  omega

theorem IsRegular.exists_linearForm {p : SquareProgram Rat} (hp : p.IsRegular)
    {e : Expression Rat} (he : e.IsPolynomial) (haffine : e.eval X ∈ affineSpan [] p.decisions) :
    ∃ form, linearForm e p.index = .ok form := by
  obtain ⟨form, hform, -⟩ := HybridRelaxation.exists_linearForm he (isAffine_of_mem_span
    (fun _ ht => hp.exists_index ht) (mem_span_of_mem_affineSpan_nil haffine))
  exact ⟨form, hform⟩

def withFreeSquareSum (p : SquareProgram Rat) (scope : List Symbol) (half : ℤ) (name : String)
    (s : SquareSum Rat) : SquareProgram Rat :=
  let q := (p.newFreePolynomial (monomials scope (2 * half) 0) name).1
  { q with statements := q.statements ++ [s] }

theorem newSquareSum_spec (p : SquareProgram Rat) {scope : List Symbol} (hscope : scope.Nodup)
    (half : ℤ) (name : String) :
    ∃ s, p.newSquareSum scope half name =
        (p.withFreeSquareSum scope half name s, .ok s.polynomial) ∧
      s.IsRegular ∧ s.scope = scope ∧ s.basis = exponents scope.length half 0 ∧
      s.polynomial = combination (freshDecisions name p.size
        (monomials (K := Rat) scope (2 * half) 0).length) (monomials scope (2 * half) 0) := by
  have polynomial := (combination_monomials_spec (fun _ => (0 : ℚ)) scope (2 * half)
    (freshDecisions name p.size (monomials (K := Rat) scope (2 * half) 0).length)).1
  obtain ⟨s, hs, regular, hpoly, rfl, hbasis⟩ :=
    exists_statement polynomial hscope (some half) name
  refine ⟨s, ?_, regular, rfl, hbasis, hpoly⟩
  simp only [newSquareSum, SquareProgram.newFreePolynomial, withSquareSum, hs, withFreeSquareSum]
  rw [hpoly]
  rfl

theorem freePolynomial_mem_affineSpan (p : SquareProgram Rat) (scope : List Symbol) (degree : ℤ)
    (name : String) :
    (combination (freshDecisions name p.size (monomials (K := Rat) scope degree 0).length)
      (monomials scope degree 0)).eval X ∈
        affineSpan scope (p.newFreePolynomial (monomials scope degree 0) name).1.decisions :=
  combination_mem_affineSpan (fun _ hs => ⟨List.mem_append_right _ hs, rfl⟩)
    (fun _ hs => X_mem_scopePolynomials hs) degree

theorem IsRegular.withFreeSquareSum {p : SquareProgram Rat} (hp : p.IsRegular)
    {scope : List Symbol} (hnamed : ∀ t ∈ scope, t.isNamed = true) (half : ℤ) (name : String)
    {s : SquareSum Rat} (hs : s.IsRegular) (hscope : s.scope = scope)
    (hpoly : s.polynomial = combination (freshDecisions name p.size
      (monomials (K := Rat) scope (2 * half) 0).length) (monomials scope (2 * half) 0)) :
    (p.withFreeSquareSum scope half name s).IsRegular := by
  refine (hp.newFreePolynomial _ name).addStatement hs (by rwa [hscope]) ?_
  rw [hpoly, hscope]
  exact p.freePolynomial_mem_affineSpan scope (2 * half) name

theorem extends_withFreeSquareSum (p : SquareProgram Rat) (scope : List Symbol) (half : ℤ)
    (name : String) (s : SquareSum Rat) :
    p.Extends (p.withFreeSquareSum scope half name s) :=
  ⟨List.prefix_append _ _, List.prefix_append _ _⟩

end SquareProgram

end HybridRelaxation
