import Mathlib
import HybridRelaxation.Proofs.SquareSum.FeasiblePoint
import HybridRelaxation.Proofs.SquareSum.Inversion

/-!
# Certificates of nonnegativity on sets

A polynomial is certified on a set by statements of a program: sums of squares as multipliers, one
for each inequality, and a base, which add up to the polynomial.  Certificates stay when a program
grows.  At a feasible point a certified polynomial is nonnegative where all inequalities hold.
-/

namespace HybridRelaxation

open MvPolynomial (X)

namespace SquareProgram

def weighted {R : Type} [CommRing R] [Algebra ℚ R] (ρ : Symbol → R)
    (multipliers : List (SquareSum Rat)) (constraints : List (Expression Rat)) : R :=
  (List.zipWith (fun s g => s.polynomial.eval ρ * g.eval ρ) multipliers constraints).sum

/-- The statement is a free polynomial over the scope, of the degree that a multiplier has. -/
structure IsMultiplier (p : SquareProgram Rat) (scope : List Symbol) (degree : ℤ)
    (s : SquareSum Rat) (g : Expression Rat) : Prop where
  mem : s ∈ p.statements
  scope_eq : s.scope = scope
  shape : ∃ constraintDegree symbols, totalDegree g scope = .ok constraintDegree ∧
    s.basis = exponents scope.length (multiplierHalf degree constraintDegree) 0 ∧
    (∀ t ∈ symbols, t ∈ p.decisions) ∧ s.polynomial = combination symbols
      (monomials scope (2 * multiplierHalf degree constraintDegree) 0)

structure Certificate where
  multipliers : List (SquareSum Rat)
  base : SquareSum Rat

def Certificate.statements (c : Certificate) : List (SquareSum Rat) := c.multipliers ++ [c.base]

/-- Statements of the program add up to the polynomial, with the inequalities as weights. -/
structure Certifies (p : SquareProgram Rat) (e : Expression Rat) (scope : List Symbol)
    (constraints : List (Expression Rat)) (degree : ℤ) (c : Certificate) : Prop where
  weights : List.Forall₂ (p.IsMultiplier scope degree) c.multipliers constraints
  base_mem : c.base ∈ p.statements
  base_scope : c.base.scope = scope
  base_basis : c.base.basis =
    exponents scope.length (halfDegree c.base.coefficients.totalDegree) 0
  value : ∀ {R : Type} [CommRing R] [Algebra ℚ R] (ρ : Symbol → R),
    c.base.polynomial.eval ρ + weighted ρ c.multipliers constraints = e.eval ρ

theorem IsMultiplier.extend {p q : SquareProgram Rat} {scope : List Symbol} {degree : ℤ}
    {s : SquareSum Rat} {g : Expression Rat} (h : p.IsMultiplier scope degree s g)
    (hpq : p.Extends q) : q.IsMultiplier scope degree s g := by
  obtain ⟨constraintDegree, symbols, hdegree, hbasis, hsymbols, hpoly⟩ := h.shape
  exact ⟨hpq.mem h.mem, h.scope_eq, constraintDegree, symbols, hdegree, hbasis,
    fun t ht => hpq.decisions.subset (hsymbols t ht), hpoly⟩

theorem Certifies.extend {p q : SquareProgram Rat} {e : Expression Rat} {scope : List Symbol}
    {constraints : List (Expression Rat)} {degree : ℤ} {c : Certificate}
    (h : p.Certifies e scope constraints degree c) (hpq : p.Extends q) :
    q.Certifies e scope constraints degree c :=
  ⟨h.weights.imp (fun _ _ hs => hs.extend hpq), hpq.mem h.base_mem, h.base_scope,
    h.base_basis, h.value⟩

/-! ## Registration -/

def IsShare {A : Type} [CommRing A] (scope : List Symbol) (degree : ℤ) (g : Expression Rat)
    (share : MvPolynomial Symbol A) : Prop :=
  ∀ constraintDegree, totalDegree g scope = .ok constraintDegree →
    IsOfDegree scope (2 * multiplierHalf degree constraintDegree) share

/-- With values from `n` on, the multipliers can be made any polynomials of their degrees. -/
def Assigns (n : ℕ) (scope : List Symbol) (constraints : List (Expression Rat)) (degree : ℤ)
    (multipliers : List (SquareSum Rat)) : Prop :=
  ∀ {A : Type} [CommRing A] [Algebra ℚ A] (ψ : ℕ → A) (shares : List (MvPolynomial Symbol A)),
    List.Forall₂ (IsShare scope degree) constraints shares →
      ∃ ψ' : ℕ → A, (∀ k < n, ψ' k = ψ k) ∧
        List.Forall₂ (fun s share => solvedAt ψ' s.polynomial = share) multipliers shares

section

variable {scope : List Symbol} (hscope : scope.Nodup) (hnamed : ∀ t ∈ scope, t.isNamed = true)

include hscope hnamed

theorem registerMultiplier_spec {g : Expression Rat} (hg : g.IsPolynomial)
    (hgscope : g.eval X ∈ scopePolynomials scope) (degree : ℤ) (name : String)
    {p : SquareProgram Rat} (hp : p.IsRegular) {rest : Expression Rat}
    (hrest : rest.IsPolynomial) (haffine : rest.eval X ∈ affineSpan scope p.decisions) :
    ∃ constraintDegree s, totalDegree g scope = .ok constraintDegree ∧
      p.newSquareSum scope (multiplierHalf degree constraintDegree) name =
        (p.withFreeSquareSum scope (multiplierHalf degree constraintDegree) name s,
          .ok s.polynomial) ∧
      (p.withFreeSquareSum scope (multiplierHalf degree constraintDegree) name s).IsRegular ∧
      (p.withFreeSquareSum scope (multiplierHalf degree constraintDegree) name s).IsMultiplier
        scope degree s g ∧
      Assigns p.size scope [g] degree [s] ∧
      s.polynomial.IsPolynomial ∧ (rest - s.polynomial * g).IsPolynomial ∧
      (rest - s.polynomial * g).eval X ∈ affineSpan scope
        (p.withFreeSquareSum scope (multiplierHalf degree constraintDegree) name s).decisions := by
  obtain ⟨m, hm, -⟩ := exists_coefficients.{0} hg scope
  have degree_ok : totalDegree g scope = .ok m.totalDegree := by
    rw [totalDegree, hm]
    rfl
  obtain ⟨s, hs, regular, hs_scope, hbasis, hpoly⟩ :=
    p.newSquareSum_spec hscope (multiplierHalf degree m.totalDegree) name
  have next := hp.withFreeSquareSum hnamed _ name regular hs_scope hpoly
  refine ⟨m.totalDegree, s, degree_ok, hs, next,
    ⟨by simp [withFreeSquareSum], hs_scope, _, _, degree_ok, hbasis,
      fun t ht => List.mem_append_right _ ht, hpoly⟩, ?_, regular.polynomial,
    Expression.isPolynomial_sub hrest (Expression.isPolynomial_mul regular.polynomial hg), ?_⟩
  · intro A _ _ ψ shares hshares
    obtain ⟨share, rfl⟩ := List.length_eq_one_iff.mp hshares.length_eq.symm
    have hshare := (List.forall₂_cons.mp hshares).1
    obtain ⟨ψ', agree, value⟩ :=
      exists_values hnamed hscope (hshare _ degree_ok) ψ name p.size
    exact ⟨ψ', agree, .cons (by rw [hpoly]; exact value) .nil⟩
  · rw [Expression.eval_sub, Expression.eval_mul _ regular.polynomial hg, mul_comm, hpoly]
    refine sub_mem ?_ (mul_mem_affineSpan hgscope ?_)
    · exact affineSpan_mono (fun t ht => List.mem_append_left _ ht) haffine
    · exact p.freePolynomial_mem_affineSpan scope _ name

theorem registerMultipliers_spec {constraints : List (Expression Rat)}
    (hconstraints : ∀ g ∈ constraints, g.IsPolynomial)
    (hwithin : ∀ g ∈ constraints, g.eval X ∈ scopePolynomials scope) (degree : ℤ) (name : String)
    (k : ℕ) {p : SquareProgram Rat} (hp : p.IsRegular) {rest : Expression Rat}
    (hrest : rest.IsPolynomial) (haffine : rest.eval X ∈ affineSpan scope p.decisions) :
    ∃ q added rest', p.registerMultipliers rest scope degree name k constraints =
        (q, .ok (added.map SquareSum.polynomial, rest')) ∧
      p.Extends q ∧ q.IsRegular ∧ q.statements = p.statements ++ added ∧
      List.Forall₂ (q.IsMultiplier scope degree) added constraints ∧
      Assigns p.size scope constraints degree added ∧ rest'.IsPolynomial ∧
      rest'.eval X ∈ affineSpan scope q.decisions ∧
      ∀ {R : Type} [CommRing R] [Algebra ℚ R] (ρ : Symbol → R),
        rest'.eval ρ + weighted ρ added constraints = rest.eval ρ := by
  induction constraints generalizing p rest k with
  | nil =>
      refine ⟨p, [], rest, rfl, .refl p, hp, by simp, .nil, ?_, hrest, haffine, fun ρ => ?_⟩
      · intro A _ _ ψ shares hshares
        obtain rfl := List.forall₂_nil_left_iff.mp hshares
        exact ⟨ψ, fun _ _ => rfl, .nil⟩
      · simp [weighted]
  | cons g constraints ih =>
      have hg := hconstraints g (by simp)
      obtain ⟨constraintDegree, s, degree_ok, hs, next, multiplier, assigns, polynomial, hrest',
          haffine'⟩ :=
        registerMultiplier_spec hscope hnamed hg (hwithin g (by simp)) degree
          (name ++ toString (k + 1)) hp hrest haffine
      have first := extends_withFreeSquareSum p scope (multiplierHalf degree constraintDegree)
        (name ++ toString (k + 1)) s
      obtain ⟨q, added, rest', hq, growth, regular, statements, multipliers, assigns', result,
          affine, value⟩ :=
        ih (fun f hf => hconstraints f (by simp [hf])) (fun f hf => hwithin f (by simp [hf]))
          (k + 1) next hrest' haffine'
      refine ⟨q, s :: added, rest', ?_, first.trans growth, regular, ?_,
        .cons (multiplier.extend growth) multipliers, ?_, result, affine, fun ρ => ?_⟩
      · exact registerMultipliers_cons_eq_ok.mpr ⟨_, _, _, _, degree_ok, hs, hq, rfl⟩
      · simp [statements, withFreeSquareSum, SquareProgram.newFreePolynomial]
      · intro A _ _ ψ shares hshares
        cases hshares with
        | @cons _ share _ shares hshare hshares =>
            obtain ⟨ψ₁, agree, value⟩ := assigns ψ [share] (.cons hshare .nil)
            obtain ⟨ψ₂, agree', values⟩ := assigns' ψ₁ shares hshares
            refine ⟨ψ₂, fun j hj => ?_, .cons ?_ values⟩
            · rw [agree' j (hj.trans_le first.decisions.length_le), agree j hj]
            · rw [next.solvedAt_statement agree' multiplier.mem]
              exact (List.forall₂_cons.mp value).1
      · have total := value ρ
        rw [Expression.eval_sub, Expression.eval_mul ρ polynomial hg] at total
        simp only [weighted, List.zipWith_cons_cons, List.sum_cons] at total ⊢
        linear_combination total

theorem nonnegativeOn_spec {constraints : List (Expression Rat)}
    (hconstraints : ∀ g ∈ constraints, g.IsPolynomial)
    (hwithin : ∀ g ∈ constraints, g.eval X ∈ scopePolynomials scope) (degree : ℤ) (name : String)
    {p : SquareProgram Rat} (hp : p.IsRegular) {e : Expression Rat} (he : e.IsPolynomial)
    (haffine : e.eval X ∈ affineSpan scope p.decisions) :
    ∃ q c, p.nonnegativeOn e scope constraints degree name =
        (q, .ok (c.multipliers.map SquareSum.polynomial)) ∧ p.Extends q ∧ q.IsRegular ∧
      q.statements = p.statements ++ c.statements ∧
      q.Certifies e scope constraints degree c ∧
      Assigns p.size scope constraints degree c.multipliers := by
  obtain ⟨q, added, rest, hq, growth, regular, statements, multipliers, assigns, polynomial,
      affine, value⟩ :=
    registerMultipliers_spec hscope hnamed hconstraints hwithin degree name 0 hp he haffine
  obtain ⟨s, hs, hregular, hpoly, hs_scope, hbasis⟩ :=
    exists_statement polynomial hscope none (name ++ "0")
  have last : q.Extends { q with statements := q.statements ++ [s] } :=
    ⟨List.prefix_rfl, List.prefix_append _ _⟩
  refine ⟨{ q with statements := q.statements ++ [s] }, ⟨added, s⟩, ?_, growth.trans last,
    regular.addStatement hregular (by rwa [hs_scope]) (by rwa [hpoly, hs_scope]), ?_,
    ⟨multipliers.imp (fun _ _ h => h.extend last), by simp, hs_scope, ?_, fun ρ => ?_⟩, assigns⟩
  · exact nonnegativeOn_eq_ok.mpr ⟨q, rest, _, hq, withSquareSum_eq_ok.mpr ⟨s, hs, rfl, rfl⟩⟩
  · simp [statements, Certificate.statements]
  · simpa using hbasis
  · rw [hpoly, value ρ]

end

end SquareProgram

/-! ## Soundness -/

theorem FeasiblePoint.nonneg_of_certifies {p : SquareProgram Rat} (point : FeasiblePoint p)
    (hp : p.IsRegular) {e : Expression Rat} {scope : List Symbol}
    {constraints : List (Expression Rat)} {degree : ℤ} {c : SquareProgram.Certificate}
    (h : p.Certifies e scope constraints degree c) (x : Symbol → ℝ)
    (hx : ∀ g ∈ constraints, 0 ≤ g.eval (decided point.values x)) :
    0 ≤ e.eval (decided point.values x) := by
  have nonneg {multipliers : List (SquareSum Rat)} {constraints : List (Expression Rat)}
      (h : List.Forall₂ (p.IsMultiplier scope degree) multipliers constraints)
      (hx : ∀ g ∈ constraints, 0 ≤ g.eval (decided point.values x)) :
      0 ≤ SquareProgram.weighted (decided point.values x) multipliers constraints := by
    induction h with
    | nil => simp [SquareProgram.weighted]
    | @cons s g multipliers constraints head tail ih =>
        have first := mul_nonneg (point.nonneg_of_mem hp head.mem x) (hx g (by simp))
        have others := ih (fun f hf => hx f (by simp [hf]))
        simpa [SquareProgram.weighted] using add_nonneg first others
  rw [← h.value]
  exact add_nonneg (point.nonneg_of_mem hp h.base_mem x) (nonneg h.weights hx)

end HybridRelaxation
