import Mathlib
import HybridRelaxation.Proofs.Certificate.CoefficientNorms
import HybridRelaxation.Proofs.SquareSum.Nonnegativity
import HybridRelaxation.Proofs.SquareSum.SumOfSquares

/-!
# Completeness of certificates

No certificate is lost when a polynomial is registered to be nonnegative on a set.  Whenever it is a
sum of squares plus sums of squares times the inequalities, within the degrees of the multipliers,
the decisions have values and the statements have Gram matrices that say so.  The base needs no
bound: its monomials reach half of the degree that the polynomial can have at all.
-/

namespace HybridRelaxation

open MvPolynomial (C X coeff)

/-! ## Degrees -/

namespace CoefficientMap

variable {K : Type} {m : CoefficientMap K}

theorem totalDegree_cons (t : Exponents × Expression K) (m : CoefficientMap K) :
    CoefficientMap.totalDegree (t :: m) =
      (m.map (fun u => totalDegreeOf u.1)).foldl max (totalDegreeOf t.1) := rfl

theorem totalDegreeOf_le {t : Exponents × Expression K} (ht : t ∈ m) :
    totalDegreeOf t.1 ≤ m.totalDegree := by
  cases m with
  | nil => simp at ht
  | cons u m =>
      rw [totalDegree_cons]
      obtain ⟨first, others⟩ := foldl_max_le.mp (le_refl (List.foldl max (totalDegreeOf u.1)
        (m.map (fun u => totalDegreeOf u.1))))
      obtain rfl | ht := List.mem_cons.mp ht
      · exact first
      · exact others _ (List.mem_map.mpr ⟨t, ht, rfl⟩)

theorem totalDegree_le {b : ℤ} (hb : 0 ≤ b) (h : ∀ t ∈ m, totalDegreeOf t.1 ≤ b) :
    m.totalDegree ≤ b := by
  cases m with
  | nil => exact hb
  | cons u m =>
      rw [totalDegree_cons, foldl_max_le]
      refine ⟨h u (by simp), fun d hd => ?_⟩
      obtain ⟨t, ht, rfl⟩ := List.mem_map.mp hd
      exact h t (by simp [ht])

theorem totalDegree_nonneg {n : ℕ} (hm : ∀ v ∈ m.map Prod.fst, v.IsNatural n) :
    0 ≤ m.totalDegree := by
  cases m with
  | nil => exact le_rfl
  | cons u m =>
      exact (hm u.1 (by simp)).totalDegreeOf_nonneg.trans (totalDegreeOf_le (by simp))

theorem IsRegular.totalDegree_nonneg {m : CoefficientMap Rat} {scope : List Symbol}
    (hm : m.IsRegular scope) : 0 ≤ m.totalDegree := by
  refine CoefficientMap.totalDegree_nonneg (n := scope.length) (fun v hv => ?_)
  obtain ⟨t, ht, rfl⟩ := List.mem_map.mp hv
  exact hm.vectors t ht

end CoefficientMap

section

variable {e : Expression Rat} {scope : List Symbol} (he : e.IsPolynomial) (hscope : scope.Nodup)

include he hscope

theorem isOfDegree_of_coefficients {A : Type*} [CommRing A] [Algebra ℚ A] (σ : Symbol → A)
    {m : CoefficientMap Rat} (hm : coefficients e scope = .ok m) :
    IsOfDegree scope m.totalDegree (e.eval (scopePoint scope σ)) := by
  intro n hn
  obtain ⟨v, hv, rfl⟩ := isOver_of_coefficients σ he hm n hn
  rw [coeff_of_coefficients σ he hscope hm hv] at hn
  have listed : v ∈ m.map Prod.fst := by
    by_contra hnot
    rw [CoefficientMap.coefficientAt_of_notMem hnot] at hn
    simp at hn
  obtain ⟨t, ht, rfl⟩ := List.mem_map.mp listed
  exact ⟨t.1, Exponents.mem_exponents.mpr
    ⟨hv, hv.totalDegreeOf_nonneg, CoefficientMap.totalDegreeOf_le ht⟩, rfl⟩

theorem totalDegree_eq (hmem : e.eval X ∈ scopePolynomials scope) :
    totalDegree e scope = .ok ((e.eval X : MvPolynomial Symbol ℚ).totalDegree : ℤ) := by
  obtain ⟨m, hm, regular, nonzero, -⟩ := exists_coefficients.{0} he scope
  have whole : e.eval (scopePoint scope (fun _ => (0 : ℚ))) = e.eval X := by
    rw [Expression.eval_eq_aeval, aeval_scopePoint _ hmem, Algebra.algebraMap_self,
      MvPolynomial.map_id]
  have upper : ((e.eval X : MvPolynomial Symbol ℚ).totalDegree : ℤ) ≤ m.totalDegree := by
    have bound := isOfDegree_of_coefficients he hscope (fun _ => (0 : ℚ)) hm
    have natural := Int.toNat_of_nonneg regular.totalDegree_nonneg
    rw [whole, ← natural] at bound
    have := bound.totalDegree_le
    omega
  have lower : m.totalDegree ≤ ((e.eval X : MvPolynomial Symbol ℚ).totalDegree : ℤ) := by
    refine CoefficientMap.totalDegree_le (by positivity) (fun t ht => ?_)
    have vector := regular.vectors t ht
    have number := eq_number_of_coefficients he hscope hmem hm vector
    rw [CoefficientMap.coefficientAt_of_mem regular (c := t.2) ht] at number
    have support : monomialPowers scope t.1 ∈ (e.eval X : MvPolynomial Symbol ℚ).support := by
      refine MvPolynomial.mem_support_iff.mpr (fun hzero => nonzero t ht ?_)
      rw [number, hzero]
      rfl
    rw [← degree_monomialPowers vector]
    exact_mod_cast degree_le_of_mem_support le_rfl support
  rw [totalDegree, hm, ok_bind, le_antisymm upper lower]

end

namespace SquareProgram

/-- Values of the decisions that have nothing to do with one another: each is an indeterminate. -/
noncomputable def generic (p : SquareProgram Rat) (k : ℕ) : MvPolynomial Symbol ℚ :=
  (p.decisions[k]?).elim 0 X

theorem IsRegular.totalDegree_le_of_generic {p : SquareProgram Rat} (hp : p.IsRegular)
    {s : SquareSum Rat} (hs : s ∈ p.statements) {b : ℤ} (hb : 0 ≤ b)
    (h : IsOfDegree s.scope b (solvedAt p.generic s.polynomial)) :
    s.coefficients.totalDegree ≤ b := by
  obtain ⟨m, hm, regular, nonzero, -⟩ :=
    exists_coefficients.{0} (hp.statements s hs).polynomial s.scope
  obtain rfl := Except.ok.inj (hm.symm.trans (hp.statements s hs).coefficients)
  refine CoefficientMap.totalDegree_le hb (fun t ht => ?_)
  have vector := regular.vectors t ht
  have value : coeff (monomialPowers s.scope t.1) (solvedAt p.generic s.polynomial) =
      t.2.eval X := by
    rw [← hp.eval_scopePoint_of_values p.generic (hp.affine s hs) (hp.named s hs) (σ := X)
        (fun k u hk => by rw [generic, hk]; rfl),
      coeff_of_coefficients X (hp.statements s hs).polynomial (hp.statements s hs).distinct hm
        vector, CoefficientMap.coefficientAt_of_mem regular (c := t.2) ht]
  have occurs : coeff (monomialPowers s.scope t.1) (solvedAt p.generic s.polynomial) ≠ 0 := by
    rw [value, Ne, Expression.IsCanonical.eval_X_eq_zero (regular.canonical t ht)]
    exact nonzero t ht
  obtain ⟨v, hv, same⟩ := h _ occurs
  obtain ⟨natural, -, bound⟩ := Exponents.mem_exponents.mp hv
  rwa [monomialPowers_injective (hp.statements s hs).distinct natural vector same] at bound

end SquareProgram

/-! ## Earlier statements -/

namespace SquareProgram

def preceded {K : Type} (earlier : List (SquareSum K)) (p : SquareProgram K) : SquareProgram K :=
  { p with statements := earlier ++ p.statements }

section

variable {K : Type} [Scalar K] (earlier : List (SquareSum K)) (p : SquareProgram K)
  (scope : List Symbol)

theorem withSquareSum_preceded (e : Expression K) (half : Option ℤ) (name : String) :
    ((p.preceded earlier).withSquareSum e scope half name).1 =
        ((p.withSquareSum e scope half name).1).preceded earlier ∧
      ∀ {α : Type} (a : α), ((p.preceded earlier).withSquareSum e scope half name).2.map
        (fun _ => a) = (p.withSquareSum e scope half name).2.map (fun _ => a) := by
  unfold withSquareSum
  cases statement e scope half name with
  | error f => exact ⟨rfl, fun _ => rfl⟩
  | ok s => exact ⟨by simp [preceded], fun _ => rfl⟩

theorem newFreePolynomial_preceded (basis : List (Expression K)) (name : String) :
    (p.preceded earlier).newFreePolynomial basis name =
      ((p.newFreePolynomial basis name).1.preceded earlier, (p.newFreePolynomial basis name).2) :=
  rfl

theorem newSquareSum_preceded (half : ℤ) (name : String) :
    (p.preceded earlier).newSquareSum scope half name =
      ((p.newSquareSum scope half name).1.preceded earlier,
        (p.newSquareSum scope half name).2) := by
  unfold newSquareSum
  rw [newFreePolynomial_preceded]
  cases p.newFreePolynomial (monomials scope (2 * half) 0) name with
  | mk q free =>
      obtain ⟨program, result⟩ :=
        withSquareSum_preceded earlier q scope free.polynomial (some half) name
      exact Prod.ext program (result _)

theorem registerMultipliers_preceded (degree : ℤ) (name : String)
    (constraints : List (Expression K)) (k : ℕ) (rest : Expression K) :
    (p.preceded earlier).registerMultipliers rest scope degree name k constraints =
      ((p.registerMultipliers rest scope degree name k constraints).1.preceded earlier,
        (p.registerMultipliers rest scope degree name k constraints).2) := by
  induction constraints generalizing p k rest with
  | nil => rfl
  | cons g constraints ih =>
      unfold registerMultipliers
      cases totalDegree g scope with
      | error f => rfl
      | ok constraintDegree =>
          simp only [newSquareSum_preceded]
          cases p.newSquareSum scope (multiplierHalf degree constraintDegree)
              (name ++ toString (k + 1)) with
          | mk q result =>
              cases result with
              | error f => rfl
              | ok s => simp only [ih]

theorem nonnegativeOn_preceded (e : Expression K) (constraints : List (Expression K)) (degree : ℤ)
    (name : String) :
    (p.preceded earlier).nonnegativeOn e scope constraints degree name =
      ((p.nonnegativeOn e scope constraints degree name).1.preceded earlier,
        (p.nonnegativeOn e scope constraints degree name).2) := by
  unfold nonnegativeOn
  rw [registerMultipliers_preceded]
  cases p.registerMultipliers e scope degree name 0 constraints with
  | mk q result =>
      cases result with
      | error f => rfl
      | ok parts =>
          obtain ⟨program, outcome⟩ :=
            q.withSquareSum_preceded earlier scope parts.2 none (name ++ "0")
          exact Prod.ext program (outcome _)

end

end SquareProgram

/-! ## Gram matrices of solved statements -/

namespace SquareProgram

variable {p : SquareProgram Rat} {scope : List Symbol} {degree : ℤ}

/-- A positive semidefinite matrix meets all matching equations at values for the decisions. -/
def IsMet (p : SquareProgram Rat) (ψ : ℕ → ℝ) (s : SquareSum Rat) : Prop :=
  ∃ (m : Matching Rat) (G : Matrix (Fin s.gramSize) (Fin s.gramSize) ℝ),
    s.matching p.index p.size = .ok m ∧ G.PosSemidef ∧
      ∀ row ∈ m.rows, row.gap (fun j => ψ j.toNat)
        (m.pairs.map (fun pair => entriesOf G pair.1 pair.2)) = 0

theorem IsRegular.isMet (hp : p.IsRegular) {ψ : ℕ → ℝ} {s : SquareSum Rat}
    (hs : s ∈ p.statements) (h : ∃ G : Matrix (Fin s.gramSize) (Fin s.gramSize) ℝ,
      G.PosSemidef ∧ solvedAt ψ s.polynomial = s.quadratic (entriesOf G)) : p.IsMet ψ s := by
  obtain ⟨G, hG, identity⟩ := h
  obtain ⟨m, hm⟩ := hp.exists_matching hs
  refine ⟨m, G, hm, hG, ((hp.statements s hs).matching_iff (σ := decided ψ (fun _ => 0))
    (fun t j hj => ?_) (entriesOf_symm (isSymm_of_posSemidef hG)) hm).mpr ?_⟩
  · obtain ⟨i, label, rfl, rfl, -⟩ := index_eq_some hj
    rfl
  · rw [hp.eval_scopePoint ψ hs, identity]

theorem IsMultiplier.exists_gram (hscope : scope.Nodup) {s : SquareSum Rat} {g : Expression Rat}
    (h : p.IsMultiplier scope degree s g) {σ : MvPolynomial Symbol ℝ}
    (hσ : IsSumOfSquares scope σ) (hshare : IsShare scope degree g σ) :
    ∃ G : Matrix (Fin s.gramSize) (Fin s.gramSize) ℝ, G.PosSemidef ∧
      σ = s.quadratic (entriesOf G) := by
  obtain ⟨constraintDegree, -, hdegree, hbasis, -, -⟩ := h.shape
  obtain rfl := h.scope_eq
  obtain ⟨n, hn⟩ := Int.eq_ofNat_of_zero_le (le_max_left 0 ((degree - constraintDegree) / 2))
  have bound := hshare _ hdegree
  rw [multiplierHalf, hn] at bound hbasis
  exact SquareSum.exists_gram_of_isSumOfSquares hscope hbasis hσ
    (IsOfDegree.totalDegree_le (by exact_mod_cast bound))

theorem Certifies.exists_gram_base (hp : p.IsRegular) {e : Expression Rat}
    {constraints : List (Expression Rat)} {c : Certificate}
    (h : p.Certifies e scope constraints degree c) {ψ : ℕ → ℝ}
    (hsquares : IsSumOfSquares scope (solvedAt ψ c.base.polynomial)) :
    ∃ G : Matrix (Fin c.base.gramSize) (Fin c.base.gramSize) ℝ, G.PosSemidef ∧
      solvedAt ψ c.base.polynomial = c.base.quadratic (entriesOf G) := by
  have regular := hp.statements _ h.base_mem
  have bound := isOfDegree_of_coefficients regular.polynomial regular.distinct
    (decided ψ (fun _ => 0)) regular.coefficients
  have nonneg := (isRegular_of_coefficients regular.polynomial
    regular.coefficients).totalDegree_nonneg
  have hbasis := h.base_basis
  rw [← h.base_scope] at hbasis hsquares
  obtain ⟨n, hn⟩ := Int.eq_ofNat_of_zero_le
    (show 0 ≤ halfDegree c.base.coefficients.totalDegree by unfold halfDegree; omega)
  rw [hn] at hbasis
  rw [hp.eval_scopePoint ψ h.base_mem] at bound
  have covered : c.base.coefficients.totalDegree ≤ ((2 * n : ℕ) : ℤ) := by
    unfold halfDegree at hn
    push_cast
    omega
  exact SquareSum.exists_gram_of_isSumOfSquares regular.distinct hbasis hsquares
    (bound.mono covered).totalDegree_le

end SquareProgram

/-! ## Shares -/

section

variable {A : Type} [CommRing A] [Algebra ℚ A]

theorem solvedAt_of_mem {scope : List Symbol} (hnamed : ∀ t ∈ scope, t.isNamed = true)
    {g : Expression Rat} (hg : g.eval X ∈ scopePolynomials scope) (ψ : ℕ → A) :
    solvedAt ψ g = g.eval X := by
  have solved := Expression.eval_eq_aeval (decided (fun k => C (ψ k)) X) g
  have plain := Expression.eval_eq_aeval (X : Symbol → MvPolynomial Symbol A) g
  rw [solvedAt, solved, plain]
  exact aeval_congr_of_mem hg (fun t ht => decided_of_isNamed (hnamed t ht) _ _)

noncomputable def weightedShares (shares : List (MvPolynomial Symbol A))
    (constraints : List (Expression Rat)) : MvPolynomial Symbol A :=
  (List.zipWith (fun share g => share * g.eval X) shares constraints).sum

theorem weighted_eq_weightedShares {ψ : ℕ → A} {multipliers : List (SquareSum Rat)}
    {shares : List (MvPolynomial Symbol A)}
    (h : List.Forall₂ (fun s share => solvedAt ψ s.polynomial = share) multipliers shares)
    {constraints : List (Expression Rat)} (hsolved : ∀ g ∈ constraints, solvedAt ψ g = g.eval X) :
    SquareProgram.weighted (decided (fun k => C (ψ k)) X) multipliers constraints =
      weightedShares shares constraints := by
  induction h generalizing constraints with
  | nil => simp [SquareProgram.weighted, weightedShares]
  | @cons s share multipliers shares head _ ih =>
      cases constraints with
      | nil => simp [SquareProgram.weighted, weightedShares]
      | cons g constraints =>
          have first : g.eval (decided (fun k => C (ψ k)) X) = g.eval X := hsolved g (by simp)
          have others : SquareProgram.weighted (decided (fun k => C (ψ k)) X) multipliers
              constraints = weightedShares shares constraints :=
            ih (fun f hf => hsolved f (by simp [hf]))
          have solved : s.polynomial.eval (decided (fun k => C (ψ k)) X) = share := head
          simp only [SquareProgram.weighted, weightedShares] at others
          simp [SquareProgram.weighted, weightedShares, first, solved, others]

theorem SquareProgram.Certifies.solvedAt_base {p : SquareProgram Rat} {e : Expression Rat}
    {scope : List Symbol} {constraints : List (Expression Rat)} {degree : ℤ}
    {c : SquareProgram.Certificate} (h : p.Certifies e scope constraints degree c) {ψ : ℕ → A}
    {shares : List (MvPolynomial Symbol A)}
    (hshares : List.Forall₂ (fun s share => solvedAt ψ s.polynomial = share) c.multipliers shares)
    (hsolved : ∀ g ∈ constraints, solvedAt ψ g = g.eval X) :
    solvedAt ψ c.base.polynomial = solvedAt ψ e - weightedShares shares constraints := by
  have value := h.value (decided (fun k => C (ψ k)) X)
  rw [weighted_eq_weightedShares hshares hsolved] at value
  exact eq_sub_of_add_eq value

end

namespace SquareProgram

variable {p : SquareProgram Rat} {scope : List Symbol} {constraints : List (Expression Rat)}
  {degree : ℤ}

theorem Certifies.exists_gram (hp : p.IsRegular) {e : Expression Rat} {c : Certificate}
    (h : p.Certifies e scope constraints degree c) {ψ : ℕ → ℝ}
    {shares : List (MvPolynomial Symbol ℝ)}
    (hvalues : List.Forall₂ (fun s share => solvedAt ψ s.polynomial = share) c.multipliers shares)
    (hshares : List.Forall₂ (fun g share => IsSumOfSquares scope share ∧
      IsShare scope degree g share) constraints shares)
    (hbase : IsSumOfSquares scope (solvedAt ψ c.base.polynomial)) :
    ∀ s ∈ c.statements, ∃ G : Matrix (Fin s.gramSize) (Fin s.gramSize) ℝ, G.PosSemidef ∧
      solvedAt ψ s.polynomial = s.quadratic (entriesOf G) := by
  have distinct : scope.Nodup := h.base_scope ▸ (hp.statements _ h.base_mem).distinct
  intro s hs
  rcases List.mem_append.mp hs with hs | hs
  · obtain ⟨k, hk⟩ := List.mem_iff_getElem?.mp hs
    obtain ⟨g, hg, multiplier⟩ := exists_right_at h.weights hk
    obtain ⟨share, hshare, value⟩ := exists_right_at hvalues hk
    obtain ⟨squares, bounded⟩ := related_at hshares hg hshare
    rw [value]
    exact multiplier.exists_gram distinct squares bounded
  · rw [List.mem_singleton.mp hs]
    exact h.exists_gram_base hp hbase

/-! ## Registered polynomials -/

def IsNumbered (p : SquareProgram Rat) : Prop :=
  ∀ (k : ℕ) (s : Symbol), p.decisions[k]? = some s → ∃ label, s = .decision k label

/-- A sum of squares over the scope, of no more degree than the inequality leaves. -/
structure IsAllowed (scope : List Symbol) (degree : ℤ) (g : Expression Rat)
    (σ : MvPolynomial Symbol ℝ) : Prop where
  squares : IsSumOfSquares scope σ
  degree_le : (σ.totalDegree : ℤ) ≤
    2 * max 0 ((degree - (g.eval X : MvPolynomial Symbol ℚ).totalDegree) / 2)

theorem IsAllowed.isShare (hscope : scope.Nodup) {g : Expression Rat} (hg : g.IsPolynomial)
    (hwithin : g.eval X ∈ scopePolynomials scope) {σ : MvPolynomial Symbol ℝ}
    (h : IsAllowed scope degree g σ) : IsShare scope degree g σ := by
  intro constraintDegree hdegree
  rw [totalDegree_eq hg hscope hwithin] at hdegree
  obtain rfl := Except.ok.inj hdegree
  exact (h.squares.isOver.isOfDegree le_rfl).mono h.degree_le

def unstated (p : SquareProgram Rat) : SquareProgram Rat := { p with statements := [] }

theorem IsNumbered.isRegular_unstated (hp : p.IsNumbered) : p.unstated.IsRegular :=
  ⟨hp, by simp [unstated], by simp [unstated], by simp [unstated]⟩

/--
A numbered program is registered on like the one without its statements: those that are already
there play no part, so they need not be regular.
-/
theorem IsNumbered.nonnegativeOn_spec (hp : p.IsNumbered) (hscope : scope.Nodup)
    (hnamed : ∀ t ∈ scope, t.isNamed = true) (hconstraints : ∀ g ∈ constraints, g.IsPolynomial)
    (hwithin : ∀ g ∈ constraints, g.eval X ∈ scopePolynomials scope) (degree : ℤ) (name : String)
    {e : Expression Rat} (he : e.IsPolynomial)
    (haffine : e.eval X ∈ affineSpan scope p.decisions) :
    ∃ q c, p.nonnegativeOn e scope constraints degree name =
        (q.preceded p.statements, .ok (c.multipliers.map SquareSum.polynomial)) ∧
      p.unstated.Extends q ∧ q.IsRegular ∧ q.statements = c.statements ∧
      q.Certifies e scope constraints degree c ∧
      Assigns p.size scope constraints degree c.multipliers := by
  obtain ⟨q, c, hq, growth, regular, statements, certificate, assigns⟩ :=
    SquareProgram.nonnegativeOn_spec hscope hnamed hconstraints hwithin degree name
      hp.isRegular_unstated he haffine
  have whole : p.unstated.preceded p.statements = p := by simp [preceded, unstated]
  have registered := nonnegativeOn_preceded p.statements p.unstated scope e constraints degree name
  rw [whole, hq] at registered
  exact ⟨q, c, registered, growth, regular, by simpa [unstated] using statements, certificate,
    assigns⟩

/--
Completeness of registration.  Once a polynomial is registered on a set, every certificate of it, of
sums of squares within the degrees of the multipliers, is one of values for the new decisions and of
positive semidefinite matrices that meet all matching equations.
-/
theorem nonnegativeOn_complete (hscope : scope.Nodup) (hnamed : ∀ t ∈ scope, t.isNamed = true)
    (hconstraints : ∀ g ∈ constraints, g.IsPolynomial)
    (hwithin : ∀ g ∈ constraints, g.eval X ∈ scopePolynomials scope) (degree : ℤ) (name : String)
    (hp : p.IsNumbered) {e : Expression Rat} (he : e.IsPolynomial)
    (haffine : e.eval X ∈ affineSpan scope p.decisions) :
    ∃ q multipliers base, p.nonnegativeOn e scope constraints degree name =
        (q, .ok (multipliers.map SquareSum.polynomial)) ∧
      q.statements = p.statements ++ (multipliers ++ [base]) ∧
      p.decisions <+: q.decisions ∧ multipliers.length = constraints.length ∧
      ∀ (φ : ℕ → ℝ) (σ₀ : MvPolynomial Symbol ℝ) (σs : List (MvPolynomial Symbol ℝ)),
        IsSumOfSquares scope σ₀ → List.Forall₂ (IsAllowed scope degree) constraints σs →
        solvedAt φ e = σ₀ + weightedShares σs constraints →
          ∃ ψ : ℕ → ℝ, (∀ k < p.size, ψ k = φ k) ∧
            List.Forall₂ (fun s σ => solvedAt ψ s.polynomial = σ) multipliers σs ∧
            solvedAt ψ base.polynomial = σ₀ ∧ ∀ s ∈ multipliers ++ [base], q.IsMet ψ s := by
  obtain ⟨q, c, registered, growth, hregular, statements, certificate, assigns⟩ :=
    hp.nonnegativeOn_spec hscope hnamed hconstraints hwithin degree name he haffine
  refine ⟨q.preceded p.statements, c.multipliers, c.base, registered, ?_, growth.decisions,
    certificate.weights.length_eq, fun φ σ₀ σs hσ₀ hσs identity => ?_⟩
  · simp [preceded, statements, Certificate.statements]
  have shares : List.Forall₂ (fun g σ => IsSumOfSquares scope σ ∧ IsShare scope degree g σ)
      constraints σs := forall₂_imp_of_mem hσs (fun g hg σ allowed =>
        ⟨allowed.squares, allowed.isShare hscope (hconstraints g hg) (hwithin g hg)⟩)
  obtain ⟨ψ, agree, values⟩ := assigns φ σs (shares.imp (fun _ _ h => h.2))
  have base : solvedAt ψ c.base.polynomial = σ₀ := by
    rw [certificate.solvedAt_base values (fun g hg => solvedAt_of_mem hnamed (hwithin g hg) ψ),
      hp.isRegular_unstated.solvedAt_congr agree haffine hnamed, identity, add_sub_cancel_right]
  refine ⟨ψ, agree, values, base, fun s hs => ?_⟩
  have listed : s ∈ q.statements := statements ▸ hs
  exact hregular.isMet listed
    (certificate.exists_gram hregular values shares (base.symm ▸ hσ₀) s hs)

theorem nonnegativeOn_complete_halfLine : ∃ q multipliers base ψ,
    (empty : SquareProgram Rat).nonnegativeOn (.ofSymbol (.named "x")) [.named "x"]
        [.ofSymbol (.named "x")] 2 "s" = (q, .ok (multipliers.map SquareSum.polynomial)) ∧
      List.Forall₂ (fun s σ => solvedAt ψ s.polynomial = σ) multipliers [1] ∧
      solvedAt ψ base.polynomial = 0 ∧ ∀ s ∈ multipliers ++ [base], q.IsMet ψ s := by
  have x : (Expression.ofSymbol (.named "x") : Expression Rat).IsPolynomial :=
    Expression.isPolynomial_ofSymbol _
  have scope : (Expression.ofSymbol (.named "x") : Expression Rat).eval X ∈
      scopePolynomials [.named "x"] := by
    rw [Expression.eval_ofSymbol]
    exact X_mem_scopePolynomials (by simp)
  obtain ⟨q, multipliers, base, registered, -, -, -, complete⟩ :=
    nonnegativeOn_complete (p := empty) (by simp) (by simp [Symbol.isNamed])
      (fun g hg => List.mem_singleton.mp hg ▸ x) (fun g hg => List.mem_singleton.mp hg ▸ scope) 2 "s"
      (fun k s h => by simp [empty] at h) x (mem_affineSpan_of_mem scope)
  obtain ⟨ψ, -, values, rest, met⟩ := complete (fun _ => 0) 0 [1] (isSumOfSquares_zero _)
    (.cons ⟨by simpa using isSumOfSquares_sq (isOver_one (A := ℝ)), by simp⟩ .nil)
    (by simp [weightedShares, solvedAt, decided])
  exact ⟨q, multipliers, base, ψ, registered, values, rest, met⟩

end SquareProgram

/-! ## Rounded and fractional data -/

def MatchingRow.exactly {K : Type} [Scalar K] (row : MatchingRow K) : MatchingRow Rat where
  exponents := row.exponents
  free := row.free.map (fun entry => (entry.1, exactReading entry.2))
  gram := row.gram.map (fun entry => (entry.1, exactReading entry.2))
  right := exactReading row.right

/-- The square of `x - 1`, with a constant term that is the difference of two large numbers. -/
def nearSquare (K : Type) [Scalar K] : Expression K :=
  let x : Expression K := .ofSymbol (.named "x")
  let float (c : Rat) : Expression K := .number (Scalar.measured c)
  (float (10 ^ 8 + 1) + x) * (float (10 ^ 8 + 5) + x) - float (2 * 10 ^ 8 + 8) * x -
    float (10 ^ 16 + 6 * 10 ^ 8 + 4)

/-- One, as a fraction that cancels once it is expanded. -/
def fractionalOne : Expression Number :=
  let x : Expression Number := .ofSymbol (.named "x")
  (x * (x + .number 1)).reciprocal * (x * x + x)

theorem eval_nearSquare : (nearSquare Rat).eval (X : Symbol → MvPolynomial Symbol ℝ) =
    (X (.named "x") - 1) ^ 2 := by
  have x : (Expression.ofSymbol (.named "x") : Expression Rat).IsPolynomial :=
    Expression.isPolynomial_ofSymbol _
  have float (c : Rat) : (Expression.number c : Expression Rat).IsPolynomial :=
    Expression.isPolynomial_number _
  simp only [nearSquare, Scalar.measured_rat, Expression.eval_sub, Expression.eval_mul _ (float _) x,
    Expression.eval_mul _ (Expression.isPolynomial_add (float _) x)
      (Expression.isPolynomial_add (float _) x), Expression.eval_add, Expression.eval_number,
    Expression.eval_ofSymbol, map_add, map_mul, map_pow, map_ofNat, map_one]
  ring

namespace SquareProgram

def nearSquareCall : SquareProgram Number × Except Failure (List (Expression Number)) :=
  empty.nonnegativeOn (nearSquare Number) [.named "x"] [] 2 "s"

/-- The constant term has been rounded away: its equation has zero on the right. -/
theorem exists_matching_nearSquareCall : ∃ base m, nearSquareCall.1.statements = [base] ∧
    base.matching nearSquareCall.1.index nearSquareCall.1.size = .ok m ∧
      m.pairs = [(0, 0), (0, 1), (1, 1)] ∧
      (∃ row ∈ m.rows, row.exactly = ⟨[0], [], [(0, 1)], 0⟩) ∧
        ∃ row ∈ m.rows, row.exactly = ⟨[1], [], [(1, 2)], 2⟩ := by
  have fits : ∀ s ∈ nearSquareCall.1.statements, ∀ v ∈ s.coefficients.map Prod.fst ++
      (trianglePairs s.gramSize).map s.pairExponents,
        (s.matchingRow nearSquareCall.1.index v).map
          (SquareSum.MatchingRow.fits nearSquareCall.1.size) = .ok true := by
    decide +kernel
  have rows : ∀ s ∈ nearSquareCall.1.statements, s.gramSize = 2 ∧
      s.pairExponents (0, 0) = [0] ∧ s.pairExponents (0, 1) = [1] ∧
      (s.matchingRow nearSquareCall.1.index [0]).map MatchingRow.exactly =
        .ok ⟨[0], [], [(0, 1)], 0⟩ ∧
      (s.matchingRow nearSquareCall.1.index [1]).map MatchingRow.exactly =
        .ok ⟨[1], [], [(1, 2)], 2⟩ := by
    decide +kernel
  obtain ⟨base, stated⟩ := List.length_eq_one_iff.mp
    (by decide +kernel : nearSquareCall.1.statements.length = 1)
  have only : base ∈ nearSquareCall.1.statements := stated ▸ List.mem_singleton.mpr rfl
  obtain ⟨size, corner, beside, constant, linear⟩ := rows base only
  have listed {v : Exponents} (hv : v ∈ base.matchedExponents) :
      v ∈ base.coefficients.map Prod.fst ++ (trianglePairs base.gramSize).map base.pairExponents := by
    rcases SquareSum.mem_matchedExponents.mp hv with h | h
    · exact List.mem_append_left _ h
    · exact List.mem_append_right _ (List.mem_map.mpr h)
  obtain ⟨m, hm⟩ : ∃ m, base.matching nearSquareCall.1.index nearSquareCall.1.size = .ok m :=
    SquareSum.exists_matching_of_rows (fun v hv => map_eq_ok.mp (fits base only v (listed hv)))
  obtain ⟨found, pairs⟩ := SquareSum.matching_inversion hm
  rw [size] at pairs
  have row (pair : ℕ × ℕ) (hpair : pair ∈ trianglePairs 2) {r : MatchingRow Rat}
      (h : (base.matchingRow nearSquareCall.1.index (base.pairExponents pair)).map
        MatchingRow.exactly = .ok r) : ∃ row ∈ m.rows, row.exactly = r := by
    obtain ⟨row, hrow, read⟩ := map_eq_ok.mp h
    obtain ⟨row', hmem, hrow'⟩ := exists_right_of_mem found
      (SquareSum.mem_matchedExponents.mpr (.inr ⟨pair, size.symm ▸ hpair, rfl⟩))
    obtain rfl := Except.ok.inj (hrow.symm.trans hrow')
    exact ⟨row, hmem, read⟩
  exact ⟨base, m, stated, hm, pairs, row (0, 0) (by decide) (corner ▸ constant),
    row (0, 1) (by decide) (beside ▸ linear)⟩

/--
Certificates can be lost where numbers are rounded: read exactly, the polynomial is the square of
`x - 1`, but no positive semidefinite matrix meets its matching equations.  An inequality that is
polynomial only once it is expanded can stop the registration.
-/
theorem not_nonnegativeOn_complete_nearSquare :
    (∃ q base m, nearSquareCall = (q, .ok []) ∧ q.statements = [base] ∧
      base.matching q.index q.size = .ok m ∧
      IsSumOfSquares [.named "x"] ((nearSquare Number).exactly.eval X) ∧
      ∀ (ψ : ℤ → ℝ) (G : Matrix (Fin base.gramSize) (Fin base.gramSize) ℝ), G.PosSemidef →
        ∃ row ∈ m.rows,
          row.exactly.gap ψ (m.pairs.map (fun pair => entriesOf G pair.1 pair.2)) ≠ 0) ∧
    coefficients fractionalOne [.named "x"] = .ok [([0], .number 1)] ∧
      ((empty : SquareProgram Number).nonnegativeOn (.number 1) [.named "x"] [fractionalOne] 2
        "s").2 = .error (.notPolynomial ["x"]) := by
  refine ⟨?_, by decide +kernel, by decide +kernel⟩
  obtain ⟨base, m, stated, matched, pairs, ⟨constant, hconstant, corner⟩, linear, hlinear, beside⟩ :=
    exists_matching_nearSquareCall
  have exact : (nearSquare Number).exactly = nearSquare Rat := by decide +kernel
  refine ⟨_, base, m, Prod.ext rfl (by decide +kernel), stated, matched, ?_, fun ψ G hG => ?_⟩
  · rw [exact, eval_nearSquare]
    exact isSumOfSquares_sq ((isOver_X (by simp)).sub isOver_one)
  · by_contra! met
    have zero : entriesOf G 0 0 = 0 := by
      simpa [MatchingRow.gap, rowValue, corner, pairs] using met constant hconstant
    have offDiagonal := entriesOf_eq_zero_of_diagonal hG zero 1
    have missed := met linear hlinear
    simp [MatchingRow.gap, rowValue, beside, pairs, offDiagonal] at missed

end SquareProgram

end HybridRelaxation
