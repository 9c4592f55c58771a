import Mathlib
import HybridRelaxation.Proofs.SquareSum.Program

/-!
# Values of decisions

With a value for each decision an expression is a polynomial in its other symbols.  Fresh decisions
can be given the values that make their free polynomial any polynomial of bounded degree, without a
change to what earlier decisions say.
-/

namespace HybridRelaxation

open MvPolynomial (C X coeff)

/-! ## Solved polynomials -/

section Values

variable {A : Type*}

/-- The point at which decision symbols have the values of their positions. -/
def decided (φ : ℕ → A) (ρ : Symbol → A) : Symbol → A
  | .decision k _ => φ k
  | s => ρ s

theorem decided_of_isNamed {s : Symbol} (h : s.isNamed = true) (φ : ℕ → A) (ρ : Symbol → A) :
    decided φ ρ s = ρ s := by
  cases s with
  | named name => rfl
  | decision k label => simp [Symbol.isNamed] at h

variable [CommRing A] [Algebra ℚ A] (φ : ℕ → A)

noncomputable def solvedAt (e : Expression Rat) : MvPolynomial Symbol A :=
  e.eval (decided (fun k => C (φ k)) X)

theorem aeval_solvedAt {B : Type*} [CommRing B] [Algebra ℚ B] [Algebra A B]
    [IsScalarTower ℚ A B] (e : Expression Rat) (x : Symbol → B) :
    MvPolynomial.aeval x (solvedAt φ e) = e.eval (decided (fun k => algebraMap A B (φ k)) x) := by
  have value := Expression.map_eval
    ((MvPolynomial.aeval x : MvPolynomial Symbol A →ₐ[A] B).restrictScalars ℚ)
    (decided (fun k => C (φ k)) X) e
  refine Eq.trans value (Expression.eval_congr e (fun s _ => ?_))
  cases s with
  | named name => simp [decided]
  | decision k label => simp [decided]

theorem SquareProgram.IsRegular.eval_scopePoint_of_values {p : SquareProgram Rat}
    (hp : p.IsRegular) {e : Expression Rat} {scope : List Symbol}
    (haffine : e.eval X ∈ affineSpan scope p.decisions)
    (hscope : ∀ t ∈ scope, t.isNamed = true) {σ : Symbol → A}
    (hσ : ∀ k t, p.decisions[k]? = some t → σ t = φ k) :
    e.eval (scopePoint scope σ) = solvedAt φ e := by
  rw [solvedAt, Expression.eval_eq_aeval, Expression.eval_eq_aeval (decided _ _)]
  refine aeval_congr_of_mem_affineSpan haffine (fun t ht => ?_) (fun t ht => ?_)
  · rw [scopePoint_of_mem ht, decided_of_isNamed (hscope t ht)]
  · have free : t ∉ scope := fun hmem => hp.notMem_decisions (hscope t hmem) ht
    obtain ⟨k, hk⟩ := List.mem_iff_getElem?.mp ht
    rw [scopePoint_of_notMem free, hσ k t hk]
    obtain ⟨label, rfl⟩ := hp.decisions k t hk
    rfl

theorem SquareProgram.IsRegular.eval_scopePoint_of_affine {p : SquareProgram Rat} (hp : p.IsRegular)
    {e : Expression Rat} {scope : List Symbol} (haffine : e.eval X ∈ affineSpan scope p.decisions)
    (hscope : ∀ t ∈ scope, t.isNamed = true) (ρ : Symbol → A) :
    e.eval (scopePoint scope (decided φ ρ)) = solvedAt φ e := by
  refine hp.eval_scopePoint_of_values φ haffine hscope (fun k t hk => ?_)
  obtain ⟨label, rfl⟩ := hp.decisions k t hk
  rfl

theorem SquareProgram.IsRegular.eval_scopePoint {p : SquareProgram Rat} (hp : p.IsRegular)
    {s : SquareSum Rat} (hs : s ∈ p.statements) (ρ : Symbol → A) :
    s.polynomial.eval (scopePoint s.scope (decided φ ρ)) = solvedAt φ s.polynomial :=
  hp.eval_scopePoint_of_affine φ (hp.affine s hs) (hp.named s hs) ρ

/-- A statement depends on the decisions of its program only. -/
theorem SquareProgram.IsRegular.solvedAt_congr {p : SquareProgram Rat} (hp : p.IsRegular)
    {φ ψ : ℕ → A} (h : ∀ k < p.size, φ k = ψ k) {e : Expression Rat} {scope : List Symbol}
    (haffine : e.eval X ∈ affineSpan scope p.decisions)
    (hscope : ∀ t ∈ scope, t.isNamed = true) : solvedAt φ e = solvedAt ψ e := by
  rw [solvedAt, solvedAt, Expression.eval_eq_aeval, Expression.eval_eq_aeval (decided _ _)]
  refine aeval_congr_of_mem_affineSpan haffine (fun t ht => ?_) (fun t ht => ?_)
  · rw [decided_of_isNamed (hscope t ht), decided_of_isNamed (hscope t ht)]
  · obtain ⟨k, hk⟩ := List.mem_iff_getElem?.mp ht
    obtain ⟨label, rfl⟩ := hp.decisions k t hk
    rw [decided, decided, h k (List.getElem?_eq_some_iff.mp hk).1]

theorem SquareProgram.IsRegular.solvedAt_statement {p : SquareProgram Rat} (hp : p.IsRegular)
    {φ ψ : ℕ → A} (h : ∀ k < p.size, φ k = ψ k) {s : SquareSum Rat} (hs : s ∈ p.statements) :
    solvedAt φ s.polynomial = solvedAt ψ s.polynomial :=
  hp.solvedAt_congr h (hp.affine s hs) (hp.named s hs)

end Values

/-! ## Polynomials of bounded degree -/

section Degree

variable {A : Type*} [CommRing A] {scope : List Symbol} {degree : ℤ}

/-- Every monomial is one of the scope, of bounded degree. -/
def IsOfDegree (scope : List Symbol) (degree : ℤ) (q : MvPolynomial Symbol A) : Prop :=
  ∀ n, coeff n q ≠ 0 → ∃ v ∈ exponents scope.length degree 0, monomialPowers scope v = n

theorem isOfDegree_zero : IsOfDegree scope degree (0 : MvPolynomial Symbol A) := by
  intro n hn
  simp at hn

theorem isOfDegree_monomial {v : Exponents} (hv : v ∈ exponents scope.length degree 0) (a : A) :
    IsOfDegree scope degree (MvPolynomial.monomial (monomialPowers scope v) a) := by
  classical
  intro n hn
  rw [MvPolynomial.coeff_monomial] at hn
  by_cases h : monomialPowers scope v = n
  · exact ⟨v, hv, h⟩
  · simp [h] at hn

theorem IsOfDegree.add {p q : MvPolynomial Symbol A} (hp : IsOfDegree scope degree p)
    (hq : IsOfDegree scope degree q) : IsOfDegree scope degree (p + q) := by
  intro n hn
  rw [MvPolynomial.coeff_add] at hn
  by_cases h : coeff n p = 0
  · exact hq n (by simpa [h] using hn)
  · exact hp n h

theorem isOfDegree_sum {qs : List (MvPolynomial Symbol A)}
    (h : ∀ q ∈ qs, IsOfDegree scope degree q) : IsOfDegree scope degree qs.sum := by
  induction qs with
  | nil => exact isOfDegree_zero
  | cons q qs ih =>
      rw [List.sum_cons]
      exact (h q (by simp)).add (ih (fun r hr => h r (by simp [hr])))

theorem IsOfDegree.mono {more : ℤ} (h : degree ≤ more) {q : MvPolynomial Symbol A}
    (hq : IsOfDegree scope degree q) : IsOfDegree scope more q := by
  intro n hn
  obtain ⟨v, hv, rfl⟩ := hq n hn
  obtain ⟨natural, least, bound⟩ := Exponents.mem_exponents.mp hv
  exact ⟨v, Exponents.mem_exponents.mpr ⟨natural, least, bound.trans h⟩, rfl⟩

theorem IsOfDegree.eq_sum (hscope : scope.Nodup) {q : MvPolynomial Symbol A}
    (hq : IsOfDegree scope degree q) :
    q = ((exponents scope.length degree 0).map (fun v =>
      MvPolynomial.monomial (monomialPowers scope v) (coeff (monomialPowers scope v) q))).sum := by
  classical
  have injective {v w : Exponents} (hv : v ∈ exponents scope.length degree 0)
      (hw : w ∈ exponents scope.length degree 0)
      (h : monomialPowers scope v = monomialPowers scope w) : v = w :=
    monomialPowers_injective hscope (Exponents.mem_exponents.mp hv).1
      (Exponents.mem_exponents.mp hw).1 h
  ext n
  rw [← List.sum_toFinset _ (Exponents.nodup_exponents _ _ _), MvPolynomial.coeff_sum]
  simp only [MvPolynomial.coeff_monomial]
  by_cases hn : coeff n q = 0
  · rw [hn]
    refine (Finset.sum_eq_zero (fun v _ => ?_)).symm
    split
    · next h => rw [h, hn]
    · rfl
  · obtain ⟨v, hv, rfl⟩ := hq n hn
    rw [Finset.sum_eq_single v]
    · simp
    · intro w hw hne
      exact if_neg (fun h => hne (injective (List.mem_toFinset.mp hw) hv h))
    · intro h
      exact absurd (List.mem_toFinset.mpr hv) h

end Degree

/-! ## Free polynomials -/

section

variable {A : Type*} [CommRing A] [Algebra ℚ A] {scope : List Symbol}
  (hnamed : ∀ t ∈ scope, t.isNamed = true)

include hnamed

theorem solvedAt_combination (φ : ℕ → A) (degree : ℤ) (symbols : List Symbol) :
    solvedAt φ (SquareProgram.combination symbols (monomials scope degree 0)) =
      (List.zipWith (fun s v => decided (fun k => C (φ k)) X s *
        MvPolynomial.monomial (monomialPowers scope v) 1) symbols
          (exponents scope.length degree 0)).sum := by
  rw [solvedAt, (SquareProgram.combination_monomials_spec _ scope degree symbols).2]
  congr 2
  funext s v
  rw [← monomialValue_X, monomialValue_congr (fun t ht => decided_of_isNamed (hnamed t ht) _ _)]

theorem isOfDegree_combination (φ : ℕ → A) (degree : ℤ) {symbols : List Symbol}
    (hsymbols : ∀ s ∈ symbols, s.isNamed = false) :
    IsOfDegree scope degree
      (solvedAt φ (SquareProgram.combination symbols (monomials scope degree 0))) := by
  rw [solvedAt_combination hnamed]
  refine isOfDegree_sum (fun q hq => ?_)
  obtain ⟨k, hk, rfl⟩ := List.mem_iff_getElem.mp hq
  have bound : k < symbols.length := by
    rw [List.length_zipWith] at hk
    omega
  have unnamed := hsymbols _ (List.getElem_mem bound)
  rw [List.getElem_zipWith]
  cases hs : symbols[k] with
  | named name =>
      rw [hs] at unnamed
      simp [Symbol.isNamed] at unnamed
  | decision position label =>
      rw [decided, MvPolynomial.C_mul_monomial]
      exact isOfDegree_monomial (List.getElem_mem _) _

theorem coeff_combination (hscope : scope.Nodup) (φ : ℕ → A) (degree : ℤ) (name : String)
    (start : ℕ) {i : ℕ} (hi : i < (exponents scope.length degree 0).length) :
    coeff (monomialPowers scope (exponents scope.length degree 0)[i])
      (solvedAt φ (SquareProgram.combination (SquareProgram.freshDecisions name start
        (monomials (K := Rat) scope degree 0).length) (monomials scope degree 0))) =
      φ (start + i) := by
  classical
  have count : (monomials (K := Rat) scope degree 0).length =
      (exponents scope.length degree 0).length := List.length_map _
  have terms : List.zipWith (fun s v => decided (fun k => C (φ k)) X s *
        MvPolynomial.monomial (monomialPowers scope v) 1)
        (SquareProgram.freshDecisions name start (exponents scope.length degree 0).length)
        (exponents scope.length degree 0) =
      List.ofFn (fun j : Fin (exponents scope.length degree 0).length =>
        MvPolynomial.monomial (monomialPowers scope (exponents scope.length degree 0)[j])
          (φ (start + j))) := by
    refine List.ext_getElem (by simp [SquareProgram.freshDecisions]) (fun k _ _ => ?_)
    simp [SquareProgram.freshDecisions, decided, MvPolynomial.C_mul_monomial]
  rw [solvedAt_combination hnamed, count, terms, List.sum_ofFn, MvPolynomial.coeff_sum]
  simp only [MvPolynomial.coeff_monomial]
  refine (Finset.sum_eq_single ⟨i, hi⟩ (fun j _ hj => if_neg (fun same => hj ?_))
    (by simp)).trans (if_pos rfl)
  have natural (k : ℕ) (hk : k < (exponents scope.length degree 0).length) :
      (exponents scope.length degree 0)[k].IsNatural scope.length :=
    (Exponents.mem_exponents.mp (List.getElem_mem hk)).1
  have equal := monomialPowers_injective hscope (natural j j.isLt) (natural i hi) same
  exact Fin.ext ((Exponents.nodup_exponents _ _ _).getElem_inj_iff.mp equal)

theorem values_eq_of_combination (hscope : scope.Nodup) {φ ψ : ℕ → A} {degree : ℤ} {name : String}
    {start : ℕ} (h : solvedAt φ (SquareProgram.combination (SquareProgram.freshDecisions name start
        (monomials (K := Rat) scope degree 0).length) (monomials scope degree 0)) =
      solvedAt ψ (SquareProgram.combination (SquareProgram.freshDecisions name start
        (monomials (K := Rat) scope degree 0).length) (monomials scope degree 0))) {k : ℕ}
    (hstart : start ≤ k) (hstop : k < start + (monomials (K := Rat) scope degree 0).length) :
    φ k = ψ k := by
  obtain ⟨i, rfl⟩ := Nat.exists_eq_add_of_le hstart
  have count : (monomials (K := Rat) scope degree 0).length =
      (exponents scope.length degree 0).length := List.length_map _
  have hi : i < (exponents scope.length degree 0).length := by omega
  rw [← coeff_combination hnamed hscope φ degree name start hi, h,
    coeff_combination hnamed hscope ψ degree name start hi]

theorem exists_values (hscope : scope.Nodup) {degree : ℤ} {q : MvPolynomial Symbol A}
    (hq : IsOfDegree scope degree q) (ψ : ℕ → A) (name : String) (start : ℕ) :
    ∃ ψ' : ℕ → A, (∀ k < start, ψ' k = ψ k) ∧
      solvedAt ψ' (SquareProgram.combination (SquareProgram.freshDecisions name start
        (monomials (K := Rat) scope degree 0).length) (monomials scope degree 0)) = q := by
  have count : (monomials (K := Rat) scope degree 0).length =
      (exponents scope.length degree 0).length := List.length_map _
  refine ⟨fun k => if k < start then ψ k else
    coeff (monomialPowers scope ((exponents scope.length degree 0).getD (k - start) [])) q,
    fun k hk => if_pos hk, ?_⟩
  rw [solvedAt_combination hnamed, count]
  conv_rhs => rw [hq.eq_sum hscope]
  congr 1
  refine List.ext_getElem (by simp [SquareProgram.freshDecisions]) (fun k hk hk' => ?_)
  rw [List.length_map] at hk'
  simp only [SquareProgram.freshDecisions, List.getElem_zipWith, List.getElem_map,
    List.getElem_range, decided]
  rw [MvPolynomial.C_mul_monomial, mul_one, if_neg (by omega), Nat.add_sub_cancel_left,
    List.getD_eq_getElem _ _ hk']

end

end HybridRelaxation
