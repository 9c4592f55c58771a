import Mathlib
import HybridRelaxation.Proofs.Polynomial.Collecting
import HybridRelaxation.Proofs.Polynomial.Enumeration
import HybridRelaxation.Proofs.SquareSum.Completeness

/-!
# Degrees of registered statements

The coefficients of multipliers are new decisions, so nothing cancels when the multiples of the
inequalities are taken away from a polynomial.  The base has exactly the monomials of the polynomial
and of the multiples.  Over at least one variable each multiple has the degree of its multiplier and
its inequality together.
-/

namespace HybridRelaxation

open MvPolynomial (X coeff)

/-! ## Monomials that occur -/

section Occurrences

variable {K : Type} [Scalar K] {scope : List Symbol} {e : Expression K}

/-- The expression has a coefficient at the vector. -/
def Occurs (scope : List Symbol) (v : Exponents) (e : Expression K) : Prop :=
  ∃ m, coefficients e scope = .ok m ∧ v ∈ m.map Prod.fst

theorem Occurs.isNatural (hscope : scope.Nodup) {v : Exponents} (h : Occurs scope v e) :
    v.IsNatural scope.length := by
  obtain ⟨m, hm, hv⟩ := h
  exact (collects_of_coefficients hscope hm).natural v hv

theorem exists_eq_foldl_max (a : ℤ) (xs : List ℤ) : ∃ x ∈ a :: xs, xs.foldl max a = x := by
  induction xs generalizing a with
  | nil => exact ⟨a, by simp, rfl⟩
  | cons b xs ih =>
      obtain ⟨x, hx, heq⟩ := ih (max a b)
      refine ⟨x, ?_, heq⟩
      rcases List.mem_cons.mp hx with rfl | hx
      · rcases max_choice a b with h | h <;> simp [h]
      · simp [hx]

theorem totalDegree_spec {d : ℤ} (h : totalDegree e scope = .ok d) :
    (∀ v, Occurs scope v e → totalDegreeOf v ≤ d) ∧
      ((∃ v, Occurs scope v e ∧ totalDegreeOf v = d) ∨ d = 0 ∧ ∀ v, ¬ Occurs scope v e) := by
  obtain ⟨m, hm, hd⟩ := bind_eq_ok.mp h
  obtain rfl := Except.ok.inj hd
  have listed {v : Exponents} (hv : Occurs scope v e) : v ∈ m.map Prod.fst := by
    obtain ⟨m', hm', hv⟩ := hv
    rwa [Except.ok.inj (hm.symm.trans hm')]
  constructor
  · intro v hv
    obtain ⟨t, ht, rfl⟩ := List.mem_map.mp (listed hv)
    exact CoefficientMap.totalDegreeOf_le ht
  · cases m with
    | nil => exact .inr ⟨rfl, fun v hv => by simpa using listed hv⟩
    | cons t m =>
        obtain ⟨d, hd, heq⟩ := exists_eq_foldl_max (totalDegreeOf t.1)
          (m.map (fun u => totalDegreeOf u.1))
        rw [← List.map_cons (f := fun u : Exponents × Expression K => totalDegreeOf u.1)] at hd
        obtain ⟨u, hu, rfl⟩ := List.mem_map.mp hd
        exact .inl ⟨u.1, ⟨_, hm, List.mem_map_of_mem hu⟩, by
          rw [CoefficientMap.totalDegree_cons, heq]⟩

theorem totalDegree_nonneg (hscope : scope.Nodup) {d : ℤ} (h : totalDegree e scope = .ok d) :
    0 ≤ d := by
  obtain ⟨m, hm, hd⟩ := bind_eq_ok.mp h
  obtain rfl := Except.ok.inj hd
  exact CoefficientMap.totalDegree_nonneg (collects_of_coefficients hscope hm).natural

theorem totalDegree_eq_of_occurs (hscope : scope.Nodup) {m : CoefficientMap K}
    (hm : coefficients e scope = .ok m) {A : Type*} [CommRing A] {P : MvPolynomial Symbol A}
    (hP : IsOver scope P) (hoccurs : ∀ v : Exponents, v.IsNatural scope.length →
      (Occurs scope v e ↔ coeff (monomialPowers scope v) P ≠ 0)) :
    totalDegree e scope = .ok (P.totalDegree : ℤ) := by
  have degree : totalDegree e scope = .ok m.totalDegree := by
    rw [totalDegree, hm]
    rfl
  obtain ⟨bound, attained⟩ := totalDegree_spec degree
  rw [degree]
  congr 1
  refine le_antisymm ?_ ?_
  · rcases attained with ⟨v, hv, heq⟩ | ⟨hzero, -⟩
    · have natural := hv.isNatural hscope
      have value := (hoccurs v natural).mp hv
      rw [← heq, ← degree_monomialPowers natural]
      exact_mod_cast degree_le_of_mem_support le_rfl (MvPolynomial.mem_support_iff.mpr value)
    · rw [hzero]
      exact Int.natCast_nonneg _
  · have natural := Int.toNat_of_nonneg (totalDegree_nonneg hscope degree)
    rw [← natural, Nat.cast_le]
    refine Finset.sup_le (fun n hn => ?_)
    have value := MvPolynomial.mem_support_iff.mp hn
    obtain ⟨v, hv, rfl⟩ := hP n value
    have bounded := bound v ((hoccurs v hv).mpr value)
    change (monomialPowers scope v).degree ≤ _
    have size := degree_monomialPowers hv
    omega

end Occurrences

/-! ## Values show what occurs -/

section Values

variable {q : SquareProgram Rat} {scope : List Symbol} {e : Expression Rat} (hq : q.IsRegular)
  (hscope : scope.Nodup) (hnamed : ∀ t ∈ scope, t.isNamed = true) (he : e.IsPolynomial)
  (haffine : e.eval X ∈ affineSpan scope q.decisions)

include hq hscope hnamed he haffine

theorem occurs_of_coeff_ne_zero {A : Type} [CommRing A] [Algebra ℚ A] (ψ : ℕ → A) {v : Exponents}
    (hv : v.IsNatural scope.length) (h : coeff (monomialPowers scope v) (solvedAt ψ e) ≠ 0) :
    Occurs scope v e := by
  obtain ⟨m, hm, -⟩ := exists_coefficients.{0} he scope
  refine ⟨m, hm, ?_⟩
  by_contra absent
  rw [← hq.eval_scopePoint_of_affine ψ haffine hnamed (fun _ => 0),
    coeff_of_coefficients _ he hscope hm hv, CoefficientMap.coefficientAt_of_notMem absent] at h
  simp at h

/-- At generic values all that occurs has a coefficient. -/
theorem coeff_generic_ne_zero {v : Exponents} (h : Occurs scope v e) :
    coeff (monomialPowers scope v) (solvedAt q.generic e) ≠ 0 := by
  obtain ⟨m, hm, regular, nonzero, -⟩ := exists_coefficients.{0} he scope
  obtain ⟨m', hm', hv⟩ := h
  obtain rfl := Except.ok.inj (hm.symm.trans hm')
  obtain ⟨t, ht, rfl⟩ := List.mem_map.mp hv
  rw [← hq.eval_scopePoint_of_values q.generic haffine hnamed (σ := X)
      (fun k u hk => by rw [SquareProgram.generic, hk]; rfl),
    coeff_of_coefficients X he hscope hm (regular.vectors t ht),
    CoefficientMap.coefficientAt_of_mem regular (c := t.2) ht, Ne,
    Expression.IsCanonical.eval_X_eq_zero (regular.canonical t ht)]
  exact nonzero t ht

omit hscope in
theorem isOver_solvedAt {A : Type} [CommRing A] [Algebra ℚ A] (ψ : ℕ → A) :
    IsOver scope (solvedAt ψ e) := by
  obtain ⟨m, hm, -⟩ := exists_coefficients.{0} he scope
  rw [← hq.eval_scopePoint_of_affine ψ haffine hnamed (fun _ => 0)]
  exact isOver_of_coefficients _ he hm

theorem totalDegree_eq_generic :
    totalDegree e scope = .ok ((solvedAt q.generic e).totalDegree : ℤ) := by
  obtain ⟨m, hm, -⟩ := exists_coefficients.{0} he scope
  exact totalDegree_eq_of_occurs hscope hm (isOver_solvedAt hq hnamed he haffine q.generic)
    (fun v hv => ⟨coeff_generic_ne_zero hq hscope hnamed he haffine,
      occurs_of_coeff_ne_zero hq hscope hnamed he haffine q.generic hv⟩)

end Values

namespace SquareProgram

/-! ## Single shares -/

section Shares

variable {A : Type} [CommRing A] [Algebra ℚ A] {scope : List Symbol} {degree : ℤ}

theorem exists_zeroShares (scope : List Symbol) (degree : ℤ) (constraints : List (Expression Rat)) :
    ∃ shares : List (MvPolynomial Symbol A),
      List.Forall₂ (IsShare scope degree) constraints shares ∧
        weightedShares shares constraints = 0 := by
  induction constraints with
  | nil => exact ⟨[], .nil, rfl⟩
  | cons g constraints ih =>
      obtain ⟨shares, hshares, total⟩ := ih
      refine ⟨0 :: shares, .cons (fun _ _ => isOfDegree_zero) hshares, ?_⟩
      rw [weightedShares] at total ⊢
      simp [total]

theorem exists_singleShare {constraints : List (Expression Rat)} {k : ℕ} {g : Expression Rat}
    (hk : constraints[k]? = some g) {share : MvPolynomial Symbol A}
    (hshare : IsShare scope degree g share) : ∃ shares : List (MvPolynomial Symbol A),
      List.Forall₂ (IsShare scope degree) constraints shares ∧ shares[k]? = some share ∧
        weightedShares shares constraints = share * g.eval X := by
  induction constraints generalizing k with
  | nil => simp at hk
  | cons f constraints ih =>
      cases k with
      | zero =>
          obtain rfl : f = g := by simpa using hk
          obtain ⟨shares, hshares, total⟩ := exists_zeroShares (A := A) scope degree constraints
          refine ⟨share :: shares, .cons hshare hshares, rfl, ?_⟩
          rw [weightedShares] at total ⊢
          simp [total]
      | succ k =>
          obtain ⟨shares, hshares, found, total⟩ := ih (by simpa using hk)
          refine ⟨0 :: shares, .cons (fun _ _ => isOfDegree_zero) hshares, by simpa using found, ?_⟩
          rw [weightedShares] at total ⊢
          simpa using total

end Shares

/-! ## Nothing cancels -/

/-- A program with a certificate whose multipliers can be chosen freely, and the program before. -/
structure IsRegistered (p q : SquareProgram Rat) (e : Expression Rat) (scope : List Symbol)
    (constraints : List (Expression Rat)) (degree : ℤ) (c : Certificate) : Prop where
  before : p.IsRegular
  after : q.IsRegular
  growth : p.Extends q
  polynomial : e.IsPolynomial
  affine : e.eval X ∈ affineSpan scope p.decisions
  distinct : scope.Nodup
  named : ∀ t ∈ scope, t.isNamed = true
  within : ∀ g ∈ constraints, g.IsPolynomial ∧ g.eval X ∈ scopePolynomials scope
  certifies : q.Certifies e scope constraints degree c
  assigns : Assigns p.size scope constraints degree c.multipliers

namespace IsRegistered

variable {p q : SquareProgram Rat} {e : Expression Rat} {scope : List Symbol}
  {constraints : List (Expression Rat)} {degree : ℤ} {c : Certificate}
  (h : p.IsRegistered q e scope constraints degree c)

include h

theorem base_regular : c.base.IsRegular := h.after.statements _ h.certifies.base_mem

theorem base_affine : c.base.polynomial.eval X ∈ affineSpan scope q.decisions :=
  h.certifies.base_scope ▸ h.after.affine _ h.certifies.base_mem

variable {A : Type} [CommRing A] [Algebra ℚ A]

theorem solvedAt_constraint {g : Expression Rat} (hg : g ∈ constraints) (ψ : ℕ → A) :
    solvedAt ψ g = g.eval X := solvedAt_of_mem h.named (h.within g hg).2 ψ

theorem solvedAt_base {ψ : ℕ → A} {shares : List (MvPolynomial Symbol A)}
    (hshares : List.Forall₂ (fun s share => solvedAt ψ s.polynomial = share) c.multipliers
      shares) :
    solvedAt ψ c.base.polynomial = solvedAt ψ e - weightedShares shares constraints :=
  h.certifies.solvedAt_base hshares (fun _ hg => h.solvedAt_constraint hg ψ)

theorem exists_base (ψ : ℕ → A) {shares : List (MvPolynomial Symbol A)}
    (hshares : List.Forall₂ (IsShare scope degree) constraints shares) :
    ∃ ψ' : ℕ → A, solvedAt ψ' c.base.polynomial =
      solvedAt ψ e - weightedShares shares constraints := by
  obtain ⟨ψ', agree, values⟩ := h.assigns ψ shares hshares
  exact ⟨ψ', by rw [h.solvedAt_base values, h.before.solvedAt_congr agree h.affine h.named]⟩

theorem occurs_base (ψ : ℕ → A) {v : Exponents} (hv : v.IsNatural scope.length)
    (hvalue : coeff (monomialPowers scope v) (solvedAt ψ c.base.polynomial) ≠ 0) :
    Occurs scope v c.base.polynomial :=
  occurs_of_coeff_ne_zero h.after h.distinct h.named h.base_regular.polynomial h.base_affine ψ hv
    hvalue

theorem occurs_base_of_occurs {v : Exponents} (hv : Occurs scope v e) :
    Occurs scope v c.base.polynomial := by
  obtain ⟨shares, hshares, total⟩ :=
    exists_zeroShares (A := MvPolynomial Symbol ℚ) scope degree constraints
  obtain ⟨ψ, hψ⟩ := h.exists_base p.generic hshares
  refine h.occurs_base ψ (hv.isNatural h.distinct) ?_
  rw [hψ, total, sub_zero]
  exact coeff_generic_ne_zero h.before h.distinct h.named h.polynomial h.affine hv

section Products

variable {k : ℕ} {s : SquareSum Rat} {g : Expression Rat} (hs : c.multipliers[k]? = some s)
  (hg : constraints[k]? = some g)

include hs hg

theorem isMultiplier : q.IsMultiplier scope degree s g := related_at h.certifies.weights hs hg

theorem isPolynomial_multiplier : s.polynomial.IsPolynomial :=
  (h.after.statements s (h.isMultiplier hs hg).mem).polynomial

theorem isPolynomial_product : (s.polynomial * g).IsPolynomial :=
  Expression.isPolynomial_mul (h.isPolynomial_multiplier hs hg)
    (h.within g (List.mem_of_getElem? hg)).1

theorem multiplier_affine : s.polynomial.eval X ∈ affineSpan scope q.decisions := by
  have multiplier := h.isMultiplier hs hg
  exact multiplier.scope_eq ▸ h.after.affine s multiplier.mem

theorem product_affine : (s.polynomial * g).eval X ∈ affineSpan scope q.decisions := by
  obtain ⟨polynomial, within⟩ := h.within g (List.mem_of_getElem? hg)
  rw [Expression.eval_mul X (h.isPolynomial_multiplier hs hg) polynomial, mul_comm]
  exact mul_mem_affineSpan within (h.multiplier_affine hs hg)

theorem solvedAt_product (ψ : ℕ → A) :
    solvedAt ψ (s.polynomial * g) = solvedAt ψ s.polynomial * g.eval X := by
  have constraint := h.solvedAt_constraint (List.mem_of_getElem? hg) ψ
  rw [← constraint, solvedAt, Expression.eval_mul _ (h.isPolynomial_multiplier hs hg)
    (h.within g (List.mem_of_getElem? hg)).1]
  rfl

theorem isShare_multiplier (ψ : ℕ → A) : IsShare scope degree g (solvedAt ψ s.polynomial) := by
  intro d hd
  obtain ⟨d', symbols, hd', -, hsymbols, hpolynomial⟩ := (h.isMultiplier hs hg).shape
  obtain rfl := Except.ok.inj (hd'.symm.trans hd)
  rw [hpolynomial]
  exact isOfDegree_combination h.named ψ _ (fun t ht => h.after.isNamed_of_mem (hsymbols t ht))

theorem occurs_base_of_product {v : Exponents} (hv : Occurs scope v (s.polynomial * g)) :
    Occurs scope v c.base.polynomial := by
  classical
  have natural := hv.isNatural h.distinct
  have value := coeff_generic_ne_zero h.after h.distinct h.named (h.isPolynomial_product hs hg)
    (h.product_affine hs hg) hv
  rw [h.solvedAt_product hs hg] at value
  obtain ⟨a, ha, b, hb, sum⟩ := Finset.mem_add.mp
    (MvPolynomial.support_mul _ _ (MvPolynomial.mem_support_iff.mpr value))
  -- The monomial of the multiplier is the whole multiplier once, and is missing the other time.
  have share : IsShare scope degree g (MvPolynomial.monomial a (1 : MvPolynomial Symbol ℚ)) := by
    intro d hd
    obtain ⟨w, hw, rfl⟩ := h.isShare_multiplier hs hg q.generic d hd a
      (MvPolynomial.mem_support_iff.mp ha)
    exact isOfDegree_monomial hw 1
  obtain ⟨single, hsingle, -, total⟩ := exists_singleShare hg share
  obtain ⟨none, hnone, total'⟩ :=
    exists_zeroShares (A := MvPolynomial Symbol ℚ) scope degree constraints
  obtain ⟨ψ, hψ⟩ := h.exists_base p.generic hsingle
  obtain ⟨ψ', hψ'⟩ := h.exists_base p.generic hnone
  by_contra absent
  have vanishes (ψ : ℕ → MvPolynomial Symbol ℚ) :
      coeff (monomialPowers scope v) (solvedAt ψ c.base.polynomial) = 0 := by
    by_contra hvalue
    exact absent (h.occurs_base ψ natural hvalue)
  have difference : coeff (monomialPowers scope v)
      (MvPolynomial.monomial a (1 : MvPolynomial Symbol ℚ) * g.eval X) = 0 := by
    have cancelled : MvPolynomial.monomial a (1 : MvPolynomial Symbol ℚ) * g.eval X =
        solvedAt ψ' c.base.polynomial - solvedAt ψ c.base.polynomial := by
      rw [hψ, hψ', total, total']
      ring
    rw [cancelled, MvPolynomial.coeff_sub, vanishes, vanishes, sub_zero]
  rw [← sum, MvPolynomial.coeff_monomial_mul, one_mul] at difference
  exact MvPolynomial.mem_support_iff.mp hb difference

/-! ## Degrees of multiples -/

variable {d : ℤ} (hd : totalDegree g scope = .ok d)

include hd

theorem occurs_multiplier {v : Exponents}
    (hv : v ∈ exponents scope.length (2 * multiplierHalf degree d) 0) :
    Occurs scope v s.polynomial := by
  have share : IsShare scope degree g
      (MvPolynomial.monomial (monomialPowers scope v) (1 : ℚ)) := by
    intro d' hd'
    obtain rfl := Except.ok.inj (hd.symm.trans hd')
    exact isOfDegree_monomial hv 1
  obtain ⟨shares, hshares, found, -⟩ := exists_singleShare hg share
  obtain ⟨ψ, -, values⟩ := h.assigns (fun _ => 0) shares hshares
  refine occurs_of_coeff_ne_zero h.after h.distinct h.named (h.isPolynomial_multiplier hs hg)
    (h.multiplier_affine hs hg) ψ (Exponents.mem_exponents.mp hv).1 ?_
  rw [related_at values hs found, MvPolynomial.coeff_monomial, if_pos rfl]
  exact one_ne_zero

theorem totalDegree_multiplier (hne : scope ≠ []) :
    totalDegree s.polynomial scope = .ok (2 * multiplierHalf degree d) := by
  have nonneg : 0 ≤ 2 * multiplierHalf degree d := by
    unfold multiplierHalf
    omega
  have generic := totalDegree_eq_generic h.after h.distinct h.named
    (h.isPolynomial_multiplier hs hg) (h.multiplier_affine hs hg)
  obtain ⟨bound, attained⟩ := totalDegree_spec generic
  rw [generic]
  congr 1
  refine le_antisymm ?_ ?_
  · rcases attained with ⟨v, hv, heq⟩ | ⟨hzero, -⟩
    · have value := coeff_generic_ne_zero h.after h.distinct h.named
        (h.isPolynomial_multiplier hs hg) (h.multiplier_affine hs hg) hv
      obtain ⟨w, hw, same⟩ := h.isShare_multiplier hs hg q.generic d hd _ value
      obtain ⟨natural, -, least⟩ := Exponents.mem_exponents.mp hw
      obtain rfl := monomialPowers_injective h.distinct natural (hv.isNatural h.distinct) same
      exact heq ▸ least
    · exact hzero.trans_le nonneg
  · obtain ⟨v, natural, heq⟩ := Exponents.exists_totalDegreeOf_eq
      (List.length_eq_zero_iff.not.mpr hne) nonneg
    have listed : v ∈ exponents scope.length (2 * multiplierHalf degree d) 0 :=
      Exponents.mem_exponents.mpr ⟨natural, natural.totalDegreeOf_nonneg, heq.le⟩
    exact heq ▸ bound v (h.occurs_multiplier hs hg hd listed)

theorem totalDegree_product (hne : scope ≠ []) (hnonzero : (g.eval X : MvPolynomial Symbol ℚ) ≠ 0) :
    totalDegree (s.polynomial * g) scope = .ok (2 * multiplierHalf degree d + d) := by
  obtain ⟨polynomial, within⟩ := h.within g (List.mem_of_getElem? hg)
  have first := totalDegree_eq_generic h.after h.distinct h.named
    (h.isPolynomial_multiplier hs hg) (h.multiplier_affine hs hg)
  have second := totalDegree_eq_generic h.after h.distinct h.named polynomial
    (mem_affineSpan_of_mem within)
  have product := totalDegree_eq_generic h.after h.distinct h.named
    (h.isPolynomial_product hs hg) (h.product_affine hs hg)
  rw [h.totalDegree_multiplier hs hg hd hne, Except.ok.injEq] at first
  rw [hd, h.solvedAt_constraint (List.mem_of_getElem? hg), Except.ok.injEq] at second
  have multiplier : solvedAt q.generic s.polynomial ≠ 0 := by
    have constant : List.replicate scope.length 0 ∈
        exponents scope.length (2 * multiplierHalf degree d) 0 :=
      Exponents.replicate_mem_exponents _ (by unfold multiplierHalf; omega)
    intro hzero
    have value := coeff_generic_ne_zero h.after h.distinct h.named
      (h.isPolynomial_multiplier hs hg) (h.multiplier_affine hs hg)
      (h.occurs_multiplier hs hg hd constant)
    simp [hzero] at value
  have extended : MvPolynomial.map (algebraMap ℚ (MvPolynomial Symbol ℚ)) (g.eval X) =
      g.eval X := by
    rw [← aeval_scopePoint (fun _ => 0) within]
    exact (aeval_congr_of_mem within (fun t ht => scopePoint_of_mem ht _)).trans
      (Expression.eval_eq_aeval X g).symm
  have inequality : (g.eval X : MvPolynomial Symbol (MvPolynomial Symbol ℚ)) ≠ 0 := by
    rw [← extended, Ne, map_eq_zero_iff _ (MvPolynomial.map_injective _
      (algebraMap ℚ (MvPolynomial Symbol ℚ)).injective)]
    exact hnonzero
  rw [product, h.solvedAt_product hs hg,
    MvPolynomial.totalDegree_mul_of_isDomain multiplier inequality, first, second]
  push_cast
  rfl

end Products

/-! ## The base -/

/-- The base has the monomials of the polynomial and of all multiples, and no others. -/
theorem occurs_base_iff {v : Exponents} : Occurs scope v c.base.polynomial ↔
    Occurs scope v e ∨ ∃ s g, (s, g) ∈ c.multipliers.zip constraints ∧
      Occurs scope v (s.polynomial * g) := by
  constructor
  · intro hv
    have natural := hv.isNatural h.distinct
    have value := coeff_generic_ne_zero h.after h.distinct h.named h.base_regular.polynomial
      h.base_affine hv
    rw [h.solvedAt_base (List.forall₂_map_right_iff.mpr (List.forall₂_same.mpr (fun _ _ => rfl))),
      MvPolynomial.coeff_sub] at value
    by_cases first : coeff (monomialPowers scope v) (solvedAt q.generic e) = 0
    · rw [first, zero_sub, neg_ne_zero, weightedShares,
        ← MvPolynomial.lcoeff_apply (R := MvPolynomial Symbol ℚ), map_list_sum] at value
      obtain ⟨a, ha, nonzero⟩ := List.exists_mem_ne_zero_of_sum_ne_zero value
      obtain ⟨f, hf, rfl⟩ := List.mem_map.mp ha
      obtain ⟨k, hk⟩ := List.mem_iff_getElem?.mp hf
      obtain ⟨share, g, hshare, hg, rfl⟩ := List.getElem?_zipWith_eq_some.mp hk
      rw [List.getElem?_map, Option.map_eq_some_iff] at hshare
      obtain ⟨s, hs, rfl⟩ := hshare
      refine .inr ⟨s, g, List.mem_of_getElem? (List.getElem?_zip_eq_some.mpr ⟨hs, hg⟩),
        occurs_of_coeff_ne_zero h.after h.distinct h.named (h.isPolynomial_product hs hg)
          (h.product_affine hs hg) q.generic natural ?_⟩
      rwa [h.solvedAt_product hs hg]
    · exact .inl (occurs_of_coeff_ne_zero h.after h.distinct h.named h.polynomial
        (affineSpan_mono (fun _ ht => h.growth.decisions.subset ht) h.affine) q.generic natural
        first)
  · rintro (hv | ⟨s, g, hmem, hv⟩)
    · exact h.occurs_base_of_occurs hv
    · obtain ⟨k, hk⟩ := List.mem_iff_getElem?.mp hmem
      obtain ⟨hs, hg⟩ := List.getElem?_zip_eq_some.mp hk
      exact h.occurs_base_of_product hs hg hv

theorem totalDegree_base : ∃ d₀ D : ℤ, totalDegree e scope = .ok d₀ ∧
    totalDegree c.base.polynomial scope = .ok D ∧
    c.base.basis = exponents scope.length (halfDegree D) 0 := by
  have growth : e.eval X ∈ affineSpan scope q.decisions :=
    affineSpan_mono (fun _ ht => h.growth.decisions.subset ht) h.affine
  have coefficients := h.base_regular.coefficients
  rw [h.certifies.base_scope] at coefficients
  refine ⟨_, c.base.coefficients.totalDegree,
    totalDegree_eq_generic h.after h.distinct h.named h.polynomial growth, ?_,
    h.certifies.base_basis⟩
  rw [totalDegree, coefficients, ok_bind]

theorem product_le_base (hne : scope ≠ []) {D d : ℤ}
    (hD : totalDegree c.base.polynomial scope = .ok D) {k : ℕ} {s : SquareSum Rat}
    {g : Expression Rat} (hs : c.multipliers[k]? = some s) (hg : constraints[k]? = some g)
    (hd : totalDegree g scope = .ok d) (hnonzero : (g.eval X : MvPolynomial Symbol ℚ) ≠ 0) :
    2 * multiplierHalf degree d + d ≤ D := by
  rcases (totalDegree_spec (h.totalDegree_product hs hg hd hne hnonzero)).2 with
    ⟨v, hv, heq⟩ | ⟨hzero, -⟩
  · exact heq ▸ (totalDegree_spec hD).1 v (h.occurs_base_of_product hs hg hv)
  · exact hzero.trans_le (totalDegree_nonneg h.distinct hD)

theorem isGreatest_base (hne : scope ≠ []) {d₀ D : ℤ} (hd₀ : totalDegree e scope = .ok d₀)
    (hD : totalDegree c.base.polynomial scope = .ok D) :
    IsGreatest (insert d₀ {d' | ∃ g ∈ constraints, (g.eval X : MvPolynomial Symbol ℚ) ≠ 0 ∧
      ∃ d, totalDegree g scope = .ok d ∧ d' = 2 * multiplierHalf degree d + d}) D := by
  obtain ⟨bound, attained⟩ := totalDegree_spec hD
  obtain ⟨bound₀, attained₀⟩ := totalDegree_spec hd₀
  have first : d₀ ≤ D := by
    rcases attained₀ with ⟨v, hv, rfl⟩ | ⟨rfl, -⟩
    · exact bound v (h.occurs_base_iff.mpr (.inl hv))
    · exact totalDegree_nonneg h.distinct hD
  constructor
  · rcases attained with ⟨v, hv, rfl⟩ | ⟨rfl, absent⟩
    · rcases h.occurs_base_iff.mp hv with hv | ⟨s, g, hmem, hv⟩
      · exact .inl (le_antisymm (bound₀ v hv) first)
      · obtain ⟨k, hk⟩ := List.mem_iff_getElem?.mp hmem
        obtain ⟨hs, hg⟩ := List.getElem?_zip_eq_some.mp hk
        obtain ⟨d, -, hd, -⟩ := (h.isMultiplier hs hg).shape
        have nonzero : (g.eval X : MvPolynomial Symbol ℚ) ≠ 0 := by
          intro hzero
          have value := coeff_generic_ne_zero h.after h.distinct h.named
            (h.isPolynomial_product hs hg) (h.product_affine hs hg) hv
          rw [h.solvedAt_product hs hg, Expression.eval_eq_aeval X g, hzero] at value
          simp at value
        have product := h.totalDegree_product hs hg hd hne nonzero
        exact .inr ⟨g, List.mem_of_getElem? hg, nonzero, d, hd,
          le_antisymm ((totalDegree_spec product).1 v hv)
            (h.product_le_base hne hD hs hg hd nonzero)⟩
    · rcases attained₀ with ⟨v, hv, -⟩ | ⟨rfl, -⟩
      · exact absurd (h.occurs_base_iff.mpr (.inl hv)) (absent v)
      · exact .inl rfl
  · rintro d' (rfl | ⟨g, hmem, nonzero, d, hd, rfl⟩)
    · exact first
    · obtain ⟨k, hg⟩ := List.mem_iff_getElem?.mp hmem
      obtain ⟨s, hs, -⟩ := exists_right_at h.certifies.weights.flip hg
      exact h.product_le_base hne hD hs hg hd nonzero

end IsRegistered

theorem exists_isRegistered {p : SquareProgram Rat} {scope : List Symbol} (hscope : scope.Nodup)
    (hnamed : ∀ t ∈ scope, t.isNamed = true) (hp : p.IsNumbered) {e : Expression Rat}
    (he : e.IsPolynomial) (haffine : e.eval X ∈ affineSpan scope p.decisions)
    {constraints : List (Expression Rat)} (hconstraints : ∀ g ∈ constraints, g.IsPolynomial)
    (hwithin : ∀ g ∈ constraints, g.eval X ∈ scopePolynomials scope) (degree : ℤ) (name : String) :
    ∃ (bare q : SquareProgram Rat) (c : Certificate),
      p.nonnegativeOn e scope constraints degree name =
        (q.preceded p.statements, .ok (c.multipliers.map SquareSum.polynomial)) ∧
      q.statements = c.statements ∧ bare.IsRegistered q e scope constraints degree c := by
  obtain ⟨q, c, registered, growth, regular, statements, certificate, assigns⟩ :=
    hp.nonnegativeOn_spec hscope hnamed hconstraints hwithin degree name he haffine
  exact ⟨p.unstated, q, c, registered, statements, hp.isRegular_unstated, regular, growth, he,
    haffine, hscope, hnamed, fun g hg => ⟨hconstraints g hg, hwithin g hg⟩, certificate, assigns⟩

/-! ## Registered degrees -/

/--
The degrees of the statements of a certificate.  A multiplier has the largest half-degree with which
its product with the inequality keeps the larger one of the degree of the relaxation and that of the
inequality, and the product has exactly the degree that this gives.  Nothing cancels in the base, so
its degree is the largest of all, and its basis reaches the least half-degree that covers it.
-/
structure HasDegrees (e : Expression Rat) (scope : List Symbol) (constraints : List (Expression Rat))
    (degree : ℤ) (c : Certificate) : Prop where
  multipliers : List.Forall₂ (fun s g => ∃ d, totalDegree g scope = .ok d ∧
    s.basis = exponents scope.length (multiplierHalf degree d) 0 ∧
    IsGreatest {half | 2 * half + d ≤ max degree d} (multiplierHalf degree d) ∧
    ((g.eval X : MvPolynomial Symbol ℚ) ≠ 0 →
      totalDegree (s.polynomial * g) scope = .ok (2 * multiplierHalf degree d + d)))
    c.multipliers constraints
  occurs : ∀ v, Occurs scope v c.base.polynomial ↔ Occurs scope v e ∨
    ∃ s g, (s, g) ∈ c.multipliers.zip constraints ∧ Occurs scope v (s.polynomial * g)
  base : ∃ d₀ D, totalDegree e scope = .ok d₀ ∧ totalDegree c.base.polynomial scope = .ok D ∧
    IsGreatest (insert d₀ {d' | ∃ g ∈ constraints, (g.eval X : MvPolynomial Symbol ℚ) ≠ 0 ∧
      ∃ d, totalDegree g scope = .ok d ∧ d' = 2 * multiplierHalf degree d + d}) D ∧
    ∃ half, c.base.basis = exponents scope.length half 0 ∧ IsLeast {h | D ≤ 2 * h} half

theorem isGreatest_multiplierHalf (degree d : ℤ) :
    IsGreatest {half | 2 * half + d ≤ max degree d} (multiplierHalf degree d) := by
  refine ⟨?_, fun half hhalf => ?_⟩
  · change 2 * max 0 ((degree - d) / 2) + d ≤ max degree d
    omega
  · have bound : 2 * half + d ≤ max degree d := hhalf
    change half ≤ max 0 ((degree - d) / 2)
    omega

theorem isLeast_halfDegree (D : ℤ) : IsLeast {h | D ≤ 2 * h} (halfDegree D) := by
  refine ⟨?_, fun h hh => ?_⟩
  · change D ≤ 2 * ((D + 1) / 2)
    omega
  · have bound : D ≤ 2 * h := hh
    change (D + 1) / 2 ≤ h
    omega

theorem IsRegistered.hasDegrees {p q : SquareProgram Rat} {e : Expression Rat}
    {scope : List Symbol} {constraints : List (Expression Rat)} {degree : ℤ} {c : Certificate}
    (h : p.IsRegistered q e scope constraints degree c) (hne : scope ≠ []) :
    HasDegrees e scope constraints degree c := by
  obtain ⟨d₀, D, hd₀, hD, hbasis⟩ := h.totalDegree_base
  refine ⟨List.forall₂_iff_get.mpr ⟨h.certifies.weights.length_eq, fun k hk hk' => ?_⟩,
    fun v => h.occurs_base_iff, d₀, D, hd₀, hD, h.isGreatest_base hne hd₀ hD, _, hbasis,
    isLeast_halfDegree D⟩
  have hs : c.multipliers[k]? = some (c.multipliers.get ⟨k, hk⟩) := List.getElem?_eq_getElem hk
  have hg : constraints[k]? = some (constraints.get ⟨k, hk'⟩) := List.getElem?_eq_getElem hk'
  obtain ⟨d, -, hd, hbasis, -⟩ := (h.isMultiplier hs hg).shape
  exact ⟨d, hd, hbasis, isGreatest_multiplierHalf degree d,
    h.totalDegree_product hs hg hd hne⟩

/--
Degrees of registered certificates.  Over at least one variable, every registration of a polynomial
on a set succeeds, with exact degrees.
-/
theorem hasDegrees_of_nonnegativeOn {p : SquareProgram Rat} {scope : List Symbol}
    (hne : scope ≠ []) (hscope : scope.Nodup) (hnamed : ∀ t ∈ scope, t.isNamed = true)
    (hp : p.IsNumbered) {e : Expression Rat} (he : e.IsPolynomial)
    (haffine : e.eval X ∈ affineSpan scope p.decisions) {constraints : List (Expression Rat)}
    (hconstraints : ∀ g ∈ constraints, g.IsPolynomial)
    (hwithin : ∀ g ∈ constraints, g.eval X ∈ scopePolynomials scope) (degree : ℤ) (name : String) :
    ∃ q c, p.nonnegativeOn e scope constraints degree name =
        (q, .ok (c.multipliers.map SquareSum.polynomial)) ∧
      q.statements = p.statements ++ c.statements ∧ HasDegrees e scope constraints degree c := by
  obtain ⟨bare, q, c, registered, statements, all⟩ :=
    exists_isRegistered hscope hnamed hp he haffine hconstraints hwithin degree name
  exact ⟨q.preceded p.statements, c, registered, by simp [preceded, statements],
    all.hasDegrees hne⟩

theorem hasDegrees_of_nonnegativeOn_halfLine : ∃ q c, (empty : SquareProgram Rat).nonnegativeOn
      (.ofSymbol (.named "x")) [.named "x"] [.ofSymbol (.named "x"), .zero] 2 "s" =
        (q, .ok (c.multipliers.map SquareSum.polynomial)) ∧
    HasDegrees (.ofSymbol (.named "x")) [.named "x"] [.ofSymbol (.named "x"), .zero] 2 c := by
  have affine : (Expression.ofSymbol (.named "x") : Expression Rat).eval X ∈
      affineSpan [.named "x"] (empty : SquareProgram Rat).decisions :=
    mem_affineSpan_of_mem (by simp)
  have polynomial : ∀ g ∈ ([.ofSymbol (.named "x"), .zero] : List (Expression Rat)),
      g.IsPolynomial := by simp
  obtain ⟨q, c, registered, -, degrees⟩ := hasDegrees_of_nonnegativeOn (p := empty)
    (List.cons_ne_nil _ _) (by simp) (by simp [Symbol.isNamed]) (fun k s h => by simp [empty] at h)
    (Expression.isPolynomial_ofSymbol _) affine polynomial (by simp) 2 "s"
  exact ⟨q, c, registered, degrees⟩

theorem totalDegree_nil {K : Type} [Scalar K] {e : Expression K} {d : ℤ}
    (h : totalDegree e [] = .ok d) : d = 0 := by
  rcases (totalDegree_spec h).2 with ⟨v, hv, rfl⟩ | ⟨hzero, -⟩
  · rw [Exponents.isNatural_zero.mp (hv.isNatural List.nodup_nil)]
    rfl
  · exact hzero

/-- Without variables a multiplier has degree zero, also where its half-degree is larger. -/
theorem not_hasDegrees_without_variables : ∃ q c, (empty : SquareProgram Rat).nonnegativeOn .zero []
      [.number 1] 2 "s" = (q, .ok (c.multipliers.map SquareSum.polynomial)) ∧
    q.statements = c.statements ∧ ¬ HasDegrees .zero [] [.number 1] 2 c := by
  have polynomial : ∀ g ∈ ([.number 1] : List (Expression Rat)), g.IsPolynomial := by simp
  obtain ⟨bare, q, c, registered, statements, all⟩ := exists_isRegistered (p := empty)
    List.nodup_nil (by simp) (fun k s h => by simp [empty] at h) Expression.isPolynomial_zero
    (by simp) polynomial (by simp) 2 "s"
  refine ⟨_, c, registered, by simp [preceded, statements, empty], fun degrees => ?_⟩
  obtain ⟨s, others, hhead, -, -⟩ := List.forall₂_cons_right_iff.mp degrees.multipliers
  obtain ⟨d, hd, -, -, product⟩ := hhead
  obtain rfl := totalDegree_nil hd
  have value : (Expression.number 1 : Expression Rat).eval X = (1 : MvPolynomial Symbol ℚ) := by
    rw [Expression.eval_number, map_one]
  have zero := totalDegree_nil (product (by rw [value]; exact one_ne_zero))
  simp [multiplierHalf] at zero

end SquareProgram

end HybridRelaxation
