import Mathlib
import HybridRelaxation.Proofs.Polynomial.AffineSpan
import HybridRelaxation.Proofs.Polynomial.GradedOrder
import HybridRelaxation.SquareSum.Program

/-!
# Matching equations

Over any algebra, the gap of a matching equation is the coefficient of its monomial in the
difference between the polynomial of the statement and the quadratic form of a symmetric matrix.
Monomials without an equation have no coefficient there.  So the equations hold exactly if the
polynomial is the quadratic form.
-/

namespace HybridRelaxation

open MvPolynomial (C X coeff)

variable {A : Type*} [CommRing A]

/-! ## Sums over the upper triangle -/

theorem mem_trianglePairs {n : ℕ} {pair : ℕ × ℕ} :
    pair ∈ trianglePairs n ↔ pair.1 ≤ pair.2 ∧ pair.2 < n := by
  obtain ⟨i, j⟩ := pair
  simp only [trianglePairs, List.mem_flatMap, List.mem_range, List.mem_map, List.mem_range'_1,
    Prod.mk.injEq]
  constructor
  · rintro ⟨k, hk, l, hl, rfl, rfl⟩
    omega
  · rintro ⟨hij, hj⟩
    exact ⟨i, by omega, j, by omega, rfl, rfl⟩

theorem nodup_trianglePairs (n : ℕ) : (trianglePairs n).Nodup := by
  rw [trianglePairs, List.nodup_flatMap]
  constructor
  · intro i _
    exact (List.nodup_range' 1).map (fun j k h => (Prod.mk.inj h).2)
  · refine List.nodup_range.imp (fun {i k} hik => ?_)
    rw [Function.onFun, List.disjoint_left]
    simp only [List.mem_map]
    rintro pair ⟨j, -, rfl⟩ ⟨l, -, h⟩
    exact hik (Prod.mk.inj h).1.symm

theorem sum_trianglePairs (n : ℕ) {f : ℕ → ℕ → A} (hf : ∀ i j, f i j = f j i) :
    ((trianglePairs n).map (fun pair =>
      (if pair.1 = pair.2 then 1 else 2) * f pair.1 pair.2)).sum =
        ∑ i ∈ Finset.range n, ∑ j ∈ Finset.range n, f i j := by
  have triangle : (trianglePairs n).toFinset =
      (Finset.range n ×ˢ Finset.range n).filter (fun pair => pair.1 ≤ pair.2) := by
    ext pair
    simp only [List.mem_toFinset, mem_trianglePairs, Finset.mem_filter, Finset.mem_product,
      Finset.mem_range]
    omega
  have weight (i j : ℕ) : (if i ≤ j then (if i = j then 1 else 2) * f i j else 0) =
      (if i ≤ j then f i j else 0) + (if i < j then f i j else 0) := by
    rcases lt_trichotomy i j with h | rfl | h
    · simp [h, h.le, h.ne, two_mul]
    · simp
    · simp [h.not_ge, h.not_gt]
  have below : ∑ i ∈ Finset.range n, ∑ j ∈ Finset.range n, (if i < j then f i j else 0) =
      ∑ i ∈ Finset.range n, ∑ j ∈ Finset.range n, (if j < i then f i j else 0) := by
    rw [Finset.sum_comm]
    refine Finset.sum_congr rfl (fun i _ => Finset.sum_congr rfl (fun j _ => ?_))
    rw [hf j i]
  rw [← List.sum_toFinset _ (nodup_trianglePairs n), triangle, Finset.sum_filter,
    Finset.sum_product]
  simp only [weight, Finset.sum_add_distrib]
  rw [below]
  simp only [← Finset.sum_add_distrib]
  refine Finset.sum_congr rfl (fun i _ => Finset.sum_congr rfl (fun j _ => ?_))
  by_cases h : i ≤ j
  · simp [h, h.not_gt]
  · simp [h, not_le.mp h]

/-! ## Statements -/

/-- Distinct variables, natural basis vectors, and the coefficients of a polynomial expression. -/
structure SquareSum.IsRegular (s : SquareSum Rat) : Prop where
  polynomial : s.polynomial.IsPolynomial
  distinct : s.scope.Nodup
  natural : ∀ e ∈ s.basis, e.IsNatural s.scope.length
  coefficients : HybridRelaxation.coefficients s.polynomial s.scope = .ok s.coefficients

namespace SquareSum

variable (s : SquareSum Rat)

noncomputable def quadratic (g : ℕ → ℕ → A) : MvPolynomial Symbol A :=
  ∑ i ∈ Finset.range s.gramSize, ∑ j ∈ Finset.range s.gramSize,
    MvPolynomial.monomial (monomialPowers s.scope (s.pairExponents (i, j))) (g i j)

variable {s}

theorem isNatural_getD {K : Type} {s : SquareSum K} {n : ℕ} (natural : ∀ v ∈ s.basis, v.IsNatural n)
    {i : ℕ} (hi : i < s.gramSize) : (s.basis.getD i []).IsNatural n := by
  rw [List.getD_eq_getElem _ _ hi]
  exact natural _ (List.getElem_mem hi)

theorem IsRegular.isNatural_getD (hs : s.IsRegular) {i : ℕ} (hi : i < s.gramSize) :
    (s.basis.getD i []).IsNatural s.scope.length := SquareSum.isNatural_getD hs.natural hi

theorem IsRegular.isNatural_pairExponents (hs : s.IsRegular) {i j : ℕ} (hi : i < s.gramSize)
    (hj : j < s.gramSize) : (s.pairExponents (i, j)).IsNatural s.scope.length :=
  Exponents.isNatural_addExponents (hs.isNatural_getD hi) (hs.isNatural_getD hj)

theorem addExponents_comm (e f : Exponents) : addExponents e f = addExponents f e := by
  simp only [addExponents]
  rw [List.zipWith_comm]
  simp only [add_comm]

theorem pairExponents_swap (s : SquareSum Rat) (i j : ℕ) :
    s.pairExponents (i, j) = s.pairExponents (j, i) := addExponents_comm _ _

theorem quadratic_eq_sum_trianglePairs (s : SquareSum Rat) {g : ℕ → ℕ → A}
    (hg : ∀ i j, g i j = g j i) :
    s.quadratic g = ((trianglePairs s.gramSize).map (fun pair =>
      MvPolynomial.monomial (monomialPowers s.scope (s.pairExponents pair))
        ((if pair.1 = pair.2 then 1 else 2) * g pair.1 pair.2))).sum := by
  have symmetric : ∀ i j,
      MvPolynomial.monomial (monomialPowers s.scope (s.pairExponents (i, j))) (g i j) =
        MvPolynomial.monomial (monomialPowers s.scope (s.pairExponents (j, i))) (g j i) := by
    intro i j
    rw [pairExponents_swap, hg]
  rw [quadratic, ← sum_trianglePairs s.gramSize symmetric]
  congr 1
  refine List.map_congr_left (fun pair _ => ?_)
  split
  · simp
  · rw [two_mul, two_mul, map_add]

theorem IsRegular.isOver_quadratic (hs : s.IsRegular) (g : ℕ → ℕ → A) :
    IsOver s.scope (s.quadratic g) := by
  refine Finset.sum_induction _ _ (fun _ _ => IsOver.add) isOver_zero (fun i hi => ?_)
  refine Finset.sum_induction _ _ (fun _ _ => IsOver.add) isOver_zero (fun j hj => ?_)
  exact isOver_monomial
    (hs.isNatural_pairExponents (Finset.mem_range.mp hi) (Finset.mem_range.mp hj)) _

theorem IsRegular.coeff_quadratic (hs : s.IsRegular) {g : ℕ → ℕ → A} (hg : ∀ i j, g i j = g j i)
    {v : Exponents} (hv : v.IsNatural s.scope.length) :
    coeff (monomialPowers s.scope v) (s.quadratic g) =
      ((trianglePairs s.gramSize).map (fun pair =>
        if s.pairExponents pair = v then (if pair.1 = pair.2 then 1 else 2) * g pair.1 pair.2
        else 0)).sum := by
  classical
  rw [quadratic_eq_sum_trianglePairs s hg, ← MvPolynomial.coeffAddMonoidHom_apply,
    map_list_sum, List.map_map]
  congr 1
  refine List.map_congr_left (fun pair hpair => ?_)
  obtain ⟨hle, hlt⟩ := mem_trianglePairs.mp hpair
  have natural : (s.pairExponents pair).IsNatural s.scope.length :=
    hs.isNatural_pairExponents (by omega) hlt
  rw [Function.comp_apply, MvPolynomial.coeffAddMonoidHom_apply, MvPolynomial.coeff_monomial]
  by_cases h : s.pairExponents pair = v
  · simp [h]
  · have differ : monomialPowers s.scope (s.pairExponents pair) ≠ monomialPowers s.scope v :=
      fun heq => h (monomialPowers_injective hs.distinct natural hv heq)
    simp [h, differ]

end SquareSum

/-! ## Equations -/

variable [Algebra ℚ A]

/-- By how much an equation is missed, over any algebra. -/
def MatchingRow.gap (φ : ℤ → A) (upper : List A) (row : MatchingRow Rat) : A :=
  rowValue φ row.free -
    (row.gram.map (fun entry => algebraMap ℚ A entry.2 * (upper[entry.1]?).getD 0)).sum -
    algebraMap ℚ A row.right

theorem sum_selected {α : Type*} (xs : List α) (select : α → Prop) [DecidablePred select]
    (weight : α → Rat) (value : α → A) :
    ((xs.zipIdx.filterMap (fun (x, k) => if select x then some (k, weight x) else none)).map
      (fun entry => algebraMap ℚ A entry.2 * ((xs.map value)[entry.1]?).getD 0)).sum =
        (xs.map (fun x => if select x then algebraMap ℚ A (weight x) * value x else 0)).sum := by
  suffices general : ∀ (ys : List α) (start : ℕ) (all : List A),
      (∀ k x, ys[k]? = some x → all[start + k]? = some (value x)) →
      (((ys.zipIdx start).filterMap (fun (x, k) =>
        if select x then some (k, weight x) else none)).map
          (fun entry => algebraMap ℚ A entry.2 * (all[entry.1]?).getD 0)).sum =
        (ys.map (fun x => if select x then algebraMap ℚ A (weight x) * value x else 0)).sum by
    refine general xs 0 (xs.map value) (fun k x hk => ?_)
    rw [zero_add, List.getElem?_map, hk]
    rfl
  intro ys
  induction ys with
  | nil => intro start all _; simp
  | cons y ys ih =>
      intro start all hall
      have tail := ih (start + 1) all (fun k x hk => by
        have := hall (k + 1) x (by simpa using hk)
        rwa [show start + 1 + k = start + (k + 1) by omega])
      have head : all[start]? = some (value y) := by simpa using hall 0 y (by simp)
      rw [List.zipIdx_cons, List.map_cons, List.sum_cons, ← tail]
      by_cases h : select y
      · simp [h, head]
      · simp [h]

namespace SquareSum

variable {s : SquareSum Rat}

theorem sum_gramEntries (s : SquareSum Rat) (g : ℕ → ℕ → A) (v : Exponents) :
    ((s.gramEntries v).map (fun entry => algebraMap ℚ A entry.2 *
      (((trianglePairs s.gramSize).map (fun pair => g pair.1 pair.2))[entry.1]?).getD 0)).sum =
      ((trianglePairs s.gramSize).map (fun pair =>
        if s.pairExponents pair = v then (if pair.1 = pair.2 then 1 else 2) * g pair.1 pair.2
        else 0)).sum := by
  have selected := sum_selected (trianglePairs s.gramSize) (fun pair => s.pairExponents pair = v)
    (fun pair => if pair.1 = pair.2 then 1 else 2) (fun pair => g pair.1 pair.2)
  refine Eq.trans selected ?_
  congr 1
  refine List.map_congr_left (fun pair _ => ?_)
  have two : algebraMap ℚ A 2 = 2 := map_ofNat (algebraMap ℚ A) 2
  by_cases h : pair.1 = pair.2 <;> simp [h, two]

variable {index : Symbol → Option ℤ} {columns : ℤ} {m : Matching Rat}

theorem matchingRow_eq_ok {K : Type} [Scalar K] {s : SquareSum K} {v : Exponents}
    {row : MatchingRow K} : s.matchingRow index v = .ok row ↔
      s.coefficientOf v = none ∧
        ⟨v, [], s.gramEntries v, Scalar.machine (Scalar.measured 0)⟩ = row ∨
      ∃ c form, s.coefficientOf v = some c ∧ linearForm c index = .ok form ∧
        ⟨v, form.row, s.gramEntries v, Scalar.machine (-form.constant)⟩ = row := by
  unfold matchingRow
  cases s.coefficientOf v with
  | none => simp
  | some c => simp [bind_eq_ok]

theorem matching_eq_ok {K : Type} [Scalar K] {s : SquareSum K} {m : Matching K} :
    s.matching index columns = .ok m ↔ ∃ rows,
      List.Forall₂ (fun v row => s.matchingRow index v = .ok row) s.matchedExponents rows ∧
        0 ≤ columns ∧ (∀ row ∈ rows, MatchingRow.fits columns row = true) ∧
        ⟨rows, columns, trianglePairs s.gramSize⟩ = m := by
  simp only [matching, bind_eq_ok, mapM_eq_ok, List.all_eq_true]
  refine exists_congr (fun rows => and_congr_right (fun _ => ?_))
  split
  · next hfits => exact ⟨fun h => ⟨hfits.1, hfits.2, Except.ok.inj h⟩, fun h => congrArg _ h.2.2⟩
  · next hfits => exact iff_of_false (by simp) (fun h => hfits ⟨h.1, h.2.1⟩)

theorem matching_inversion {K : Type} [Scalar K] {s : SquareSum K} {m : Matching K}
    (h : s.matching index columns = .ok m) :
    List.Forall₂ (fun v row => s.matchingRow index v = .ok row) s.matchedExponents m.rows ∧
      m.pairs = trianglePairs s.gramSize := by
  obtain ⟨rows, hrows, -, -, rfl⟩ := matching_eq_ok.mp h
  exact ⟨hrows, rfl⟩

theorem exponents_of_matchingRow {K : Type} [Scalar K] {s : SquareSum K} {v : Exponents}
    {row : MatchingRow K} (h : s.matchingRow index v = .ok row) : row.exponents = v := by
  rcases matchingRow_eq_ok.mp h with ⟨-, rfl⟩ | ⟨c, form, -, -, rfl⟩ <;> rfl

theorem gram_of_matchingRow {K : Type} [Scalar K] {s : SquareSum K} {v : Exponents}
    {row : MatchingRow K} (h : s.matchingRow index v = .ok row) : row.gram = s.gramEntries v := by
  rcases matchingRow_eq_ok.mp h with ⟨-, rfl⟩ | ⟨c, form, -, -, rfl⟩ <;> rfl

theorem map_exponents_of_matching {K : Type} [Scalar K] {s : SquareSum K} {m : Matching K}
    (h : s.matching index columns = .ok m) :
    m.rows.map MatchingRow.exponents = s.matchedExponents := by
  rw [← List.forall₂_eq_eq_eq, List.forall₂_map_left_iff]
  exact (matching_inversion h).1.flip.imp (fun _ _ hrow => exponents_of_matchingRow hrow)

theorem nodup_matchedExponents {K : Type} [Scalar K] (s : SquareSum K) :
    s.matchedExponents.Nodup :=
  (List.mergeSort_perm _ _).nodup_iff.mpr (nodup_eraseDups _)

theorem fits_of_matching (h : s.matching index columns = .ok m) {row : MatchingRow Rat}
    (hrow : row ∈ m.rows) {entry : ℤ × Rat} (hentry : entry ∈ row.free) :
    0 ≤ entry.1 ∧ entry.1 < columns := by
  obtain ⟨rows, -, -, hfits, rfl⟩ := matching_eq_ok.mp h
  simpa using List.all_eq_true.mp (hfits row hrow) entry hentry

theorem mem_matchedExponents {K : Type} [Scalar K] {s : SquareSum K} {v : Exponents} :
    v ∈ s.matchedExponents ↔ v ∈ s.coefficients.map Prod.fst ∨
      ∃ pair ∈ trianglePairs s.gramSize, s.pairExponents pair = v := by
  simp [matchedExponents, sortGraded, List.mem_mergeSort, List.mem_eraseDups]

theorem isNatural_of_mem_matchedExponents {K : Type} [Scalar K] {s : SquareSum K} {n : ℕ}
    (basis : ∀ v ∈ s.basis, v.IsNatural n)
    (keys : ∀ v ∈ s.coefficients.map Prod.fst, v.IsNatural n) {v : Exponents}
    (hv : v ∈ s.matchedExponents) : v.IsNatural n := by
  rcases mem_matchedExponents.mp hv with h | ⟨pair, hpair, rfl⟩
  · exact keys v h
  · obtain ⟨hle, hlt⟩ := mem_trianglePairs.mp hpair
    exact Exponents.isNatural_addExponents (SquareSum.isNatural_getD basis (by omega))
      (SquareSum.isNatural_getD basis hlt)

theorem IsRegular.isNatural_of_mem (hs : s.IsRegular) {v : Exponents}
    (hv : v ∈ s.matchedExponents) : v.IsNatural s.scope.length := by
  refine isNatural_of_mem_matchedExponents hs.natural (fun w hw => ?_) hv
  obtain ⟨t, ht, rfl⟩ := List.mem_map.mp hw
  exact (isRegular_of_coefficients hs.polynomial hs.coefficients).vectors t ht

variable {σ : Symbol → A} {φ : ℤ → A}

noncomputable def difference (s : SquareSum Rat) (σ : Symbol → A) (g : ℕ → ℕ → A) :
    MvPolynomial Symbol A :=
  s.polynomial.eval (scopePoint s.scope σ) - s.quadratic g

/-- The gap of an equation is the coefficient of its monomial in the difference. -/
theorem IsRegular.gap_eq_coeff (hs : s.IsRegular) (hφ : ∀ t j, index t = some j → σ t = φ j)
    {g : ℕ → ℕ → A} (hg : ∀ i j, g i j = g j i) {v : Exponents}
    (hv : v.IsNatural s.scope.length) {row : MatchingRow Rat}
    (h : s.matchingRow index v = .ok row) :
    row.gap φ ((trianglePairs s.gramSize).map (fun pair => g pair.1 pair.2)) =
      coeff (monomialPowers s.scope v) (s.difference σ g) := by
  have regular := isRegular_of_coefficients hs.polynomial hs.coefficients
  rw [difference, MvPolynomial.coeff_sub,
    coeff_of_coefficients σ hs.polynomial hs.distinct hs.coefficients hv, hs.coeff_quadratic hg hv,
    ← sum_gramEntries]
  have listed : s.coefficients.coefficientAt v = (s.coefficientOf v).getD .zero := rfl
  rw [listed]
  rcases matchingRow_eq_ok.mp h with ⟨hc, rfl⟩ | ⟨c, form, hc, hform, rfl⟩
  · simp [hc, MatchingRow.gap, rowValue]
  · have canonical := CoefficientMap.isCanonical_coefficientAt regular v
    rw [listed, hc, Option.getD_some] at canonical
    have value := eval_of_linearForm canonical.isPolynomial hform hφ
    simp only [hc, MatchingRow.gap, Option.getD_some, ← value, LinearForm.eval,
      Scalar.machine_rat, map_neg]
    ring

theorem IsRegular.coeff_difference_eq_zero (hs : s.IsRegular) {g : ℕ → ℕ → A}
    (hg : ∀ i j, g i j = g j i) {v : Exponents} (hv : v.IsNatural s.scope.length)
    (hnot : v ∉ s.matchedExponents) :
    coeff (monomialPowers s.scope v) (s.difference σ g) = 0 := by
  rw [mem_matchedExponents, not_or] at hnot
  obtain ⟨habsent, hpairs⟩ := hnot
  rw [difference, MvPolynomial.coeff_sub,
    coeff_of_coefficients σ hs.polynomial hs.distinct hs.coefficients hv, hs.coeff_quadratic hg hv,
    CoefficientMap.coefficientAt_of_notMem habsent, Expression.eval_zero, zero_sub, neg_eq_zero]
  refine List.sum_eq_zero (fun a ha => ?_)
  obtain ⟨pair, hpair, rfl⟩ := List.mem_map.mp ha
  have hne : s.pairExponents pair ≠ v := fun heq => hpairs ⟨pair, hpair, heq⟩
  simp [hne]

/-- The equations hold exactly if the polynomial is the quadratic form. -/
theorem IsRegular.matching_iff (hs : s.IsRegular) (hφ : ∀ t j, index t = some j → σ t = φ j)
    {g : ℕ → ℕ → A} (hg : ∀ i j, g i j = g j i) (h : s.matching index columns = .ok m) :
    (∀ row ∈ m.rows, row.gap φ (m.pairs.map (fun pair => g pair.1 pair.2)) = 0) ↔
      s.polynomial.eval (scopePoint s.scope σ) = s.quadratic g := by
  obtain ⟨rows, pairs⟩ := matching_inversion h
  rw [pairs, ← sub_eq_zero]
  change _ ↔ s.difference σ g = 0
  constructor
  · intro hzero
    have hover : IsOver s.scope (s.difference σ g) :=
      (isOver_of_coefficients σ hs.polynomial hs.coefficients).sub (hs.isOver_quadratic g)
    refine hover.eq_zero (fun v hv => ?_)
    by_cases hmem : v ∈ s.matchedExponents
    · obtain ⟨row, hrow, hok⟩ := exists_right_of_mem rows hmem
      rw [← hs.gap_eq_coeff hφ hg hv hok]
      exact hzero row hrow
    · exact hs.coeff_difference_eq_zero hg hv hmem
  · intro hzero row hrow
    obtain ⟨v, hv, hok⟩ := exists_left_of_mem rows hrow
    rw [hs.gap_eq_coeff hφ hg (hs.isNatural_of_mem hv) hok, hzero, MvPolynomial.coeff_zero]

/-! ## Existence -/

theorem exists_matching_of_rows {K : Type} [Scalar K] {s : SquareSum K}
    {index : Symbol → Option ℤ} {columns : ℕ} (h : ∀ v ∈ s.matchedExponents, ∃ row,
      s.matchingRow index v = .ok row ∧ MatchingRow.fits (columns : ℤ) row = true) :
    ∃ m, s.matching index columns = .ok m := by
  obtain ⟨rows, hrows⟩ := exists_forall₂_right h
  have fits : ∀ row ∈ rows, MatchingRow.fits (columns : ℤ) row = true := fun row hrow => by
    obtain ⟨v, -, hv⟩ := exists_left_of_mem hrows hrow
    exact hv.2
  exact ⟨_, matching_eq_ok.mpr
    ⟨rows, hrows.imp (fun _ _ hv => hv.1), Int.natCast_nonneg _, fits, rfl⟩⟩

section

variable {decisions : List Symbol} {index : Symbol → Option ℤ} {columns : ℕ}

theorem IsRegular.exists_row (hs : s.IsRegular) (hdisjoint : ∀ t ∈ decisions, t ∉ s.scope)
    (haffine : s.polynomial.eval X ∈ affineSpan s.scope decisions)
    (hindex : ∀ t ∈ decisions, ∃ j, index t = some j)
    (hcolumns : ∀ t j, index t = some j → 0 ≤ j ∧ j < columns) (v : Exponents) :
    ∃ row, s.matchingRow index v = .ok row ∧ MatchingRow.fits (columns : ℤ) row = true := by
  cases hc : s.coefficientOf v with
  | none => exact ⟨_, matchingRow_eq_ok.mpr (.inl ⟨hc, rfl⟩), rfl⟩
  | some c =>
      obtain ⟨entry, hfound, hentry⟩ := Option.map_eq_some_iff.mp hc
      obtain ⟨form, hform, hrow⟩ : ∃ form, linearForm c index = .ok form ∧
          ∀ entry ∈ form.row, ∃ t, index t = some entry.1 := by
        rw [← hentry]
        exact exists_linearForm_of_coefficients hs.polynomial hs.distinct hdisjoint haffine
          hs.coefficients (List.mem_of_find?_eq_some hfound) hindex
      refine ⟨_, matchingRow_eq_ok.mpr (.inr ⟨c, form, hc, hform, rfl⟩),
        List.all_eq_true.mpr (fun column hcolumn => ?_)⟩
      obtain ⟨t, ht⟩ := hrow column hcolumn
      simpa using hcolumns t column.1 ht

theorem IsRegular.exists_matching (hs : s.IsRegular) (hdisjoint : ∀ t ∈ decisions, t ∉ s.scope)
    (haffine : s.polynomial.eval X ∈ affineSpan s.scope decisions)
    (hindex : ∀ t ∈ decisions, ∃ j, index t = some j)
    (hcolumns : ∀ t j, index t = some j → 0 ≤ j ∧ j < columns) :
    ∃ m, s.matching index columns = .ok m :=
  exists_matching_of_rows (fun v _ => hs.exists_row hdisjoint haffine hindex hcolumns v)

end

end SquareSum

end HybridRelaxation
