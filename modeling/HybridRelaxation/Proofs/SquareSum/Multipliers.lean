import Mathlib
import HybridRelaxation.Proofs.Polynomial.Reconstruction
import HybridRelaxation.Proofs.SquareSum.FreePolynomial
import HybridRelaxation.Proofs.SquareSum.MatchingRows

/-!
# Multipliers are always registered

A free polynomial with fresh symbols is polynomial in any variables, also where a variable is listed
twice and its powers meet in one monomial.  So a new sum of squares is registered whatever the
variables are, over numbers of any kind in which one is one.
-/

namespace HybridRelaxation

/-! ## Positive powers -/

structure ArePositivePowers (powers : List (Symbol × ℤ)) : Prop where
  distinct : (powers.map Prod.fst).Nodup
  positive : ∀ power ∈ powers, 0 < power.2

theorem ArePositivePowers.areDistinctPowers {powers : List (Symbol × ℤ)}
    (h : ArePositivePowers powers) : AreDistinctPowers powers :=
  ⟨h.distinct, fun power hpower => (h.positive power hpower).ne'⟩

theorem exists_map_eq_of_perm {α β : Type} {f : α → β} {xs : List α} {ys : List β}
    (h : ys.Perm (xs.map f)) : ∃ xs' : List α, xs'.Perm xs ∧ ys = xs'.map f := by
  have same : List.Forall₂ (fun y x => y = f x) (xs.map f) xs :=
    List.forall₂_map_left_iff.mpr (List.forall₂_same.mpr (fun _ _ => rfl))
  obtain ⟨xs', related, perm⟩ := List.perm_comp_forall₂ h same
  refine ⟨xs', perm, ?_⟩
  rw [← List.forall₂_eq_eq_eq, List.forall₂_map_right_iff]
  exact related

namespace Product

def IsPowersOf {K : Type} (p : Product K) (symbols : List Symbol) : Prop :=
  ∃ powers : List (Symbol × ℤ), p.factors = powers.map symbolPower ∧ ArePositivePowers powers ∧
    ∀ s, s ∈ powers.map Prod.fst ↔ s ∈ symbols

theorem isPowersOf_one {K : Type} : (Product.one : Product K).IsPowersOf [] :=
  ⟨[], rfl, ⟨by simp, by simp⟩, by simp⟩

theorem IsPowersOf.congr {K : Type} {p : Product K} {symbols symbols' : List Symbol}
    (h : p.IsPowersOf symbols) (same : ∀ s, s ∈ symbols ↔ s ∈ symbols') : p.IsPowersOf symbols' := by
  obtain ⟨powers, hp, hpowers, hsymbols⟩ := h
  exact ⟨powers, hp, hpowers, fun s => (hsymbols s).trans (same s)⟩

variable {K : Type} [Scalar K]

theorem combine?_of_factors {s : Symbol} {k : ℤ} (hk : 0 < k) {powers : List (Symbol × ℤ)}
    {p : Product K} (hp : p.factors = powers.map symbolPower)
    (hpositive : ∀ power ∈ powers, 0 < power.2) (hs : s ∈ powers.map Prod.fst) :
    ∃ (q : Product K) (powers' : List (Symbol × ℤ)),
      p.combine? (.symbol s) (.integer k) = some q ∧ q.factors = powers'.map symbolPower ∧
      powers'.map Prod.fst = powers.map Prod.fst ∧ ∀ power ∈ powers', 0 < power.2 := by
  induction powers generalizing p with
  | nil => simp at hs
  | cons power powers ih =>
      obtain ⟨t, n⟩ := power
      cases p with
      | one => simp at hp
      | times b x p =>
          obtain ⟨⟨rfl, rfl⟩, hrest⟩ : (b = .symbol t ∧ x = .integer n) ∧
              p.factors = powers.map symbolPower := by simpa [symbolPower] using hp
          have hn : 0 < n := hpositive (t, n) (by simp)
          have hothers : ∀ power ∈ powers, 0 < power.2 := fun power hpower =>
            hpositive power (by simp [hpower])
          by_cases hst : s = t
          · subst hst
            have sum : 0 < k + n := add_pos hk hn
            refine ⟨.times (.symbol s) (.integer (k + n)) p, (s, k + n) :: powers, ?_, ?_, rfl,
              List.forall_mem_cons.mpr ⟨sum, hothers⟩⟩
            · simp [combine?, sum.ne']
            · simp [symbolPower, hrest]
          · obtain ⟨q, powers', hq, hfactors, hsymbols, hpositive'⟩ :=
              ih hrest hothers (by simpa [hst] using hs)
            refine ⟨.times (.symbol t) (.integer n) q, (t, n) :: powers', ?_, ?_, ?_,
              List.forall_mem_cons.mpr ⟨hn, hpositive'⟩⟩
            · simp [combine?, hst, hq]
            · simp [symbolPower, hfactors]
            · simp [hsymbols]

theorem IsPowersOf.multiply {p : Product K} {symbols : List Symbol} (h : p.IsPowersOf symbols)
    (s : Symbol) {k : ℤ} (hk : 0 < k) :
    (p.multiply (.symbol s) (.integer k)).IsPowersOf (s :: symbols) := by
  obtain ⟨powers, hp, hpowers, hsame⟩ := h
  by_cases hs : s ∈ powers.map Prod.fst
  · obtain ⟨q, powers', hq, hfactors, hsymbols, hpositive⟩ :=
      combine?_of_factors hk hp hpowers.positive hs
    have multiplied : p.multiply (.symbol s) (.integer k) = q := by
      simp [Product.multiply, hk.ne', hq]
    refine ⟨powers', multiplied ▸ hfactors, ⟨hsymbols ▸ hpowers.distinct, hpositive⟩,
      fun t => ?_⟩
    rw [hsymbols, hsame, List.mem_cons, or_iff_right_of_imp]
    rintro rfl
    exact (hsame t).mp hs
  · have fresh : ∀ f ∈ p.factors, f.1 ≠ .symbol s := by
      intro f hf heq
      rw [hp] at hf
      obtain ⟨power, hpower, rfl⟩ := List.mem_map.mp hf
      exact hs (Base.symbol.inj heq ▸ List.mem_map_of_mem hpower)
    have factors : (p.multiply (.symbol s) (.integer k)).factors.Perm
        (((s, k) :: powers).map symbolPower) := by
      rw [List.map_cons, ← hp]
      exact factors_multiply (by simpa using hk.ne') fresh
    obtain ⟨powers', perm, heq⟩ := exists_map_eq_of_perm factors
    refine ⟨powers', heq, ⟨?_, fun power hpower => ?_⟩, fun t => ?_⟩
    · rw [(perm.map Prod.fst).nodup_iff, List.map_cons, List.nodup_cons]
      exact ⟨hs, hpowers.distinct⟩
    · rcases List.mem_cons.mp (perm.mem_iff.mp hpower) with rfl | hpower
      · exact hk
      · exact hpowers.positive power hpower
    · rw [(perm.map Prod.fst).mem_iff, List.map_cons, List.mem_cons, List.mem_cons, hsame]

theorem isPowersOf_foldl {powers : List (Symbol × ℤ)} (h : ∀ power ∈ powers, 0 < power.2)
    {p : Product K} {symbols : List Symbol} (hp : p.IsPowersOf symbols) :
    ((powers.map symbolPower).foldl (fun p (f : Factor K) => p.multiply f.1 f.2) p).IsPowersOf
      (powers.map Prod.fst ++ symbols) := by
  induction powers generalizing p symbols with
  | nil => exact hp
  | cons power powers ih =>
      obtain ⟨hk, h⟩ := List.forall_mem_cons.mp h
      exact (ih h (hp.multiply power.1 hk)).congr (fun s => List.perm_middle.mem_iff)

end Product

/-! ## Free polynomials -/

section Units

variable {K : Type} [Scalar K] [Scalar.HasUnits K] {scope symbols : List Symbol}

theorem Expression.exists_isProductOf_product {es : List (Expression K)}
    {powers : List (List (Symbol × ℤ))} (h : List.Forall₂ IsProductOf es powers)
    (hpowers : ∀ ps ∈ powers, ArePositivePowers ps) :
    ∃ total, (product es).IsProductOf total ∧ ArePositivePowers total ∧
      ∀ s, s ∈ total.map Prod.fst ↔ s ∈ powers.flatten.map Prod.fst := by
  obtain ⟨ps, rfl, holds⟩ := exists_of_isProductOf h
  by_cases single : ps.length = 1
  · obtain ⟨p, rfl⟩ := List.length_eq_one_iff.mp single
    obtain ⟨total, head, rfl⟩ : ∃ total, p.Holds total ∧ powers = [total] := by
      simpa [List.forall₂_cons_left_iff] using holds
    exact ⟨total, ⟨p, rfl, head⟩, hpowers total (by simp), by simp⟩
  · obtain ⟨fs, together, factors, plain⟩ :=
      FactorList.ofExpressions_of_powers (Product.perm_factors_of_holds holds)
    obtain ⟨powers', same, rfl⟩ := exists_map_eq_of_perm together
    have positive : ∀ power ∈ powers', 0 < power.2 := fun power hpower => by
      obtain ⟨part, hpart, hmem⟩ := List.mem_flatten.mp (same.mem_iff.mp hpower)
      exact (hpowers part hpart).positive power hmem
    obtain ⟨total, hfactors, htotal, hsymbols⟩ :=
      Product.isPowersOf_foldl positive (Product.isPowersOf_one (K := K))
    have multiplied : (Product.ofFactors (powers'.map symbolPower) : Product K).Holds total :=
      List.Perm.of_eq hfactors
    refine ⟨total, ?_, htotal, fun s => ?_⟩
    · rw [product_of_isPlain (by simpa using single) plain, factors]
      exact ⟨_, ofTerm_of_holds multiplied, multiplied⟩
    · rw [hsymbols, List.append_nil, (same.map Prod.fst).mem_iff]

theorem exists_isProductOf_monomial {v : Exponents} (hv : v.IsNatural scope.length) :
    ∃ powers, (monomial scope v : Expression K).IsProductOf powers ∧ ArePositivePowers powers ∧
      ∀ power ∈ powers, power.1 ∈ scope := by
  have positive : ∀ ps ∈ List.zipWith nonzeroPower scope v, ArePositivePowers ps := by
    intro ps hps
    obtain ⟨i, hi, rfl⟩ := List.mem_iff_getElem.mp hps
    rw [List.getElem_zipWith]
    have nonneg := hv.nonneg _ (List.getElem_mem (l := v) (n := i) (by simp at hi; omega))
    unfold nonzeroPower
    split
    · exact ⟨by simp, by simp⟩
    · exact ⟨by simp, by simp; omega⟩
  obtain ⟨powers, product, hpowers, same⟩ :=
    Expression.exists_isProductOf_product (forall₂_isProductOf_intPower (K := K) scope v) positive
  refine ⟨powers, product, hpowers, fun power hpower => ?_⟩
  obtain ⟨power', hmem, heq⟩ := List.mem_map.mp ((same power.1).mp (List.mem_map_of_mem hpower))
  exact heq ▸ (mem_vectorPowers hmem).1

/-- The terms of a free polynomial are different products of positive powers. -/
theorem exists_isSumOf_combination (hsymbols : symbols.Nodup) (hfresh : ∀ s ∈ symbols, s ∉ scope)
    {vectors : List Exponents} (hvectors : ∀ v ∈ vectors, v.IsNatural scope.length) :
    ∃ terms, (SquareProgram.combination symbols (vectors.map (monomial scope)) :
        Expression K).IsSumOf terms ∧ (∀ powers ∈ terms, ArePositivePowers powers) ∧
      terms.Pairwise (fun powers powers' => ¬ powers.Perm powers') := by
  suffices h : ∃ terms,
      List.Forall₂ (Expression.IsProductOf (K := K)) (List.zipWith
        (fun s m => Expression.ofSymbol s * m) symbols (vectors.map (monomial scope))) terms ∧
      (∀ powers ∈ terms, ArePositivePowers powers) ∧
      (∀ powers ∈ terms, ∀ power ∈ powers, power.1 ∈ symbols ∨ power.1 ∈ scope) ∧
      terms.Pairwise (fun powers powers' => ¬ powers.Perm powers') by
    obtain ⟨terms, products, positive, -, apart⟩ := h
    exact ⟨terms, Expression.isSumOf_sum products apart, positive, apart⟩
  induction symbols generalizing vectors with
  | nil => exact ⟨[], .nil, by simp, by simp, .nil⟩
  | cons s symbols ih =>
      cases vectors with
      | nil => exact ⟨[], .nil, by simp, by simp, .nil⟩
      | cons v vectors =>
          obtain ⟨hs, hsymbols⟩ := List.nodup_cons.mp hsymbols
          obtain ⟨hscope, hfresh⟩ := List.forall_mem_cons.mp hfresh
          obtain ⟨hv, hvectors⟩ := List.forall_mem_cons.mp hvectors
          obtain ⟨terms, products, positive, known, apart⟩ := ih hsymbols hfresh hvectors
          obtain ⟨powers, product, hpowers, inside⟩ := exists_isProductOf_monomial (K := K) hv
          have first : ArePositivePowers ((s, 1) :: powers) := by
            refine ⟨?_, List.forall_mem_cons.mpr ⟨one_pos, hpowers.positive⟩⟩
            rw [List.map_cons, List.nodup_cons]
            refine ⟨fun hmem => ?_, hpowers.distinct⟩
            obtain ⟨power, hpower, rfl⟩ := List.mem_map.mp hmem
            exact hscope (inside power hpower)
          refine ⟨((s, 1) :: powers) :: terms, .cons ?_ products,
            List.forall_mem_cons.mpr ⟨first, positive⟩, List.forall_mem_cons.mpr ⟨?_, ?_⟩,
            List.pairwise_cons.mpr ⟨fun powers' hpowers' same => ?_, apart⟩⟩
          · exact Expression.isProductOf_mul (Expression.isProductOf_ofSymbol s) product
              first.areDistinctPowers
          · exact List.forall_mem_cons.mpr
              ⟨.inl (by simp), fun power hpower => .inr (inside power hpower)⟩
          · exact fun powers' hpowers' power hpower =>
              (known powers' hpowers' power hpower).imp_left (List.mem_cons_of_mem s)
          · -- No other term has the symbol of the first.
            exact (known powers' hpowers' (s, 1) (same.mem_iff.mp (by simp))).elim hs hscope

/-! ## Coefficients -/

theorem natural?_toExpression_of_pos {k : ℤ} (hk : 0 < k) :
    ((Exponent.integer k : Exponent K).toExpression).natural? = some k.toNat := by
  obtain ⟨n, rfl⟩ := Int.eq_ofNat_of_zero_le hk.le
  rw [Exponent.toExpression, Expression.ofInt, Expression.natural?, Expression.number?_number,
    Option.bind_some, Scalar.HasUnits.integer?_ofInt]
  rfl

theorem exists_splitProduct (scope : List Symbol) {p : Product K} {powers : List (Symbol × ℤ)}
    (hp : p.Holds powers) (hpowers : ArePositivePowers powers) : ∃ split, splitProduct scope p = .ok split := by
  have selected := hp.selectFactors scope true
  have distinct : AreDistinctPowers (powers.filter (fun power => decide (power.1 ∈ scope) = true)) :=
    hpowers.areDistinctPowers.sublist List.filter_sublist
  have bases := ((distinct.areApart (K := K)).perm selected.symm).distinct
  obtain ⟨v, hv⟩ : ∃ v, exponentVector scope (selectFactors scope true p).basePowers = .ok v := by
    refine exists_exponentVector (fun power hpower => ?_)
    rw [basePowers_of_nodup bases] at hpower
    obtain ⟨f, hf, rfl⟩ := List.mem_map.mp hpower
    obtain ⟨power, hmem, rfl⟩ := selected.mem hf
    obtain ⟨listed, inside⟩ := List.mem_filter.mp hmem
    exact ⟨power.1, by simpa using inside, _, rfl,
      natural?_toExpression_of_pos (hpowers.positive power listed)⟩
  exact ⟨(selectFactors scope false p, v), by simp [splitProduct, hv]⟩

omit [Scalar.HasUnits K] in
theorem exists_collectTerms {ts : List (K × Product K)}
    (h : ∀ t ∈ ts, ∃ split, splitProduct scope t.2 = .ok split) (m : CoefficientMap K) :
    ∃ m', collectTerms scope ts m = .ok m' := by
  induction ts generalizing m with
  | nil => exact ⟨m, rfl⟩
  | cons t ts ih =>
      obtain ⟨c, p⟩ := t
      obtain ⟨⟨⟨free, v⟩, split⟩, h⟩ := List.forall_mem_cons.mp h
      rw [collectTerms]
      split_ifs
      · exact ih h m
      · rw [split]
        exact ih h _

theorem exists_coefficients_combination (hsymbols : symbols.Nodup)
    (hfresh : ∀ s ∈ symbols, s ∉ scope) (degree least : ℤ) :
    ∃ m, coefficients (SquareProgram.combination symbols (monomials scope degree least) :
      Expression K) scope = .ok m := by
  obtain ⟨terms, sum, positive, apart⟩ := exists_isSumOf_combination (K := K) hsymbols hfresh
    (fun v (hv : v ∈ exponents scope.length degree least) => (Exponents.mem_exponents.mp hv).1)
  obtain ⟨ps, perm, holds⟩ := Expression.isSumOf_expand sum
    (fun powers hpowers => (positive powers hpowers).areDistinctPowers) apart
  obtain ⟨m, hm⟩ := exists_collectTerms (fun t ht => by
    obtain ⟨p, hp, rfl⟩ := List.mem_map.mp (perm.mem_iff.mp ht)
    obtain ⟨powers, hpowers, hholds⟩ := exists_right_of_mem holds hp
    exact exists_splitProduct scope hholds (positive powers hpowers)) []
  exact ⟨_, by rw [coefficients, monomials, hm, ok_bind]⟩

end Units

/-! ## Registering -/

namespace SquareProgram

variable {K : Type} [Scalar K] {p : SquareProgram K} {scope : List Symbol}

theorem exists_newSquareSum_eq_ok [Scalar.HasUnits K] (h : p.IsBefore scope) (half : ℤ)
    (name : String) : ∃ e, (p.newSquareSum scope half name).2 = .ok e := by
  obtain ⟨m, hm⟩ := exists_coefficients_combination (K := K) (nodup_freshDecisions name p.size
    (monomials (K := K) scope (2 * half) 0).length) (fun t => h.notMem) (2 * half) 0
  refine ⟨(p.newFreePolynomial (monomials scope (2 * half) 0) name).2.polynomial, ?_⟩
  simp only [newSquareSum, newFreePolynomial, withSquareSum, statement, hm, ok_bind]
  rfl

end SquareProgram

end HybridRelaxation
