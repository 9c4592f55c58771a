import Mathlib
import HybridRelaxation.Proofs.Expression.Expansion
import HybridRelaxation.Proofs.Outcome
import HybridRelaxation.Proofs.Polynomial.Exponents

/-!
# Coefficients of polynomial expressions

A polynomial expression always splits into coefficients by exponent vector.  The vectors are
distinct and natural, the coefficients are canonical, free of the variables and not zero, and the
sum of coefficients times monomials has the value of the expression.
-/

namespace HybridRelaxation

variable {R : Type*} [CommRing R] [Algebra ℚ R] (ρ : Symbol → R)

/-! ## Positions of variables -/

theorem exists_lastPosition? {s : Symbol} {scope : List Symbol} (h : s ∈ scope) :
    ∃ i, lastPosition? s scope = some i ∧ scope[i]? = some s := by
  cases hfound : scope.reverse.idxOf? s with
  | none =>
      rw [List.idxOf?_eq_none_iff] at hfound
      exact absurd (List.mem_reverse.mpr h) hfound
  | some k =>
      refine ⟨scope.length - 1 - k, by simp [lastPosition?, hfound], ?_⟩
      obtain ⟨hk, hget, -⟩ := List.idxOf?_eq_some_iff.mp hfound
      rw [List.length_reverse] at hk
      rw [← hget, List.getElem_reverse, List.getElem?_eq_getElem]

/-! ## Factors by the variables -/

theorem symbols_selectFactors {scope : List Symbol} {dependent : Bool} {p : Product Rat}
    (hp : p.IsMonomial) {s : Symbol} :
    s ∈ (selectFactors scope dependent p).symbols ↔
      s ∈ p.symbols ∧ (s ∈ scope ↔ dependent = true) := by
  induction hp with
  | one => simp [selectFactors, Product.symbols]
  | times t n p tail first ih =>
      have depends : dependsOn scope ((Base.symbol t : Base Rat).symbols ++
          (Exponent.integer (n + 1) : Exponent Rat).symbols) = decide (t ∈ scope) := by
        simp [dependsOn, Base.symbols, Exponent.symbols]
      simp only [selectFactors, depends]
      by_cases hst : s = t
      · subst hst
        by_cases hs : s ∈ scope <;> cases dependent <;> simp [hs, ih]
      · split <;> simp [ih, hst]

theorem isMonomial_selectFactors (scope : List Symbol) (dependent : Bool) {p : Product Rat}
    (hp : p.IsMonomial) : (selectFactors scope dependent p).IsMonomial := by
  induction hp with
  | one => exact .one
  | times t n p tail first ih =>
      unfold selectFactors
      split
      · exact .times t n _ ih (fun s hs => first s ((symbols_selectFactors tail).mp hs).1)
      · exact ih

theorem eval_selectFactors (scope : List Symbol) (p : Product Rat) :
    (selectFactors scope true p).eval ρ * (selectFactors scope false p).eval ρ = p.eval ρ := by
  induction p with
  | one => simp [selectFactors]
  | times b x p ih =>
      rw [Product.eval_times, ← ih]
      cases h : dependsOn scope (b.symbols ++ x.symbols) with
      | true =>
          simp only [selectFactors, h, if_true, Bool.true_eq_false, if_false, Product.eval_times]
          ring
      | false =>
          simp only [selectFactors, h, Bool.false_eq_true, if_false, if_true, Product.eval_times]
          ring

/-! ## Powers of the variables -/

theorem addBasePower_of_notMem {K : Type} [Scalar K] {b : Base K} {powers : List (BasePower K)}
    (h : b ∉ powers.map Prod.fst) (e : Expression K) :
    addBasePower b e powers = powers ++ [(b, e)] := by
  induction powers with
  | nil => rfl
  | cons power powers ih =>
      simp only [List.map_cons, List.mem_cons, not_or] at h
      obtain ⟨c, f⟩ := power
      simp [addBasePower, h.1, ih h.2]

theorem basePowers_of_nodup {K : Type} [Scalar K] {p : Product K}
    (h : (p.factors.map Prod.fst).Nodup) :
    p.basePowers = p.factors.map (fun f => (f.1, f.2.toExpression)) := by
  have general (fs : List (Factor K)) (powers : List (BasePower K))
      (h : (powers.map Prod.fst ++ fs.map Prod.fst).Nodup) :
      fs.foldl (fun powers (f : Factor K) => addBasePower f.1 f.2.toExpression powers) powers =
        powers ++ fs.map (fun f => (f.1, f.2.toExpression)) := by
    induction fs generalizing powers with
    | nil => simp
    | cons f fs ih =>
        have fresh : f.1 ∉ powers.map Prod.fst := fun hmem =>
          (List.disjoint_of_nodup_append h) hmem (by simp)
        rw [List.foldl_cons, addBasePower_of_notMem fresh, ih]
        · simp
        · simpa using h
  simpa [Product.basePowers] using general p.factors [] (by simpa using h)

theorem mem_symbols_of_factor {p : Product Rat} {s : Symbol} {x : Exponent Rat}
    (h : (Base.symbol s, x) ∈ p.factors) : s ∈ p.symbols := by
  induction p with
  | one => simp at h
  | times b y p ih =>
      rw [Product.factors_times, List.mem_cons] at h
      rcases h with h | h
      · obtain ⟨rfl, rfl⟩ := Prod.mk.inj h
        simp [Product.symbols, Base.symbols]
      · simp [Product.symbols, ih h]

theorem basePowers_of_isMonomial {p : Product Rat} (hp : p.IsMonomial) :
    p.basePowers = p.factors.map (fun f => (f.1, f.2.toExpression)) := by
  refine basePowers_of_nodup ?_
  induction hp with
  | one => simp
  | times s n p tail first ih =>
      rw [Product.factors_times, List.map_cons, List.nodup_cons]
      refine ⟨fun h => ?_, ih⟩
      obtain ⟨⟨b, x⟩, hmem, rfl⟩ := List.mem_map.mp h
      simpa using first s (mem_symbols_of_factor hmem)

theorem exponentVector_spec {scope : List Symbol} {p : Product Rat} (hp : p.IsMonomial)
    (hscope : ∀ s ∈ p.symbols, s ∈ scope) :
    ∃ v, exponentVector scope (p.factors.map (fun f => (f.1, f.2.toExpression))) = .ok v ∧
      v.IsNatural scope.length ∧ ∀ {R : Type u} [CommRing R] [Algebra ℚ R] (ρ : Symbol → R),
        monomialValue ρ scope v = p.eval ρ := by
  induction hp with
  | one =>
      exact ⟨List.replicate scope.length 0, rfl, Exponents.isNatural_replicate _,
        fun ρ => by rw [monomialValue_replicate, Product.eval_one]⟩
  | times s n p tail first ih =>
      obtain ⟨v, hv, natural, value⟩ := ih (fun t ht => hscope t (by simp [ht]))
      obtain ⟨i, hposition, hi⟩ := exists_lastPosition? (hscope s (by simp))
      have power : ((Exponent.integer (n + 1) : Exponent Rat).toExpression).natural? =
          some (n + 1) := by
        have exponent : (Exponent.integer (n + 1) : Exponent Rat).toExpression =
            Expression.number ((n + 1 : ℕ) : Rat) := by
          simp [Exponent.toExpression]
        rw [exponent, Expression.natural?, Expression.number?_number, Option.bind_some,
          Scalar.integer?_natCast]
      refine ⟨addAt i (n + 1 : ℕ) v, ?_, Exponents.isNatural_addAt natural i _, fun ρ => ?_⟩
      · rw [Product.factors_times, List.map_cons, exponentVector, hv]
        simp [power, hposition]
      · rw [monomialValue_addAt ρ natural hi, value, Product.eval_times, Base.eval_symbol]
        rfl

theorem splitProduct_spec (scope : List Symbol) {p : Product Rat} (hp : p.IsMonomial) :
    ∃ v, splitProduct scope p = .ok (selectFactors scope false p, v) ∧
      v.IsNatural scope.length ∧ ∀ {R : Type u} [CommRing R] [Algebra ℚ R] (ρ : Symbol → R),
        (selectFactors scope false p).eval ρ * monomialValue ρ scope v = p.eval ρ := by
  have dependent := isMonomial_selectFactors scope true hp
  obtain ⟨v, hv, natural, value⟩ := exponentVector_spec dependent
    (fun s hs => ((symbols_selectFactors hp).mp hs).2.mpr rfl)
  refine ⟨v, ?_, natural, fun ρ => ?_⟩
  · rw [splitProduct, basePowers_of_isMonomial dependent, hv]
    rfl
  · rw [value, mul_comm, eval_selectFactors]

/-! ## Maps of coefficients -/

namespace CoefficientMap

/-- Distinct natural vectors, with canonical coefficients free of the variables. -/
structure IsRegular (scope : List Symbol) (m : CoefficientMap Rat) : Prop where
  distinct : (m.map Prod.fst).Nodup
  vectors : ∀ t ∈ m, t.1.IsNatural scope.length
  canonical : ∀ t ∈ m, t.2.IsCanonical
  free : ∀ t ∈ m, ∀ s ∈ t.2.symbols, s ∉ scope

def eval (scope : List Symbol) (m : CoefficientMap Rat) : R :=
  (m.map (fun t => t.2.eval ρ * monomialValue ρ scope t.1)).sum

theorem eval_addAt (scope : List Symbol) (v : Exponents) (c : Expression Rat)
    (m : CoefficientMap Rat) :
    (m.addAt v c).eval ρ scope = m.eval ρ scope + c.eval ρ * monomialValue ρ scope v := by
  induction m with
  | nil => simp [CoefficientMap.addAt, eval]
  | cons t m ih =>
      obtain ⟨w, d⟩ := t
      by_cases h : v = w
      · subst h
        simp only [CoefficientMap.addAt, if_true, eval, List.map_cons, List.sum_cons,
          Expression.eval_add]
        ring
      · simp only [eval] at ih
        simp only [CoefficientMap.addAt, h, if_false, eval, List.map_cons, List.sum_cons, ih]
        ring

theorem mem_addAt {K : Type} [Scalar K] {v : Exponents} {c : Expression K} {m : CoefficientMap K}
    {t : Exponents × Expression K} (h : t ∈ m.addAt v c) :
    t ∈ m ∨ t = (v, c) ∨ ∃ d, (v, d) ∈ m ∧ t = (v, d + c) := by
  induction m with
  | nil => simpa [CoefficientMap.addAt] using h
  | cons u m ih =>
      obtain ⟨w, d⟩ := u
      by_cases hvw : v = w
      · subst hvw
        simp only [CoefficientMap.addAt, if_true, List.mem_cons] at h
        rcases h with rfl | h
        · exact .inr (.inr ⟨d, by simp⟩)
        · exact .inl (by simp [h])
      · simp only [CoefficientMap.addAt, hvw, if_false, List.mem_cons] at h
        rcases h with rfl | h
        · exact .inl (by simp)
        · rcases ih h with hmem | rfl | ⟨e, he, rfl⟩
          · exact .inl (by simp [hmem])
          · exact .inr (.inl rfl)
          · exact .inr (.inr ⟨e, by simp [he]⟩)

theorem addAt_eq_upsert {K : Type} [Scalar K] (v : Exponents) (c : Expression K)
    (m : CoefficientMap K) : m.addAt v c = upsert v c (· + c) m := by
  induction m with
  | nil => rfl
  | cons t m ih => rw [CoefficientMap.addAt, ih, upsert]

theorem nodup_addAt {K : Type} [Scalar K] {m : CoefficientMap K} (hm : (m.map Prod.fst).Nodup)
    (v : Exponents) (c : Expression K) : ((m.addAt v c).map Prod.fst).Nodup := by
  rw [addAt_eq_upsert]
  exact nodup_upsert _ _ _ hm

theorem IsRegular.addAt {scope : List Symbol} {m : CoefficientMap Rat} (hm : m.IsRegular scope)
    {v : Exponents} {c : Expression Rat} (hv : v.IsNatural scope.length) (hc : c.IsCanonical)
    (hfree : ∀ s ∈ c.symbols, s ∉ scope) : (m.addAt v c).IsRegular scope := by
  constructor
  · exact nodup_addAt hm.distinct v c
  · intro t ht
    rcases mem_addAt ht with h | rfl | ⟨d, hd, rfl⟩
    · exact hm.vectors t h
    · exact hv
    · exact hv
  · intro t ht
    rcases mem_addAt ht with h | rfl | ⟨d, hd, rfl⟩
    · exact hm.canonical t h
    · exact hc
    · exact (hm.canonical _ hd).add hc
  · intro t ht s hs
    rcases mem_addAt ht with h | rfl | ⟨d, hd, rfl⟩
    · exact hm.free t h s hs
    · exact hfree s hs
    · rcases Expression.symbols_add hs with hs | hs
      · exact hm.free _ hd s hs
      · exact hfree s hs

theorem IsRegular.filter {scope : List Symbol} {m : CoefficientMap Rat} (hm : m.IsRegular scope)
    (keep : Exponents × Expression Rat → Bool) :
    CoefficientMap.IsRegular scope (m.filter keep) :=
  ⟨hm.distinct.sublist (List.filter_sublist.map _),
    fun t ht => hm.vectors t (List.mem_of_mem_filter ht),
    fun t ht => hm.canonical t (List.mem_of_mem_filter ht),
    fun t ht => hm.free t (List.mem_of_mem_filter ht)⟩

theorem eval_filter (scope : List Symbol) (m : CoefficientMap Rat) :
    CoefficientMap.eval ρ scope (m.filter (fun t => !t.2.isZero)) = m.eval ρ scope := by
  induction m with
  | nil => rfl
  | cons t m ih =>
      simp only [eval] at ih
      cases h : t.2.isZero with
      | true =>
          have hzero : t.2 = .zero := (Expression.isZero_iff t.2).mp h
          simp [eval, ih, hzero]
      | false => simp [eval, h, ih]

end CoefficientMap

/-! ## Collecting the terms -/

theorem collectTerms_spec (scope : List Symbol) {ts : List (Rat × Product Rat)}
    (hts : ∀ t ∈ ts, t.2.IsMonomial) {m : CoefficientMap Rat} (hm : m.IsRegular scope) :
    ∃ m', collectTerms scope ts m = .ok m' ∧ m'.IsRegular scope ∧
      ∀ {R : Type u} [CommRing R] [Algebra ℚ R] (ρ : Symbol → R),
        m'.eval ρ scope =
          m.eval ρ scope + (ts.map (fun t => algebraMap ℚ R t.1 * t.2.eval ρ)).sum := by
  induction ts generalizing m with
  | nil => exact ⟨m, rfl, hm, fun ρ => by simp⟩
  | cons t ts ih =>
      obtain ⟨c, p⟩ := t
      have hp : p.IsMonomial := hts (c, p) (by simp)
      have hrest : ∀ t ∈ ts, t.2.IsMonomial := fun t ht => hts t (by simp [ht])
      by_cases hc : c = 0
      · obtain ⟨m', hok, regular, value⟩ := ih hrest hm
        exact ⟨m', by simpa [collectTerms, hc] using hok, regular,
          fun ρ => by simp [value ρ, hc]⟩
      · obtain ⟨v, hv, natural, split⟩ := splitProduct_spec scope hp
        have canonical : (Expression.ofTerm c (selectFactors scope false p)).IsCanonical :=
          Expression.isCanonical_ofTerm c (isMonomial_selectFactors scope false hp)
        have free : ∀ s ∈ (Expression.ofTerm c (selectFactors scope false p)).symbols,
            s ∉ scope := by
          intro s hs hmem
          have := (symbols_selectFactors hp).mp (Expression.symbols_ofTerm hs)
          simp [hmem] at this
        obtain ⟨m', hok, regular, value⟩ := ih hrest (hm.addAt natural canonical free)
        refine ⟨m', by simpa [collectTerms, hc, hv] using hok, regular, fun ρ => ?_⟩
        rw [value ρ, CoefficientMap.eval_addAt, Expression.eval_ofTerm, List.map_cons,
          List.sum_cons, ← split ρ]
        ring

section

variable {e : Expression Rat} {scope : List Symbol} {m : CoefficientMap Rat}

/-- Every polynomial expression has coefficients. -/
theorem exists_coefficients (he : e.IsPolynomial) (scope : List Symbol) :
    ∃ m, coefficients e scope = .ok m ∧ m.IsRegular scope ∧ (∀ t ∈ m, t.2 ≠ .zero) ∧
      ∀ {R : Type u} [CommRing R] [Algebra ℚ R] (ρ : Symbol → R),
        m.eval ρ scope = e.eval ρ := by
  have empty : CoefficientMap.IsRegular scope [] := ⟨by simp, by simp, by simp, by simp⟩
  obtain ⟨m, hok, regular, value⟩ :=
    collectTerms_spec scope (Expression.isCanonical_expand he).monomials empty
  refine ⟨m.filter (fun t => !t.2.isZero), by rw [coefficients, hok]; rfl, regular.filter _, ?_,
    fun ρ => ?_⟩
  · intro t ht hzero
    simp [hzero, Expression.isZero] at ht
  · rw [CoefficientMap.eval_filter, value ρ, ← Expression.eval_eq_sum_terms,
      Expression.eval_expand ρ he]
    simp [CoefficientMap.eval]

theorem isRegular_of_coefficients (he : e.IsPolynomial) (h : coefficients e scope = .ok m) :
    m.IsRegular scope := by
  obtain ⟨m', hok, regular, -⟩ := exists_coefficients.{0} he scope
  rw [h] at hok
  exact Except.ok.inj hok ▸ regular

theorem eval_of_coefficients (he : e.IsPolynomial) (h : coefficients e scope = .ok m) :
    m.eval ρ scope = e.eval ρ := by
  obtain ⟨m', hok, -, -, value⟩ := exists_coefficients he scope
  rw [h] at hok
  obtain rfl := Except.ok.inj hok
  exact value ρ

end

end HybridRelaxation
