import Mathlib
import HybridRelaxation.Proofs.Expression.NormalForm
import HybridRelaxation.Proofs.Expression.Renaming
import HybridRelaxation.Proofs.Polynomial.AffineSpan

/-!
# Coefficients under new names

The coefficients of a polynomial over a scope are in normal form, so the value of the polynomial
determines them and, up to their order, the whole list.  New names for the scope leave exponent
vectors as they are, and coefficients that only depend on decisions too.  So a polynomial has the
same coefficients under new names.
-/

namespace HybridRelaxation

open MvPolynomial (X)

/-! ## Renamed polynomials -/

/-- A polynomial expression with the value of another one under new names. -/
structure Expression.IsRenamed (f : String → String) (e e' : Expression Rat) : Prop where
  isPolynomial_left : e.IsPolynomial
  isPolynomial_right : e'.IsPolynomial
  value : (e'.eval X : MvPolynomial Symbol ℚ) = e.eval (fun s => X (s.rename f))

namespace Expression.IsRenamed

variable {f : String → String} {e e' g g' : Expression Rat}

theorem eval {R : Type*} [CommRing R] [Algebra ℚ R] (h : e.IsRenamed f e') (τ : Symbol → R) :
    e'.eval τ = e.eval (fun s => τ (s.rename f)) := by
  rw [eval_eq_aeval τ e', h.value, map_eval]
  simp

theorem rename (he : e.IsPolynomial) : e.IsRenamed f (e.rename f) :=
  ⟨he, isPolynomial_rename f e he, eval_rename X f e⟩

theorem add (he : e.IsRenamed f e') (hg : g.IsRenamed f g') : (e + g).IsRenamed f (e' + g') := by
  refine ⟨isPolynomial_add he.isPolynomial_left hg.isPolynomial_left,
    isPolynomial_add he.isPolynomial_right hg.isPolynomial_right, ?_⟩
  rw [eval_add, eval_add, he.value, hg.value]

theorem sub (he : e.IsRenamed f e') (hg : g.IsRenamed f g') : (e - g).IsRenamed f (e' - g') := by
  refine ⟨isPolynomial_sub he.isPolynomial_left hg.isPolynomial_left,
    isPolynomial_sub he.isPolynomial_right hg.isPolynomial_right, ?_⟩
  rw [eval_sub, eval_sub, he.value, hg.value]

theorem mul (he : e.IsRenamed f e') (hg : g.IsRenamed f g') : (e * g).IsRenamed f (e' * g') := by
  refine ⟨isPolynomial_mul he.isPolynomial_left hg.isPolynomial_left,
    isPolynomial_mul he.isPolynomial_right hg.isPolynomial_right, ?_⟩
  rw [eval_mul _ he.isPolynomial_left hg.isPolynomial_left,
    eval_mul _ he.isPolynomial_right hg.isPolynomial_right, he.value, hg.value]

end Expression.IsRenamed

theorem monomialValue_rename {R : Type*} [CommRing R] (τ : Symbol → R) (f : String → String)
    (scope : List Symbol) (v : Exponents) :
    monomialValue τ (scope.map (Symbol.rename f)) v =
      monomialValue (fun s => τ (s.rename f)) scope v := by
  induction scope generalizing v with
  | nil => simp
  | cons s scope ih =>
      cases v with
      | nil => simp [monomialValue]
      | cons k v => rw [List.map_cons, monomialValue_cons, monomialValue_cons, ih]

/-! ## Coefficients in normal form -/

def CoefficientMap.IsNormal (m : CoefficientMap Rat) : Prop :=
  ∀ t ∈ m, t.2.IsNormal ∧ t.2 ≠ .zero

theorem isNormal_of_collectTerms {scope : List Symbol} {ts : List (Rat × Product Rat)}
    (hts : ∀ t ∈ ts, t.2.IsMonomial) {m m' : CoefficientMap Rat} (hm : ∀ t ∈ m, t.2.IsNormal)
    (h : collectTerms scope ts m = .ok m') : ∀ t ∈ m', t.2.IsNormal := by
  induction ts generalizing m with
  | nil =>
      obtain rfl := Except.ok.inj h
      exact hm
  | cons t ts ih =>
      obtain ⟨c, p⟩ := t
      have hp : p.IsMonomial := hts (c, p) (by simp)
      have hrest : ∀ t ∈ ts, t.2.IsMonomial := fun t ht => hts t (by simp [ht])
      by_cases hc : c = 0
      · exact ih hrest hm (by simpa [collectTerms, hc] using h)
      · obtain ⟨v, hv, -⟩ := splitProduct_spec.{0} scope hp
        have added := Expression.isNormal_ofTerm c (isMonomial_selectFactors scope false hp)
        refine ih hrest (m := m.addAt v _) (fun t ht => ?_)
          (by simpa [collectTerms, hc, hv] using h)
        rcases CoefficientMap.mem_addAt ht with ht | rfl | ⟨d, hd, rfl⟩
        · exact hm t ht
        · exact added
        · exact (hm _ hd).add added.toIsCanonical

section

variable {e : Expression Rat} {scope : List Symbol} {m : CoefficientMap Rat}

theorem isNormal_of_coefficients (he : e.IsPolynomial) (h : coefficients e scope = .ok m) :
    m.IsNormal := by
  obtain ⟨collected, hcollected, h⟩ := bind_eq_ok.mp h
  obtain rfl := Except.ok.inj h
  intro t ht
  obtain ⟨hmem, hkept⟩ := List.mem_filter.mp ht
  refine ⟨isNormal_of_collectTerms (Expression.isCanonical_expand he).monomials (by simp)
    hcollected t hmem, fun hzero => ?_⟩
  simp [hzero, Expression.isZero] at hkept

theorem symbols_of_coefficients {decisions : List Symbol} (he : e.IsPolynomial)
    (hscope : scope.Nodup) (hdisjoint : ∀ s ∈ decisions, s ∉ scope)
    (haffine : e.eval X ∈ affineSpan scope decisions) (hm : coefficients e scope = .ok m)
    {t : Exponents × Expression Rat} (ht : t ∈ m) : ∀ s ∈ t.2.symbols, s ∈ decisions := by
  intro s hs
  have canonical := (isRegular_of_coefficients he hm).canonical t ht
  obtain ⟨n, hn, hns⟩ := canonical.exists_support hs
  have affine : IsAffine (fun s => if s ∈ decisions then some 0 else none) (t.2.eval X) :=
    isAffine_of_mem_span (fun s hs => ⟨0, if_pos hs⟩)
      (eval_mem_span_of_coefficients he hscope hdisjoint haffine hm ht)
  rcases affine n hn with rfl | ⟨u, j, hu, rfl⟩
  · simp at hns
  · have hmem : u ∈ decisions := by
      by_contra hnot
      simp [hnot] at hu
    by_cases hsu : u = s
    · exact hsu ▸ hmem
    · simp [hsu] at hns

end

namespace CoefficientMap

variable {scope : List Symbol} {m m' : CoefficientMap Rat}

theorem mem_of_eval_eq (hm : m.IsRegular scope) (hm' : m'.IsRegular scope)
    (hscope : scope.Nodup) (hnormal : m.IsNormal) (hnormal' : m'.IsNormal)
    (h : m.eval (scopePoint scope (X : Symbol → MvPolynomial Symbol ℚ)) scope =
      m'.eval (scopePoint scope X) scope) {t : Exponents × Expression Rat} (ht : t ∈ m) :
    t ∈ m' := by
  obtain ⟨v, c⟩ := t
  have natural := hm.vectors _ ht
  have value := coeff_eval (X : Symbol → MvPolynomial Symbol ℚ) hm hscope natural
  rw [h, coeff_eval X hm' hscope natural, coefficientAt_of_mem hm ht] at value
  by_cases hv : v ∈ m'.map Prod.fst
  · obtain ⟨⟨w, d⟩, hd, rfl⟩ := List.mem_map.mp hv
    rw [coefficientAt_of_mem hm' hd] at value
    obtain rfl : d = c := (hnormal' _ hd).1.eq_of_eval_eq (hnormal _ ht).1 value
    exact hd
  · rw [coefficientAt_of_notMem hv, Expression.eval_zero] at value
    exact absurd ((hm.canonical _ ht).eval_X_eq_zero.mp value.symm) (hnormal _ ht).2

theorem perm_of_eval_eq (hm : m.IsRegular scope) (hm' : m'.IsRegular scope)
    (hscope : scope.Nodup) (hnormal : m.IsNormal) (hnormal' : m'.IsNormal)
    (h : m.eval (scopePoint scope (X : Symbol → MvPolynomial Symbol ℚ)) scope =
      m'.eval (scopePoint scope X) scope) : m.Perm m' :=
  (List.perm_ext_iff_of_nodup (hm.distinct.of_map _) (hm'.distinct.of_map _)).mpr (fun _ =>
    ⟨mem_of_eval_eq hm hm' hscope hnormal hnormal' h,
      mem_of_eval_eq hm' hm hscope hnormal' hnormal h.symm⟩)

theorem totalDegree_eq_of_perm (h : m.Perm m') : m.totalDegree = m'.totalDegree := by
  have largest (m : CoefficientMap Rat) :
      m.totalDegree = (m.map (fun pair => totalDegreeOf pair.1)).max?.getD 0 := by
    rw [CoefficientMap.totalDegree]
    cases m.map (fun pair => totalDegreeOf pair.1) <;> rfl
  have degrees := h.map (fun pair => totalDegreeOf pair.1)
  rw [largest, largest]
  congr 1
  ext d
  simp only [List.max?_eq_some_iff, degrees.mem_iff]

end CoefficientMap

/-! ## New names for a scope -/

/-- A polynomial that is affine in decisions has the same coefficients under new names. -/
theorem perm_of_isRenamed {f : String → String} {e e' : Expression Rat} (h : e.IsRenamed f e')
    {scope decisions : List Symbol} (hscope : (scope.map (Symbol.rename f)).Nodup)
    (hnamed : ∀ s ∈ scope, s.isNamed = true) (hdecisions : ∀ s ∈ decisions, s.isNamed = false)
    (haffine : e.eval X ∈ affineSpan scope decisions) {m m' : CoefficientMap Rat}
    (hm : coefficients e scope = .ok m)
    (hm' : coefficients e' (scope.map (Symbol.rename f)) = .ok m') : m.Perm m' := by
  have regular := isRegular_of_coefficients h.isPolynomial_left hm
  have disjoint : ∀ s ∈ decisions, s ∉ scope := by
    intro s hs hmem
    simpa [hdecisions s hs] using hnamed s hmem
  have inner : ∀ t ∈ m, ∀ s ∈ t.2.symbols, s.isNamed = false := fun t ht s hs =>
    hdecisions s (symbols_of_coefficients h.isPolynomial_left (hscope.of_map _) disjoint haffine
      hm ht s hs)
  have renamed : m.IsRegular (scope.map (Symbol.rename f)) := by
    refine ⟨regular.distinct, fun t ht => ?_, regular.canonical, fun t ht s hs hmem => ?_⟩
    · rw [List.length_map]
      exact regular.vectors t ht
    · obtain ⟨u, hu, rfl⟩ := List.mem_map.mp hmem
      have named := hnamed u hu
      rw [← Symbol.isNamed_rename f, inner t ht _ hs] at named
      simp at named
  refine CoefficientMap.perm_of_eval_eq renamed (isRegular_of_coefficients h.isPolynomial_right hm')
    hscope (isNormal_of_coefficients h.isPolynomial_left hm)
    (isNormal_of_coefficients h.isPolynomial_right hm') ?_
  rw [eval_of_coefficients _ h.isPolynomial_right hm', h.eval,
    ← eval_of_coefficients _ h.isPolynomial_left hm]
  unfold CoefficientMap.eval
  congr 1
  refine List.map_congr_left (fun t ht => ?_)
  rw [monomialValue_rename]
  congr 1
  refine Expression.eval_congr _ (fun s hs => ?_)
  rw [Symbol.rename_of_not_isNamed f (inner t ht s hs)]

end HybridRelaxation
