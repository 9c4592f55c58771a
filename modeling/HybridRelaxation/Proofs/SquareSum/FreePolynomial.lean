import Mathlib
import HybridRelaxation.Proofs.Expression.PowerProduct
import HybridRelaxation.Proofs.Polynomial.Collecting
import HybridRelaxation.SquareSum.Program

/-!
# Coefficients of free polynomials

Over numbers of any kind in which one is one, the coefficients of a free polynomial are its
symbols, each at the vector of its monomial.
-/

namespace HybridRelaxation

/-! ## Powers of a vector -/

def vectorPowers (scope : List Symbol) (v : Exponents) : List (Symbol × ℤ) :=
  (List.zipWith nonzeroPower scope v).flatten

theorem vectorPowers_cons (s : Symbol) (scope : List Symbol) (k : ℤ) (v : Exponents) :
    vectorPowers (s :: scope) (k :: v) = nonzeroPower s k ++ vectorPowers scope v := rfl

theorem mem_vectorPowers {scope : List Symbol} {v : Exponents} {power : Symbol × ℤ}
    (h : power ∈ vectorPowers scope v) : power.1 ∈ scope ∧ power.2 ≠ 0 := by
  induction scope generalizing v with
  | nil => simp [vectorPowers] at h
  | cons s scope ih =>
      cases v with
      | nil => simp [vectorPowers] at h
      | cons k v =>
          rw [vectorPowers_cons, List.mem_append] at h
          rcases h with h | h
          · obtain ⟨rfl, hk⟩ := mem_nonzeroPower.mp h
            exact ⟨by simp, hk⟩
          · exact ⟨List.mem_cons_of_mem _ (ih h).1, (ih h).2⟩

theorem areDistinctPowers_vectorPowers {scope : List Symbol} (hscope : scope.Nodup)
    (v : Exponents) : AreDistinctPowers (vectorPowers scope v) := by
  refine ⟨?_, fun power hpower => (mem_vectorPowers hpower).2⟩
  induction scope generalizing v with
  | nil => simp [vectorPowers]
  | cons s scope ih =>
      obtain ⟨hs, hscope⟩ := List.nodup_cons.mp hscope
      cases v with
      | nil => simp [vectorPowers]
      | cons k v =>
          rw [vectorPowers_cons, List.map_append]
          refine List.nodup_append.mpr ⟨?_, ih hscope v, ?_⟩
          · unfold nonzeroPower
            split <;> simp
          · intro t ht t' ht' heq
            obtain ⟨first, hfirst, rfl⟩ := List.mem_map.mp ht
            obtain ⟨power, hpower, rfl⟩ := List.mem_map.mp ht'
            obtain ⟨rfl, -⟩ := mem_nonzeroPower.mp hfirst
            have same : s = power.1 := heq
            exact hs (same ▸ (mem_vectorPowers hpower).1)

theorem areDistinctPowers_cons {scope : List Symbol} (hscope : scope.Nodup) {s : Symbol}
    (hs : s ∉ scope) (v : Exponents) : AreDistinctPowers ((s, 1) :: vectorPowers scope v) := by
  have rest := areDistinctPowers_vectorPowers hscope v
  refine ⟨?_, fun power hpower => ?_⟩
  · rw [List.map_cons, List.nodup_cons]
    refine ⟨fun h => ?_, rest.distinct⟩
    obtain ⟨power, hpower, rfl⟩ := List.mem_map.mp h
    exact hs (mem_vectorPowers hpower).1
  · rcases List.mem_cons.mp hpower with rfl | h
    · exact one_ne_zero
    · exact rest.nonzero power h

def totalPower (s : Symbol) (powers : List (Symbol × ℤ)) : ℤ :=
  (powers.map (fun power => if power.1 = s then (power.2.toNat : ℤ) else 0)).sum

theorem totalPower_eq_zero {s : Symbol} {powers : List (Symbol × ℤ)}
    (h : ∀ power ∈ powers, power.1 ≠ s) : totalPower s powers = 0 := by
  refine List.sum_eq_zero (fun k hk => ?_)
  obtain ⟨power, hpower, rfl⟩ := List.mem_map.mp hk
  exact if_neg (h power hpower)

theorem totalPower_nonzeroPower (s t : Symbol) (k : ℤ) :
    totalPower s (nonzeroPower t k) = if t = s then (k.toNat : ℤ) else 0 := by
  unfold nonzeroPower
  split
  · next h => simp [totalPower, h]
  · simp [totalPower]

theorem map_totalPower {scope : List Symbol} (hscope : scope.Nodup) {v : Exponents}
    (hv : v.IsNatural scope.length) :
    scope.map (fun s => totalPower s (vectorPowers scope v)) = v := by
  induction scope generalizing v with
  | nil => exact (Exponents.isNatural_zero.mp hv).symm
  | cons s scope ih =>
      obtain ⟨hs, hscope⟩ := List.nodup_cons.mp hscope
      cases v with
      | nil => simp at hv
      | cons k v =>
          obtain ⟨hk, hv⟩ := Exponents.isNatural_cons.mp hv
          have sum (t : Symbol) : totalPower t (vectorPowers (s :: scope) (k :: v)) =
              (if s = t then (k.toNat : ℤ) else 0) + totalPower t (vectorPowers scope v) := by
            rw [← totalPower_nonzeroPower, vectorPowers_cons]
            simp [totalPower]
          have absent : totalPower s (vectorPowers scope v) = 0 :=
            totalPower_eq_zero (fun power hpower heq => hs (heq ▸ (mem_vectorPowers hpower).1))
          rw [List.map_cons, sum, if_pos rfl, absent, add_zero, Int.toNat_of_nonneg hk]
          congr 1
          refine Eq.trans (List.map_congr_left (fun t ht => ?_)) (ih hscope hv)
          have other : s ≠ t := fun heq => hs (heq ▸ ht)
          rw [sum, if_neg other, zero_add]

/-! ## Parts of a product -/

section Parts

variable {K : Type}

theorem factors_selectFactors (scope : List Symbol) (dependent : Bool) : ∀ p : Product K,
    (selectFactors scope dependent p).factors = p.factors.filter
      (fun f => dependsOn scope (f.1.symbols ++ f.2.symbols) = dependent)
  | .one => rfl
  | .times b x p => by
      have rest := factors_selectFactors scope dependent p
      rw [selectFactors, Product.factors_times, List.filter_cons]
      split <;> simp_all

theorem dependsOn_symbolPower (scope : List Symbol) (power : Symbol × ℤ) :
    dependsOn scope ((symbolPower (K := K) power).1.symbols ++
      (symbolPower (K := K) power).2.symbols) = decide (power.1 ∈ scope) := by
  simp [symbolPower, dependsOn, Base.symbols, Exponent.symbols]

theorem Product.Holds.selectFactors {p : Product K} {powers : List (Symbol × ℤ)}
    (h : p.Holds powers) (scope : List Symbol) (dependent : Bool) :
    (HybridRelaxation.selectFactors scope dependent p).Holds
      (powers.filter (fun power => decide (power.1 ∈ scope) = dependent)) := by
  rw [Product.Holds, factors_selectFactors]
  refine (h.filter _).trans ?_
  rw [List.filter_map]
  simp only [Function.comp_def, dependsOn_symbolPower]
  exact .refl _

variable [Scalar K]

theorem CoefficientMap.gathered_of_nodup {v : Exponents} {c : Expression K}
    {parts : List (Exponents × Expression K)} (h : (parts.map Prod.fst).Nodup) :
    gathered v parts = some c ↔ (v, c) ∈ parts := by
  induction parts with
  | nil => simp [gathered]
  | cons part parts ih =>
      obtain ⟨w, d⟩ := part
      obtain ⟨hw, hparts⟩ := List.nodup_cons.mp h
      by_cases hwv : w = v
      · have other : ∀ part ∈ parts, part.1 ≠ v := fun part hpart heq =>
          hw (List.mem_map.mpr ⟨part, hpart, heq.trans hwv.symm⟩)
        have absent : parts.filter (fun part => part.1 = v) = [] :=
          List.filter_eq_nil_iff.mpr (fun part hpart => by simpa using other part hpart)
        have notMem : (v, c) ∉ parts := fun hmem => other _ hmem rfl
        simp only [gathered, List.filter_cons, hwv, decide_true, if_true, absent, List.foldl_nil,
          Option.some.injEq, List.mem_cons, Prod.mk.injEq, true_and, notMem, or_false]
        exact eq_comm
      · have rest := ih hparts
        simpa [gathered, hwv, Ne.symm hwv] using rest

variable [Scalar.HasUnits K]

theorem natural?_toExpression (k : ℤ) :
    ((Exponent.integer k : Exponent K).toExpression.natural?.getD 0 : ℤ) = (k.toNat : ℤ) := by
  rw [Exponent.toExpression, Expression.ofInt, Expression.natural?, Expression.number?_number,
    Option.bind_some, Scalar.HasUnits.integer?_ofInt]
  cases k <;> rfl

theorem powerOf_basePowers {p : Product K} {powers : List (Symbol × ℤ)} (h : p.Holds powers)
    (hpowers : AreDistinctPowers powers) (s : Symbol) :
    powerOf s p.basePowers = totalPower s powers := by
  have distinct := ((hpowers.areApart (K := K)).perm h.symm).distinct
  have sum (fs : List (BasePower K)) : powerOf s fs = (fs.map (fun power =>
      if power.1 = .symbol s then (power.2.natural?.getD 0 : ℤ) else 0)).sum := by
    induction fs with
    | nil => rfl
    | cons power fs ih => rw [powerOf, ih, List.map_cons, List.sum_cons]
  rw [basePowers_of_nodup distinct, sum, List.map_map, (h.map _).sum_eq, List.map_map, totalPower]
  congr 1
  refine List.map_congr_left (fun power _ => ?_)
  simp [symbolPower, natural?_toExpression]

def templatePowers (scope : List Symbol) (s : Symbol) (v : Exponents) : List (Symbol × ℤ) :=
  (s, 1) :: vectorPowers scope v

theorem part_of_termLeaves {scope : List Symbol} (hscope : scope.Nodup) {s : Symbol}
    (hs : s ∉ scope) {v : Exponents} (hv : v.IsNatural scope.length) {p : Product K}
    (hp : p.Holds (templatePowers scope s v)) {part : Exponents × Expression K}
    (h : TermLeaves scope (1, p) part) : part = (v, .ofSymbol s) := by
  obtain ⟨free, split, hpart⟩ := h
  have inside : ∀ power ∈ vectorPowers scope v, decide (power.1 ∈ scope) = true :=
    fun power hpower => decide_eq_true (mem_vectorPowers hpower).1
  have dependent : (selectFactors scope true p).Holds (vectorPowers scope v) := by
    have selected := hp.selectFactors scope true
    rwa [templatePowers, List.filter_cons_of_neg (by simpa using hs),
      List.filter_eq_self.mpr (fun power hpower => by simpa using inside power hpower)] at selected
  have others : (selectFactors scope false p).Holds [(s, 1)] := by
    have selected := hp.selectFactors scope false
    rwa [templatePowers, List.filter_cons_of_pos (by simpa using hs),
      List.filter_eq_nil_iff.mpr (fun power hpower => by simpa using inside power hpower)] at selected
  have vector : part.1 = v := by
    rw [← map_totalPower hscope hv]
    refine List.ext_getElem (by rw [split.natural.length, List.length_map]) (fun i hi hi' => ?_)
    rw [List.length_map] at hi'
    have entry := split.vector i scope[i] (List.getElem?_eq_getElem hi')
    rw [powerOf_basePowers dependent (areDistinctPowers_vectorPowers hscope v)] at entry
    rw [List.getElem_map]
    exact Option.some.inj ((List.getElem?_eq_getElem hi).symm.trans entry)
  have left : free = .times (.symbol s) (.integer 1) .one := by
    rw [split.free_eq]
    exact others.eq_times
  refine Prod.ext vector (hpart.trans ?_)
  have holds : (Product.times (.symbol s) (.integer 1) .one : Product K).Holds [(s, 1)] := .refl _
  rw [left]
  exact Expression.ofTerm_of_holds holds

end Parts

/-! ## Free polynomials -/

section Free

variable {K : Type} [Scalar K] [Scalar.HasUnits K] {scope symbols : List Symbol}

theorem forall₂_isProductOf_intPower (scope : List Symbol) (v : Exponents) :
    List.Forall₂ Expression.IsProductOf
      (List.zipWith (fun s k => (Expression.ofSymbol s : Expression K).intPower k) scope v)
      (List.zipWith nonzeroPower scope v) := by
  induction scope generalizing v with
  | nil => exact .nil
  | cons s scope ih =>
      cases v with
      | nil => exact .nil
      | cons k v => exact .cons (Expression.isProductOf_intPower s k) (ih v)

theorem isProductOf_monomial (hscope : scope.Nodup) (v : Exponents) :
    (monomial scope v : Expression K).IsProductOf (vectorPowers scope v) :=
  Expression.isProductOf_product (forall₂_isProductOf_intPower scope v)
    (areDistinctPowers_vectorPowers hscope v)

theorem monomial_injective (hscope : scope.Nodup) {v w : Exponents}
    (hv : v.IsNatural scope.length) (hw : w.IsNatural scope.length)
    (h : (monomial scope v : Expression K) = monomial scope w) : v = w := by
  obtain ⟨p, hp, left⟩ := isProductOf_monomial (K := K) hscope v
  obtain ⟨q, hq, right⟩ := isProductOf_monomial (K := K) hscope w
  obtain rfl : p = q := (Expression.plus.inj (hp.symm.trans (h.trans hq))).2.1
  rw [← map_totalPower hscope hv, ← map_totalPower hscope hw]
  exact List.map_congr_left (fun s _ => ((left.perm_powers right).map _).sum_eq)

theorem monomial_replicate (hscope : scope.Nodup) :
    (monomial scope (List.replicate scope.length 0) : Expression K) = .number 1 := by
  have none : vectorPowers scope (List.replicate scope.length 0) = [] := by
    clear hscope
    induction scope with
    | nil => rfl
    | cons s scope ih => rw [List.length_cons, List.replicate_succ, vectorPowers_cons, ih]; rfl
  obtain ⟨p, hp, holds⟩ := isProductOf_monomial (K := K) hscope (List.replicate scope.length 0)
  rw [none] at holds
  rw [hp, holds.eq_one, Expression.number, if_neg Scalar.HasUnits.one_ne_zero]

def templates (scope symbols : List Symbol) (vectors : List Exponents) :
    List (List (Symbol × ℤ)) :=
  List.zipWith (templatePowers scope) symbols vectors

theorem pairwise_templates (hsymbols : symbols.Nodup) (hfresh : ∀ s ∈ symbols, s ∉ scope)
    (vectors : List Exponents) : (templates scope symbols vectors).Pairwise
      (fun powers powers' => ¬ powers.Perm powers') := by
  induction symbols generalizing vectors with
  | nil => simp [templates]
  | cons s symbols ih =>
      obtain ⟨hs, hsymbols⟩ := List.nodup_cons.mp hsymbols
      cases vectors with
      | nil => simp [templates]
      | cons v vectors =>
          refine List.pairwise_cons.mpr ⟨fun powers hpowers same => ?_,
            ih hsymbols (fun t ht => hfresh t (by simp [ht])) vectors⟩
          obtain ⟨i, hi, rfl⟩ := List.mem_iff_getElem.mp hpowers
          rw [List.length_zipWith] at hi
          rw [List.getElem_zipWith] at same
          have first : (s, (1 : ℤ)) ∈ templatePowers scope s v := by simp [templatePowers]
          rcases List.mem_cons.mp (same.mem_iff.mp first) with h | h
          · exact hs ((Prod.mk.inj h).1 ▸ List.getElem_mem _)
          · exact hfresh s (by simp) (mem_vectorPowers h).1

theorem isSumOf_combination (hscope : scope.Nodup) (hsymbols : symbols.Nodup)
    (hfresh : ∀ s ∈ symbols, s ∉ scope) (degree : ℤ) :
    (SquareProgram.combination symbols (monomials scope degree 0) : Expression K).IsSumOf
      (templates scope symbols (exponents scope.length degree 0)) := by
  refine Expression.isSumOf_sum ?_ (pairwise_templates hsymbols hfresh _)
  rw [monomials]
  generalize exponents scope.length degree 0 = vectors
  clear hsymbols
  induction symbols generalizing vectors with
  | nil => simp [templates]
  | cons s symbols ih =>
      cases vectors with
      | nil => simp [templates]
      | cons v vectors =>
          refine .cons ?_ (ih (fun t ht => hfresh t (by simp [ht])) vectors)
          exact Expression.isProductOf_mul (Expression.isProductOf_ofSymbol s)
            (isProductOf_monomial hscope v) (areDistinctPowers_cons hscope (hfresh s (by simp)) v)

theorem sublist_zipWith {α β : Type*} (xs : List α) (ys : List β) :
    (List.zipWith (fun _ y => y) xs ys).Sublist ys := by
  induction xs generalizing ys with
  | nil => simp
  | cons x xs ih =>
      cases ys with
      | nil => simp
      | cons y ys => exact (ih ys).cons_cons y

theorem parts_of_templates (hscope : scope.Nodup) (hfresh : ∀ s ∈ symbols, s ∉ scope)
    {vectors : List Exponents} (hvectors : ∀ v ∈ vectors, v.IsNatural scope.length)
    {ps : List (Product K)} (holds : List.Forall₂ Product.Holds ps (templates scope symbols vectors))
    {parts : List (Exponents × Expression K)}
    (leaves : List.Forall₂ (TermLeaves scope) (ps.map (fun p => (1, p))) parts) :
    parts = List.zipWith (fun s v => (v, .ofSymbol s)) symbols vectors := by
  induction symbols generalizing vectors ps parts with
  | nil =>
      cases holds
      cases leaves
      rfl
  | cons s symbols ih =>
      cases vectors with
      | nil =>
          cases holds
          cases leaves
          rfl
      | cons v vectors =>
          cases holds with
          | cons head tail =>
              cases leaves with
              | cons first rest =>
                  rw [List.zipWith_cons_cons, part_of_termLeaves hscope (hfresh s (by simp))
                    (hvectors v (by simp)) head first, ih (fun t ht => hfresh t (by simp [ht]))
                    (fun w hw => hvectors w (by simp [hw])) tail rest]

/-- The coefficients of a free polynomial are its symbols, each at the vector of its monomial. -/
theorem mem_coefficients_combination (hscope : scope.Nodup) (hsymbols : symbols.Nodup)
    (hfresh : ∀ s ∈ symbols, s ∉ scope) {degree : ℤ} {m : CoefficientMap K}
    (h : coefficients (SquareProgram.combination symbols (monomials scope degree 0)) scope = .ok m)
    {v : Exponents} {c : Expression K} :
    (v, c) ∈ m ↔ (v, c) ∈ List.zipWith (fun s v => (v, Expression.ofSymbol s)) symbols
      (exponents scope.length degree 0) := by
  have template : ∀ powers ∈ templates scope symbols (exponents scope.length degree 0),
      AreDistinctPowers powers := by
    intro powers hpowers
    obtain ⟨i, hi, rfl⟩ := List.mem_iff_getElem.mp hpowers
    simp only [templates, List.getElem_zipWith]
    exact areDistinctPowers_cons hscope (hfresh _ (List.getElem_mem _)) _
  obtain ⟨ps, perm, holds⟩ := Expression.isSumOf_expand
    (isSumOf_combination (K := K) hscope hsymbols hfresh degree) template
    (pairwise_templates hsymbols hfresh _)
  obtain ⟨parts, leaves, gathers⟩ := (collects_of_coefficients hscope h).gathers
  have units : ∀ t ∈ (SquareProgram.combination symbols (monomials scope degree 0) :
      Expression K).expand.terms, (!Scalar.isZero t.1) = true := by
    intro t ht
    obtain ⟨p, -, rfl⟩ := List.mem_map.mp (perm.mem_iff.mp ht)
    simp
  rw [List.filter_eq_self.mpr units] at leaves
  obtain ⟨parts', leaves', same⟩ := List.perm_comp_forall₂ perm.symm leaves
  rw [parts_of_templates hscope hfresh (fun v hv => (Exponents.mem_exponents.mp hv).1) holds
    leaves'] at same
  have keys : (parts.map Prod.fst).Nodup := by
    refine (same.map Prod.fst).nodup_iff.mp ?_
    rw [List.map_zipWith]
    exact (Exponents.nodup_exponents _ _ _).sublist (sublist_zipWith symbols _)
  rw [gathers, CoefficientMap.gathered_of_nodup keys, ← same.mem_iff, and_iff_left_iff_imp]
  intro hmem
  obtain ⟨i, hi, heq⟩ := List.mem_iff_getElem.mp hmem
  rw [List.getElem_zipWith] at heq
  rw [← (Prod.mk.inj heq).2]
  rfl

end Free

/-! ## Linear forms of symbols -/

section Linear

variable {K : Type} [Scalar K] [Scalar.HasUnits K]

namespace Expression

theorem ofSymbol_mul_reciprocal (s : Symbol) :
    (ofSymbol s : Expression K).mul (ofSymbol s).reciprocal = .plus 1 .one .zero := by
  obtain ⟨p, hp, inverse⟩ := isProductOf_intPower (K := K) s (-1)
  have reciprocal : (ofSymbol s : Expression K).reciprocal =
      .plus 1 (.times (.symbol s) (.integer (-1)) .one) .zero := by
    rw [Expression.reciprocal, hp, Product.Holds.eq_times inverse]
  have factors : FactorList.ofExpressions [(ofSymbol s : Expression K), (ofSymbol s).reciprocal] =
      ⟨1, [(.symbol s, .integer 1), (.symbol s, .integer (-1))]⟩ := by
    rw [reciprocal]
    simp [ofSymbol, FactorList.ofExpressions, FactorList.addDirect, FactorList.addNested]
  rw [mul_of_isPlain factors (by simp [FactorList.isPlain, Factor.isInert_symbol])]
  simp [FactorList.multiply, Product.ofFactors, Product.multiply, Product.combine?,
    Product.insert, ofTerm]

end Expression

theorem linearForm_ofSymbol {index : Symbol → Option ℤ} {s : Symbol} {column : ℤ}
    (h : index s = some column) : linearForm (.ofSymbol s : Expression K) index =
      .ok ⟨[(column, Scalar.machine (Scalar.measured 0 + Scalar.machine 1))],
        Scalar.machine (Scalar.measured 0)⟩ := by
  have power : (Expression.ofTerm 1 (.times (.symbol s) (.integer 1) .one) : Expression K) =
      .ofSymbol s := by simp [Expression.ofTerm, Expression.ofSymbol]
  have one : (Expression.number 1 : Expression K) = .plus 1 .one .zero := by
    simp [Expression.number]
  have number : (Expression.number 1 : Expression K).mul (.plus 1 .one .zero) =
      .plus 1 .one .zero := by
    have factors : FactorList.ofExpressions [(Expression.number 1 : Expression K),
        .plus 1 .one .zero] = ⟨1, []⟩ := by
      simp [one, FactorList.ofExpressions, FactorList.addDirect, FactorList.addNested]
    rw [Expression.mul_of_isPlain factors (by simp [FactorList.isPlain])]
    simp [FactorList.multiply, Product.ofFactors, Expression.ofTerm]
  have finite : Scalar.kind (1 : K) ≠ .unsignedInfinity := by
    intro heq
    have kind := Scalar.HasUnits.finite?_one (K := K)
    simp [Scalar.finite?, heq] at kind
  have value : (Expression.plus 1 .one .zero : Expression K).machineValue =
      .ok (Scalar.machine 1) := by
    simp [Expression.machineValue, Expression.number?, finite]
  have quotient := Expression.ofSymbol_mul_reciprocal (K := K) s
  have terms : (Expression.ofSymbol s : Expression K).terms =
      [(1, .times (.symbol s) (.integer 1) .one)] := rfl
  rw [linearForm, Expression.expand_ofSymbol, terms]
  simp [addLinearTerm, Product.symbols, Base.symbols, Exponent.symbols, List.eraseDups_cons, h,
    power, quotient, number, value, LinearForm.addAt, Expression.symbols]

end Linear

end HybridRelaxation
