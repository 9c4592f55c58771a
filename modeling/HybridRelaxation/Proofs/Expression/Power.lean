import Mathlib
import HybridRelaxation.Expression.Arithmetic
import HybridRelaxation.Proofs.Expression.Multiplication

/-!
# Values of simplified products and powers

The simplification rules work on levels, each with the operations of the level below.  On
polynomial expressions every level multiplies values, a power of a sum stays a power of that sum,
and from the second level on natural powers raise values.  No rule for roots, functions or complex
numbers applies.
-/

namespace HybridRelaxation

variable {R : Type*} [CommRing R] [Algebra ℚ R] (ρ : Symbol → R)

/-! ## Natural exponents -/

namespace Scalar

@[simp] theorem integer?_natCast (n : ℕ) : Scalar.integer? (n : Rat) = some (n : ℤ) := by
  simp [Scalar.integer?, Scalar.exactValue?]

@[simp] theorem exactValue?_rat (q : Rat) : Scalar.exactValue? q = some q := rfl

theorem power_rat (q : Rat) (n : ℕ) : Scalar.power q (n : ℤ) = q ^ n := by
  change Rat.zpow q n = q ^ n
  rfl

end Scalar

namespace Expression

theorem eval_ofFactor_natural (b : Base Rat) (n : ℕ) :
    (ofFactor b (.integer (n : ℤ))).eval ρ = b.eval ρ ^ n := by
  rw [eval_ofFactor, Exponent.natural_integer, Int.toNat_natCast]

theorem ofExpression_number {n : ℕ} (h : n ≠ 0) :
    Exponent.ofExpression (number (n : Rat)) = .integer n := by
  have hn : (n : Rat) ≠ 0 := by exact_mod_cast h
  simp [number, hn, Exponent.ofExpression, Exponent.ofNumber]

theorem unevaluatedPower_of_isSum {g : Expression Rat} {n : ℕ} (hg : g.isSum = true) (h : n ≠ 0) :
    unevaluatedPower g (number (n : Rat)) = .ofFactor (.group g) (.integer n) := by
  obtain ⟨c, p, d, q, f, rfl⟩ := exists_of_isSum hg
  have hbase : Base.ofExpression (Expression.plus c p (.plus d q f)) =
      .group (.plus c p (.plus d q f)) := by
    cases p <;> simp [Base.ofExpression, number?, factor?]
  rw [unevaluatedPower, hbase, ofExpression_number h]

theorem unevaluatedPower_symbol (s : Symbol) {n : ℕ} (h : n ≠ 0) :
    unevaluatedPower (.ofFactor (.symbol s) (.integer 1)) (number (n : Rat)) =
      .ofFactor (.symbol s) (.integer n) := by
  rw [unevaluatedPower, ofExpression_number h]
  simp [Base.ofExpression, ofFactor, number?, factor?]

/-! ## No imaginary numbers -/

theorem imaginaryCoefficient?_eq_none {e : Expression Rat} (he : e.IsPolynomial) :
    e.imaginaryCoefficient? = none := by
  match e, he with
  | .zero, _ => rfl
  | .plus c p (.plus d q f), _ => rfl
  | .plus c p .zero, he =>
      have hp := (Product.isPolynomial_iff_factors p).mp ((isPolynomial_plus c p .zero).mp he).1
      have none : p.factors.any (fun f => f.1 = .number (Scalar.ofInt (-1)) &&
          f.2.rational? = some (1 / 2)) = false := by
        rw [List.any_eq_false]
        intro f hf
        obtain ⟨hbase, -⟩ := hp f hf
        have hne : f.1 ≠ .number (Scalar.ofInt (-1)) := by
          intro heq
          simp [heq] at hbase
        simp [hne]
      simp only [imaginaryCoefficient?, none, Bool.false_eq_true, if_false]

theorem complexParts?_eq_none {e : Expression Rat} (he : e.IsPolynomial) :
    e.complexParts? = none := by
  match e, he with
  | .zero, _ => rfl
  | .plus c .one f, he =>
      simp [complexParts?, imaginaryCoefficient?_eq_none ((isPolynomial_plus c .one f).mp he).2]
  | .plus c (.times b x p) f, he =>
      simp [complexParts?, imaginaryCoefficient?_eq_none he]

theorem largestCoefficient?_rat (e : Expression Rat) : Rules.largestCoefficient? e = none := by
  simp [Rules.largestCoefficient?]

end Expression

namespace Rules

open Expression

/-! ## Powers of sums and symbols -/

theorem sumPower_eq_none (r : Rules Rat) {g : Expression Rat} (hg : g.IsPolynomial) (c : Rat) :
    sumPower r g c = none := by
  simp [sumPower, complexParts?_eq_none hg, largestCoefficient?_rat]

theorem powerOf_number (r : Rules Rat) (b : Expression Rat) {n : ℕ} (h : 2 ≤ n) :
    powerOf r b (number (n : Rat)) = generalPower r b (number (n : Rat)) := by
  have hzero : n ≠ 0 := by omega
  have hone : n ≠ 1 := by omega
  simp [powerOf, hzero, hone]

theorem power_succ (level : ℕ) (b : Expression Rat) {n : ℕ} (h : 2 ≤ n) :
    (ofLevel (level + 1) : Rules Rat).power b (number (n : Rat)) =
      generalPower (ofLevel level) b (number (n : Rat)) :=
  powerOf_number _ b h

theorem powerOf_zero (r : Rules Rat) (b : Expression Rat) :
    powerOf r b (number 0) = number 1 := by
  simp [powerOf, number?]

theorem powerOf_one (r : Rules Rat) (b : Expression Rat) : powerOf r b (number 1) = b := by
  simp [powerOf]

theorem power_of_isSum (level : ℕ) {g : Expression Rat} (hsum : g.isSum = true)
    (hg : g.IsPolynomial) {n : ℕ} (h : 2 ≤ n) :
    (ofLevel level : Rules Rat).power g (number (n : Rat)) =
      .ofFactor (.group g) (.integer n) := by
  cases level with
  | zero => exact unevaluatedPower_of_isSum hsum (by omega)
  | succ level =>
      rw [power_succ _ _ h]
      obtain ⟨c, p, d, q, f, rfl⟩ := exists_of_isSum hsum
      have hbase : powerByBase (ofLevel level) (.plus c p (.plus d q f)) (number (n : Rat)) =
          none := by
        cases p <;> simp [powerByBase, sumPower_eq_none _ hg]
      rw [generalPower, hbase, Option.getD_none]
      exact unevaluatedPower_of_isSum hsum (by omega)

theorem isImaginaryUnit_eq_false {e : Expression Rat} (he : e.IsPolynomial) :
    isImaginaryUnit e = false := by
  have hne : e ≠ imaginaryUnit := by
    rintro rfl
    simp [imaginaryUnit] at he
  simp [isImaginaryUnit, hne]

theorem power_symbol (level : ℕ) (s : Symbol) {n : ℕ} (h : 2 ≤ n) :
    (ofLevel level : Rules Rat).power (.ofFactor (.symbol s) (.integer 1)) (number (n : Rat)) =
      .ofFactor (.symbol s) (.integer n) := by
  cases level with
  | zero => exact unevaluatedPower_symbol s (by omega)
  | succ level =>
      have himaginary : isImaginaryUnit (Expression.plus (1 : Rat)
          (.times (.symbol s) (.integer 1) .one) .zero) = false :=
        isImaginaryUnit_eq_false (by simp)
      have hbase : powerByBase (ofLevel level) (.ofFactor (.symbol s) (.integer 1))
          (number (n : Rat)) = none := by
        simp [ofFactor, powerByBase, himaginary, factor?]
      rw [power_succ _ _ h, generalPower, hbase, Option.getD_none]
      exact unevaluatedPower_symbol s (by omega)

end Rules

/-! ## Products on every level -/

namespace Factor

theorem root?_eq_none {f : Factor Rat} (h : f.IsPolynomial) : f.root? = none := by
  obtain ⟨b, x⟩ := f
  cases b <;> simp_all [IsPolynomial, root?]

theorem isSymbolicPower_eq_false {f : Factor Rat} (h : f.IsPolynomial) :
    f.isSymbolicPower = false := by
  obtain ⟨b, x⟩ := f
  cases b <;> simp_all [IsPolynomial, isSymbolicPower]

theorem cases_of_isPolynomial {f : Factor Rat} (h : f.IsPolynomial) :
    ∃ n : ℕ, 0 < n ∧ ((∃ s, f = (.symbol s, .integer n)) ∨
      ∃ g, g.isSum = true ∧ g.IsPolynomial ∧ f = (.group g, .integer n)) := by
  obtain ⟨b, x⟩ := f
  obtain ⟨hb, hx⟩ := h
  obtain ⟨n, rfl⟩ := Exponent.exists_of_isPositive hx
  refine ⟨n + 1, by omega, ?_⟩
  cases b with
  | symbol s => exact .inl ⟨s, rfl⟩
  | group g =>
      obtain ⟨hsum, hg⟩ := (Base.isPolynomial_group g).mp hb
      exact .inr ⟨g, hsum, hg, rfl⟩
  | constant c => simp at hb
  | number c => simp at hb
  | apply f e => simp at hb

theorem isInert_symbol {K : Type} [Scalar K] (s : Symbol) (n : ℤ) :
    isInert ((.symbol s, .integer n) : Factor K) = true := by
  unfold isInert
  split <;> simp_all
  next x _ heq =>
    rw [← heq.2]
    rfl

theorem power_of_not_isInert (level : ℕ) {f : Factor Rat} (h : f.IsPolynomial)
    (hf : f.isInert = false) :
    (Rules.ofLevel level : Rules Rat).power f.1.toExpression f.2.toExpression = f.expression := by
  obtain ⟨n, positive, ⟨s, rfl⟩ | ⟨g, hsum, hg, rfl⟩⟩ := cases_of_isPolynomial h
  · simp [isInert_symbol] at hf
  · have hn : 2 ≤ n := by
      by_contra hlt
      have : n = 1 := by omega
      simp [isInert, this] at hf
    exact Rules.power_of_isSum level hsum hg hn

end Factor

namespace FactorList

theorem finish_spec {l : FactorList Rat} (h : l.IsPolynomial) :
    l.finish.IsPolynomial ∧ l.finish.eval ρ = l.eval ρ := by
  simp only [finish, Scalar.kind_rat]
  split
  · next hzero =>
      have hc : l.coefficient = 0 := by
        simp only [Scalar.isZero_rat, Bool.and_eq_true, decide_eq_true_eq] at hzero
        exact hzero.1
      have undefined : (Scalar.undefined : Rat) = 0 := rfl
      simp [undefined, eval, hc]
  · exact multiply_spec ρ h

theorem simplify_succ (level fuel : ℕ) {l : FactorList Rat} (h : l.IsPolynomial) :
    l.simplify (Rules.ofLevel level) (fuel + 1) =
      (⟨l.coefficient, (Product.ofFactors l.factors).factors⟩ : FactorList Rat).finish := by
  have factors := (Product.isPolynomial_iff_factors _).mp
    (Product.ofFactors_spec (fun _ => (0 : ℚ)) h).1
  have roots : l.factors.filterMap Factor.root? = [] := by
    rw [List.filterMap_eq_nil_iff]
    exact fun f hf => Factor.root?_eq_none (h f hf)
  have symbolic : l.factors.filter Factor.isSymbolicPower = [] := by
    rw [List.filter_eq_nil_iff]
    intro f hf
    simp [Factor.isSymbolicPower_eq_false (h f hf)]
  have others : l.factors.filter (fun f => f.root?.isNone && !f.isSymbolicPower) =
      l.factors := by
    rw [List.filter_eq_self]
    intro f hf
    simp [Factor.root?_eq_none (h f hf), Factor.isSymbolicPower_eq_false (h f hf)]
  have combined : (Product.ofFactors l.factors).factors.map (fun (f : Factor Rat) =>
      (f, if f.isInert then f.expression
        else (Rules.ofLevel level).power f.1.toExpression f.2.toExpression)) =
      (Product.ofFactors l.factors).factors.map (fun f => (f, Factor.expression f)) := by
    refine List.map_congr_left (fun f hf => ?_)
    cases hinert : f.isInert with
    | true => simp
    | false => simp [Factor.power_of_not_isInert level (factors f hf) hinert]
  have unchanged : ((Product.ofFactors l.factors).factors.map
      (fun f => (f, Factor.expression f))).filter
        (fun entry => decide (entry.2 ≠ Factor.expression entry.1)) = [] := by
    rw [List.filter_eq_nil_iff]
    intro entry hentry
    obtain ⟨f, -, rfl⟩ := List.mem_map.mp hentry
    simp
  have radical : Radical.simplify Radical.depth ⟨1, []⟩ = ⟨1, []⟩ := by decide +kernel
  simp only [simplify, roots, symbolic, others, combined, unchanged, radical]
  simp [mergeBases, Product.ofFactors, Function.comp_def]

theorem simplify_spec (level fuel : ℕ) {l : FactorList Rat} (h : l.IsPolynomial) :
    (l.simplify (Rules.ofLevel level) fuel).IsPolynomial ∧
      (l.simplify (Rules.ofLevel level) fuel).eval ρ = l.eval ρ := by
  cases fuel with
  | zero => exact finish_spec ρ h
  | succ fuel =>
      obtain ⟨polynomial, value⟩ := Product.ofFactors_spec ρ h
      rw [simplify_succ level fuel h]
      obtain ⟨finished, total⟩ := finish_spec ρ
        (l := ⟨l.coefficient, (Product.ofFactors l.factors).factors⟩)
        ((Product.isPolynomial_iff_factors _).mp polynomial)
      refine ⟨finished, total.trans ?_⟩
      rw [eval, eval, ← Product.eval_eq_prod_factors, value]

end FactorList

theorem FactorList.ofExpressions_numbers (c d : Rat) :
    FactorList.ofExpressions [.number c, .number d] = ⟨c * d, []⟩ := by
  by_cases hc : c = 0 <;> by_cases hd : d = 0 <;>
    simp [ofExpressions, addDirect, addNested, Expression.number, hc, hd]

namespace Rules

open Expression

theorem productByFactors_spec (level : ℕ) {es : List (Expression Rat)}
    (h : ∀ e ∈ es, e.IsPolynomial) :
    (productByFactors (ofLevel level) es).IsPolynomial ∧
      (productByFactors (ofLevel level) es).eval ρ = (es.map (Expression.eval ρ)).prod := by
  have hl := FactorList.isPolynomial_ofExpressions h
  rw [← FactorList.eval_ofExpressions, productByFactors]
  cases hplain : (FactorList.ofExpressions es).isPlain with
  | true => simpa [hplain] using FactorList.multiply_spec ρ hl
  | false => simpa [hplain] using FactorList.simplify_spec ρ level FactorList.rounds hl

theorem scaledPair?_spec {e f g : Expression Rat} (he : e.IsPolynomial) (hf : f.IsPolynomial)
    (h : scaledPair? e f = some g) :
    g.IsPolynomial ∧ g.eval ρ = e.eval ρ * f.eval ρ := by
  have scaled {c : Rat} {e : Expression Rat} (he : e.IsPolynomial) (h : scaled? c e = some g) :
      g.IsPolynomial ∧ g.eval ρ = algebraMap ℚ R c * e.eval ρ := by
    simp only [scaled?, Scalar.exactValue?_rat, isBounded_rat] at h
    split at h
    · simp at h
    · obtain rfl : e.scale c = g := by simpa using h
      exact ⟨isPolynomial_scale he, eval_scale ρ c e⟩
  unfold scaledPair? at h
  split at h
  · next c hc _ =>
      rw [number?_eq_some ρ hc]
      exact scaled hf h
  · next d _ hd =>
      obtain ⟨polynomial, value⟩ := scaled he h
      refine ⟨polynomial, ?_⟩
      rw [value, number?_eq_some ρ hd, mul_comm]
  · simp at h

theorem product_spec (level : ℕ) {es : List (Expression Rat)} (h : ∀ e ∈ es, e.IsPolynomial) :
    ((ofLevel level).product es).IsPolynomial ∧
      ((ofLevel level).product es).eval ρ = (es.map (Expression.eval ρ)).prod := by
  cases level with
  | zero =>
      suffices general : ∀ (es : List (Expression Rat)) (e : Expression Rat), e.IsPolynomial →
          (∀ f ∈ es, f.IsPolynomial) →
          (es.foldl plainMul e).IsPolynomial ∧
            (es.foldl plainMul e).eval ρ = e.eval ρ * (es.map (Expression.eval ρ)).prod by
        simpa [ofLevel, building] using general es (number 1) (by simp) h
      intro es
      induction es with
      | nil => intro e he _; simp [he]
      | cons f es ih =>
          intro e he hes
          obtain ⟨polynomial, value⟩ := plainMul_spec ρ he (hes f (by simp))
          obtain ⟨total, product⟩ := ih (e.plainMul f) polynomial (fun g hg => hes g (by simp [hg]))
          refine ⟨total, product.trans ?_⟩
          rw [value, List.map_cons, List.prod_cons, mul_assoc]
  | succ level =>
      change (productOf (ofLevel level) es).IsPolynomial ∧ (productOf (ofLevel level) es).eval ρ = _
      unfold productOf
      split
      · next e => simpa using h e (by simp)
      · next e f =>
          split
          · next value hvalue =>
              simpa using scaledPair?_spec ρ (h e (by simp)) (h f (by simp)) hvalue
          · exact productByFactors_spec ρ level h
      · exact productByFactors_spec ρ level h

theorem product_numbers (level : ℕ) (c d : Rat) :
    (ofLevel level).product [number c, number d] = number (c * d) := by
  cases level with
  | zero =>
      by_cases hc : c = 0 <;> by_cases hd : d = 0 <;>
        simp [ofLevel, building, plainMul, factored, number, ofTerm, hc, hd]
  | succ level =>
      change productOf (ofLevel level) [number c, number d] = _
      have pair : scaledPair? (number c) (number d) = none := by simp [scaledPair?]
      simp [productOf, pair, productByFactors, FactorList.ofExpressions_numbers,
        FactorList.isPlain, FactorList.multiply, Product.ofFactors, ofTerm_one]

/-! ## Powers from the second level on -/

theorem power_factor (level : ℕ) {f : Factor Rat} (hf : f.IsPolynomial) {n : ℕ} (h : 2 ≤ n) :
    (ofLevel (level + 1)).power f.expression (number (n : Rat)) =
      .ofFactor f.1 (.integer ((f.2.natural * n : ℕ) : ℤ)) := by
  have himaginary : isImaginaryUnit f.expression = false :=
    isImaginaryUnit_eq_false (Factor.isPolynomial_expression hf)
  rw [power_succ _ _ h, generalPower]
  obtain ⟨m, positive, hform⟩ := Factor.cases_of_isPolynomial hf
  by_cases hm : m = 1
  · subst hm
    obtain ⟨s, rfl⟩ | ⟨g, hsum, hg, rfl⟩ := hform
    · have hbase : powerByBase (ofLevel level) (Factor.expression (.symbol s, .integer (1 : ℕ)))
          (number (n : Rat)) = none := by
        simp only [Factor.expression, ofFactor, Nat.cast_one] at himaginary
        simp [Factor.expression, ofFactor, powerByBase, factor?, himaginary]
      rw [hbase, Option.getD_none]
      simpa [Factor.expression] using unevaluatedPower_symbol s (show n ≠ 0 by omega)
    · have hbase : powerByBase (ofLevel level) (Factor.expression (.group g, .integer (1 : ℕ)))
          (number (n : Rat)) = some ((ofLevel level).power g (number (n : Rat))) := by
        simp only [Factor.expression, ofFactor, Nat.cast_one] at himaginary
        simp [Factor.expression, ofFactor, powerByBase, factor?, himaginary]
      rw [hbase, Option.getD_some, power_of_isSum level hsum hg h]
      simp
  · have hmn : 2 ≤ m * n := by nlinarith [Nat.pos_of_ne_zero (show m ≠ 0 by omega)]
    have hbase : powerByBase (ofLevel level) f.expression (number (n : Rat)) =
        some ((ofLevel level).power f.1.toExpression (number ((m * n : ℕ) : Rat))) := by
      have hpower : powerByBase (ofLevel level) f.expression (number (n : Rat)) =
          powerOfPower (ofLevel level) f.1 f.2 (number (n : Rat)) := by
        obtain ⟨s, rfl⟩ | ⟨g, hsum, hg, rfl⟩ := hform <;>
          simp only [Factor.expression, ofFactor] at himaginary <;>
          simp [Factor.expression, ofFactor, powerByBase, factor?, himaginary, hm]
      have hexponent : f.2.toExpression = number (m : Rat) := by
        obtain ⟨s, rfl⟩ | ⟨g, hsum, hg, rfl⟩ := hform <;> simp [Exponent.toExpression]
      simp [hpower, powerOfPower, hexponent, product_numbers]
    rw [hbase, Option.getD_some]
    obtain ⟨s, rfl⟩ | ⟨g, hsum, hg, rfl⟩ := hform
    · simpa [Base.toExpression] using power_symbol level s hmn
    · simpa [Base.toExpression] using power_of_isSum level hsum hg hmn

theorem finitePower_natural (c : Rat) {n : ℕ} (h : n ≠ 0) :
    finitePower c (n : Rat) = number (c ^ n) := by
  have positive : 0 < n := by omega
  by_cases hc : c = 0
  · simp [finitePower, hc, h, positive]
  · by_cases hone : c = 1
    · simp [finitePower, hone, h]
    · simp [finitePower, hc, hone, h, Scalar.power_rat]

theorem power_factor_spec (level : ℕ) {f : Factor Rat} (hf : f.IsPolynomial) {n : ℕ}
    (h : 2 ≤ n) :
    ((ofLevel (level + 1)).power f.expression (number (n : Rat))).IsPolynomial ∧
      ((ofLevel (level + 1)).power f.expression (number (n : Rat))).eval ρ = f.eval ρ ^ n := by
  rw [power_factor level hf h]
  obtain ⟨hb, hx⟩ := hf
  constructor
  · have : 0 < f.2.natural := by
      obtain ⟨m, hm⟩ := Exponent.exists_of_isPositive hx
      simp [hm]
    simp only [isPolynomial_ofFactor, Exponent.isPositive_integer]
    exact ⟨hb, by positivity⟩
  · rw [eval_ofFactor_natural, Factor.eval, pow_mul]

theorem signedPower_eq_pow (b : Bool) (c : Rat) (n : ℕ) :
    (if (b && Scalar.isNegative c && (n : ℤ) % 2 = 1) then (Scalar.ofInt (-1) : Rat) else 1) *
      Scalar.power (if (b && Scalar.isNegative c) then -c else c) (n : ℤ) = c ^ n := by
  rw [Scalar.power_rat]
  cases hb : (b && Scalar.isNegative c) with
  | false => simp
  | true =>
      obtain heven | hodd := Nat.even_or_odd n
      · have : ¬ (n : ℤ) % 2 = 1 := by
          obtain ⟨k, hk⟩ := heven
          omega
        simp [this, heven.neg_pow]
      · have : (n : ℤ) % 2 = 1 := by
          obtain ⟨k, hk⟩ := hodd
          omega
        simp [this, hodd.neg_pow, Scalar.ofInt]

theorem productPower_spec (level : ℕ) (c : Rat) {p : Product Rat} (hp : p.IsPolynomial) {n : ℕ}
    (h : 2 ≤ n) :
    ∃ e, productPower (ofLevel (level + 1)) c p (number (n : Rat)) = some e ∧ e.IsPolynomial ∧
      e.eval ρ = (algebraMap ℚ R c * p.eval ρ) ^ n := by
  have factors := (Product.isPolynomial_iff_factors p).mp hp
  have raised (f : Factor Rat) (hf : f ∈ p.factors) :=
    power_factor_spec ρ level (factors f hf) h
  have form : productPower (ofLevel (level + 1)) c p (number (n : Rat)) =
      some ((ofLevel (level + 1)).product (number (c ^ n) :: p.factors.map
        (fun (f : Factor Rat) => (ofLevel (level + 1)).power f.expression (number (n : Rat))))) := by
    simp only [productPower, number?_number, Scalar.finite?_rat, Option.isNone_some,
      Bool.false_eq_true, if_false, Scalar.integer?_natCast, signedPower_eq_pow]
  refine ⟨_, form, ?_⟩
  have polynomial : ∀ e ∈ number (c ^ n) :: p.factors.map (fun (f : Factor Rat) =>
      (ofLevel (level + 1)).power f.expression (number (n : Rat))), e.IsPolynomial := by
    simp only [List.mem_cons, List.mem_map]
    rintro e (rfl | ⟨f, hf, rfl⟩)
    · simp
    · exact (raised f hf).1
  obtain ⟨total, value⟩ := product_spec ρ (level + 1) polynomial
  refine ⟨total, value.trans ?_⟩
  have powers : (p.factors.map (fun (f : Factor Rat) =>
      ((ofLevel (level + 1)).power f.expression (number (n : Rat))).eval ρ)).prod =
        (p.factors.map (Factor.eval ρ)).prod ^ n := by
    rw [List.map_congr_left (fun f hf => (raised f hf).2)]
    exact Multiset.prod_map_pow (m := (p.factors : Multiset (Factor Rat)))
  simp only [List.map_cons, List.map_map, List.prod_cons, eval_number, map_pow,
    Function.comp_def, mul_pow, Product.eval_eq_prod_factors]
  rw [powers]

theorem generalPower_term_spec (level : ℕ) {c : Rat} {b : Base Rat} {x : Exponent Rat}
    {p : Product Rat} (h : (Expression.plus c (.times b x p) .zero).IsPolynomial) {n : ℕ}
    (hn : 2 ≤ n) :
    (generalPower (ofLevel (level + 1)) (.plus c (.times b x p) .zero)
        (number (n : Rat))).IsPolynomial ∧
      (generalPower (ofLevel (level + 1)) (.plus c (.times b x p) .zero)
        (number (n : Rat))).eval ρ = (Expression.plus c (.times b x p) .zero).eval ρ ^ n := by
  have hp := ((isPolynomial_plus _ _ _).mp h).1
  by_cases hfactor : c = 1 ∧ p = .one
  · obtain ⟨rfl, rfl⟩ := hfactor
    have hf : Factor.IsPolynomial (b, x) := by simpa [Factor.IsPolynomial] using hp
    have raised := power_factor_spec ρ (level + 1) hf hn
    rw [power_succ _ _ hn, ← Factor.eval_expression] at raised
    exact raised
  · obtain ⟨e, he, polynomial, value⟩ := productPower_spec ρ level c hp hn
    have hbase : powerByBase (ofLevel (level + 1)) (.plus c (.times b x p) .zero)
        (number (n : Rat)) = some e := by
      rw [← he]
      have hnone : (Expression.plus c (.times b x p) .zero).factor? = none := by
        cases p <;> simp_all [factor?]
      simp [powerByBase, isImaginaryUnit_eq_false h, hnone]
    rw [generalPower, hbase, Option.getD_some]
    refine ⟨polynomial, value.trans ?_⟩
    simp

theorem generalPower_of_number (r : Rules Rat) {b : Expression Rat} {c : Rat}
    (hb : b.number? = some c) {n : ℕ} (h : n ≠ 0) :
    generalPower r b (number (n : Rat)) = number (c ^ n) := by
  have hbase : powerByBase r b (number (n : Rat)) = some (number (c ^ n)) := by
    unfold powerByBase
    split
    · obtain rfl : 0 = c := by simpa [number?] using hb
      simp only [number?_number, finitePower_natural 0 h]
    · obtain rfl : _ = c := by simpa [number?] using hb
      simp only [number?_number, Scalar.kind_rat, finitePower_natural _ h]
    · simp_all [number?]
    · simp_all [number?]
  rw [generalPower, hbase, Option.getD_some]

theorem power_spec (level : ℕ) {b : Expression Rat} (hb : b.IsPolynomial) (n : ℕ) :
    ((ofLevel (level + 2)).power b (number (n : Rat))).IsPolynomial ∧
      ((ofLevel (level + 2)).power b (number (n : Rat))).eval ρ = b.eval ρ ^ n := by
  match n with
  | 0 =>
      have hpower : (ofLevel (level + 2)).power b (number ((0 : ℕ) : Rat)) = number 1 :=
        powerOf_zero (ofLevel (level + 1)) b
      rw [hpower]
      simp
  | 1 =>
      have hpower : (ofLevel (level + 2)).power b (number ((1 : ℕ) : Rat)) = b :=
        powerOf_one (ofLevel (level + 1)) b
      rw [hpower]
      simpa using hb
  | n + 2 =>
      have h : 2 ≤ n + 2 := by omega
      match b, hb with
      | .zero, _ =>
          rw [power_succ _ _ h, generalPower_of_number _ rfl (show n + 2 ≠ 0 by omega)]
          simp
      | .plus c .one .zero, _ =>
          rw [power_succ _ _ h, generalPower_of_number _ rfl (show n + 2 ≠ 0 by omega)]
          simp
      | .plus c (.times b x p) .zero, hb =>
          rw [power_succ _ _ h]
          exact generalPower_term_spec ρ level hb h
      | .plus c p (.plus d q f), hb =>
          rw [power_of_isSum (level + 2) (g := .plus c p (.plus d q f)) rfl hb h]
          constructor
          · simp only [isPolynomial_ofFactor, Base.isPolynomial_group, Exponent.isPositive_integer]
            exact ⟨⟨rfl, hb⟩, by omega⟩
          · rw [eval_ofFactor_natural, Base.eval_group]

end Rules

/-! ## Products and powers -/

namespace Expression

theorem product_spec {es : List (Expression Rat)} (h : ∀ e ∈ es, e.IsPolynomial) :
    (product es).IsPolynomial ∧ (product es).eval ρ = (es.map (eval ρ)).prod := by
  unfold product
  split
  · next e => simpa using h e (by simp)
  · simp only
    split
    · have hl := FactorList.multiply_spec ρ (FactorList.isPolynomial_ofExpressions h)
      rwa [FactorList.eval_ofExpressions] at hl
    · exact Rules.product_spec ρ Rules.levels h

theorem isPolynomial_product {es : List (Expression Rat)} (h : ∀ e ∈ es, e.IsPolynomial) :
    (product es).IsPolynomial := (product_spec (fun _ => (0 : ℚ)) h).1

theorem eval_product {es : List (Expression Rat)} (h : ∀ e ∈ es, e.IsPolynomial) :
    (product es).eval ρ = (es.map (eval ρ)).prod := (product_spec ρ h).2

theorem isPolynomial_mul {e f : Expression Rat} (he : e.IsPolynomial) (hf : f.IsPolynomial) :
    (e * f).IsPolynomial := by
  have factors : ∀ g ∈ [e, f], g.IsPolynomial := by simp [he, hf]
  exact isPolynomial_product factors

theorem eval_mul {e f : Expression Rat} (he : e.IsPolynomial) (hf : f.IsPolynomial) :
    (e * f).eval ρ = e.eval ρ * f.eval ρ := by
  have value : (product [e, f]).eval ρ = _ := eval_product ρ (by simp [he, hf])
  rw [List.map_cons, List.map_cons, List.map_nil, List.prod_cons, List.prod_singleton] at value
  exact value

theorem mul_of_isPlain {K : Type} [Scalar K] {e f : Expression K} {l : FactorList K}
    (hl : FactorList.ofExpressions [e, f] = l) (h : l.isPlain = true) : e.mul f = l.multiply := by
  simp [mul, product, hl, h]

theorem number_mul_number (c d : Rat) : (number c).mul (number d) = number (c * d) := by
  rw [mul_of_isPlain (FactorList.ofExpressions_numbers c d) (by simp [FactorList.isPlain])]
  simp [FactorList.multiply, Product.ofFactors, ofTerm_one]

theorem power_spec {b : Expression Rat} (hb : b.IsPolynomial) (n : ℕ) :
    (b.power (number (n : Rat))).IsPolynomial ∧
      (b.power (number (n : Rat))).eval ρ = b.eval ρ ^ n :=
  Rules.power_spec ρ 38 hb n

theorem intPower_spec {e : Expression Rat} (he : e.IsPolynomial) (n : ℕ) :
    (e.intPower n).IsPolynomial ∧ (e.intPower n).eval ρ = e.eval ρ ^ n := by
  have general : (e.power (ofInt n)).IsPolynomial ∧ (e.power (ofInt n)).eval ρ = e.eval ρ ^ n := by
    simpa using power_spec ρ he n
  unfold intPower
  split
  · next s m hfactor =>
      obtain rfl : e = .ofFactor (.symbol s) (.integer m) := by
        unfold factor? at hfactor
        split at hfactor
        · split at hfactor
          · next hc => simp_all [ofFactor]
          · simp at hfactor
        · simp at hfactor
      have positive : 0 < m := by simpa using he
      lift m to ℕ using positive.le
      by_cases hzero : n = 0
      · simp [hzero, Product.power, ofTerm]
      · have hmn : 0 < m * n := Nat.mul_pos (by omega) (by omega)
        have hne : (m : ℤ) * (n : ℤ) ≠ 0 := by exact_mod_cast hmn.ne'
        constructor
        · refine isPolynomial_ofTerm ?_
          simp only [Product.power, Exponent.integer.injEq, hne, if_false,
            Product.isPolynomial_times, Base.isPolynomial_symbol, Exponent.isPositive_integer,
            Product.isPolynomial_one, true_and, and_true]
          exact_mod_cast hmn
        · rw [eval_ofTerm, eval_ofFactor]
          have natural : ((m : ℤ) * (n : ℤ)).toNat = m * n := by
            rw [← Int.natCast_mul, Int.toNat_natCast]
          simp [Product.power, hne, natural, pow_mul]
  · exact general

end Expression

end HybridRelaxation
