import Mathlib
import HybridRelaxation.Expression.Arithmetic
import HybridRelaxation.Proofs.Expression.Addition

/-!
# Values of products

The product of polynomial expressions is polynomial and has the product of their values.  This
holds on every level of the simplification rules: combining powers of one base adds positive
exponents, and what is simplified further are only powers of sums, which stay as they are.
-/

namespace HybridRelaxation

variable {R : Type*} [CommRing R] [Algebra ℚ R] (ρ : Symbol → R)

/-! ## Powers of one base -/

namespace Exponent

theorem add?_of_isPositive {x y : Exponent Rat} (hx : x.IsPositive) (hy : y.IsPositive) :
    ∃ z, x.add? y = some z ∧ z.IsPositive ∧ z.vanishes = false ∧
      z.natural = x.natural + y.natural := by
  obtain ⟨m, rfl⟩ := exists_of_isPositive hx
  obtain ⟨n, rfl⟩ := exists_of_isPositive hy
  refine ⟨.integer (m + 1 + (n + 1)), rfl, ?_, ?_, ?_⟩
  · simp only [isPositive_integer]
    omega
  · simp only [vanishes_integer, decide_eq_false_iff_not]
    omega
  · simp only [natural_integer]
    omega

theorem vanishes_of_isPositive {x : Exponent Rat} (hx : x.IsPositive) : x.vanishes = false := by
  obtain ⟨n, rfl⟩ := exists_of_isPositive hx
  simp only [vanishes_integer, decide_eq_false_iff_not]
  omega

end Exponent

namespace Product

theorem eval_of_combine? {b : Base Rat} {x : Exponent Rat} {p q : Product Rat}
    (hx : x.IsPositive) (hp : p.IsPolynomial) (h : p.combine? b x = some q) :
    q.eval ρ = b.eval ρ ^ x.natural * p.eval ρ ∧ q.IsPolynomial := by
  induction p generalizing q with
  | one => simp [combine?] at h
  | times c y p ih =>
      obtain ⟨⟨hc, hy⟩, htail⟩ := (isPolynomial_times c y p).mp hp
      by_cases hbc : b = c
      · obtain ⟨z, hz, positive, nonzero, natural⟩ := Exponent.add?_of_isPositive hx hy
        have hq : Product.times c z p = q := by
          simpa [combine?, hbc, hz, nonzero] using h
        subst hq
        constructor
        · simp only [eval_times, natural, pow_add, hbc]
          ring
        · exact (isPolynomial_times c z p).mpr ⟨⟨hc, positive⟩, htail⟩
      · simp only [combine?, hbc, if_false, Option.map_eq_some_iff] at h
        obtain ⟨r, hr, rfl⟩ := h
        obtain ⟨value, polynomial⟩ := ih htail hr
        constructor
        · simp only [eval_times, value]
          ring
        · exact (isPolynomial_times c y r).mpr ⟨⟨hc, hy⟩, polynomial⟩

theorem eval_insert (b : Base Rat) (x : Exponent Rat) (p : Product Rat) :
    (p.insert b x).eval ρ = b.eval ρ ^ x.natural * p.eval ρ := by
  induction p with
  | one => simp [insert]
  | times c y p ih =>
      by_cases hlt : ((b.order c).then (x.order y)) = .lt
      · simp [insert, hlt]
      · simp only [insert, hlt, if_false, eval_times, ih]
        ring

theorem isPolynomial_insert {b : Base Rat} {x : Exponent Rat} {p : Product Rat}
    (hb : b.IsPolynomial) (hx : x.IsPositive) (hp : p.IsPolynomial) :
    (p.insert b x).IsPolynomial := by
  induction p with
  | one => simp [insert, hb, hx]
  | times c y p ih =>
      obtain ⟨hc, htail⟩ := (isPolynomial_times c y p).mp hp
      by_cases hlt : ((b.order c).then (x.order y)) = .lt
      · simp [insert, hlt, hb, hx, hc, htail]
      · simp [insert, hlt, hc, ih htail]

theorem eval_multiply {b : Base Rat} {x : Exponent Rat} {p : Product Rat}
    (hx : x.IsPositive) (hp : p.IsPolynomial) :
    (p.multiply b x).eval ρ = b.eval ρ ^ x.natural * p.eval ρ := by
  simp only [multiply, Exponent.vanishes_of_isPositive hx, Bool.false_eq_true, if_false]
  cases h : p.combine? b x with
  | some q => exact (eval_of_combine? ρ hx hp h).1
  | none => exact eval_insert ρ b x p

theorem isPolynomial_multiply {b : Base Rat} {x : Exponent Rat} {p : Product Rat}
    (hb : b.IsPolynomial) (hx : x.IsPositive) (hp : p.IsPolynomial) :
    (p.multiply b x).IsPolynomial := by
  simp only [multiply, Exponent.vanishes_of_isPositive hx, Bool.false_eq_true, if_false]
  cases h : p.combine? b x with
  | some q => exact (eval_of_combine? (fun _ => (0 : ℚ)) hx hp h).2
  | none => exact isPolynomial_insert hb hx hp

theorem isPolynomial_mul {p q : Product Rat} (hp : p.IsPolynomial) (hq : q.IsPolynomial) :
    (p.mul q).IsPolynomial := by
  induction p with
  | one => exact hq
  | times b x p ih =>
      obtain ⟨⟨hb, hx⟩, htail⟩ := (isPolynomial_times b x p).mp hp
      exact isPolynomial_multiply hb hx (ih htail)

theorem eval_mul {p q : Product Rat} (hp : p.IsPolynomial) (hq : q.IsPolynomial) :
    (p.mul q).eval ρ = p.eval ρ * q.eval ρ := by
  induction p with
  | one => simp
  | times b x p ih =>
      obtain ⟨⟨hb, hx⟩, htail⟩ := (isPolynomial_times b x p).mp hp
      rw [times_mul, eval_multiply ρ hx (isPolynomial_mul htail hq), ih htail, eval_times]
      ring

end Product

/-! ## Lists of factors -/

namespace Factor

def IsPolynomial (f : Factor Rat) : Prop := f.1.IsPolynomial ∧ f.2.IsPositive

def eval (f : Factor Rat) : R := f.1.eval ρ ^ f.2.natural

theorem eval_expression (f : Factor Rat) : f.expression.eval ρ = f.eval ρ :=
  Expression.eval_ofFactor ρ f.1 f.2

theorem isPolynomial_expression {f : Factor Rat} (h : f.IsPolynomial) :
    f.expression.IsPolynomial :=
  (Expression.isPolynomial_ofFactor f.1 f.2).mpr h

end Factor

namespace Product

theorem eval_eq_prod_factors (p : Product Rat) :
    p.eval ρ = (p.factors.map (Factor.eval ρ)).prod := by
  induction p with
  | one => simp
  | times b x p ih => simp [ih, Factor.eval]

theorem isPolynomial_iff_factors (p : Product Rat) :
    p.IsPolynomial ↔ ∀ f ∈ p.factors, Factor.IsPolynomial f := by
  induction p with
  | one => simp
  | times b x p ih => simp [ih, Factor.IsPolynomial]

theorem ofFactors_spec {fs : List (Factor Rat)} (h : ∀ f ∈ fs, Factor.IsPolynomial f) :
    (ofFactors fs).IsPolynomial ∧ (ofFactors fs).eval ρ = (fs.map (Factor.eval ρ)).prod := by
  suffices general : ∀ (fs : List (Factor Rat)) (p : Product Rat), p.IsPolynomial →
      (∀ f ∈ fs, Factor.IsPolynomial f) →
      (fs.foldl (fun p (b, x) => p.multiply b x) p).IsPolynomial ∧
        (fs.foldl (fun p (b, x) => p.multiply b x) p).eval ρ =
          p.eval ρ * (fs.map (Factor.eval ρ)).prod by
    simpa [ofFactors] using general fs .one isPolynomial_one h
  intro fs
  induction fs with
  | nil => intro p hp _; simp [hp]
  | cons f fs ih =>
      intro p hp hfs
      obtain ⟨hb, hx⟩ := hfs f (by simp)
      obtain ⟨polynomial, value⟩ := ih (p.multiply f.1 f.2) (isPolynomial_multiply hb hx hp)
        (fun g hg => hfs g (by simp [hg]))
      refine ⟨polynomial, value.trans ?_⟩
      rw [eval_multiply ρ hx hp, List.map_cons, List.prod_cons, Factor.eval]
      ring

end Product

/-! ## Factors of expressions -/

namespace Expression

theorem eval_factored (e : Expression Rat) :
    algebraMap ℚ R e.factored.1 * e.factored.2.eval ρ = e.eval ρ := by
  match e with
  | .zero => simp [factored]
  | .plus c p .zero => simp [factored]
  | .plus c p (.plus d q f) => simp [factored]

theorem isPolynomial_factored {e : Expression Rat} (he : e.IsPolynomial) :
    e.factored.2.IsPolynomial := by
  match e, he with
  | .zero, _ => simp [factored]
  | .plus c p .zero, he => exact ((isPolynomial_plus c p .zero).mp he).1
  | .plus c p (.plus d q f), he => simpa [factored, isSum] using he

theorem plainMul_spec {e f : Expression Rat} (he : e.IsPolynomial) (hf : f.IsPolynomial) :
    (e.plainMul f).IsPolynomial ∧ (e.plainMul f).eval ρ = e.eval ρ * f.eval ρ := by
  have hp := isPolynomial_factored he
  have hq := isPolynomial_factored hf
  refine ⟨isPolynomial_ofTerm (Product.isPolynomial_mul hp hq), ?_⟩
  rw [plainMul, eval_ofTerm, Product.eval_mul ρ hp hq, map_mul, ← eval_factored ρ e,
    ← eval_factored ρ f]
  ring

end Expression

namespace FactorList

def IsPolynomial (l : FactorList Rat) : Prop := ∀ f ∈ l.factors, Factor.IsPolynomial f

def eval (l : FactorList Rat) : R :=
  algebraMap ℚ R l.coefficient * (l.factors.map (Factor.eval ρ)).prod

theorem multiply_spec {l : FactorList Rat} (h : l.IsPolynomial) :
    l.multiply.IsPolynomial ∧ l.multiply.eval ρ = l.eval ρ := by
  obtain ⟨polynomial, value⟩ := Product.ofFactors_spec ρ h
  refine ⟨Expression.isPolynomial_ofTerm polynomial, ?_⟩
  rw [multiply, Expression.eval_ofTerm, value, eval]

/-- What the first pass over a list of expressions takes up of one of them. -/
def directValue (e : Expression Rat) : R := (addDirect ⟨1, []⟩ e).eval ρ

/-- What the second pass takes up. -/
def nestedValue (e : Expression Rat) : R := (addNested ⟨1, []⟩ e).eval ρ

theorem eval_addDirect (l : FactorList Rat) (e : Expression Rat) :
    (l.addDirect e).eval ρ = l.eval ρ * directValue ρ e := by
  match e with
  | .zero => simp [addDirect, directValue, eval]
  | .plus c .one .zero =>
      simp only [addDirect, directValue, eval, map_mul, List.map_nil, List.prod_nil, map_one]
      ring
  | .plus c (.times b x .one) .zero =>
      by_cases hc : c = 1
      · simp [addDirect, directValue, eval, hc]
        ring
      · simp [addDirect, directValue, eval, hc]
  | .plus c (.times b x (.times b' x' p)) .zero => simp [addDirect, directValue, eval]
  | .plus c p (.plus d q f) =>
      simp [addDirect, directValue, eval]
      ring

theorem eval_addNested (l : FactorList Rat) (e : Expression Rat) :
    (l.addNested e).eval ρ = l.eval ρ * nestedValue ρ e := by
  match e with
  | .zero => simp [addNested, nestedValue, eval]
  | .plus c .one .zero => simp [addNested, nestedValue, eval]
  | .plus c (.times b x p) .zero =>
      by_cases hc : c = 1 ∧ p = .one
      · simp [addNested, nestedValue, eval, hc]
      · simp only [addNested, nestedValue, eval, hc, if_false, map_mul, List.map_append,
          List.prod_append, List.nil_append, map_one]
        ring
  | .plus c p (.plus d q f) => simp [addNested, nestedValue, eval]

theorem directValue_mul_nestedValue (e : Expression Rat) :
    directValue ρ e * nestedValue ρ e = e.eval ρ := by
  match e with
  | .zero => simp [directValue, nestedValue, addDirect, addNested, eval]
  | .plus c .one .zero => simp [directValue, nestedValue, addDirect, addNested, eval]
  | .plus c (.times b x .one) .zero =>
      by_cases hc : c = 1
      · simp [directValue, nestedValue, addDirect, addNested, eval, hc, Factor.eval]
      · simp [directValue, nestedValue, addDirect, addNested, eval, hc, Factor.eval]
  | .plus c (.times b x (.times b' x' p)) .zero =>
      simp [directValue, nestedValue, addDirect, addNested, eval, Product.eval_eq_prod_factors,
        Factor.eval]
  | .plus c p (.plus d q f) =>
      simp [directValue, nestedValue, addDirect, addNested, eval, Factor.eval]

theorem eval_foldl_addDirect (es : List (Expression Rat)) (l : FactorList Rat) :
    (es.foldl addDirect l).eval ρ = l.eval ρ * (es.map (directValue ρ)).prod := by
  induction es generalizing l with
  | nil => simp
  | cons e es ih => simp [ih, eval_addDirect, mul_assoc]

theorem eval_foldl_addNested (es : List (Expression Rat)) (l : FactorList Rat) :
    (es.foldl addNested l).eval ρ = l.eval ρ * (es.map (nestedValue ρ)).prod := by
  induction es generalizing l with
  | nil => simp
  | cons e es ih => simp [ih, eval_addNested, mul_assoc]

theorem eval_ofExpressions (es : List (Expression Rat)) :
    (ofExpressions es).eval ρ = (es.map (Expression.eval ρ)).prod := by
  have unit : (⟨1, []⟩ : FactorList Rat).eval ρ = 1 := by simp [eval]
  rw [ofExpressions, eval_foldl_addNested, eval_foldl_addDirect, unit, one_mul,
    ← List.prod_map_mul]
  simp only [directValue_mul_nestedValue]

theorem isPolynomial_addDirect {l : FactorList Rat} {e : Expression Rat} (hl : l.IsPolynomial)
    (he : e.IsPolynomial) : (l.addDirect e).IsPolynomial := by
  match e, he with
  | .zero, _ => exact hl
  | .plus c .one .zero, _ => exact hl
  | .plus c (.times b x .one) .zero, he =>
      by_cases hc : c = 1
      · have hf : Factor.IsPolynomial (b, x) := by simpa [Factor.IsPolynomial] using he
        simp only [addDirect, hc, if_true, IsPolynomial, List.mem_append, List.mem_singleton]
        rintro f (hf' | rfl)
        · exact hl f hf'
        · exact hf
      · simpa [addDirect, hc] using hl
  | .plus c (.times b x (.times b' x' p)) .zero, _ => exact hl
  | .plus c p (.plus d q f), he =>
      simp only [addDirect, IsPolynomial, List.mem_append, List.mem_singleton]
      rintro g (hg | rfl)
      · exact hl g hg
      · simpa [Factor.IsPolynomial, Expression.isSum] using he

theorem isPolynomial_addNested {l : FactorList Rat} {e : Expression Rat} (hl : l.IsPolynomial)
    (he : e.IsPolynomial) : (l.addNested e).IsPolynomial := by
  match e, he with
  | .zero, _ => exact hl
  | .plus c .one .zero, _ => exact hl
  | .plus c (.times b x p) .zero, he =>
      by_cases hc : c = 1 ∧ p = .one
      · simpa [addNested, hc] using hl
      · have hp : (Product.times b x p).IsPolynomial := ((Expression.isPolynomial_plus _ _ _).mp he).1
        simp only [addNested, hc, if_false, IsPolynomial, List.mem_append]
        rintro f (hf | hf)
        · exact hl f hf
        · exact (Product.isPolynomial_iff_factors _).mp hp f hf
  | .plus c p (.plus d q f), _ => simpa [addNested] using hl

theorem isPolynomial_ofExpressions {es : List (Expression Rat)} (h : ∀ e ∈ es, e.IsPolynomial) :
    (ofExpressions es).IsPolynomial := by
  have direct : (es.foldl addDirect ⟨1, []⟩).IsPolynomial := by
    refine List.foldlRecOn es addDirect ?_ (fun l hl e he => isPolynomial_addDirect hl (h e he))
    simp [IsPolynomial]
  exact List.foldlRecOn es addNested direct (fun l hl e he => isPolynomial_addNested hl (h e he))

end FactorList

end HybridRelaxation
