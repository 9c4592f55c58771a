import Mathlib
import HybridRelaxation.Expression.Rules

/-!
# Values of polynomial expressions

An expression over the rationals is polynomial if it is built from numbers and symbols by sums,
products and powers with positive integer exponents; a base that is not a symbol is a sum of at
least two terms.  Such an expression has a value in every commutative algebra over the rationals,
once the symbols have values there.  At the variables of a polynomial ring the value is the
polynomial that the expression stands for; at real numbers it is a real number.
-/

namespace HybridRelaxation

/-! ## Induction on terms and factors -/

@[induction_eliminator]
theorem Expression.termInduction {K : Type} {motive : Expression K → Prop}
    (zero : motive .zero)
    (plus : ∀ c p e, motive e → motive (.plus c p e)) : ∀ e, motive e
  | .zero => zero
  | .plus c p e => plus c p e (Expression.termInduction zero plus e)

@[induction_eliminator]
theorem Product.factorInduction {K : Type} {motive : Product K → Prop}
    (one : motive .one)
    (times : ∀ b x p, motive p → motive (.times b x p)) : ∀ p, motive p
  | .one => one
  | .times b x p => times b x p (Product.factorInduction one times p)

/-! ## Polynomial expressions -/

def Exponent.IsPositive : Exponent Rat → Prop
  | .integer n => 0 < n
  | .multiple _ _ => False

mutual

/-- Every term is a number times a product of positive powers of symbols and sums. -/
def Expression.IsPolynomial : Expression Rat → Prop
  | .zero => True
  | .plus _ p e => p.IsPolynomial ∧ e.IsPolynomial

def Product.IsPolynomial : Product Rat → Prop
  | .one => True
  | .times b x p => (b.IsPolynomial ∧ x.IsPositive) ∧ p.IsPolynomial

def Base.IsPolynomial : Base Rat → Prop
  | .symbol _ => True
  | .group e => e.isSum = true ∧ e.IsPolynomial
  | .constant _ => False
  | .number _ => False
  | .apply _ _ => False

end

/-! ## Values -/

/-- The real numbers as values; a name of its own keeps the proofs it is built from out of sight. -/
noncomputable instance realAlgebra : Algebra ℚ ℝ := inferInstance

variable {R : Type*} [CommRing R] [Algebra ℚ R]

def Exponent.natural : Exponent Rat → ℕ
  | .integer n => n.toNat
  | .multiple _ _ => 0

mutual

/-- The value at a point; whatever is not polynomial counts as zero. -/
def Expression.eval (ρ : Symbol → R) : Expression Rat → R
  | .zero => 0
  | .plus c p e => algebraMap ℚ R c * p.eval ρ + e.eval ρ

def Product.eval (ρ : Symbol → R) : Product Rat → R
  | .one => 1
  | .times b x p => b.eval ρ ^ x.natural * p.eval ρ

def Base.eval (ρ : Symbol → R) : Base Rat → R
  | .symbol s => ρ s
  | .group e => e.eval ρ
  | .constant _ => 0
  | .number _ => 0
  | .apply _ _ => 0

end

namespace Exponent

@[simp] theorem natural_integer (n : ℤ) : (Exponent.integer n : Exponent Rat).natural = n.toNat :=
  rfl

@[simp] theorem isPositive_integer (n : ℤ) :
    (Exponent.integer n : Exponent Rat).IsPositive ↔ 0 < n := Iff.rfl

theorem exists_of_isPositive {x : Exponent Rat} (h : x.IsPositive) :
    ∃ n : ℕ, x = .integer (n + 1) := by
  cases x with
  | integer n =>
      have positive : 0 < n := h
      exact ⟨(n - 1).toNat, by congr; omega⟩
  | multiple c e => exact h.elim

end Exponent

section Equations

variable (ρ : Symbol → R)

@[simp] theorem Expression.eval_zero : (Expression.zero : Expression Rat).eval ρ = 0 := by
  simp [Expression.eval]

@[simp] theorem Expression.eval_plus (c : Rat) (p : Product Rat) (e : Expression Rat) :
    (Expression.plus c p e).eval ρ = algebraMap ℚ R c * p.eval ρ + e.eval ρ := by
  simp [Expression.eval]

@[simp] theorem Product.eval_one : (Product.one : Product Rat).eval ρ = 1 := by
  simp [Product.eval]

@[simp] theorem Product.eval_times (b : Base Rat) (x : Exponent Rat) (p : Product Rat) :
    (Product.times b x p).eval ρ = b.eval ρ ^ x.natural * p.eval ρ := by
  simp [Product.eval]

@[simp] theorem Base.eval_symbol (s : Symbol) : (Base.symbol s : Base Rat).eval ρ = ρ s := by
  simp [Base.eval]

@[simp] theorem Base.eval_group (e : Expression Rat) : (Base.group e).eval ρ = e.eval ρ := by
  simp [Base.eval]

@[simp] theorem Expression.isPolynomial_zero : (Expression.zero : Expression Rat).IsPolynomial := by
  simp [Expression.IsPolynomial]

@[simp] theorem Expression.isPolynomial_plus (c : Rat) (p : Product Rat) (e : Expression Rat) :
    (Expression.plus c p e).IsPolynomial ↔ p.IsPolynomial ∧ e.IsPolynomial := by
  simp [Expression.IsPolynomial]

@[simp] theorem Product.isPolynomial_one : (Product.one : Product Rat).IsPolynomial := by
  simp [Product.IsPolynomial]

@[simp] theorem Product.isPolynomial_times (b : Base Rat) (x : Exponent Rat) (p : Product Rat) :
    (Product.times b x p).IsPolynomial ↔
      (b.IsPolynomial ∧ x.IsPositive) ∧ p.IsPolynomial := by
  simp [Product.IsPolynomial]

@[simp] theorem Base.isPolynomial_symbol (s : Symbol) :
    (Base.symbol s : Base Rat).IsPolynomial := by
  simp [Base.IsPolynomial]

@[simp] theorem Base.isPolynomial_group (e : Expression Rat) :
    (Base.group e).IsPolynomial ↔ e.isSum = true ∧ e.IsPolynomial := by
  simp [Base.IsPolynomial]

@[simp] theorem Base.not_isPolynomial_number (c : Rat) : ¬ (Base.number c).IsPolynomial := by
  simp [Base.IsPolynomial]

@[simp] theorem Base.not_isPolynomial_constant (c : Constant) :
    ¬ (Base.constant c : Base Rat).IsPolynomial := by
  simp [Base.IsPolynomial]

@[simp] theorem Base.not_isPolynomial_apply (f : UnaryFunction) (e : Expression Rat) :
    ¬ (Base.apply f e).IsPolynomial := by
  simp [Base.IsPolynomial]

end Equations

/-! ## Numbers and symbols -/

namespace Expression

variable (ρ : Symbol → R)

@[simp] theorem eval_number (c : Rat) : (number c).eval ρ = algebraMap ℚ R c := by
  by_cases h : c = 0
  · simp [number, h]
  · simp [number, h]

@[simp] theorem isPolynomial_number (c : Rat) : (number c).IsPolynomial := by
  by_cases h : c = 0 <;> simp [number, h]

theorem eval_eq_sum_terms (e : Expression Rat) :
    e.eval ρ = (e.terms.map (fun t => algebraMap ℚ R t.1 * t.2.eval ρ)).sum := by
  induction e with
  | zero => simp
  | plus c p e ih => simp [ih]

@[simp] theorem eval_ofSymbol (s : Symbol) : (ofSymbol s : Expression Rat).eval ρ = ρ s := by
  simp [ofSymbol]

@[simp] theorem isPolynomial_ofSymbol (s : Symbol) :
    (ofSymbol s : Expression Rat).IsPolynomial := by
  simp [ofSymbol]

@[simp] theorem eval_ofFactor (b : Base Rat) (x : Exponent Rat) :
    (ofFactor b x).eval ρ = b.eval ρ ^ x.natural := by
  simp [ofFactor]

@[simp] theorem isPolynomial_ofFactor (b : Base Rat) (x : Exponent Rat) :
    (ofFactor b x).IsPolynomial ↔ b.IsPolynomial ∧ x.IsPositive := by
  simp [ofFactor]

@[simp] theorem ofInt_rat (n : ℤ) : (ofInt n : Expression Rat) = number (n : Rat) := rfl

theorem exists_of_isSum {e : Expression Rat} (h : e.isSum = true) :
    ∃ c p d q f, e = .plus c p (.plus d q f) := by
  match e, h with
  | .plus c p (.plus d q f), _ => exact ⟨c, p, d, q, f, rfl⟩

theorem number?_eq_some {e : Expression Rat} {c : Rat} (h : e.number? = some c) :
    e.eval ρ = algebraMap ℚ R c := by
  match e, h with
  | .zero, h =>
      have : (0 : Rat) = c := by simpa [number?] using h
      simp [← this]
  | .plus d .one .zero, h =>
      have : d = c := by simpa [number?] using h
      simp [this]

end Expression

/-! ## Change of the point -/

section Point

variable {S : Type*} [CommRing S] [Algebra ℚ S]

mutual

theorem Expression.map_eval (f : R →ₐ[ℚ] S) (ρ : Symbol → R) :
    ∀ e : Expression Rat, f (e.eval ρ) = e.eval (fun s => f (ρ s))
  | .zero => by simp
  | .plus c p e => by
      simp [Product.map_eval f ρ p, Expression.map_eval f ρ e]

theorem Product.map_eval (f : R →ₐ[ℚ] S) (ρ : Symbol → R) :
    ∀ p : Product Rat, f (p.eval ρ) = p.eval (fun s => f (ρ s))
  | .one => by simp
  | .times b x p => by
      simp [Base.map_eval f ρ b, Product.map_eval f ρ p]

theorem Base.map_eval (f : R →ₐ[ℚ] S) (ρ : Symbol → R) :
    ∀ b : Base Rat, f (b.eval ρ) = b.eval (fun s => f (ρ s))
  | .symbol s => by simp
  | .group e => by simp [Expression.map_eval f ρ e]
  | .constant _ => by simp [Base.eval]
  | .number _ => by simp [Base.eval]
  | .apply _ _ => by simp [Base.eval]

end

mutual

theorem Expression.eval_congr {ρ σ : Symbol → R} :
    ∀ e : Expression Rat, (∀ s ∈ e.symbols, ρ s = σ s) → e.eval ρ = e.eval σ
  | .zero, _ => by simp
  | .plus c p e, h => by
      have hp := Product.eval_congr p (fun s hs => h s (by simp [Expression.symbols, hs]))
      have he := Expression.eval_congr e (fun s hs => h s (by simp [Expression.symbols, hs]))
      simp [hp, he]

theorem Product.eval_congr {ρ σ : Symbol → R} :
    ∀ p : Product Rat, (∀ s ∈ p.symbols, ρ s = σ s) → p.eval ρ = p.eval σ
  | .one, _ => by simp
  | .times b x p, h => by
      have hb := Base.eval_congr b (fun s hs => h s (by simp [Product.symbols, hs]))
      have hp := Product.eval_congr p (fun s hs => h s (by simp [Product.symbols, hs]))
      simp [hb, hp]

theorem Base.eval_congr {ρ σ : Symbol → R} :
    ∀ b : Base Rat, (∀ s ∈ b.symbols, ρ s = σ s) → b.eval ρ = b.eval σ
  | .symbol s, h => by simpa using h s (by simp [Base.symbols])
  | .group e, h => by simpa using Expression.eval_congr e (by simpa [Base.symbols] using h)
  | .constant _, _ => by simp [Base.eval]
  | .number _, _ => by simp [Base.eval]
  | .apply _ _, _ => by simp [Base.eval]

end

end Point

/-!
## Exact readings

A floating-point number is also a rational number.  Read exactly, an expression with floating-point
coefficients is one with rational coefficients, of which the exact value can be compared with what
floating-point arithmetic makes of it.
-/

/-- The rational that a finite number is; zero for the numbers that are not finite. -/
def exactReading {K : Type} [Scalar K] (c : K) : Rat := (Scalar.finite? c).getD 0

section

variable {K : Type} [Scalar K]

mutual

def Expression.exactly : Expression K → Expression Rat
  | .zero => .zero
  | .plus c p e => .plus (exactReading c) p.exactly e.exactly

def Product.exactly : Product K → Product Rat
  | .one => .one
  | .times b x p => .times b.exactly x.exactly p.exactly

def Base.exactly : Base K → Base Rat
  | .symbol s => .symbol s
  | .constant c => .constant c
  | .number c => .number (exactReading c)
  | .apply f e => .apply f e.exactly
  | .group e => .group e.exactly

def Exponent.exactly : Exponent K → Exponent Rat
  | .integer n => .integer n
  | .multiple c e => .multiple (exactReading c) e.exactly

end

end

end HybridRelaxation
