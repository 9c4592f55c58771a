import HybridRelaxation.Expression.Basic

/-!
# Products of powers

Two powers of one base combine when both exponents are numeric, or when they are multiples of one
direction; a power whose exponent becomes zero leaves the product. Nothing else about the factors
is simplified here.
-/

namespace HybridRelaxation

variable {K : Type} [Scalar K]

/-! ## Exponents -/

namespace Exponent

def unit : Expression K := .plus 1 .one .zero

def ofNumber (c : K) : Exponent K :=
  match Scalar.integer? c with
  | some n => .integer n
  | none => .multiple c unit

def number? : Exponent K → Option K
  | .integer n => some (Scalar.ofInt n)
  | .multiple c direction => if direction = unit then some c else none

def rational? (e : Exponent K) : Option Rat := e.number?.bind Scalar.exactValue?

def ofExpression : Expression K → Exponent K
  | .zero => .integer 0
  | .plus c .one .zero => .ofNumber c
  | .plus c p .zero => .multiple c (.plus 1 p .zero)
  | e => .multiple 1 e

def add? : Exponent K → Exponent K → Option (Exponent K)
  | .integer m, .integer n => some (.integer (m + n))
  | .multiple c e, .multiple d f =>
      if e = f then
        if e = unit then some (ofNumber (c + d)) else some (.multiple (c + d) e)
      else none
  | x, y =>
      match x.number?, y.number? with
      | some c, some d => some (ofNumber (c + d))
      | _, _ => none

def scale (n : Int) : Exponent K → Exponent K
  | .integer m => .integer (m * n)
  | .multiple c e =>
      if e = unit then ofNumber (c * Scalar.ofInt n) else .multiple (c * Scalar.ofInt n) e

def vanishes : Exponent K → Bool
  | .integer n => n = 0
  | .multiple c _ => Scalar.isZero c

@[simp] theorem add?_integer (m n : Int) :
    (Exponent.integer m : Exponent K).add? (.integer n) = some (.integer (m + n)) := rfl

@[simp] theorem scale_integer (m n : Int) :
    (Exponent.integer m : Exponent K).scale n = .integer (m * n) := rfl

@[simp] theorem vanishes_integer (n : Int) :
    (Exponent.integer n : Exponent K).vanishes = decide (n = 0) := rfl

end Exponent

/-! ## Multiplication -/

namespace Product

def combine? (b : Base K) (e : Exponent K) : Product K → Option (Product K)
  | .one => none
  | .times c f p =>
      if b = c then
        match e.add? f with
        | some g => some (if g.vanishes then p else .times c g p)
        | none => (combine? b e p).map (.times c f)
      else (combine? b e p).map (.times c f)

def insert (b : Base K) (e : Exponent K) : Product K → Product K
  | .one => .times b e .one
  | .times c f p =>
      if ((b.order c).then (e.order f)) = .lt then .times b e (.times c f p)
      else .times c f (insert b e p)

def multiply (b : Base K) (e : Exponent K) (p : Product K) : Product K :=
  if e.vanishes then p
  else
    match p.combine? b e with
    | some q => q
    | none => p.insert b e

def mul : Product K → Product K → Product K
  | .one, q => q
  | .times b e p, q => multiply b e (mul p q)

def ofFactors (factors : List (Base K × Exponent K)) : Product K :=
  factors.foldl (fun p (b, e) => p.multiply b e) .one

/-- The factors in order, without a check whether any of them combine. -/
def ofDistinct (factors : List (Base K × Exponent K)) : Product K :=
  factors.foldr (fun (b, e) p => p.insert b e) .one

def power (b : Base K) (e : Exponent K) : Product K :=
  if e = .integer 0 then .one else .times b e .one

@[simp] theorem one_mul (q : Product K) : mul .one q = q := rfl

@[simp] theorem times_mul (b : Base K) (e : Exponent K) (p q : Product K) :
    mul (.times b e p) q = multiply b e (mul p q) := rfl

def intPower (n : Int) : Product K → Product K
  | .one => .one
  | .times b e p => (power b (e.scale n)).mul (intPower n p)

end Product

/-! ## Expressions of one factor -/

namespace Expression

def ofFactor (b : Base K) (e : Exponent K) : Expression K := .plus 1 (.times b e .one) .zero

def factor? : Expression K → Option (Base K × Exponent K)
  | .plus c (.times b e .one) .zero => if c = 1 then some (b, e) else none
  | _ => none

/-- An expression as a coefficient and a product; a sum becomes a base. -/
def factored : Expression K → K × Product K
  | .zero => (0, .one)
  | .plus c p .zero => (c, p)
  | e => (1, .times (.group e) (.integer 1) .one)

def isSum : Expression K → Bool
  | .plus _ _ (.plus ..) => true
  | _ => false

end Expression

def Base.toExpression : Base K → Expression K
  | .group e => e
  | .number c => .number c
  | b => .ofFactor b (.integer 1)

def Base.ofExpression (e : Expression K) : Base K :=
  match e.number?, e.factor? with
  | some c, _ => .number c
  | none, some (b, .integer 1) => b
  | none, _ => .group e

end HybridRelaxation
