import HybridRelaxation.Expression.AbsoluteValue

/-!
# Arithmetic of expressions

The operations that build expressions: products, quotients, powers and functions, each simplified
by the rules with all levels below it.
-/

namespace HybridRelaxation

variable {K : Type} [Scalar K]

namespace Rules

/-- Levels of rules; each one simplifies what the one above it needs. -/
def levels : Nat := 40

def ofLevel : Nat → Rules K
  | 0 => building
  | n + 1 =>
      let r : Rules K := ofLevel n
      ⟨productOf r, powerOf r, applyOf r⟩

end Rules

namespace Expression

/-! ## Products -/

def product (es : List (Expression K)) : Expression K :=
  match es with
  | [e] => e
  | _ =>
      let l := FactorList.ofExpressions es
      if l.isPlain then l.multiply else (Rules.ofLevel Rules.levels).product es

def mul (e f : Expression K) : Expression K := product [e, f]

/-! ## Powers -/

def power (e f : Expression K) : Expression K := (Rules.ofLevel Rules.levels).power e f

def powerNumber (e : Expression K) (c : K) : Expression K := e.power (number c)

/-- The integer power; a sum to a positive power is kept as a power. -/
def intPower (e : Expression K) (n : Int) : Expression K :=
  match e.factor? with
  | some (.symbol s, .integer m) => .ofTerm 1 (.power (.symbol s) (.integer (m * n)))
  | _ => e.power (ofInt n)

def reciprocal (e : Expression K) : Expression K := e.intPower (-1)

def sqrt (e : Expression K) : Expression K := e.powerNumber (Scalar.exact (1 / 2))

/-- The quotient; a quotient of two numbers is rounded once. -/
def div (e f : Expression K) : Expression K :=
  match e.number?, f.number? with
  | some c, some d => number (Scalar.quotient c d)
  | _, _ => if e = number 1 then f.reciprocal else e.mul f.reciprocal

/-! ## Functions -/

def apply (f : UnaryFunction) (e : Expression K) : Expression K :=
  (Rules.ofLevel Rules.levels).apply f e

def exp (e : Expression K) : Expression K := (ofConstant .euler).power e

def log (e : Expression K) : Expression K := e.apply .log

@[simp] theorem product_singleton (e : Expression K) : product [e] = e := rfl

end Expression

instance : Mul (Expression K) := ⟨Expression.mul⟩

end HybridRelaxation
