import HybridRelaxation.Expression.Arithmetic

/-!
# Formulas

A formula is an expression as it is stated, before anything is simplified: numbers, symbols and
constants under sums, products, quotients, powers and functions. Its value as an expression is
built from the values of its parts.
-/

namespace HybridRelaxation

inductive Formula (K : Type) where
  | number (value : K)
  | symbol (symbol : Symbol)
  | constant (constant : Constant)
  | add (left right : Formula K)
  | subtract (left right : Formula K)
  | negate (argument : Formula K)
  | multiply (left right : Formula K)
  | divide (left right : Formula K)
  | power (base exponent : Formula K)
  | exponential (argument : Formula K)
  | squareRoot (argument : Formula K)
  | apply (function : UnaryFunction) (argument : Formula K)
  deriving DecidableEq

namespace Formula

variable {K : Type}

instance : Inhabited (Formula K) := ⟨.constant .pi⟩

variable [Scalar K]

def toExpression : Formula K → Expression K
  | .number c => .number c
  | .symbol s => .ofSymbol s
  | .constant c => .ofConstant c
  | .add a b => a.toExpression + b.toExpression
  | .subtract a b => a.toExpression - b.toExpression
  | .negate a => -a.toExpression
  | .multiply a b => a.toExpression * b.toExpression
  | .divide a b => a.toExpression.div b.toExpression
  | .power a b => a.toExpression.power b.toExpression
  | .exponential a => a.toExpression.exp
  | .squareRoot a => a.toExpression.sqrt
  | .apply f a => .apply f a.toExpression

@[simp] theorem toExpression_add (a b : Formula K) :
    (add a b).toExpression = a.toExpression + b.toExpression := rfl

@[simp] theorem toExpression_multiply (a b : Formula K) :
    (multiply a b).toExpression = a.toExpression * b.toExpression := rfl

@[simp] theorem toExpression_symbol (s : Symbol) :
    (symbol s : Formula K).toExpression = .ofSymbol s := rfl

@[simp] theorem toExpression_number (c : K) :
    (number c : Formula K).toExpression = .number c := rfl

end Formula

end HybridRelaxation
