import HybridRelaxation.Expression.Arithmetic

/-!
# Derivatives

Partial derivatives by the rules for sums, products, powers and functions. The derivative of an
absolute value is the sign of its argument times the derivative of the argument.
-/

namespace HybridRelaxation

variable {K : Type} [Scalar K]

def UnaryFunction.derivativeAt (f : UnaryFunction) (e : Expression K) : Expression K :=
  match f with
  | .sin => e.apply .cos
  | .cos => (e.apply .sin).neg
  | .log => e.reciprocal
  | .abs => e.apply .sign
  | .sign => .zero
  | .sinh => e.apply .cosh
  | .cosh => e.apply .sinh

def powerDerivative (b : Base K) (e : Exponent K) (base exponent : Expression K) :
    Expression K :=
  match b, e with
  | .constant .euler, e => .product [.ofFactor b e, exponent]
  | b, .integer n =>
      .product [.number (Scalar.ofInt n), b.toExpression.intPower (n - 1), base]
  | b, e =>
      let growth :=
        if exponent.isZero then Expression.zero else exponent.mul (b.toExpression.log)
      let change := base.mul e.toExpression |>.div b.toExpression
      (Expression.ofFactor b e).mul (growth.add change)

mutual

def Expression.derivative (s : Symbol) : Expression K → Expression K
  | .zero => .zero
  | .plus c p e => (e.derivative s).add ((p.derivative s).scale c)

def Product.derivative (s : Symbol) : Product K → Expression K
  | .one => .zero
  | .times b e p =>
      ((powerDerivative b e (b.derivative s) (e.derivative s)).mul (.ofTerm 1 p)).add
        ((Expression.ofFactor b e).mul (p.derivative s))

def Base.derivative (s : Symbol) : Base K → Expression K
  | .symbol t => if s = t then .number 1 else .zero
  | .constant _ => .zero
  | .number _ => .zero
  | .apply f e =>
      let inner := e.derivative s
      if inner.isZero then .zero else (f.derivativeAt e).mul inner
  | .group e => e.derivative s

def Exponent.derivative (s : Symbol) : Exponent K → Expression K
  | .integer _ => .zero
  | .multiple c e => (e.derivative s).scale c

end

end HybridRelaxation
