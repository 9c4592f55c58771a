import HybridRelaxation.Expression.Sum

/-!
# Rules

Products, powers and functions simplify what they build, and the simplification of one needs the
others for smaller parts. Each rule is therefore written over a record of the three operations, and
the record is closed by going down a fixed number of levels to operations that only build.
-/

namespace HybridRelaxation

variable {K : Type} [Scalar K]

structure Rules (K : Type) where
  product : List (Expression K) → Expression K
  power : Expression K → Expression K → Expression K
  apply : UnaryFunction → Expression K → Expression K

namespace Expression

def unevaluatedPower (b e : Expression K) : Expression K :=
  .ofFactor (.ofExpression b) (.ofExpression e)

def applied (f : UnaryFunction) (e : Expression K) : Expression K :=
  .ofFactor (.apply f e) (.integer 1)

def plainMul (e f : Expression K) : Expression K :=
  let (c, p) := e.factored
  let (d, q) := f.factored
  .ofTerm (c * d) (p.mul q)

def imaginaryUnit : Expression K :=
  .ofFactor (.number (Scalar.ofInt (-1))) (.multiple (Scalar.exact (1 / 2)) Exponent.unit)

def imaginaryCoefficient? (e : Expression K) : Option (K × Product K) :=
  match e with
  | .plus c p .zero =>
      let isUnit (f : Base K × Exponent K) : Bool :=
        f.1 = .number (Scalar.ofInt (-1)) && f.2.rational? = some (1 / 2)
      if p.factors.any isUnit then
        some (c, Product.ofDistinct (p.factors.filter (fun f => !isUnit f)))
      else none
  | _ => none

def complexParts? (e : Expression K) : Option (K × K) :=
  let imaginaryNumber? (e : Expression K) : Option K :=
    match e.imaginaryCoefficient? with
    | some (c, .one) => some c
    | _ => none
  match e with
  | .plus c .one f => (imaginaryNumber? f).map (fun d => (c, d))
  | e => (imaginaryNumber? e).map (fun d => (0, d))

end Expression

namespace Rules

/-- Operations that build and do not simplify. -/
def building : Rules K where
  product es := es.foldl Expression.plainMul (.number 1)
  power := Expression.unevaluatedPower
  apply := Expression.applied

end Rules

end HybridRelaxation
