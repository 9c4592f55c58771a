import HybridRelaxation.Expression.Multiplication
import HybridRelaxation.Expression.Sign

/-!
# Exponentials and logarithms

A multiple of a logarithm leaves an exponential as a power, a rational multiple of a half turn as a
power of the imaginary unit, and a floating-point term as a number. The logarithm of a negative
constant has the angle of half a turn, and the logarithm of a whole reciprocal is turned round.
-/

namespace HybridRelaxation

variable {K : Type} [Scalar K]

def Scalar.rounded (q : Rat) : K := if q = 0 then 0 else Scalar.measured q

namespace Expression

def ofComplex (z : ComplexValue) : Expression K :=
  (number (Scalar.rounded z.real)).add (imaginaryUnit.scale (Scalar.rounded z.imaginary))

def isComparable (e : Expression K) : Bool :=
  e.symbols.isEmpty && e.realValue?.isSome && !(Truth.fails e.facts.isReal)

def exponentOf? (e : Expression K) : Option (Expression K) :=
  match e.factor? with
  | some (.constant .euler, x) => some x.toExpression
  | _ => none

def unevaluatedExp (e : Expression K) : Expression K :=
  .ofFactor (.constant .euler) (.ofExpression e)

def logarithmOf? (e : Expression K) : Option (Expression K) :=
  match e.factor? with
  | some (.apply .log y, .integer 1) => some y
  | _ => none

def halfTurns (q : Rat) : Expression K :=
  (ofConstant .pi).scale (Scalar.exact q)

/-- The coefficient and the other factors of a term that contains `pi`. -/
def turnCoefficient? (e : Expression K) : Option (K × Product K) :=
  match e with
  | .plus c p .zero =>
      if p.factors.contains (.constant .pi, .integer 1) then
        some (c, Product.ofDistinct (p.factors.filter (fun f => f ≠ (.constant .pi, .integer 1))))
      else none
  | _ => none

def measuredValue? (f : UnaryFunction) (e : Expression K) : Option (Expression K) :=
  match e.number? with
  | some c =>
      if Scalar.isMeasured c then
        ((Scalar.value? c).bind (ComplexValue.image? f)).map ofComplex
      else none
  | none =>
      match e.isSum, e.complexParts? with
      | true, some (a, b) =>
          if Scalar.isMeasured a || Scalar.isMeasured b then
            (e.value?.bind (ComplexValue.image? f)).map ofComplex
          else none
      | _, _ => none

end Expression

namespace Rules

open Expression

/-! ## Exponentials -/

def expOfTurns (q : Rat) : Expression K :=
  if q.den = 1 then number (Scalar.ofInt (if q.num % 2 = 0 then 1 else -1))
  else if q.den = 2 then imaginaryUnit.scale (Scalar.ofInt (if q.num % 4 = 1 then 1 else -1))
  else
    let reduced := q - 2 * (q / 2).floor
    let angle := if 1 < reduced then reduced - 2 else reduced
    unevaluatedExp
      (.ofTerm (Scalar.exact angle)
        (.ofFactors [(.constant .pi, .integer 1),
          (.number (Scalar.ofInt (-1)), .ofNumber (Scalar.exact (1 / 2)))]))

/-- The exponential of a product that holds one logarithm and constants besides. -/
def expOfMultiple (r : Rules K) (c : K) (p : Product K) : Option (Expression K) :=
  let factors := p.factors.map (fun (f : Factor K) => f.expression)
  let logarithms := factors.filterMap logarithmOf?
  let others := factors.filter (fun f => f.logarithmOf?.isNone)
  match logarithms with
  | [argument] =>
      if others.all isComparable then some (r.power argument (r.product (number c :: others)))
      else none
  | _ => none

def expOfTerm (r : Rules K) (e : Expression K) : Expression K :=
  match e with
  | .zero => number 1
  | .plus c .one .zero =>
      match Scalar.kind c with
      | .undefined | .unsignedInfinity => number Scalar.undefined
      | .infinite negative => number (if negative then 0 else c)
      | .measured q => if q = 0 then number 1 else number (Scalar.rounded (Elementary.exp q))
      | .exact q => if q = 0 then number 1 else unevaluatedExp e
  | .plus c p .zero =>
      match e.logarithmOf?, (e.imaginaryCoefficient?.bind (fun (d, q) =>
          (Expression.turnCoefficient? (.plus d q .zero)))), Scalar.exactValue? c with
      | some y, _, _ => y
      | none, some (_, .one), some q => expOfTurns q
      | none, _, _ =>
          if e.factor?.isSome then unevaluatedExp e
          else (expOfMultiple r c p).getD (unevaluatedExp e)
  | e => unevaluatedExp e

def splitExponent (r : Rules K) (e : Expression K) : List (Expression K) × List (Expression K) :=
  e.terms.foldl (fun (stay, leave) (c, p) =>
    let term : Expression K := .plus c p .zero
    if term = .number 1 then (stay ++ [term], leave)
    else
      let value := expOfTerm r term
      match value.exponentOf? with
      | some x => (stay ++ [x], leave)
      | none => (stay, leave ++ [value])) ([], [])

def exponential (r : Rules K) (e : Expression K) : Expression K :=
  if e.isSum then
    let (stay, leave) := splitExponent r e
    let rest := Expression.sum stay
    if leave.isEmpty && rest = e then unevaluatedExp e
    else r.product (leave ++ [if rest.isZero then number 1 else unevaluatedExp rest])
  else expOfTerm r e

/-! ## Logarithms -/

def turnUnit (q : Rat) : Expression K :=
  .ofTerm (Scalar.exact q)
    (.ofFactors [(.constant .pi, .integer 1),
      (.number (Scalar.ofInt (-1)), .ofNumber (Scalar.exact (1 / 2)))])

def logOfNumber (r : Rules K) (c : K) : Expression K :=
  let turned : Expression K := (turnUnit 1).add (r.apply .log (number (-c)))
  match Scalar.kind c with
  | .undefined => number c
  | .unsignedInfinity => number c
  | .infinite _ => number (Scalar.infinity false)
  | .measured q =>
      if q = 0 then number Scalar.unsignedInfinity
      else if q < 0 then turned
      else number (Scalar.rounded (Elementary.log q))
  | .exact q =>
      if q = 0 then number Scalar.unsignedInfinity
      else if q = 1 then .zero
      else if q < 0 then turned
      else if q.num = 1 then (applied .log (number (Scalar.exact q.den))).neg
      else applied .log (number c)

def logOfImaginary (r : Rules K) (c : K) (p : Product K) : Option (Expression K) :=
  if Scalar.isInfinite c then some (number (Scalar.infinity false))
  else
    let size : Expression K := .ofTerm c p
    let turned (sign : Rat) (size : Expression K) : Expression K :=
      (turnUnit (sign / 2)).add (r.apply .log size)
    if Scalar.isMeasured c || !p.factors.all (fun f => (Factor.root? f).isSome) then none
    else if Truth.holds size.facts.isPositive then some (turned 1 size)
    else if Truth.holds size.facts.isNegative then some (turned (-1) size.neg)
    else none

def logarithm (r : Rules K) (e : Expression K) : Expression K :=
  match e.number? with
  | some c => logOfNumber r c
  | none =>
      match e.exponentOf? with
      | some x =>
          if x.isReal || (x.value?.any (fun z => z.imaginary.abs ≤ Elementary.pi)) then x
          else applied .log e
      | none =>
          let constant := e.symbols.isEmpty
          if constant && Truth.holds e.facts.isNegative then
            (turnUnit 1).add (r.apply .log e.neg)
          else if Truth.holds e.facts.isZero then number Scalar.unsignedInfinity
          else
            match (e.imaginaryCoefficient?.bind (fun (c, p) => logOfImaginary r c p)),
              e.measuredValue? .log with
            | some value, _ => value
            | none, some value => value
            | none, none => applied .log e

end Rules

end HybridRelaxation
