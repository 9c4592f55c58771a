import HybridRelaxation.Expression.Power

/-!
# Numerators and denominators

A term is a quotient in two ways. The quotient of its factors moves the powers with a negative
exponent below the line. The quotient of the whole expression also brings the terms of a sum over
one denominator.
-/

namespace HybridRelaxation

variable {K : Type} [Scalar K]

namespace Rules

open Expression

/-- An exponent that counts as negative: it is, or no sign is known and it leans so. -/
def invertsBase (e : Expression K) : Bool :=
  let facts := e.facts
  Truth.holds facts.isNegative ||
    (e.factor?.isNone && !e.isSum && e.number?.isNone && !(Truth.holds facts.isPositive) &&
      e.leansNegative)

def powerQuotient (r : Rules K) (base : Expression K) (quotient : Expression K × Expression K)
    (e : Expression K) : Expression K × Expression K :=
  let whole := Truth.holds e.facts.integer
  let facts := quotient.2.facts
  let (n, d) :=
    if !(Truth.holds facts.isReal || whole) then (base, number 1)
    else if Truth.holds facts.isNonpositive && Truth.holds facts.finite then
      (quotient.1.neg, quotient.2.neg)
    else if facts.isNonpositive.isNone && !whole then (base, number 1)
    else quotient
  let (n, d, e) := if invertsBase e then (d, n, e.neg) else (n, d, e)
  (r.power n e, r.power d e)

/-- The largest rational that leaves integer coefficients; numbers that are not exact count as one. -/
def content (e : Expression K) : Rat :=
  let coefficients := e.terms.map (fun (c, _) => (Scalar.exactValue? c).getD 1)
  let above := (coefficients.map (fun q => q.num.natAbs)).foldl Nat.gcd 0
  let below := (coefficients.map Rat.den).foldl Nat.lcm 1
  mkRat above below

def keepFactor (n : Int) (e : Expression K) : Expression K :=
  if n = 1 then e
  else if e.isSum then .plus (Scalar.ofInt n) (.times (.group e) (.integer 1) .one) .zero
  else e.scale (Scalar.ofInt n)

def gatherQuotients (parts : List (Expression K × Expression K)) :
    List (Expression K × Expression K) :=
  (parts.map Prod.snd).eraseDups.map (fun d =>
    (.sum ((parts.filter (fun part => part.2 = d)).map Prod.fst), d))

def overOneDenominator (r : Rules K) (gathered : List (Expression K × Expression K)) :
    Expression K × Expression K :=
  let numerators := gathered.map (fun (n, d) =>
    r.product (n :: (gathered.filter (fun other => other.2 ≠ d)).map Prod.snd))
  (.sum numerators, r.product (gathered.map Prod.snd))

def quotient (r : Rules K) : Nat → Expression K → Expression K × Expression K
  | 0, e => (e, number 1)
  | fuel + 1, e =>
      match e with
      | .zero => (e, number 1)
      | .plus c .one .zero =>
          match Scalar.exactValue? c with
          | some q => (number (Scalar.ofInt q.num), number (Scalar.ofInt q.den))
          | none => (e, number 1)
      | .plus c p .zero =>
          let parts := p.factors.map (fun (f : Factor K) =>
            match f with
            | (.constant .euler, x) =>
                let x := x.toExpression
                let facts := x.facts
                let below := Truth.holds facts.isNegative ||
                  (!(Truth.holds facts.isPositive) && x.leansNegative)
                if below then (number 1, r.exponential x.neg) else (f.expression, number 1)
            | (b, .integer 1) => (b.toExpression, number 1)
            | (b, x) =>
                let base := b.toExpression
                powerQuotient r base (quotient r fuel base) x.toExpression)
          let scale := quotient r fuel (number c)
          (r.product (scale.1 :: parts.map Prod.fst), r.product (scale.2 :: parts.map Prod.snd))
      | e =>
          let content := content e
          let primitive := e.scale (Scalar.exact content⁻¹)
          let parts := primitive.terms.map (fun (c, p) => quotient r fuel (.plus c p .zero))
          match gatherQuotients parts with
          | [(_, d)] =>
              (.sum (parts.map (fun part => keepFactor content.num part.1)),
                keepFactor content.den d)
          | gathered =>
              let (n, d) := overOneDenominator r gathered
              (keepFactor content.num n, keepFactor content.den d)

def fraction (r : Rules K) (c : K) (p : Product K) : Expression K × Expression K :=
  let place (f : Factor K) : List (Expression K) × List (Expression K) :=
    let x := f.2.toExpression
    let facts := x.facts
    if f.2 = .integer 1 then ([f.expression], [])
    else if Truth.holds facts.isNegative then ([], [r.power f.1.toExpression x.neg])
    else if Truth.holds facts.isPositive then ([f.expression], [])
    else if !x.isSum && x.factor?.isNone then
      let (n, d) := quotient r 8 f.expression
      ([n], [d])
    else ([f.expression], [])
  let placed := p.factors.map place
  let (above, below) : List (Expression K) × List (Expression K) :=
    match Scalar.exactValue? c with
    | some q =>
        if q.den = 1 then ([number c], [])
        else ([number (Scalar.ofInt q.num)], [number (Scalar.ofInt q.den)])
    | none => ([number c], [])
  (r.product (above ++ placed.flatMap Prod.fst), r.product (below ++ placed.flatMap Prod.snd))

end Rules

end HybridRelaxation
