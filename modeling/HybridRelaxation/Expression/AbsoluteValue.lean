import HybridRelaxation.Expression.Trigonometry

/-!
# Absolute values and signs

The absolute value of a product is that of its factors, and factors whose absolute value has no
simpler form are taken together. A real expression of known sign is its own absolute value or the
negative of it, and a complex number has the root of the sum of two squares.
-/

namespace HybridRelaxation

variable {K : Type} [Scalar K]

namespace Rules

open Expression

/-! ## Turning sums -/

/-- A factor with a sum that leans negative turned round, and the sign that this leaves. -/
def turnFactor (f : Factor K) : K × Factor K :=
  match f with
  | (.group e, .integer n) =>
      if e.leansNegative then
        (Scalar.ofInt (if n % 2 = 0 then 1 else -1), (.group e.neg, .integer n))
      else (1, f)
  | f => (1, f)

def turnSums (e : Expression K) : Expression K :=
  match e with
  | .plus c p .zero =>
      let turned := p.factors.map turnFactor
      let sign := turned.foldl (fun (sign : K) f => sign * f.1) 1
      if sign = 1 ∧ turned.map Prod.snd = p.factors then e
      else .plus (c * sign) (.ofFactors (turned.map Prod.snd)) .zero
  | e => if e.isSum && e.leansNegative then e.neg else e

/-! ## Absolute values -/

def isAbsolute (e : Expression K) : Bool :=
  match e.factor? with
  | some (.apply .abs _, .integer 1) => true
  | _ => false

/-- Factors that have an absolute value of their own, and factors that are taken together. -/
structure AbsoluteParts (K : Type) where
  known : List (Expression K)
  unknown : List (Expression K)

def addAbsolute (r : Rules K) (parts : AbsoluteParts K) (e : Expression K) : AbsoluteParts K :=
  match e.factor? with
  | some (b, .integer n) =>
      if n < 0 then
        let base := r.apply .abs b.toExpression
        if isAbsolute base then { parts with unknown := parts.unknown ++ [e] }
        else
          { parts with known := parts.known ++ [r.power base (number (Scalar.ofInt n))] }
      else whole
  | _ => whole
where
  whole : AbsoluteParts K :=
    let value := r.apply .abs e
    if isAbsolute value then { parts with unknown := parts.unknown ++ [e] }
    else { parts with known := parts.known ++ [value] }

def absoluteProduct (r : Rules K) (c : K) (p : Product K) : Expression K :=
  let parts := (termFactors c p).foldl (addAbsolute r) ⟨[], []⟩
  let known := r.product parts.known
  if parts.unknown.isEmpty then known
  else r.product [known, applied .abs (r.product parts.unknown)]

def absolutePower? (r : Rules K) (base : Base K) (exponent : Exponent K) (e : Expression K) :
    Option (Expression K) :=
  let b := base.toExpression
  let x := exponent.toExpression
  let facts := b.facts
  if Truth.holds facts.isReal then
    match exponent with
    | .integer n =>
        if n % 2 = 0 then some e
        else some (r.power (r.apply .abs b) x)
    | .multiple _ _ =>
        if !(x.isReal) then none
        else if Truth.holds facts.isNonnegative then some (r.power b x)
        else if Truth.holds facts.isNegative then some (r.power b.neg x)
        else none
  else none

def squareSum (r : Rules K) (a b : Expression K) : Expression K :=
  let square (e : Expression K) : Expression K :=
    .sum (e.terms.flatMap (fun (c, p) => e.terms.map (fun (d, q) =>
      r.product [.plus c p .zero, .plus d q .zero])))
  (square a).add (square b)

def realParts? (e : Expression K) : Option (Expression K × Expression K) :=
  e.terms.foldl (fun found (c, p) =>
    match found with
    | none => none
    | some (a, b) =>
        let term : Expression K := .plus c p .zero
        if term.isReal then some (a.add term, b)
        else
          match term.imaginaryCoefficient? with
          | some (d, q) =>
              let coefficient : Expression K := .ofTerm d q
              if coefficient.isReal then some (a, b.add coefficient) else none
          | none => none) (some (.zero, .zero))

def complexAbsolute? (r : Rules K) (e : Expression K) : Option (Expression K) :=
  match realParts? e with
  | some (a, b) =>
      if b.isZero then none
      else some (r.power (squareSum r a b) (number (Scalar.exact (1 / 2))))
  | none => none

def absoluteByFacts (r : Rules K) (e : Expression K) : Expression K :=
  let facts := e.facts
  if Truth.holds facts.isZero then .zero
  else if Truth.holds facts.isNonnegative then e
  else if Truth.holds facts.isNonpositive then e.neg
  else if Truth.holds facts.isReal then applied .abs e
  else (complexAbsolute? r e).getD (applied .abs e)

def absoluteOfTurned (r : Rules K) (e : Expression K) : Expression K :=
  match e.factor? with
  | some (.constant .euler, x) =>
      if x.toExpression.isReal then e else applied .abs e
  | some (_, .integer 1) => absoluteByFacts r e
  | some (b, x) =>
      if Truth.holds b.facts.isReal then
        (absolutePower? r b x e).getD (if isImaginaryUnit e then number 1 else applied .abs e)
      else absoluteByFacts r e
  | none =>
      match e with
      | .plus c .one .zero =>
          if Scalar.kind c = .unsignedInfinity then number (Scalar.infinity false)
          else if Scalar.isUndefined c then e
          else absoluteByFacts r e
      | .plus c p .zero => absoluteProduct r c p
      | e => absoluteByFacts r e

def absolute (r : Rules K) (e : Expression K) : Expression K :=
  let turned := turnSums e
  let (n, d) := quotient r 8 turned
  if !d.symbols.isEmpty && n.symbols.isEmpty then
    r.product [r.apply .abs n, r.power (r.apply .abs d) (number (Scalar.ofInt (-1)))]
  else absoluteOfTurned r turned

/-! ## Signs -/

def signOf (e : Expression K) : Expression K :=
  let facts := e.facts
  if Truth.holds facts.isZero then .zero
  else if Truth.holds facts.isPositive then number 1
  else if Truth.holds facts.isNegative then number (Scalar.ofInt (-1))
  else
    match e with
    | .plus c p .zero =>
        let known (f : Factor K) : Option Bool := f.expression.facts.isPositive
        let negative (f : Factor K) : Bool := Truth.holds f.expression.facts.isNegative
        let kept := p.factors.filter (fun f => !(Truth.holds (known f)) && !negative f)
        let turns := (p.factors.filter negative).length + (if Scalar.isNegative c then 1 else 0)
        (applied .sign (.plus 1 (.ofDistinct kept) .zero)).scale
          (Scalar.ofInt (if turns % 2 = 0 then 1 else -1))
    | e => applied .sign e

/-! ## All functions -/

def applyOf (r : Rules K) (f : UnaryFunction) (e : Expression K) : Expression K :=
  match f with
  | .sin => sine r e
  | .cos => cosine r e
  | .log => logarithm r e
  | .abs => absolute r e
  | .sign => signOf e
  | .sinh => hyperbolicSine r e
  | .cosh => hyperbolicCosine r e

end Rules

end HybridRelaxation
