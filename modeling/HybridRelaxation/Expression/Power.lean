import HybridRelaxation.Expression.Exponential

/-!
# Powers of expressions

Integer exponents distribute over products and multiply exponents. Other exponents are simplified
only where that is right for every real value of the indeterminates: nonnegative factors leave a
root, the root of an even power is taken of the absolute value, and a root of a root is a root.
Powers of numbers are numbers, radicals, or complex numbers with floating-point parts.
-/

namespace HybridRelaxation

variable {K : Type} [Scalar K]

namespace Expression

def ofRadical (r : Radical) : Expression K :=
  .ofTerm (Scalar.exact r.coefficient) (.ofFactors (r.roots.map Factor.ofRoot))

def rationalPower (base exponent : Rat) : Expression K :=
  ofRadical (Radical.power Radical.depth base exponent)

def roundedValue (c : K) : Rat := (Scalar.finite? (Scalar.toMeasured c)).getD 0

def measuredPower (b c : K) : Expression K :=
  let p := roundedValue b
  let q := roundedValue c
  if q.den = 1 then number (Scalar.power (Scalar.toMeasured b) q.num)
  else if 0 < p then number (Scalar.rounded (Elementary.power p q))
  else
    match Scalar.exactValue? c with
    | some exponent =>
        if exponent.num = 1 ∧ exponent.den % 2 = 1 then
          .ofTerm (Scalar.rounded (Elementary.power (-p) q))
            (.times (.number (Scalar.ofInt (-1))) (.ofNumber c) .one)
        else ofComplex (ComplexValue.power ⟨p, 0⟩ ⟨q, 0⟩)
    | none => ofComplex (ComplexValue.power ⟨p, 0⟩ ⟨q, 0⟩)

def finitePower (b c : K) : Expression K :=
  match Scalar.finite? b, Scalar.finite? c, Scalar.exactValue? b, Scalar.exactValue? c with
  | some p, some q, exactBase, exactExponent =>
      if q = 0 then number 1
      else if p = 0 then number (if 0 < q then b else Scalar.unsignedInfinity)
      else if b = 1 then number 1
      else
        match Scalar.integer? c, exactBase, exactExponent with
        | some n, _, _ => number (Scalar.power b n)
        | none, some base, some exponent => rationalPower base exponent
        | none, _, _ => measuredPower b c
  | _, _, _, _ => number Scalar.undefined

/-- A number to an infinite power, which depends on its size beside one. -/
def powerToInfinity (negative : Bool) (b : K) : K :=
  match Scalar.kind b with
  | .undefined => b
  | .unsignedInfinity => if negative then 0 else Scalar.unsignedInfinity
  | .infinite below =>
      if negative then (if below then Scalar.undefined else 0)
      else if below then Scalar.undefined else b
  | .exact q | .measured q =>
      if q.abs = 1 then Scalar.undefined
      else if q = 0 then (if negative then Scalar.unsignedInfinity else 0)
      else if negative && q < 0 && (Scalar.integer? b).isNone then Scalar.undefined
      else if q.abs < 1 then (if negative then Scalar.infinity false else 0)
      else if negative then 0
      else if 0 < q then Scalar.infinity false else Scalar.unsignedInfinity

end Expression

namespace Rules

open Expression

/-! ## Infinite and zero bases -/

def infinitePower (r : Rules K) (negative : Bool) (e : Expression K) : Option (Expression K) :=
  let facts := e.facts
  let value := if e.symbols.isEmpty then e.value? else none
  let positiveBase : Option (Expression K) :=
    if Truth.holds facts.isPositive then some (number (Scalar.infinity false))
    else if Truth.holds facts.isNegative then some .zero
    else
      match value with
      | some z =>
          if z.isReal then none
          else
            some (number (if 0 < z.real then Scalar.unsignedInfinity
              else if z.real < 0 then 0 else Scalar.undefined))
      | none => none
  if !negative then positiveBase
  else if !e.symbols.isEmpty then none
  else
    match e.number?.bind Scalar.integer?, positiveBase with
    | some n, _ =>
        some (number (if n < 0 then 0 else Scalar.infinity (n % 2 = 1)))
    | none, some size =>
        if size.isZero then some size
        else some (r.product [r.power (number (Scalar.ofInt (-1))) e, size])
    | none, none => none

def zeroPower (r : Rules K) (e : Expression K) : Option (Expression K) :=
  let facts := e.facts
  if Truth.holds facts.isPositive then some .zero
  else if Truth.holds facts.isNegative then some (number Scalar.unsignedInfinity)
  else if Truth.fails facts.isReal then some (number Scalar.undefined)
  else
    match e with
    | .plus c p .zero =>
        if Scalar.isNegative c then
          some (r.power (number Scalar.unsignedInfinity) (.plus 1 p .zero))
        else if c = 1 then none
        else some (r.power .zero (.plus 1 p .zero))
    | _ => none

/-! ## Numeric bases with symbolic exponents -/

def numberPower (r : Rules K) (b : K) (e : Expression K) : Option (Expression K) :=
  match Scalar.kind b with
  | .undefined => some (number b)
  | .unsignedInfinity => none
  | .infinite negative => infinitePower r negative e
  | .exact q =>
      if q = 0 then zeroPower r e
      else if q = 1 then some (number 1)
      else if q < 0 && Truth.holds e.facts.even then some (r.power (number (-b)) e)
      else if q = -1 && Truth.holds e.facts.isOdd then some (number b)
      else none
  | .measured q =>
      if q = 0 then
        let facts := e.facts
        if Truth.holds facts.isPositive then some (number b)
        else if Truth.holds facts.isNegative then some (number Scalar.unsignedInfinity)
        else none
      else none

/-! ## Powers of powers -/

def isProper (e : Expression K) : Bool :=
  match e.number? with
  | some c => (Scalar.finite? c).any (fun q => q.abs < 1)
  | none => false

def isHalf (e : Expression K) : Bool :=
  ((e.number?).bind Scalar.exactValue?).any (fun q => q.den = 2)

def powerOfPower (r : Rules K) (base : Base K) (exponent : Exponent K) (x : Expression K) :
    Option (Expression K) :=
  let b := base.toExpression
  let e := exponent.toExpression
  let multiplied (b : Expression K) : Option (Expression K) := some (r.power b (r.product [e, x]))
  let facts := b.facts
  if (x.number?.bind Scalar.integer?).isSome then multiplied b
  else if !(Truth.holds e.facts.isReal) then none
  else if e = number (Scalar.ofInt (-1)) && isHalf x && Truth.holds facts.isNegative then
    some (r.product [r.power e x, r.power b.neg (r.product [e, x])])
  else if e = number (Scalar.ofInt (-1)) && isHalf x && Truth.fails facts.isNegative then
    some (r.power b x.neg)
  else
    let size :=
      if Truth.holds e.facts.even && Truth.holds facts.isReal then r.apply .abs b else b
    if isProper e || e = number 1 || size.isNonnegative then multiplied size
    else if Truth.holds facts.imaginary && e.number?.any (fun c =>
        (Scalar.finite? c).any (fun q => q.abs < 2)) then multiplied b
    else none

/-! ## Powers of products -/

def termFactors (c : K) (p : Product K) : List (Expression K) :=
  let factors := p.factors.map (fun (f : Factor K) => f.expression)
  if c = 1 then factors else number c :: factors

structure SignedFactors (K : Type) where
  nonnegative : List (Expression K)
  negative : List (Expression K)
  others : List (Expression K)

def isImaginaryUnit (e : Expression K) : Bool := e = imaginaryUnit

namespace SignedFactors

def ofFactors (es : List (Expression K)) : SignedFactors K :=
  let known := es.filter (fun e => !isImaginaryUnit e)
  let sign (e : Expression K) : Option Bool := e.facts.isNonnegative
  let s : SignedFactors K := ⟨known.filter (fun e => sign e = some true),
    known.filter (fun e => sign e = some false), known.filter (fun e => (sign e).isNone)⟩
  if es.any isImaginaryUnit then { s with others := s.others ++ [imaginaryUnit] } else s

def isDirected (e : Expression K) : Bool :=
  match e.number?.map Scalar.kind with
  | some .unsignedInfinity => false
  | found => found.isSome

/-- Negative factors leave in pairs; a sign that is left stays with the factors of no known sign. -/
def settle (s : SignedFactors K) : SignedFactors K :=
  let one : Expression K := number (Scalar.ofInt (-1))
  match s.negative with
  | [] => s
  | [n] =>
      if s.others.isEmpty then ⟨s.nonnegative, [], [n]⟩
      else if isDirected n && n ≠ one then
        ⟨s.nonnegative ++ [n.neg], [], s.others ++ [one]⟩
      else ⟨s.nonnegative, [], s.others ++ [n]⟩
  | n :: rest =>
      let lone := s.others.isEmpty && isDirected n
      let paired := if lone then rest else n :: rest
      let start : Expression K := if lone then n else number 1
      let left := if (paired.length % 2 = 1) then start.neg else start
      ⟨s.nonnegative ++ paired.map Expression.neg, [],
        if left = number 1 then s.others else s.others ++ [left]⟩

end SignedFactors

/-- A power of a product: factors of known sign are raised one by one, the others together. -/
def separatedPower (r : Rules K) (factors : List (Expression K)) (e : Expression K) :
    Expression K :=
  let s := (SignedFactors.ofFactors factors).settle
  let raised := s.nonnegative.map (fun b => r.power b e)
  match s.others with
  | [] => r.product raised
  | [b] => r.product (raised ++ [r.power b e])
  | others =>
      let rest := r.product others
      if raised.isEmpty then unevaluatedPower rest e
      else r.product (raised ++ [unevaluatedPower rest e])

def rootOfImaginary? (r : Rules K) (c : K) (p : Product K) (exponent : Rat) :
    Option (Expression K) :=
  match (Expression.plus c p .zero).imaginaryCoefficient?, exponent.den with
  | some (d, .one), 2 =>
      match Scalar.exactValue? d with
      | some q =>
          let half := q.abs / 2
          match Elementary.exactRoot? 2 half.num.natAbs, Elementary.exactRoot? 2 half.den with
          | some above, some below =>
              let sign : K := Scalar.ofInt (if q < 0 then -1 else 1)
              let sum := (number 1).add (imaginaryUnit.scale sign)
              let power := number (Scalar.ofInt exponent.num)
              some (r.product [r.power (number (Scalar.exact (mkRat (above : Int) below))) power,
                r.power sum power])
          | _, _ => none
      | none => none
  | _, _ => none

def productPower (r : Rules K) (c : K) (p : Product K) (e : Expression K) :
    Option (Expression K) :=
  match e.number? with
  | none => none
  | some x =>
      if (Scalar.finite? x).isNone then none
      else
        match Scalar.integer? x with
        | some n =>
            let constant := p.symbols.isEmpty
            let sign : K := if constant && Scalar.isNegative c && n % 2 = 1 then Scalar.ofInt (-1) else 1
            let size : K := if constant && Scalar.isNegative c then -c else c
            some (r.product (number (sign * Scalar.power size n) ::
              p.factors.map (fun (f : Factor K) => r.power f.expression e)))
        | none =>
            match (Scalar.exactValue? x).bind (rootOfImaginary? r c p) with
            | some root => some root
            | none => some (separatedPower r (termFactors c p) e)

/-! ## Powers of sums -/

def largestCoefficient? (e : Expression K) : Option K :=
  if e.terms.any (fun (c, _) => Scalar.isMeasured c) && e.isBounded then
    some (e.terms.foldl (fun (big : K) (c, _) =>
      if Scalar.less (Scalar.abs c) big then big else Scalar.abs c) 0)
  else none

def normalizedSum (big : K) (e : Expression K) : Expression K :=
  e.terms.foldl (fun (sum : Expression K) (c, p) =>
    let d : K :=
      if c = big then 1 else if c = -big then Scalar.ofInt (-1) else Scalar.quotient c big
    sum.add (.ofTerm d p)) .zero

def rationalRoot? (q : Rat) : Option Rat :=
  if q < 0 then none
  else
    match Elementary.exactRoot? 2 q.num.natAbs, Elementary.exactRoot? 2 q.den with
    | some above, some below => some (mkRat (above : Int) below)
    | _, _ => none

def complexPower (r : Rules K) (a b : K) (exponent : Rat) : Option (Expression K) :=
  if exponent = -1 then
    let norm := r.product [number a, number a] |>.add (r.product [number b, number b])
    some (r.product [(number a).add (imaginaryUnit.scale (-b)),
      r.power norm (number (Scalar.ofInt (-1)))])
  else if exponent.den = 2 then
    match Scalar.exactValue? a, Scalar.exactValue? b with
    | some p, some q =>
        match rationalRoot? (p * p + q * q) with
        | some size =>
            let root := r.power (rationalPower ((size - p) / 2) (1 / 2))
              (number (Scalar.ofInt exponent.num))
            let sum := (number (Scalar.exact ((size + p) / q.abs))).add
              (imaginaryUnit.scale (Scalar.ofInt (if q < 0 then -1 else 1)))
            some (r.product [root, r.power sum (number (Scalar.ofInt exponent.num))])
        | none => none
    | _, _ => none
  else none

def sumPower (r : Rules K) (b : Expression K) (c : K) : Option (Expression K) :=
  let complex :=
    if b.symbols.isEmpty then
      match Scalar.exactValue? c, b.complexParts? with
      | some exponent, some (x, y) => complexPower r x y exponent
      | _, _ => none
    else none
  let isRationalConstant := b.symbols.isEmpty && (Scalar.exactValue? c).isSome
  match complex with
  | some e => some e
  | none =>
      if isRationalConstant || Scalar.abs c = 1 || (Scalar.finite? c).isNone then none
      else
        match largestCoefficient? b with
        | some big =>
            if Scalar.isPositive big && (Scalar.finite? big) ≠ some 1 then
              some (r.product [r.power (number big) (number c),
                r.power (normalizedSum big b) (number c)])
            else none
        | none => none

/-! ## Powers of functions -/

def functionPower (r : Rules K) (f : UnaryFunction) (argument e : Expression K) :
    Option (Expression K) :=
  match f, e.number?.bind Scalar.integer? with
  | .abs, some n =>
      if !argument.isReal then none
      else if n % 2 = 0 then some (r.power argument e)
      else if n = -1 then none
      else some (r.product [r.power argument (number (Scalar.ofInt (n - 1))), applied .abs argument])
  | .sign, some n =>
      if n % 2 = 0 && Truth.fails argument.facts.isZero then some (number 1) else none
  | _, _ => none

/-! ## All powers -/

def unitPower (c : K) : Option (Expression K) :=
  match Scalar.exactValue? c with
  | some q =>
      if q.den = 1 then
        some (match q.num % 4 with
          | 0 => number 1
          | 1 => imaginaryUnit
          | 2 => number (Scalar.ofInt (-1))
          | _ => imaginaryUnit.neg)
      else
        let rest := q - 2 * (q / 2).floor
        some (.ofTerm (Scalar.ofInt (if (q / 2).floor % 2 = 0 then 1 else -1))
          (.times (.group imaginaryUnit) (.ofNumber (Scalar.exact rest)) .one))
  | none => none

/-- The exponent that turns a power into one of the constant `E`: `k` in `b ^ (k / log b)`. -/
def exponentOverLogarithm? (b e : Expression K) : Option (Expression K) :=
  match e with
  | .plus c p .zero =>
      let inverse : Factor K := (.apply .log b, .integer (-1))
      if p.factors.contains inverse &&
          (p.factors.filter (fun f => f ≠ inverse)).all (fun f =>
            match f.2 with
            | .integer n => 0 < n
            | .multiple _ _ => true) then
        some (.ofTerm c (.ofDistinct (p.factors.filter (fun f => f ≠ inverse))))
      else none
  | _ => none

def powerByBase (r : Rules K) (b e : Expression K) : Option (Expression K) :=
  match b with
  | .zero =>
      match e.number? with
      | some c => some (finitePower 0 c)
      | none => zeroPower r e
  | .plus c .one .zero =>
      match e.number? with
      | none => numberPower r c e
      | some x =>
          match Scalar.kind c with
          | .infinite negative => infinitePower r negative e
          | .unsignedInfinity =>
              some (number (if Scalar.isNegative x then 0 else Scalar.unsignedInfinity))
          | .undefined => some (number c)
          | _ => some (finitePower c x)
  | .plus c p .zero =>
      if isImaginaryUnit b then e.number?.bind unitPower
      else
        match b.factor? with
        | some (.constant .euler, .integer 1) => some (r.exponential e)
        | some (.apply f argument, .integer 1) => functionPower r f argument e
        | some (base, .integer 1) =>
            match base with
            | .group sum => some (r.power sum e)
            | _ => none
        | some (base, exponent) => powerOfPower r base exponent e
        | none => productPower r c p e
  | b => e.number?.bind (sumPower r b)

def infiniteExponent (b : Expression K) (negative : Bool) : Option (Expression K) :=
  match b.number? with
  | some c => some (number (powerToInfinity negative c))
  | none =>
      if b.symbols.isEmpty && !negative then
        match b.realValue? with
        | some q => if q.abs = 1 then none else some (number (powerToInfinity false (Scalar.exact q : K)))
        | none => none
      else none

def generalPower (r : Rules K) (b e : Expression K) : Expression K :=
  (powerByBase r b e).getD (unevaluatedPower b e)

def powerOf (r : Rules K) (b e : Expression K) : Expression K :=
  match e.number? with
  | some c =>
      match Scalar.kind c with
      | .unsignedInfinity | .undefined => number Scalar.undefined
      | .infinite negative =>
          match infiniteExponent b negative with
          | some value => value
          | none => generalPower r b e
      | _ => if c = 0 then number 1 else if c = 1 then b else generalPower r b e
  | none =>
      if b = number 1 then b
      else
        match exponentOverLogarithm? b e with
        | some k => r.exponential k
        | none => generalPower r b e

end Rules

end HybridRelaxation
