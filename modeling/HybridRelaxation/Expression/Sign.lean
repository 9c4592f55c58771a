import HybridRelaxation.Expression.Sum

/-!
# Expressions that lean negative

Of an expression and its negative at most one leans negative: a negative number, a product with a
negative coefficient, and a sum in which more terms lean negative than do not. Where as many do as
do not, the leading term decides, which has the largest exponents when symbols are taken in order.
-/

namespace HybridRelaxation

variable {K : Type} [Scalar K]

/-! ## Leading terms -/

/-- The generators of a sum: what its factors are powers of, numbers apart. -/
abbrev Generators (K : Type) := List (Base K × Exponent K)

def splitFactor (b : Base K) (e : Exponent K) : (Base K × Exponent K) × Int :=
  match e with
  | .integer n => ((b, .integer 1), n)
  | .multiple c direction =>
      match Scalar.exactValue? c with
      | some q => ((b, .multiple (Scalar.exact (mkRat 1 q.den)) direction), q.num)
      | none => ((b, e), 1)

def generatorOrder (g h : Base K × Exponent K) : Ordering :=
  let plain (f : Base K × Exponent K) : Nat :=
    match f with
    | (.symbol s, .integer _) => if s.isNamed then 1 else 0
    | (.apply _ _, _) => 3
    | (.constant _, _) => 4
    | _ => 2
  (compare (plain g) (plain h)).then ((g.1.order h.1).then (g.2.order h.2))

def Product.openFactors (p : Product K) : List (Base K × Exponent K) :=
  p.factors.filter (fun (b, e) => !(b.symbols.isEmpty && e.symbols.isEmpty))

def Product.closedValue (p : Product K) : Rat :=
  let closed := p.factors.filter (fun (b, e) => b.symbols.isEmpty && e.symbols.isEmpty)
  match (Product.ofDistinct closed).value? with
  | some z => z.real
  | none => 0

def Expression.generators (e : Expression K) : Generators K :=
  let all := e.terms.flatMap (fun (_, p) => p.openFactors.map (fun (b, x) => (splitFactor b x).1))
  all.eraseDups.mergeSort (fun g h => (generatorOrder g h).isLE)

def Product.exponentOf (g : Base K × Exponent K) (p : Product K) : Int :=
  match p.openFactors.find? (fun (b, e) => (splitFactor b e).1 = g) with
  | some (b, e) => (splitFactor b e).2
  | none => 0

def precedes : List Int → List Int → Bool
  | m :: ms, n :: ns => if m = n then precedes ms ns else n < m
  | _, _ => false

structure TermKey (K : Type) where
  exponents : List Int
  value : Rat
  coefficient : K
  product : Product K

def termKey (generators : Generators K) (c : K) (p : Product K) : TermKey K :=
  ⟨generators.map p.exponentOf, (Scalar.finite? c).getD 0 * p.closedValue, c, p⟩

/-- The key that comes first: larger exponents, then the smaller value. -/
def TermKey.first (a b : TermKey K) : TermKey K :=
  if precedes b.exponents a.exponents then b
  else if precedes a.exponents b.exponents then a
  else if b.value < a.value then b else a

def TermKey.firstNegated (a b : TermKey K) : TermKey K :=
  if precedes b.exponents a.exponents then b
  else if precedes a.exponents b.exponents then a
  else if a.value < b.value then b else a

def Product.rank : Product K → Nat
  | .one => 0
  | .times (.constant .euler) (.integer 1) .one => 1
  | .times (.constant .euler) _ .one => 5
  | .times (.apply _ _) (.integer 1) .one => 5
  | .times (.number _) _ .one => 4
  | .times _ (.integer 1) .one => 1
  | .times _ _ .one => 4
  | .times _ _ _ => 2

def leadsNegative (keys : List (TermKey K)) : Bool :=
  match keys with
  | [] => false
  | key :: rest =>
      let front := rest.foldl TermKey.first key
      let back := rest.foldl TermKey.firstNegated key
      if front.product.rank = back.product.rank then
        if front.product.rank = 0 then front.value < -back.value
        else Scalar.isNegative front.coefficient
      else front.product.rank < back.product.rank

/-! ## The sign of an expression -/

namespace Expression

def countNegative : Expression K → Nat
  | .zero => 0
  | .plus c _ e => (if Scalar.isNegative c then 1 else 0) + countNegative e

/-- Most terms of a sum are negative, or half of them with the leading one. -/
def leansNegative (e : Expression K) : Bool :=
  let negative := countNegative e
  let positive := e.terms.length - negative
  positive < negative ||
    (positive = negative &&
      leadsNegative (e.terms.map (fun (c, p) => termKey e.generators c p)))

end Expression

end HybridRelaxation
