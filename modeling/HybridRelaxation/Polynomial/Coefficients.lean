import HybridRelaxation.Expression.Expansion
import HybridRelaxation.Failure
import HybridRelaxation.Polynomial.Exponents

/-!
# Coefficients of a polynomial

An expression that is polynomial in a list of variables is split into its coefficients by exponent
vector. A coefficient is any expression free of the variables. The factors that contain a variable,
read by base, have to be variables to natural powers; any other use of a variable makes the
expression not polynomial.
-/

namespace HybridRelaxation

variable {K : Type} [Scalar K]

/-! ## Monomials -/

def monomial (scope : List Symbol) (e : Exponents) : Expression K :=
  Expression.product
    (List.zipWith (fun s k => (Expression.ofSymbol s).intPower k) scope e)

def monomials (scope : List Symbol) (degree least : Int) : List (Expression K) :=
  (exponents scope.length degree least).map (monomial scope)

/-! ## One term -/

def lastPosition? (s : Symbol) (scope : List Symbol) : Option Nat :=
  (scope.reverse.idxOf? s).map (fun k => scope.length - 1 - k)

def Expression.natural? (e : Expression K) : Option Nat :=
  match e.number?.bind Scalar.integer? with
  | some (.ofNat n) => some n
  | _ => none

def addAt (position : Nat) (n : Int) (e : Exponents) : Exponents :=
  e.modify position (· + n)

def dependsOn (scope symbols : List Symbol) : Bool :=
  symbols.any (fun s => scope.contains s)

def selectFactors (scope : List Symbol) (dependent : Bool) : Product K → Product K
  | .one => .one
  | .times b e p =>
      if dependsOn scope (b.symbols ++ e.symbols) = dependent then
        .times b e (selectFactors scope dependent p)
      else selectFactors scope dependent p

def exponentVector (scope : List Symbol) : List (BasePower K) → Except Failure Exponents
  | [] => .ok (List.replicate scope.length 0)
  | (b, e) :: rest => do
      let vector ← exponentVector scope rest
      match b, e.natural? with
      | .symbol s, some n =>
          match lastPosition? s scope with
          | some position => .ok (addAt position n vector)
          | none => .error (.notPolynomial (scope.map Symbol.text))
      | _, _ => .error (.notPolynomial (scope.map Symbol.text))

def splitProduct (scope : List Symbol) (p : Product K) :
    Except Failure (Product K × Exponents) := do
  let vector ← exponentVector scope (selectFactors scope true p).basePowers
  .ok (selectFactors scope false p, vector)

/-! ## Collecting terms -/

/-- Exponent vectors with their coefficients; no vector occurs twice. -/
abbrev CoefficientMap (K : Type) := List (Exponents × Expression K)

def CoefficientMap.addAt (vector : Exponents) (c : Expression K) :
    CoefficientMap K → CoefficientMap K
  | [] => [(vector, c)]
  | (other, d) :: rest =>
      if vector = other then (other, d + c) :: rest
      else (other, d) :: CoefficientMap.addAt vector c rest

def CoefficientMap.graded (m : CoefficientMap K) : CoefficientMap K :=
  m.mergeSort (fun a b => (gradedOrder a.1 b.1).isLE)

def collectTerms (scope : List Symbol) :
    List (K × Product K) → CoefficientMap K → Except Failure (CoefficientMap K)
  | [], collected => .ok collected
  | (c, p) :: rest, collected =>
      if Scalar.isZero c then collectTerms scope rest collected
      else do
        let (free, vector) ← splitProduct scope p
        collectTerms scope rest (collected.addAt vector (.ofTerm c free))

/-- The coefficients that do not vanish, by exponent vector. -/
def coefficients (e : Expression K) (scope : List Symbol) :
    Except Failure (CoefficientMap K) := do
  let collected ← collectTerms scope e.expand.terms []
  .ok (collected.filter (fun pair => !pair.2.isZero))

/-! ## Degree -/

def CoefficientMap.totalDegree (m : CoefficientMap K) : Int :=
  match m.map (fun pair => totalDegreeOf pair.1) with
  | [] => 0
  | d :: ds => ds.foldl max d

def totalDegree (e : Expression K) (scope : List Symbol) : Except Failure Int := do
  let m ← coefficients e scope
  .ok m.totalDegree

def isPolynomial (e : Expression K) (scope : List Symbol) : Bool :=
  match coefficients e scope with
  | .ok _ => true
  | .error _ => false

end HybridRelaxation
