import HybridRelaxation.Grid
import HybridRelaxation.Polynomial.LinearForm

/-!
# Sum-of-squares statements

A statement says that a polynomial in given variables is a sum of squares. It is certified by a
symmetric positive semidefinite Gram matrix over a basis of monomials: the polynomial and the
quadratic form of the matrix have the same coefficients. The coefficients of the polynomial are
affine in decision symbols, so this is one linear equation for each monomial of either side.
-/

namespace HybridRelaxation

variable {K : Type}

/-- A polynomial to be a sum of squares, with its coefficients and its Gram basis. -/
structure SquareSum (K : Type) where
  polynomial : Expression K
  scope : List Symbol
  basis : List Exponents
  name : String
  coefficients : CoefficientMap K
  deriving DecidableEq

namespace SquareSum

variable [Scalar K]

def ofBasis (polynomial : Expression K) (scope : List Symbol) (basis : List Exponents)
    (name : String) : Except Failure (SquareSum K) := do
  let coefficients ← HybridRelaxation.coefficients polynomial scope
  .ok ⟨polynomial, scope, basis, name, coefficients⟩

def gramSize (s : SquareSum K) : Nat := s.basis.length

def monomialBasis (s : SquareSum K) : List (Expression K) := s.basis.map (monomial s.scope)

/-! ## The quadratic form of a Gram matrix -/

def quadraticRow (z : Expression K) (row : List K) (basis : List (Expression K)) :
    List (Expression K) :=
  List.zipWith (fun g w => (z * w).scale g) row basis

def gramForm (s : SquareSum K) (gram : Grid K) : Except Failure (Expression K) :=
  if gram.height ≠ s.gramSize ∨ gram.width ≠ s.gramSize then .error .shapeMismatch
  else if s.basis.isEmpty then .error .outOfRange
  else
    let rows := List.zipWith (fun z row => quadraticRow z row s.monomialBasis)
      s.monomialBasis gram.rows
    .ok (Expression.sum rows.flatten).expand

end SquareSum

/-! ## Matching coefficients -/

def trianglePairs (size : Nat) : List (Nat × Nat) :=
  (List.range size).flatMap (fun i => (List.range' i (size - i)).map (fun j => (i, j)))

/--
One equation: the free coefficients less the entries of the upper triangle of the Gram matrix, each
with its weight, equal the right-hand side.
-/
structure MatchingRow (K : Type) where
  exponents : Exponents
  free : List (Int × K)
  gram : List (Nat × K)
  right : K
  deriving DecidableEq

structure Matching (K : Type) where
  rows : List (MatchingRow K)
  columns : Int
  pairs : List (Nat × Nat)

namespace SquareSum

variable [Scalar K]

def pairExponents (s : SquareSum K) (pair : Nat × Nat) : Exponents :=
  addExponents (s.basis.getD pair.1 []) (s.basis.getD pair.2 [])

/-- Entries of the upper triangle that contribute to a monomial; those off the diagonal twice. -/
def gramEntries (s : SquareSum K) (e : Exponents) : List (Nat × K) :=
  (trianglePairs s.gramSize).zipIdx.filterMap fun (pair, k) =>
    if s.pairExponents pair = e then
      some (k, Scalar.machine (Scalar.measured (if pair.1 = pair.2 then 1 else 2)))
    else none

def matchedExponents (s : SquareSum K) : List Exponents :=
  sortGraded (s.coefficients.map Prod.fst ++
    (trianglePairs s.gramSize).map s.pairExponents).eraseDups

def coefficientOf (s : SquareSum K) (e : Exponents) : Option (Expression K) :=
  (s.coefficients.find? (fun entry => entry.1 = e)).map Prod.snd

def matchingRow (s : SquareSum K) (index : Symbol → Option Int) (e : Exponents) :
    Except Failure (MatchingRow K) := do
  match s.coefficientOf e with
  | none => .ok ⟨e, [], s.gramEntries e, Scalar.machine (Scalar.measured 0)⟩
  | some c => do
      let form ← linearForm c index
      .ok ⟨e, form.row, s.gramEntries e, Scalar.machine (-form.constant)⟩

def MatchingRow.fits (columns : Int) (row : MatchingRow K) : Bool :=
  row.free.all (fun entry => 0 ≤ entry.1 && entry.1 < columns)

def matching (s : SquareSum K) (index : Symbol → Option Int) (columns : Int) :
    Except Failure (Matching K) := do
  let rows ← s.matchedExponents.mapM (s.matchingRow index)
  if 0 ≤ columns ∧ rows.all (MatchingRow.fits columns) then
    .ok ⟨rows, columns, trianglePairs s.gramSize⟩
  else .error .badValue

end SquareSum

end HybridRelaxation
