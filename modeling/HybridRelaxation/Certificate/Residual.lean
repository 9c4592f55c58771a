import HybridRelaxation.Conic.Solution
import HybridRelaxation.Datum
import HybridRelaxation.Polynomial.LinearForm
import HybridRelaxation.Relaxation.Constraint

/-!
# Residuals

Two numbers say how far a solved certificate is from being exact. The residual of a constraint is
what is left of its polynomial after taking away the base and the multipliers times the
inequalities. The subresidual of a statement is what is left of its polynomial after taking away
the quadratic form of its Gram matrix. The statements of the records follow one another from the
first statement on, in the order of the records.
-/

namespace HybridRelaxation

variable {K : Type} [Scalar K]

/-! ## Sizes of polynomials -/

def largerDefined (a b : K) : K :=
  if Scalar.isUndefined a then a else if Scalar.isUndefined b then b
  else if Scalar.less a b then b else a

def largest (xs : List K) : K := xs.foldl largerDefined (Scalar.machine (Scalar.measured 0))

/-- The largest coefficient of a polynomial in size, and the sum of all sizes. -/
structure CoefficientNorms (K : Type) where
  max : K
  sum : K

def coefficientNorms (e : Expression K) (scope : List Symbol) :
    Except Failure (CoefficientNorms K) := do
  let parts ← coefficients e scope
  let numbers ← parts.mapM (fun part => part.2.machineValue)
  let sizes := numbers.map Scalar.abs
  .ok ⟨largest sizes, Scalar.machineSum sizes⟩

/-! ## Solved statements -/

def solvedPolynomials (p : SquareProgram K) (s : Solution K) : List (Expression K) :=
  p.statements.map (fun statement => s.evaluate statement.polynomial)

def approximations (p : SquareProgram K) (s : Solution K) :
    Except Failure (List (Expression K)) :=
  (p.statements.zip s.grams).mapM (fun (statement, gram) => statement.gramForm gram)

structure SolvedStatements (K : Type) where
  polynomials : List (Expression K)
  forms : List (Expression K)
  minEigenvalues : List K

/-! ## Records -/

def reconstruction (base : Expression K) (multipliers constraints : List (Expression K)) :
    Expression K :=
  base + Expression.sum (List.zipWith (· * ·) multipliers constraints)

def residualAt (solved : SolvedStatements K) (s : Solution K) (start : Int)
    (r : ConstraintRecord K) : Except Failure (Expression K) := do
  let base ← entryAt solved.polynomials (start + r.multiplierCount)
  let multipliers := slice solved.polynomials start (start + r.multiplierCount)
  .ok (s.evaluate r.polynomial - reconstruction base multipliers r.constraints)

def subresidualAt (solved : SolvedStatements K) (scope : List Symbol) (position : Int) :
    Except Failure K := do
  let polynomial ← entryAt solved.polynomials position
  let form ← entryAt solved.forms position
  (coefficientNorms (polynomial - form) scope).map CoefficientNorms.max

def positionsFrom (start : Int) (r : ConstraintRecord K) : List Int :=
  (List.range (r.multiplierCount + 1).toNat).map (fun (j : Nat) => start + j)

def withResidual (solved : SolvedStatements K) (s : Solution K) (start : Int)
    (r : ConstraintRecord K) : Except Failure (ConstraintRecord K) := do
  let residual ← residualAt solved s start r
  let norms ← coefficientNorms residual r.scope
  .ok { r with residualMax := norms.max, residualSum := norms.sum }

def withSubresiduals (solved : SolvedStatements K) (start : Int) (r : ConstraintRecord K) :
    Except Failure (ConstraintRecord K) :=
  if r.multiplierCount < -1 then .error .badValue
  else do
    let sizes ← (positionsFrom start r).mapM (subresidualAt solved r.scope)
    .ok { r with
      subresidualMax := sizes
      minEigenvalues := slice solved.minEigenvalues start (start + r.multiplierCount + 1) }

def fillRecord (solved : SolvedStatements K) (s : Solution K) (start : Int)
    (r : ConstraintRecord K) : ConstraintRecord K × Except Failure Unit :=
  match withResidual solved s start r with
  | .error f => (r, .error f)
  | .ok r =>
      match withSubresiduals solved start r with
      | .error f => (r, .error f)
      | .ok r => (r, .ok ())

/-- Fills records from a position on, one after the other; after a failure they stay as they are. -/
def fillRecords (solved : SolvedStatements K) (s : Solution K) :
    Int → List (ConstraintRecord K) → List (ConstraintRecord K) × Except Failure Unit
  | _, [] => ([], .ok ())
  | start, r :: rest =>
      match fillRecord solved s start r with
      | (r, .error f) => (r :: rest, .error f)
      | (r, .ok _) =>
          let (others, result) :=
            fillRecords solved s (start + r.multiplierCount + 1) rest
          (r :: others, result)

def residualsFrom (forms : Except Failure (List (Expression K)))
    (records : List (ConstraintRecord K)) (p : SquareProgram K) (s : Solution K)
    (minEigenvalues : List K) : List (ConstraintRecord K) × Except Failure Unit :=
  match forms with
  | .error f => (records, .error f)
  | .ok forms => fillRecords ⟨solvedPolynomials p s, forms, minEigenvalues⟩ s 0 records

def computeResiduals (records : List (ConstraintRecord K)) (p : SquareProgram K)
    (s : Solution K) (minEigenvalues : List K) :
    List (ConstraintRecord K) × Except Failure Unit :=
  residualsFrom (approximations p s) records p s minEigenvalues

end HybridRelaxation
