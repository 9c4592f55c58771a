import HybridRelaxation.Certificate.Eigenvalue
import HybridRelaxation.Failure
import HybridRelaxation.Grid
import HybridRelaxation.Number.Mixed

/-!
# Solved Gram matrices

A solved Gram matrix certifies a sum of squares only if it is positive semidefinite. Its smallest
eigenvalue is that of its symmetric part. A single row or column stands for the square matrix of
the sums of its entries in pairs.
-/

namespace HybridRelaxation

variable {K : Type} [Scalar K]

namespace GramMatrix

def mean (a b : K) : K :=
  Scalar.machine (Scalar.measured (1 / 2) * Scalar.machine (a + b))

def pairMeans (xs : List K) : List (List K) := xs.map (fun a => xs.map (mean a))

def symmetricPart (g : Grid K) : Except Failure (List (List K)) :=
  if g.height = g.width then .ok (List.zipWith (List.zipWith mean) g.rows g.columns)
  else if g.height = 1 ∨ g.width = 1 then .ok (pairMeans g.entries)
  else .error .badValue

/-- The smallest eigenvalue of a symmetric matrix; undefined where an entry is not finite. -/
def smallestEigenvalue (rows : List (List K)) : K :=
  match rows with
  | [[a]] => a
  | rows =>
      match rows.mapM (fun row => row.mapM Scalar.finite?) with
      | some rationals => Scalar.measured (Eigenvalue.smallest rationals)
      | none => Scalar.undefined

def minEigenvalue (g : Grid K) : Except Failure K := do
  match ← symmetricPart g with
  | [] => .error .badValue
  | rows => .ok (smallestEigenvalue rows)

def minEigenvalues (gs : List (Grid K)) : Except Failure (List K) := gs.mapM minEigenvalue

def eigenvalueText (c : Number) : String :=
  match c.toDouble.toRat? with
  | some q => fixedText 8 q
  | none => c.answer

def negativePositions (xs : List K) : List Nat :=
  xs.zipIdx.filterMap (fun (x, k) => if Scalar.less x 0 then some k else none)

end GramMatrix

end HybridRelaxation
