import HybridRelaxation.Certificate.GramArray
import HybridRelaxation.Certificate.Residual

/-!
# Diagnoses

A diagnosis checks given values of the decision symbols and given arrays for the Gram matrices of a
program: the smallest eigenvalue of each array, the quadratic forms of the arrays, and the records
filled from both.
-/

namespace HybridRelaxation

variable {K : Type} [Scalar K]

structure Diagnosis (K : Type) where
  minEigenvalues : Except Failure (List K)
  /-- The quadratic forms of the arrays. -/
  forms : Except Failure (List (Expression K))
  /-- The records as far as they could be filled. -/
  records : List (ConstraintRecord K)
  /-- The failure that stopped the filling of the records, if there was one. -/
  result : Except Failure Unit

namespace Diagnosis

def formOf (s : SquareSum K) (a : NumberArray K) : Except Failure (Expression K) := do
  s.gramForm (← GramArray.toGrid a)

def formsOf (p : SquareProgram K) (arrays : List (NumberArray K)) :
    Except Failure (List (Expression K)) :=
  (p.statements.zip arrays).mapM (fun (s, a) => formOf s a)

def ofArrays (p : SquareProgram K) (records : List (ConstraintRecord K)) (free : List K)
    (arrays : List (NumberArray K)) (known : Option (List K)) : Diagnosis K :=
  let solution : Solution K := ⟨"optimal", 0, free, [], [], [], Solution.valuesOf p free⟩
  let eigenvalues := GramArray.minEigenvalues arrays
  let forms := formsOf p arrays
  let (filled, result) :=
    match known, eigenvalues with
    | some found, _ => residualsFrom forms records p solution found
    | none, .ok found => residualsFrom forms records p solution found
    | none, .error f => (records, .error f)
  ⟨eigenvalues, forms, filled, result⟩

def invalid (d : Diagnosis K) : Except Failure (List Nat) :=
  d.minEigenvalues.map GramMatrix.negativePositions

end Diagnosis

end HybridRelaxation
