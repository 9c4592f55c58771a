import HybridRelaxation.SquareSum.Program

/-!
# Conic problems

A program becomes a conic problem: a vector of free coefficients, a symmetric positive semidefinite
matrix for each statement, and the matching equations that tie them together. An objective affine
in the decision symbols is minimized.
-/

namespace HybridRelaxation

variable {K : Type} [Scalar K]

structure ConicProblem (K : Type) where
  /-- The number of free coefficients. -/
  columns : Nat
  gramSizes : List Nat
  matchings : List (Matching K)
  objective : LinearForm K

/-! ## Values -/

/-- The value of a coefficient list at a vector; entries outside the vector count as zero. -/
def inner (row : List (Int × K)) (vector : List K) : List K :=
  row.map (fun (column, c) => c * (vector[column.toNat]?).getD 0)

def triangle (gram : Grid K) (pairs : List (Nat × Nat)) : List K :=
  pairs.map (fun (i, j) => (gram.entry? i j).getD 0)

def MatchingRow.violation (row : MatchingRow K) (free upper : List K) : K :=
  let left := inner row.free free
  let right := row.gram.map (fun (k, c) => -(c * (upper[k]?).getD 0))
  Scalar.machineSum (left ++ right ++ [-row.right])

def Matching.violations (m : Matching K) (free : List K) (gram : Grid K) : List K :=
  let upper := triangle gram m.pairs
  m.rows.map (fun row => row.violation free upper)

def LinearForm.value (form : LinearForm K) (vector : List K) : K :=
  Scalar.machineSum (inner form.row vector ++ [form.constant])

namespace ConicProblem

/-! ## From a program -/

def ofProgram (p : SquareProgram K) (objective : Expression K) :
    Except Failure (ConicProblem K) :=
  if p.size = 0 then .error .noDecisionVariables
  else do
    let matchings ← p.statements.mapM (fun s => s.matching p.index p.size)
    let form ← linearForm objective p.index
    .ok ⟨p.size, p.statements.map SquareSum.gramSize, matchings, form⟩

def constraintCount (c : ConicProblem K) : Nat := 2 * c.matchings.length

end ConicProblem

end HybridRelaxation
