import HybridRelaxation.Conic.Solution
import HybridRelaxation.Settings

/-!
# Reports on conic problems

A report holds what can be seen of a conic problem and of a call of a backend on it: the objective
and the equations at the numbers that the variables have, whether the backend was called, and the
solution or the failure that came of it.
-/

namespace HybridRelaxation

variable {K : Type} [Scalar K]

inductive BackendMode where
  /-- With the numbers that the variables have. -/
  | answering
  /-- With an error of its own. -/
  | failing
  /-- There is no such backend. -/
  | missing
  deriving DecidableEq

structure ConicReport (K : Type) where
  problem : ConicProblem K
  /-- The value of the minimized objective. -/
  objective : K
  /-- By how much the equations of each statement are missed. -/
  residuals : List (List K)
  /-- The backend was called. -/
  called : Bool
  solution : Except Failure (Solution K)

def ConicReport.of (p : SquareProgram K) (objective : Expression K) (settings : Settings)
    (numbers : Prescription K) (mode : BackendMode) : Except Failure (ConicReport K) := do
  let problem ← ConicProblem.ofProgram p objective
  let free ← numbers.freeValues problem.columns
  let grams ← numbers.grams problem.gramSizes
  let options := checkBackendOptions settings.solverOptions
  let report := if mode = .answering then .finished numbers else .failed
  .ok {
    problem := problem
    objective := problem.objective.value free
    residuals := List.zipWith (fun m g => m.violations free g) problem.matchings grams
    called := mode ≠ .missing && options.toOption.isSome
    solution := do
      options
      problem.solution p report }

end HybridRelaxation
