import HybridRelaxation.Conic.ConicProblem
import HybridRelaxation.Datum

/-!
# Solutions

What a conic backend returns: a status, the value of the minimized objective, the free
coefficients, a Gram matrix for each statement, and the multipliers of the matching equations with
the monomials that they belong to. Statuses other than the two optimal ones are failures.
-/

namespace HybridRelaxation

variable {K : Type} [Scalar K]

structure Solution (K : Type) where
  status : String
  value : K
  free : List K
  grams : List (Grid K)
  duals : List (List K)
  dualBasis : List (List (Expression K))
  /-- The values of the decision symbols, in order. -/
  values : List (Symbol × K)

namespace Solution

def dualMonomials (s : SquareSum K) (m : Matching K) : List (Expression K) :=
  m.rows.map (fun row => monomial s.scope row.exponents)

def valuesOf (p : SquareProgram K) (free : List K) : List (Symbol × K) := p.decisions.zip free

def evaluate (s : Solution K) (e : Expression K) : Expression K :=
  HybridRelaxation.evaluate e s.values

end Solution

/-! ## Prescribed numbers -/

/-- Numbers that a backend may be made to return, each list used again and again. -/
structure Prescription (K : Type) where
  free : List K
  diagonal : List K
  offDiagonal : List K
  dual : List K
  status : String

namespace Prescription

def cyclic (xs : List K) (k : Nat) : Except Failure K :=
  match xs[k % xs.length]? with
  | some c => .ok (Scalar.toMeasured c)
  | none => .error .emptyDivision

def freeValues (p : Prescription K) (count : Nat) : Except Failure (List K) :=
  (List.range count).mapM (cyclic p.free)

/-- The Gram matrix of a statement; entries off the diagonal depend on the sum of their indices. -/
def gram (p : Prescription K) (k size : Nat) : Except Failure (Grid K) := do
  let entry (i j : Nat) : Except Failure K :=
    if i = j then cyclic p.diagonal (k + i) else cyclic p.offDiagonal (i + j + k)
  .ok ⟨size, ← (List.range size).mapM (fun i => (List.range size).mapM (entry i))⟩

def grams (p : Prescription K) (sizes : List Nat) : Except Failure (List (Grid K)) :=
  sizes.zipIdx.mapM (fun (size, k) => p.gram k size)

def duals (p : Prescription K) (k rows : Nat) : Except Failure (List K) :=
  (List.range rows).mapM (fun r => cyclic p.dual (k + r))

def solution (p : Prescription K) (program : SquareProgram K) (matchings : List (Matching K))
    (value : K) : Except Failure (Solution K) := do
  let free ← p.freeValues program.size
  let grams ← p.grams (program.statements.map SquareSum.gramSize)
  let duals ← matchings.zipIdx.mapM (fun (m, k) => p.duals k m.rows.length)
  .ok {
    status := p.status
    value := value
    free := free
    grams := grams
    duals := duals
    dualBasis := List.zipWith Solution.dualMonomials program.statements matchings
    values := Solution.valuesOf program free }

def solve (p : Prescription K) (program : SquareProgram K) : Except Failure (Solution K) := do
  let matchings ← program.statements.mapM (fun s => s.matching program.index program.size)
  p.solution program matchings (Scalar.measured 0)

end Prescription

/-! ## Backends -/

inductive BackendReport (K : Type) where
  /-- The backend ended with an error of its own. -/
  | failed
  | finished (numbers : Prescription K)

def successStatuses : List String := ["optimal", "optimal_inaccurate"]

def reservedOptions : List String := ["self", "solver", "verbose"]

def checkBackendOptions : Datum → Except Failure Unit
  | .table entries =>
      if entries.any (fun entry => entry.1 ∈ reservedOptions) then .error .wrongType else .ok ()
  | _ => .error .wrongType

namespace ConicProblem

def solution (c : ConicProblem K) (program : SquareProgram K) :
    BackendReport K → Except Failure (Solution K)
  | .failed => .error (.solveFailed "solver_error" .backendError)
  | .finished numbers =>
      if numbers.status ∈ successStatuses then do
        let free ← numbers.freeValues c.columns
        numbers.solution program c.matchings (c.objective.value free)
      else .error (.solveFailed numbers.status .none)

end ConicProblem

end HybridRelaxation
