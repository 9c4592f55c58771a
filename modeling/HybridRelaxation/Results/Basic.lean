import HybridRelaxation.Certificate.GramMatrix
import HybridRelaxation.Certificate.Residual
import HybridRelaxation.Datum
import HybridRelaxation.Relaxation.Problem

/-!
# Results

What a solved relaxation gives: a lower bound on the optimal cost, the solved value functions, and
the diagnostics of the certificates. On request the multipliers are handed over for the synthesis
of controls; those of the flow constraint of a mode are the moments of its occupation measure.
-/

namespace HybridRelaxation

variable {K : Type}

/-! ## Data for control synthesis -/

structure SynthesisData (K : Type) where
  modeCount : Nat
  maxControls : Nat
  /-- A place for each control of each mode, still empty. -/
  controlLaws : List (List (Option (Expression K)))
  /-- A place for a basis of each mode, still empty. -/
  lawBases : List (Option (List (Expression K)))
  liouvilleBases : List Int
  singularValueThreshold : FloatValue
  dualBasis : List (List (Expression K))
  duals : List (List K)

namespace SynthesisData

def dualVector (d : SynthesisData K) : List K := d.duals.flatten

def liouvilleMoments (d : SynthesisData K) (mode : Int) :
    Except Failure (List (Expression K) × List K) := do
  let position ← entryAt d.liouvilleBases mode
  let monomials ← entryAt d.dualBasis position
  let moments ← entryAt d.duals position
  .ok (monomials, moments)

def allMoments (d : SynthesisData K) : Except Failure (List (List (Expression K) × List K)) :=
  (List.range d.modeCount).mapM (fun (i : Nat) => d.liouvilleMoments i)

def ofSolution [Scalar K] (p : Problem K) (r : Relaxation K) (s : Solution K) :
    SynthesisData K where
  modeCount := p.system.modeCount
  maxControls := p.system.maxControls
  controlLaws := List.replicate p.system.modeCount (List.replicate p.system.maxControls none)
  lawBases := List.replicate p.system.modeCount none
  liouvilleBases := r.liouvilleBases.map Int.ofNat
  singularValueThreshold := p.settings.singularValueThreshold
  dualBasis := s.dualBasis
  duals := s.duals

end SynthesisData

/-! ## Results of a solve -/

structure Results (K : Type) where
  /-- The time the solve took. -/
  seconds : K
  /-- The lower bound on the optimal cost. -/
  bound : K
  /-- The status of the solution; there may be none. -/
  status : Option String
  records : List (ConstraintRecord K)
  degree : Int
  minEigenvalues : List K
  /-- The positions of the Gram matrices with a negative eigenvalue. -/
  invalidGrams : List Int
  valueFunctions : List (Expression K)
  time : Symbol
  states : List (List Symbol)
  synthesis : Option (SynthesisData K)

namespace Results

variable [Scalar K]

def greatest : List K → K
  | [] => Scalar.machine (Scalar.measured 0)
  | x :: rest => rest.foldl (fun best c => if Scalar.less best c then c else best) x

def recordSubresidual? (r : ConstraintRecord K) : Option K :=
  match r.subresidualMax with
  | [] => none
  | x :: rest => some (rest.foldl largerDefined x)

def maxResidual (r : Results K) : K := greatest (r.records.map ConstraintRecord.residualMax)

def maxSubresidual (r : Results K) : K := greatest (r.records.filterMap recordSubresidual?)

/-! ## Summaries -/

structure Summary (K : Type) where
  bound : K
  status : String
  degree : Int
  seconds : K
  constraintCount : Nat
  gramCount : Nat
  invalidGrams : List Int
  maxResidual : K
  maxSubresidual : K

def summary (r : Results K) : Except Failure (Summary K) :=
  match r.status with
  | none => .error .missingPart
  | some status => .ok {
      bound := r.bound
      status := status
      degree := r.degree
      seconds := r.seconds
      constraintCount := r.records.length
      gramCount := r.minEigenvalues.length
      invalidGrams := r.invalidGrams
      maxResidual := r.maxResidual
      maxSubresidual := r.maxSubresidual }

def Summary.entries (s : Summary Number) : List (String × Datum) :=
  [("pval", .ofNumber s.bound),
    ("status", .text s.status),
    ("degree", .integer s.degree),
    ("time", .ofNumber s.seconds),
    ("n_constraints", .integer s.constraintCount),
    ("n_gram", .integer s.gramCount),
    ("invalid_grams", .list (s.invalidGrams.map .integer)),
    ("max_residual", .ofNumber s.maxResidual),
    ("max_subresidual", .ofNumber s.maxSubresidual)]

def Summary.table (s : Summary Number) : Datum := .table s.entries

def synthesisData (r : Results K) : Except Failure (SynthesisData K) :=
  match r.synthesis with
  | some d => .ok d
  | none => .error .missingPart

/-! ## Of a solution -/

def boundOf (r : Relaxation K) (s : Solution K) : Except Failure K :=
  (s.evaluate r.objective).machineValue

def ofSolution (p : Problem K) (r : Relaxation K) (s : Solution K) (seconds : K) :
    Except Failure (Results K) := do
  let minEigenvalues ← GramMatrix.minEigenvalues s.grams
  let (records, filled) := computeResiduals r.records r.program s minEigenvalues
  filled
  let bound ← boundOf r s
  .ok {
    seconds := seconds
    bound := bound
    status := some s.status
    records := records
    degree := p.degree.value
    minEigenvalues := minEigenvalues
    invalidGrams := (GramMatrix.negativePositions minEigenvalues).map Int.ofNat
    valueFunctions := r.templates.map (fun v => s.evaluate v.value)
    time := p.system.time
    states := r.templates.map ValueTemplate.states
    synthesis := if p.settings.withInputs then some (.ofSolution p r s) else none }

end Results

end HybridRelaxation
