import HybridRelaxation.Flow.VectorField
import HybridRelaxation.SquareSum.Program
import HybridRelaxation.System.Basic

/-!
# Value function templates

For each mode the relaxation looks for a polynomial in time and the states with free coefficients.
This module sets the template of a mode up and takes its derivatives: over time, in the states,
along the drift, along the columns of the input matrix, and along the controlled flow.
-/

namespace HybridRelaxation

variable {K : Type} [Scalar K]

structure ValueTemplate (K : Type) where
  index : Int
  states : List Symbol
  controls : List Symbol
  value : Expression K
  decisions : List Symbol
  basis : List (Expression K)
  /-- The value at the final time. -/
  final : Expression K
  timeDerivative : Expression K
  stateDerivative : Grid (Expression K)
  /-- The derivative along the drift, with the change over time. -/
  driftDerivative : Expression K
  /-- The derivatives along the columns of the input matrix. -/
  inputDerivative : LieDerivative K
  /-- The derivative along the controlled flow. -/
  flowDerivative : Expression K
  deriving DecidableEq

namespace ValueTemplate

def label (index : Int) : String := "v" ++ toString index

/-- The derivatives along the inputs; with a single control they are a row of one. -/
def inputDerivativeOf (v : Expression K) (m : Mode K) : Except Failure (LieDerivative K) :=
  match m.controls with
  | [] => .ok (.row [])
  | [_] => do .ok (.row (← lieDerivatives v m.states m.input))
  | _ => lieDerivative v m.states m.input

def controlTerm (derivative : LieDerivative K) (controls : List Symbol) :
    Except Failure (Expression K) :=
  match derivative, controls with
  | .scalar d, u :: _ => .ok (d * .ofSymbol u)
  | .row ds, controls =>
      if ds.length = controls.length then
        .ok (innerProduct ds (controls.map Expression.ofSymbol))
      else .error .shapeMismatch
  | .scalar _, [] => .error .shapeMismatch

def flowDerivativeOf (drift : Expression K) (input : LieDerivative K) (m : Mode K) :
    Except Failure (Expression K) :=
  match m.controls with
  | [] => .ok drift
  | controls => do .ok (drift + (← controlTerm input controls)).expand

def finalAt (v : Expression K) (time : Symbol) (horizon : Expression K) : Expression K :=
  (v.substitute (replacements [(time, horizon)])).expand

def ofFree (free : FreePolynomial K) (basis : List (Expression K)) (time : Symbol) (m : Mode K)
    (index : Int) (horizon : K) : Except Failure (ValueTemplate K) := do
  let v := free.polynomial
  let drift ← timeLieDerivative v time m.states m.drift
  let input ← inputDerivativeOf v m
  let flow ← flowDerivativeOf drift input m
  .ok {
    index := index
    states := m.states
    controls := m.controls
    value := v
    decisions := free.decisions
    basis := basis
    final := finalAt v time (.number horizon)
    timeDerivative := v.derivative time
    stateDerivative := gradient v m.states
    driftDerivative := drift
    inputDerivative := input
    flowDerivative := flow }

def register (p : SquareProgram K) (time : Symbol) (m : Mode K) (index degree : Int)
    (horizon : K) : SquareProgram K × Except Failure (ValueTemplate K) :=
  let basis := monomials (time :: m.states) degree 0
  let known := (p.withIndeterminates m.states).withIndeterminates m.controls
  let (p, free) := known.newFreePolynomial basis (label index)
  (p, ofFree free basis time m index horizon)

end ValueTemplate

def registerModes (time : Symbol) (degree : Int) (horizon : K) :
    SquareProgram K → Nat → List (Mode K) →
      SquareProgram K × Except Failure (List (ValueTemplate K))
  | p, _, [] => (p, .ok [])
  | p, index, m :: rest =>
      match ValueTemplate.register p time m index degree horizon with
      | (p, .error f) => (p, .error f)
      | (p, .ok template) =>
          let (p, templates) := registerModes time degree horizon p (index + 1) rest
          (p, templates.map (template :: ·))

end HybridRelaxation
