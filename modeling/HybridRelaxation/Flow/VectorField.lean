import HybridRelaxation.Expression.Derivative
import HybridRelaxation.Expression.Expansion
import HybridRelaxation.Failure
import HybridRelaxation.Grid

/-!
# Derivatives along vector fields

The gradient of a function of the states, its derivative along the columns of a field, and the
derivative along the flow of a field when the function also depends on time.
-/

namespace HybridRelaxation

variable {K : Type} [Scalar K]

def gradient (v : Expression K) (states : List Symbol) : Grid (Expression K) :=
  Grid.ofRow (states.map (fun s => v.derivative s))

def innerProduct (xs ys : List (Expression K)) : Expression K :=
  Expression.sum (List.zipWith (· * ·) xs ys)

def rowTimes (row : List (Expression K)) (field : Grid (Expression K)) :
    Except Failure (List (Expression K)) :=
  if row.length = field.height then
    .ok (field.columns.map (fun column => (innerProduct row column).expand))
  else .error .shapeMismatch

def lieDerivatives (v : Expression K) (states : List Symbol) (field : Grid (Expression K)) :
    Except Failure (List (Expression K)) :=
  rowTimes (states.map (fun s => v.derivative s)) field

/-- A derivative along a field: a field of one column gives an expression, others a row. -/
inductive LieDerivative (K : Type) where
  | scalar (value : Expression K)
  | row (values : List (Expression K))
  deriving DecidableEq

def lieDerivative (v : Expression K) (states : List Symbol) (field : Grid (Expression K)) :
    Except Failure (LieDerivative K) := do
  match ← lieDerivatives v states field with
  | [value] => .ok (.scalar value)
  | values => .ok (.row values)

def timeLieDerivative (v : Expression K) (time : Symbol) (states : List Symbol)
    (field : Grid (Expression K)) : Except Failure (Expression K) := do
  match ← lieDerivative v states field with
  | .scalar value => .ok (v.derivative time + value).expand
  | .row _ => .error .wrongType

end HybridRelaxation
