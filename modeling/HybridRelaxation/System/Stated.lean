import HybridRelaxation.Entries
import HybridRelaxation.Expression.Display
import HybridRelaxation.NumberArray
import HybridRelaxation.System.Validation

/-!
# Systems as stated

Before anything is known of them, the data of a system are entries of any kind. They are brought
into the shapes that modes and transitions have, with entries that need not be expressions and
indeterminates that need not be symbols. A stated system is validated part by part, and it resolves
to a system if each indeterminate is a symbol and each entry an expression.
-/

namespace HybridRelaxation

variable {K : Type} [Scalar K]

abbrev StatedMode (K : Type) := ModeData K (Entries K) (Entries K)

abbrev StatedTransition (K : Type) := TransitionData (Entries K)

abbrev StatedSystem (K : Type) := SystemData K (Entries K) (Entries K)

/-! ## Modes -/

structure ModeEntries (K : Type) where
  states : Entries K
  controls : Entries K
  drift : Entries K
  input : Entries K
  domain : Entries K
  controlSet : Entries K
  targetSet : Entries K
  runningCost : Entries K
  terminalCost : Entries K
  initialState : Datum
  name : Option String

namespace StatedMode

def driftOf (stateCount : Nat) : Entries K → Except Failure (Grid (Entries K))
  | .absent => .ok (.filled stateCount 1 (.one .zero))
  | entries => entries.toColumn

/-- The input matrix; none at all is zero, and an empty one has no columns. -/
def inputOf (stateCount controlCount : Nat) : Entries K → Except Failure (Grid (Entries K))
  | .absent => .ok (.filled stateCount controlCount (.one .zero))
  | entries => do
      let grid ← entries.toGrid
      .ok (if grid.height = 0 ∧ grid.width = 0 then .filled stateCount 0 (.one .zero) else grid)

/-- The numbers of an initial state; one without numbers is no initial state. -/
def initialStateOf : Datum → Except Failure (Option (List K))
  | .none => .ok none
  | d => do
      match (← NumberArray.ofDatum d).values with
      | [] => .ok none
      | values => .ok (some (values.map FloatValue.toScalar))

def ofEntries (data : ModeEntries K) : Except Failure (StatedMode K) := do
  let states := data.states.parts
  let controls := data.controls.parts
  let drift ← driftOf states.length data.drift
  let input ← inputOf states.length controls.length data.input
  let initialState ← initialStateOf data.initialState
  .ok {
    states := states
    controls := controls
    drift := drift
    input := input
    domain := data.domain.parts
    controlSet := data.controlSet.parts
    targetSet := data.targetSet.parts
    runningCost := data.runningCost
    terminalCost := data.terminalCost
    initialState := initialState
    name := data.name }

end StatedMode

/-! ## Transitions -/

def StatedTransition.ofEntries (source target : Datum) (guard reset : Entries K) :
    Except Failure (StatedTransition K) := do
  match reset with
  | .absent => .ok ⟨source, target, guard.parts, none⟩
  | reset => .ok ⟨source, target, guard.parts, some (← reset.toColumn)⟩

/-! ## Resolution -/

def Entries.toSymbol (e : Entries K) : Except Failure Symbol := do
  match (← e.expressionOr .wrongType).symbol? with
  | some s => .ok s
  | none => .error .badValue

namespace StatedSystem

def resolve (s : StatedSystem K) : Except Failure (HybridSystem K) :=
  s.mapM Entries.toSymbol (Entries.expressionOr .wrongType)

def reset (s : StatedSystem K) (source target : Datum) : Except Failure (Grid (Entries K)) :=
  s.resetWith Entries.gridOf source target

end StatedSystem

/-! ## Validation -/

def Entries.label (e : Entries Number) : String :=
  match e.expression? with
  | some e => e.display
  | none => Datum.literal .none

def Entries.symbols (scope : List (Entries K)) : List Symbol :=
  scope.filterMap (fun e => e.expression?.bind Expression.symbol?)

namespace StatedSystem

def checkExpression (subject : String) (scope : List (Entries Number)) (e : Expression Number) :
    Except Failure Unit := do
  if scope.any Entries.isSequence then .error .wrongType
  let symbols := Entries.symbols scope
  let names := scope.map Entries.label
  let foreign := foreignNames e.symbols symbols
  require foreign.isEmpty (.foreignSymbols subject foreign names)
  let known := scope.all (fun s => s.expression?.isSome) || e.isZero
  require (known && isPolynomial e symbols) (.notPolynomial subject names (some e.display))

/-- A grid with symbols is no polynomial, and one without symbols cannot be told to be one. -/
def checkGrid (subject : String) (scope : List (Entries Number)) (g : Grid (Expression Number)) :
    Except Failure Unit := do
  let symbols := Entries.symbols scope
  let names := scope.map Entries.label
  let occurring := g.entries.flatMap Expression.symbols
  let foreign := foreignNames occurring symbols
  require foreign.isEmpty (.foreignSymbols subject foreign names)
  if occurring.isEmpty then .error .wrongType
  else reject (.notPolynomial subject names none)

def checkEntry : PartCheck (Entries Number) (Entries Number) := fun subject scope e =>
  match e with
  | .one e => checkExpression subject scope e
  | .grid g => checkGrid subject scope g
  | _ => .error .missingPart

def validate (s : StatedSystem Number) : Except Failure Unit := PartCheck.system checkEntry s

end StatedSystem

end HybridRelaxation
