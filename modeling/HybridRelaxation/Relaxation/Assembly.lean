import HybridRelaxation.Relaxation.Constraint
import HybridRelaxation.Relaxation.ValueTemplate

/-!
# Assembly of a relaxation

Mode by mode a relaxation asks for three kinds of inequalities. Along the controlled flow the value
decreases no faster than the running cost is paid; at the final time it is at most the terminal
cost on the target set; and before a jump it is at most the value after the jump. Each is certified
on the set where it has to hold. The objective adds up the values at the initial states.

The assembly is a list of steps, taken in order until one fails. What was done before a failure
stays done.
-/

namespace HybridRelaxation

variable {K : Type} [Scalar K]

/-! ## Steps -/

structure Inequality (K : Type) where
  place : ConstraintPlace
  polynomial : Expression K
  scope : List Symbol
  constraints : List (Expression K)

inductive AssemblyStep (K : Type) where
  | certify (inequality : Inequality K)
  /-- Registers the multipliers of an inequality, and fails at what follows them. -/
  | abandon (inequality : Inequality K) (failure : Failure)
  | addToObjective (value : Expression K)
  | refuse (failure : Failure)

def timeWindow (time : Symbol) (horizon : K) : Expression K :=
  .ofSymbol time * (.number horizon - .ofSymbol time)

/-- Along the flow the value and the running cost do not decrease in sum. -/
def liouvilleInequality (time : Symbol) (horizon : K) (i : Nat) (m : Mode K)
    (template : ValueTemplate K) : Inequality K where
  place := ⟨.liouville, i, none⟩
  polynomial := template.flowDerivative + m.runningCost
  scope := time :: m.states ++ m.controls
  constraints := timeWindow time horizon :: m.domain ++ m.controlSet

/-- At the final time the value is at most the terminal cost on the target set. -/
def terminalInequality (i : Nat) (m : Mode K) (template : ValueTemplate K) : Inequality K where
  place := ⟨.terminal, i, none⟩
  polynomial := m.terminalCost - template.final
  scope := m.states
  constraints := m.targetSet

def valueAfter (target : ValueTemplate K) (reset : Grid (Expression K)) : Expression K :=
  (target.value.substitute (replacements (target.states.zip reset.entries))).expand

/-- Before a jump the value is at most the value after it. -/
def transitionInequality (time : Symbol) (horizon : K) (i j : Nat) (m : Mode K)
    (source target : ValueTemplate K) (guard : List (Expression K))
    (reset : Grid (Expression K)) : Inequality K where
  place := ⟨.transition, i, some (j : Int)⟩
  polynomial := valueAfter target reset - source.value
  scope := time :: m.states
  constraints := timeWindow time horizon :: guard

def initialValue (time : Symbol) (m : Mode K) (template : ValueTemplate K) (state : List K) :
    Expression K :=
  let values := state.map (fun c => Expression.number (Scalar.toMeasured c))
  (template.value.substitute
    (replacements ((time, Expression.zero) :: m.states.zip values))).expand

def terminalSteps (freeFinalTime : Bool) (i : Nat) (m : Mode K) (template : ValueTemplate K) :
    List (AssemblyStep K) :=
  if m.targetSet.isEmpty then []
  else if freeFinalTime then [.refuse .unsupported]
  else [.certify (terminalInequality i m template)]

def transitionSteps (s : HybridSystem K) (templates : List (ValueTemplate K)) (horizon : K)
    (i : Nat) (m : Mode K) (template : ValueTemplate K) (j : Nat) : List (AssemblyStep K) :=
  let (source, target) : Datum × Datum := (.integer i, .integer j)
  let guard := s.guard source target
  if guard.isEmpty then []
  else
    match templates[j]?, s.reset source target with
    | some next, .ok reset =>
        [.certify (transitionInequality s.time horizon i j m template next guard reset)]
    | none, _ => [.refuse .outOfRange]
    | _, .error f => [.refuse f]

def objectiveSteps (time : Symbol) (m : Mode K) (template : ValueTemplate K) :
    List (AssemblyStep K) :=
  match m.initialState with
  | none => []
  | some state => [.addToObjective (initialValue time m template state)]

def modeSteps (s : HybridSystem K) (templates : List (ValueTemplate K)) (horizon : K)
    (freeFinalTime : Bool) (i : Nat) (m : Mode K) (template : ValueTemplate K) :
    List (AssemblyStep K) :=
  .certify (liouvilleInequality s.time horizon i m template) ::
    (terminalSteps freeFinalTime i m template ++
      (List.range s.modeCount).flatMap (transitionSteps s templates horizon i m template) ++
      objectiveSteps s.time m template)

def assemblySteps (s : HybridSystem K) (templates : List (ValueTemplate K)) (horizon : K)
    (freeFinalTime : Bool) : List (AssemblyStep K) :=
  (s.modes.zip templates).zipIdx.flatMap (fun ((m, template), i) =>
    modeSteps s templates horizon freeFinalTime i m template)

/-! ## Taking the steps -/

structure Assembly (K : Type) where
  program : SquareProgram K
  /-- The constraints that were announced, the last of which may have failed. -/
  announced : List ConstraintPlace
  records : List (ConstraintRecord K)
  objective : Expression K
  /-- For each mode the position of the base statement of its flow constraint. -/
  liouvilleBases : List Nat

namespace Assembly

def start (p : SquareProgram K) : Assembly K := ⟨p, [], [], .zero, []⟩

def recordOf (inequality : Inequality K) (degree : Int) (offset : Nat) : ConstraintRecord K where
  place := inequality.place
  scope := inequality.scope
  constraints := inequality.constraints
  multiplierCount := inequality.constraints.length
  polynomial := inequality.polynomial
  degree := degree
  offset := offset
  residualMax := Scalar.machine (Scalar.measured 0)
  residualSum := Scalar.machine (Scalar.measured 0)
  subresidualMax := []
  minEigenvalues := []

def certify (a : Assembly K) (degree : Int) (inequality : Inequality K) :
    Assembly K × Except Failure Unit :=
  let offset := a.program.statements.length
  let announced := a.announced ++ [inequality.place]
  match a.program.nonnegativeOn inequality.polynomial inequality.scope
      inequality.constraints degree inequality.place.name with
  | (program, .error f) => ({ a with program := program, announced := announced }, .error f)
  | (program, .ok _) =>
      let record := recordOf inequality degree offset
      let bases :=
        match inequality.place.kind with
        | .liouville => a.liouvilleBases ++ [offset + inequality.constraints.length]
        | _ => a.liouvilleBases
      ({ a with
          program := program
          announced := announced
          records := a.records ++ [record]
          liouvilleBases := bases }, .ok ())

def abandon (a : Assembly K) (degree : Int) (inequality : Inequality K) (f : Failure) :
    Assembly K × Except Failure Unit :=
  let (program, multipliers) := a.program.registerMultipliers inequality.polynomial
    inequality.scope degree inequality.place.name 0 inequality.constraints
  ({ a with program := program, announced := a.announced ++ [inequality.place] },
    multipliers.bind (fun _ => .error f))

def take (degree : Int) (a : Assembly K) : AssemblyStep K → Assembly K × Except Failure Unit
  | .certify inequality => a.certify degree inequality
  | .abandon inequality f => a.abandon degree inequality f
  | .addToObjective value => ({ a with objective := a.objective + value }, .ok ())
  | .refuse f => (a, .error f)

def takeAll (degree : Int) : Assembly K → List (AssemblyStep K) → Assembly K × Except Failure Unit
  | a, [] => (a, .ok ())
  | a, step :: rest =>
      match a.take degree step with
      | (a, .error f) => (a, .error f)
      | (a, .ok _) => takeAll degree a rest

end Assembly

def assemble (p : SquareProgram K) (s : HybridSystem K) (templates : List (ValueTemplate K))
    (degree : Int) (horizon : K) (freeFinalTime : Bool) : Assembly K × Except Failure Unit :=
  (Assembly.start p).takeAll degree (assemblySteps s templates horizon freeFinalTime)

end HybridRelaxation
