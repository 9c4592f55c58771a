import HybridRelaxation.Datum
import HybridRelaxation.Relaxation.Assembly
import HybridRelaxation.Settings
import HybridRelaxation.System.Validation

/-!
# Relaxation problems

A problem is a consistent system with a relaxation degree and settings. The degree is a positive
even number; an odd one is raised by one, with a warning. Building it gives the
relaxation: a program with all certificates, the value templates, the constraint records and the
objective. The final time is always one; other horizons are reached by scaling the data.
-/

namespace HybridRelaxation

/-! ## Degrees -/

structure RelaxationDegree where
  value : Int
  /-- The degree was odd before it was raised. -/
  raised : Bool
  deriving DecidableEq, Repr

namespace RelaxationDegree

def ofPositive (d : Int) : RelaxationDegree :=
  if d % 2 = 0 then ⟨d, false⟩ else ⟨d + 1, true⟩

def ofDatum (d : Datum) : Except Failure RelaxationDegree :=
  match d with
  | .integer n =>
      if 0 < n then .ok (ofPositive n) else .error (.configuration (.badDegree d.literal))
  | d => .error (.configuration (.badDegree d.literal))

def warnings (d : RelaxationDegree) : List String :=
  if d.raised then ["d is not even. Using d+1 = " ++ toString d.value ++ " instead."] else []

theorem le_ofPositive (d : Int) : d ≤ (ofPositive d).value := by
  unfold ofPositive
  split
  · exact Int.le_refl d
  · exact Int.le_of_lt (Int.lt_succ d)

end RelaxationDegree

/-! ## Problems -/

variable {K : Type} [Scalar K]

structure ProblemData (System : Type) where
  system : System
  degree : RelaxationDegree
  settings : Settings

abbrev Problem (K : Type) := ProblemData (HybridSystem K)

structure Relaxation (K : Type) where
  program : SquareProgram K
  templates : List (ValueTemplate K)
  records : List (ConstraintRecord K)
  /-- The sum of the values at the initial states, to be maximized. -/
  objective : Expression K
  /-- For each mode the position of the base statement of its flow constraint. -/
  liouvilleBases : List Nat

def horizon : K := Scalar.measured 1

/-! ## Posing -/

namespace ProblemData

variable {S E : Type}

/-- A free final time cannot be combined with a target set. -/
def checkSupported (system : SystemData K S E) (settings : Settings) : Except Failure Unit :=
  if settings.freeFinalTime && system.modes.any (fun m => !m.targetSet.isEmpty) then
    .error .unsupported
  else .ok ()

def pose (consistent : Except Failure Unit) (system : SystemData K S E) (degree : Datum)
    (settings : Settings) : Except Failure (ProblemData (SystemData K S E)) := do
  consistent
  let degree ← RelaxationDegree.ofDatum degree
  checkSupported system settings
  .ok ⟨system, degree, settings⟩

/-- The warnings that posing a problem gives, also if it is refused after them. -/
def warnings (consistent : Except Failure Unit) (degree : Datum) : List String :=
  match consistent, RelaxationDegree.ofDatum degree with
  | .ok _, .ok degree => degree.warnings
  | _, _ => []

end ProblemData

namespace Problem

def pose (system : HybridSystem K) (degree : Datum) (settings : Settings) :
    Except Failure (Problem K) :=
  ProblemData.pose system.validate system degree settings

/-! ## Building -/

def initialProgram (p : Problem K) : SquareProgram K :=
  SquareProgram.empty.withIndeterminates [p.system.time]

def templates (p : Problem K) : SquareProgram K × Except Failure (List (ValueTemplate K)) :=
  registerModes p.system.time p.degree.value horizon p.initialProgram 0 p.system.modes

def attempt (p : Problem K) : List ConstraintPlace × Except Failure (Relaxation K) :=
  match p.templates with
  | (_, .error f) => ([], .error f)
  | (program, .ok templates) =>
      let (a, result) :=
        assemble program p.system templates p.degree.value horizon p.settings.freeFinalTime
      (a.announced, result.map (fun _ =>
        { program := a.program
          templates := templates
          records := a.records
          objective := a.objective
          liouvilleBases := a.liouvilleBases }))

def build (p : Problem K) : Except Failure (Relaxation K) := p.attempt.2

end Problem

end HybridRelaxation
