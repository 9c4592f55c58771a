import HybridRelaxation.Relaxation.Problem
import HybridRelaxation.System.Stated

/-!
# Relaxations of stated systems

A relaxation of a stated system is assembled as far as its entries allow. The template of a mode
needs the symbols of its indeterminates and the entries of its fields. A cost that is no expression
stops a constraint before it is announced, and an inequality that is none stops it after the
multipliers of those before it. The horizon is given as a datum.
-/

namespace HybridRelaxation

variable {K : Type} [Scalar K]

/-! ## Horizons -/

def ofName (name : String) : Expression K :=
  match name with
  | "pi" => .ofConstant .pi
  | "E" => .ofConstant .euler
  | "oo" => .number (Scalar.infinity false)
  | "zoo" => .number Scalar.unsignedInfinity
  | "nan" => .number Scalar.undefined
  | name => .ofSymbol (.named name)

def isName (text : String) : Bool :=
  match text.toList with
  | [] => false
  | c :: rest => (c.isAlpha || c = '_') && rest.all (fun d => d.isAlphanum || d = '_')

/-- A text as an expression: a fraction, a decimal number or a name. -/
def expressionOfText? (text : String) : Option (Expression K) :=
  let trimmed := String.ofList (trimBlanks text.toList)
  match readFraction? trimmed with
  | some c => some (.number c)
  | none =>
      if isName trimmed then some (ofName trimmed)
      else (FloatValue.read? trimmed).map (fun x => .number x.toScalar)

def horizonIn (v : Expression K) (time : Symbol) : Datum → Except Failure (Expression K)
  | .integer n => .ok (.number (Scalar.ofInt n))
  | .real x => .ok (.number x.toScalar)
  | .flag _ => if v.symbols.contains time then .error .wrongType else .ok .zero
  | .text s =>
      match expressionOfText? s with
      | some e => .ok e
      | none => .error .badValue
  | _ => .error .badValue

def horizonNumber : Datum → Except Failure K
  | .integer n => .ok (Scalar.ofInt n)
  | .real x => .ok x.toScalar
  | _ => .error .wrongType

/-! ## Templates -/

def fieldOf (stateCount : Nat) (g : Grid (Entries K)) : Except Failure (Grid (Expression K)) :=
  if g.height ≠ stateCount then .error .shapeMismatch
  else g.mapM (Entries.expressionOr .wrongType)

namespace StatedMode

def dynamics (m : StatedMode K) : Except Failure (Mode K) := do
  let states ← m.states.mapM Entries.toSymbol
  let drift ← fieldOf states.length m.drift
  let controls ← m.controls.mapM Entries.toSymbol
  let input ← if controls.isEmpty then .ok ⟨0, []⟩ else fieldOf states.length m.input
  .ok ⟨states, controls, drift, input, [], [], [], .zero, .zero, none, m.name⟩

def setUp (p : SquareProgram K) (time : Symbol) (m : StatedMode K) (index degree : Int)
    (horizon : Datum) : Except Failure (SquareProgram K × ValueTemplate K) := do
  let states ← m.states.mapM (Entries.expressionOr .wrongType)
  let places := states.filterMap Expression.symbol?
  let (_, free) := p.newFreePolynomial (monomials (time :: places) degree 0) ""
  let horizon ← horizonIn free.polynomial time horizon
  let (p, template) := ValueTemplate.register p time (← m.dynamics) index degree 0
  let template ← template
  .ok (p, { template with final := ValueTemplate.finalAt template.value time horizon })

end StatedMode

namespace StatedSystem

def setUpModes (time : Symbol) (degree : Int) (horizon : Datum) :
    SquareProgram K → Nat → List (StatedMode K) →
      Except Failure (SquareProgram K × List (ValueTemplate K))
  | p, _, [] => .ok (p, [])
  | p, index, m :: rest => do
      let (p, template) ← m.setUp p time index degree horizon
      let (p, templates) ← setUpModes time degree horizon p (index + 1) rest
      .ok (p, template :: templates)

def setUp (s : StatedSystem K) (degree : Int) (horizon : Datum) :
    Except Failure (SquareProgram K × List (ValueTemplate K)) := do
  let time ← s.time.toSymbol
  setUpModes time degree horizon (SquareProgram.empty.withIndeterminates [time]) 0 s.modes

/-! ## Assembly -/

/-- The system with zero in the place of each entry that is no expression. -/
def filled (s : StatedSystem K) : Except Failure (HybridSystem K) :=
  s.mapM Entries.toSymbol (fun e => .ok (e.expression?.getD .zero))

def certifyWhere (q : Inequality K) (constraints : List (Entries K)) : AssemblyStep K :=
  match constraints.findIdx? (fun e => e.expression?.isNone) with
  | none => .certify q
  | some k => .abandon { q with constraints := q.constraints.take k } .missingPart

def certifyWith (q : Inequality K) (cost : Entries K) (constraints : List (Entries K)) :
    AssemblyStep K :=
  if cost.expression?.isSome then certifyWhere q constraints else .refuse .wrongType

def window : Entries K := .one .zero

/-- The entries of a reset that replace states which the target depends on are expressions. -/
def resetFits (target : ValueTemplate K) (reset : Grid (Entries K)) : Bool :=
  (target.states.zip reset.entries).all (fun (s, e) =>
    e.expression?.isSome || !target.value.symbols.contains s)

/-- The step for an inequality of the filled system, with the entries as they are stated. -/
def stepFor (s : StatedSystem K) (templates : List (ValueTemplate K)) (q : Inequality K) :
    AssemblyStep K :=
  match s.modes[q.place.mode.toNat]?, q.place.kind, q.place.target with
  | some m, .liouville, _ => certifyWith q m.runningCost (window :: m.domain ++ m.controlSet)
  | some m, .terminal, _ => certifyWith q m.terminalCost m.targetSet
  | some _, .transition, some j =>
      let (source, target) : Datum × Datum := (.integer q.place.mode, .integer j)
      match templates[j.toNat]?, s.reset source target with
      | some next, .ok reset =>
          if resetFits next reset then certifyWhere q (window :: s.guard source target)
          else .refuse .badValue
      | _, _ => .certify q
  | _, _, _ => .certify q

def assemble (p : SquareProgram K) (s : StatedSystem K) (templates : List (ValueTemplate K))
    (degree : Int) (horizon : Datum) (freeFinalTime : Bool) : Assembly K × Except Failure Unit :=
  let start := Assembly.start p
  match horizonNumber horizon, s.filled with
  | .error f, _ => (start, .error f)
  | _, .error f => (start, .error f)
  | .ok horizon, .ok system =>
      let steps := (assemblySteps system templates horizon freeFinalTime).map (fun step =>
        match step with
        | .certify q => s.stepFor templates q
        | step => step)
      start.takeAll degree steps

end StatedSystem

/-! ## Problems -/

abbrev StatedProblem := ProblemData (StatedSystem Number)

namespace StatedProblem

def pose (system : StatedSystem Number) (degree : Datum) (settings : Settings) :
    Except Failure StatedProblem :=
  ProblemData.pose system.validate system degree settings

def problem (p : StatedProblem) : Except Failure (Problem Number) := do
  .ok ⟨← p.system.resolve, p.degree, p.settings⟩

def attempt (p : StatedProblem) : List ConstraintPlace × Except Failure (Relaxation Number) :=
  match p.problem with
  | .error f => ([], .error f)
  | .ok p => p.attempt

end StatedProblem

end HybridRelaxation
