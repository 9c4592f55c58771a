import HybridRelaxation.Entries
import HybridRelaxation.SquareSum.Program

/-!
# Registering stated parts

Bases, polynomials and inequalities may be stated as entries, which need not be expressions. A
registration takes them in order and fails at the first that is none; what was registered before
stays in the program.
-/

namespace HybridRelaxation

namespace SquareProgram

variable {K : Type} [Scalar K]

/-- A free polynomial over a stated basis. The symbols are registered before the basis is used. -/
def newStatedPolynomial (p : SquareProgram K) (basis : Entries K) (name : String) :
    SquareProgram K × Except Failure (FreePolynomial K) :=
  match basis.items with
  | .error f => (p, .error f)
  | .ok items =>
      let (p, free) := p.newFreePolynomial (items.map (fun e => e.expression?.getD .zero)) name
      (p, if items.all (fun e => e.expression?.isSome) then .ok free else .error .wrongType)

def abandon (p : SquareProgram K) (polynomial : Expression K) (scope : List Symbol)
    (constraints : List (Entries K)) (degree : Int) (name : String) (f : Failure) :
    SquareProgram K × Except Failure (List (Expression K)) :=
  let (p, multipliers) := p.registerMultipliers polynomial scope degree name 0
    (constraints.filterMap Entries.expression?)
  (p, multipliers.bind (fun _ => .error f))

def nonnegativeOnStated (p : SquareProgram K) (polynomial : Entries K) (scope : List Symbol)
    (constraints : Entries K) (degree : Int) (name : String) :
    SquareProgram K × Except Failure (List (Expression K)) :=
  match constraints.items with
  | .error f => (p, .error f)
  | .ok items =>
      let absent := items.findIdx? (fun e => e.expression?.isNone)
      match polynomial.expression?, absent with
      | some e, none =>
          p.nonnegativeOn e scope (items.filterMap Entries.expression?) degree name
      | some e, some k => p.abandon e scope (items.take k) degree name .missingPart
      | none, some 0 => (p, .error .missingPart)
      | none, _ =>
          p.abandon .zero scope (items.take 1) degree name
            (if items.isEmpty then .missingPart else .wrongType)

end SquareProgram

end HybridRelaxation
