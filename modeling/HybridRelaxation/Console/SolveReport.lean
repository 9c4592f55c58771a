import HybridRelaxation.Console.Report
import HybridRelaxation.Relaxation.Stated

/-!
# Reports of a solve

Solving a problem prints as it goes. The report of a solve holds everything that was printed, the
relaxation if it came to a backend, and the results or the failure that stopped the solve.
-/

namespace HybridRelaxation

/-- What is handed to a backend: it minimizes the negated objective of the relaxation. -/
structure Submission where
  settings : Settings
  relaxation : Relaxation Number

namespace Submission

def program (s : Submission) : SquareProgram Number := s.relaxation.program

def objective (s : Submission) : Expression Number := -s.relaxation.objective

end Submission

structure SolveReport where
  printed : String
  warnings : List String
  submission : Option Submission
  outcome : Except Failure (Results Number)

abbrev Backend := Submission → Except Failure (Solution Number)

namespace SolveReport

def opening {K S E : Type} (p : ProblemData (SystemData K S E)) : String :=
  Console.banner ++ Console.summary p.system (.integer p.degree.value) p.settings.solver

def closing (r : Results Number) : String :=
  Console.diagnostics r.records (r.invalidGrams.map Console.typedPosition) ++
    Console.footer (.real r.seconds.toDouble) (.real r.bound.toDouble)

def printing (settings : Settings) (text : String) : String :=
  if settings.printing then text else ""

def refused (warnings : List String) (f : Failure) : SolveReport := ⟨"", warnings, none, .error f⟩

def ofProblem (p : Problem Number) (backend : Backend) (seconds : Number) : SolveReport :=
  let (announced, built) := p.attempt
  let before := printing p.settings (opening p ++ Console.announcements announced)
  match built with
  | .error f => ⟨before, p.degree.warnings, none, .error f⟩
  | .ok r =>
      let submission : Submission := ⟨p.settings, r⟩
      let outcome := do
        let solution ← backend submission
        Results.ofSolution p r solution seconds
      let after :=
        match outcome with
        | .ok results => printing p.settings (closing results)
        | .error _ => ""
      ⟨before ++ after, p.degree.warnings, some submission, outcome⟩

def ofStated (p : StatedProblem) (backend : Backend) (seconds : Number) : SolveReport :=
  match p.problem with
  | .ok p => ofProblem p backend seconds
  | .error f => ⟨printing p.settings (opening p), p.degree.warnings, none, .error f⟩

def ofSystem (s : StatedSystem Number) (degree : Datum) (settings : Settings) (backend : Backend)
    (seconds : Number) : SolveReport :=
  match StatedProblem.pose s degree settings with
  | .error f => refused (ProblemData.warnings s.validate degree) f
  | .ok p => ofStated p backend seconds

end SolveReport

end HybridRelaxation
