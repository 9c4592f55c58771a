import HybridRelaxation.Expression.Substitution
import HybridRelaxation.SquareSum.Statement

/-!
# Sum-of-squares programs

A program collects indeterminates, decision symbols and sum-of-squares statements. All three only
grow at the end, so a position once handed out keeps its meaning. A registration that fails may
have registered something before it failed; the program is returned beside the result.
-/

namespace HybridRelaxation

variable {K : Type} [Scalar K]

structure SquareProgram (K : Type) where
  indeterminates : List Symbol
  decisions : List Symbol
  statements : List (SquareSum K)
  deriving DecidableEq

structure FreePolynomial (K : Type) where
  polynomial : Expression K
  decisions : List Symbol

namespace SquareProgram

def empty : SquareProgram K := ⟨[], [], []⟩

def size (p : SquareProgram K) : Nat := p.decisions.length

def index (p : SquareProgram K) : Symbol → Option Int
  | .named _ => none
  | .decision position label =>
      if p.decisions[position]? = some (.decision position label) then some position else none

/-! ## Indeterminates and free polynomials -/

def withIndeterminates (p : SquareProgram K) (symbols : List Symbol) : SquareProgram K :=
  { p with
    indeterminates := symbols.foldl
      (fun known s => if s ∈ known then known else known ++ [s]) p.indeterminates }

def freshDecisions (name : String) (start count : Nat) : List Symbol :=
  (List.range count).map (fun k => .decision (start + k) (name ++ "_" ++ toString (start + k)))

def combination (symbols : List Symbol) (basis : List (Expression K)) : Expression K :=
  Expression.sum (List.zipWith (fun s m => Expression.ofSymbol s * m) symbols basis)

def newFreePolynomial (p : SquareProgram K) (basis : List (Expression K)) (name : String) :
    SquareProgram K × FreePolynomial K :=
  let fresh := freshDecisions name p.size basis.length
  ({ p with decisions := p.decisions ++ fresh }, ⟨combination fresh basis, fresh⟩)

/-! ## Statements -/

def halfDegree (degree : Int) : Int := (degree + 1) / 2

def statement (polynomial : Expression K) (scope : List Symbol) (half : Option Int)
    (name : String) : Except Failure (SquareSum K) := do
  let coefficients ← coefficients polynomial scope
  let half := half.getD (halfDegree coefficients.totalDegree)
  .ok ⟨polynomial, scope, exponents scope.length half 0, name, coefficients⟩

def withSquareSum (p : SquareProgram K) (polynomial : Expression K) (scope : List Symbol)
    (half : Option Int) (name : String) : SquareProgram K × Except Failure Nat :=
  match statement polynomial scope half name with
  | .ok s => ({ p with statements := p.statements ++ [s] }, .ok p.statements.length)
  | .error f => (p, .error f)

def newSquareSum (p : SquareProgram K) (scope : List Symbol) (half : Int) (name : String) :
    SquareProgram K × Except Failure (Expression K) :=
  let (p, free) := p.newFreePolynomial (monomials scope (2 * half) 0) name
  let (p, position) := p.withSquareSum free.polynomial scope (some half) name
  (p, position.map (fun _ => free.polynomial))

/-! ## Nonnegativity on a set -/

/-- The largest half-degree of a multiplier whose product with a constraint keeps the degree. -/
def multiplierHalf (degree constraintDegree : Int) : Int := max 0 ((degree - constraintDegree) / 2)

def registerMultipliers (p : SquareProgram K) (rest : Expression K) (scope : List Symbol)
    (degree : Int) (name : String) :
    Nat → List (Expression K) →
      SquareProgram K × Except Failure (List (Expression K) × Expression K)
  | _, [] => (p, .ok ([], rest))
  | k, g :: constraints =>
      match totalDegree g scope with
      | .error f => (p, .error f)
      | .ok constraintDegree =>
          match p.newSquareSum scope (multiplierHalf degree constraintDegree)
              (name ++ toString (k + 1)) with
          | (p, .error f) => (p, .error f)
          | (p, .ok s) =>
              let (p, result) :=
                registerMultipliers p (rest - s * g) scope degree name (k + 1) constraints
              (p, result.map (fun (multipliers, rest) => (s :: multipliers, rest)))

/--
Certifies a polynomial to be nonnegative where all constraints are: it is a sum of squares plus
sums of squares times the constraints. The multipliers are registered first, then the base.
-/
def nonnegativeOn (p : SquareProgram K) (polynomial : Expression K) (scope : List Symbol)
    (constraints : List (Expression K)) (degree : Int) (name : String) :
    SquareProgram K × Except Failure (List (Expression K)) :=
  match p.registerMultipliers polynomial scope degree name 0 constraints with
  | (p, .error f) => (p, .error f)
  | (p, .ok (multipliers, rest)) =>
      let (p, position) := p.withSquareSum rest scope none (name ++ "0")
      (p, position.map (fun _ => multipliers))

/-! ## Solved values -/

def valueReplacements (values : List (Symbol × K)) : List (Symbol × Expression K) :=
  values.map (fun (s, c) => (s, .number (Scalar.toMeasured c)))

end SquareProgram

def evaluate (e : Expression K) (values : List (Symbol × K)) : Expression K :=
  (e.substitute (replacements (SquareProgram.valueReplacements values))).expand

end HybridRelaxation
