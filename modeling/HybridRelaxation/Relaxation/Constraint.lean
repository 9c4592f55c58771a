import HybridRelaxation.SquareSum.Program

/-!
# Constraint records

Each positivity constraint of a relaxation has a record: what it constrains, the set on which its
polynomial is certified nonnegative, and where its sum-of-squares statements stand in the program.
The multipliers come first, one for each inequality, and the base follows them. After a solve the
record also holds how far the certificate is from being exact.
-/

namespace HybridRelaxation

variable {K : Type}

inductive ConstraintKind where
  | liouville
  | terminal
  | transition
  /-- A kind with a name of its own. Relaxations have no such constraints. -/
  | other (word : String)
  deriving DecidableEq, Repr

namespace ConstraintKind

def text : ConstraintKind → String
  | .liouville => "liouville"
  | .terminal => "terminal"
  | .transition => "transition"
  | .other word => word

def ofText (word : String) : ConstraintKind :=
  match word with
  | "liouville" => .liouville
  | "terminal" => .terminal
  | "transition" => .transition
  | _ => .other word

@[simp] theorem text_ofText (word : String) : (ofText word).text = word := by
  unfold ofText
  split <;> rfl

def letter : ConstraintKind → String
  | .liouville => "l"
  | .terminal => "t"
  | .transition => "t"
  | .other word => (word.take 1).toString

def announcement? : ConstraintKind → Option String
  | .liouville => some "Adding Liouville dual constraint"
  | .terminal => some "Adding Final time constraint"
  | .transition => some "Adding transition constraint"
  | .other _ => none

end ConstraintKind

/-- The mode that a constraint belongs to, and for a transition the mode it leads to. -/
structure ConstraintPlace where
  kind : ConstraintKind
  mode : Int
  target : Option Int
  deriving DecidableEq, Repr

namespace ConstraintPlace

def name (c : ConstraintPlace) : String :=
  match c.target with
  | none => c.kind.letter ++ toString c.mode
  | some target => c.kind.letter ++ toString c.mode ++ "_" ++ toString target

def modeText (c : ConstraintPlace) : String :=
  match c.target with
  | none => toString c.mode
  | some target => toString c.mode ++ "->" ++ toString target

end ConstraintPlace

structure ConstraintRecord (K : Type) where
  place : ConstraintPlace
  scope : List Symbol
  constraints : List (Expression K)
  /-- The number of multipliers, one for each inequality. -/
  multiplierCount : Int
  /-- The polynomial certified to be nonnegative on the set. -/
  polynomial : Expression K
  degree : Int
  /-- The position of the first statement. -/
  offset : Int
  residualMax : K
  residualSum : K
  subresidualMax : List K
  minEigenvalues : List K

namespace ConstraintRecord

def baseIndex (r : ConstraintRecord K) : Int := r.offset + r.multiplierCount

def stop (r : ConstraintRecord K) : Int := r.baseIndex + 1

end ConstraintRecord

end HybridRelaxation
