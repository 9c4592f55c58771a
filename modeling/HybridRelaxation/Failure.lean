import HybridRelaxation.Text

/-!
# Failures

The reasons why an operation on problem data gives no result. Most have a message for the user;
those that only say that data has the wrong kind or shape have none.
-/

namespace HybridRelaxation

/-! ## Inconsistent problem data -/

inductive ConfigurationFault where
  | unknownOption (key : String) (recognized : List String)
  | optionNotFlag (key value : String)
  | badDegree (value : String)
  | noModes
  | noStates (mode : Nat)
  | rowMismatch (mode drift input states : Nat)
  | columnMismatch (mode columns controls : Nat)
  | initialStateSize (mode size states : Nat)
  | foreignSymbols (subject : String) (symbols expected : List String)
  | notPolynomial (subject : String) (scope : List String) (expression : Option String)
  | unknownMode (source target mode : String)
  | duplicateTransition (source target : String)
  | identityResetSize (source target : String) (sourceStates targetStates : Nat)
  | resetSize (source target : String) (entries states : Nat)
  | tableLength (key : String) (length modes : Nat)
  | guardTable (modes : Nat)
  | missingReset (source target : Nat)
  deriving DecidableEq

def bracketed (words : List String) : String := "[" ++ ", ".intercalate words ++ "]"

def quotedList (words : List String) : String := bracketed (words.map quoted)

def pairText (source target : String) : String := "(" ++ source ++ ", " ++ target ++ ")"

/--
The list of variables that ends a message. A bracket in a name makes the end of the list hard to
see; then the expression is quoted as well.
-/
def listWith (scope : List String) (expression : Option String) : String :=
  let whole := bracketed scope ++ ": " ++ expression.getD ""
  let (head, rest) := whole.toList.span (· ≠ ']')
  match rest with
  | ']' :: ':' :: ' ' :: _ => String.ofList head ++ "]"
  | _ => whole

def ConfigurationFault.message : ConfigurationFault → String
  | .unknownOption key recognized =>
      "Unknown option '" ++ key ++ "'. Recognized options: " ++ quotedList recognized
  | .optionNotFlag key value =>
      "Option '" ++ key ++ "' must be a boolean or 0/1, got " ++ value
  | .badDegree value => "Relaxation degree must be a positive integer, got " ++ value
  | .noModes => "A hybrid system needs at least one mode"
  | .noStates mode => s!"Mode {mode} has no state indeterminates"
  | .rowMismatch mode drift input states =>
      s!"Inconsistent matrix size in mode {mode}: len(f)={drift}, rows(g)={input}, " ++
        s!"len(x)={states}"
  | .columnMismatch mode columns controls =>
      s!"Inconsistent matrix size in mode {mode}: cols(g)={columns}, len(u)={controls}"
  | .initialStateSize mode size states =>
      s!"Initial state of mode {mode} has {size} entries, expected {states}"
  | .foreignSymbols subject symbols expected =>
      subject ++ " depends on " ++ quotedList symbols ++ ", expected only " ++ bracketed expected
  | .notPolynomial subject scope expression =>
      subject ++ " is not polynomial in " ++ listWith scope expression
  | .unknownMode source target mode =>
      "Transition " ++ pairText source target ++ " refers to mode " ++ mode ++
        ", which does not exist"
  | .duplicateTransition source target => "Duplicate transition " ++ pairText source target
  | .identityResetSize source target sourceStates targetStates =>
      "Identity reset on " ++ pairText source target ++ " needs equal state dimensions, " ++
        s!"got {sourceStates} and {targetStates}"
  | .resetSize source target entries states =>
      "Reset map " ++ pairText source target ++ s!" has {entries} entries, expected {states}"
  | .tableLength key length modes =>
      "'" ++ key ++ s!"' has {length} entries, expected {modes}"
  | .guardTable modes => s!"'sX' must be a {modes} x {modes} table"
  | .missingReset source target =>
      s!"Missing reset map for guarded pair ({source}, {target})"

/-! ## All failures -/

inductive Payload where
  | none
  | text (content : String)
  | backendError
  deriving DecidableEq

inductive Failure where
  /-- A term depends on a variable in a way that is not polynomial. -/
  | notPolynomial (scope : List String)
  /-- A term is not a number times one decision symbol. -/
  | notAffine
  /-- The problem data are inconsistent. -/
  | configuration (fault : ConfigurationFault)
  /-- The formulation is known and not supported. -/
  | unsupported
  /-- The backend reported no optimal solution. -/
  | solveFailed (status : String) (payload : Payload)
  | noTransition (source target : String)
  | missingKey (key : String)
  | noDecisionVariables
  | stateDimension (expected found : Nat)
  | stateIndex (index : String) (states : Nat)
  /-- Data of a kind that the operation is not defined on. -/
  | wrongType
  /-- A position outside a list. -/
  | outOfRange
  /-- A part that the value at hand does not have. -/
  | missingPart
  /-- Matrices whose sizes do not fit. -/
  | shapeMismatch
  /-- A matrix that is not square where it has to be. -/
  | notSquare
  /-- An array that is not a matrix where it has to be. -/
  | unsupportedShape
  /-- A word that names no kind of constraint. -/
  | unknownKind
  /-- An integer too large for a floating-point number. -/
  | tooLarge
  /-- A place for a file that does not exist. -/
  | noSuchPlace
  /-- A name of a file or directory that is too long. -/
  | nameTooLong
  /-- A division by the length of something empty. -/
  | emptyDivision
  /-- A symbol that stands for two arguments of one function. -/
  | repeatedSymbol
  /-- A symbol without a value in a calculation with numbers. -/
  | unknownValue
  /-- A value that the operation is not defined on. -/
  | badValue
  deriving DecidableEq, Inhabited

def Failure.message? : Failure → Option String
  | .notPolynomial scope => some ("Term is not polynomial in " ++ bracketed scope)
  | .notAffine => some "Term is not affine in the decision variables"
  | .configuration fault => some fault.message
  | .unsupported => some "Free final time terminal constraints are not supported"
  | .solveFailed status _ => some ("SOS relaxation solve failed with status '" ++ status ++ "'")
  | .noTransition source target =>
      some s!"No transition from mode {source} to mode {target}"
  | .missingKey key => some key
  | .noDecisionVariables => some "SOS program has no decision variables"
  | .stateDimension expected found =>
      some s!"Expected states of dimension {expected}, got {found}"
  | .stateIndex index states =>
      some s!"state_index {index} out of range for a {states}-state mode"
  | _ => none

end HybridRelaxation
