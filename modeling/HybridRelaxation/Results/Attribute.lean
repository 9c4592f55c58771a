import HybridRelaxation.Results.Basic

/-!
# Stated results by name

Results may also be put together by hand. Then the time, the bound and the degree are data of any
kind, and the bound is read as a number only where a number is asked for. Parts of stated results
are looked up by name; the status is there only if there is a solution. Besides its parts every
record of this kind has a few names that say what it is and what can be done with it.
-/

namespace HybridRelaxation

/-- Results with a time, a bound, a degree and a status that are data of any kind. -/
structure StatedResults where
  results : Results Number
  seconds : Datum
  bound : Datum
  degree : Datum

inductive Attribute where
  | datum (value : Datum)
  | expressions (values : List (Expression Number))
  | symbol (value : Symbol)
  | symbolLists (values : List (List Symbol))
  | records (values : List (ConstraintRecord Number))
  /-- Something that only its kind is known of. -/
  | object (kind : String)

namespace StatedResults

def lowerBound (r : StatedResults) : Except Failure FloatValue := r.bound.toFloat

def summary (r : StatedResults) : Except Failure Datum := do
  let summary ← r.results.summary
  let stated := [("pval", r.bound), ("time", r.seconds), ("degree", r.degree)]
  .ok (.table (stated.foldl (fun table (name, part) => Datum.put name part table) summary.entries))

/-! ## Parts -/

def numberList (cs : List Number) : Attribute := .datum (.list (cs.map .ofNumber))

def solutionAttribute (r : StatedResults) : Attribute :=
  match r.results.status with
  | some _ => .object "SimpleNamespace"
  | none => .datum .none

def synthesisAttribute (r : StatedResults) : Attribute :=
  match r.results.synthesis with
  | some _ => .object "ControlSynthesisData"
  | none => .datum .none

def part? (r : StatedResults) (name : String) : Option Attribute :=
  match name with
  | "time" => some (.datum r.seconds)
  | "pval" => some (.datum r.bound)
  | "sol" => some r.solutionAttribute
  | "infos" => some (.records r.results.records)
  | "degree" => some (.datum r.degree)
  | "min_eigenvalues" => some (numberList r.results.minEigenvalues)
  | "invalid_grams" => some (.datum (.list (r.results.invalidGrams.map .integer)))
  | "value_functions" => some (.expressions r.results.valueFunctions)
  | "t" => some (.symbol r.results.time)
  | "states" => some (.symbolLists r.results.states)
  | "u_infos" => some r.synthesisAttribute
  | "status" => r.results.status.map (fun status => .datum (.text status))
  | "max_residual" => some (.datum (.ofNumber r.results.maxResidual))
  | "max_subresidual" => some (.datum (.ofNumber r.results.maxSubresidual))
  | _ => none

/-! ## Names that every record has -/

def partNames : List String :=
  ["time", "pval", "sol", "infos", "degree", "min_eigenvalues", "invalid_grams",
    "value_functions", "t", "states", "u_infos"]

def ownOperations : List String :=
  ["summary", "get", "__getitem__", "__init__", "__eq__", "__repr__"]

def wrappedOperations : List String :=
  ["__str__", "__ne__", "__lt__", "__le__", "__gt__", "__ge__", "__getattribute__", "__setattr__",
    "__delattr__"]

def builtinOperations : List String :=
  ["__new__", "__dir__", "__format__", "__sizeof__", "__reduce__", "__reduce_ex__",
    "__getstate__", "__init_subclass__", "__subclasshook__"]

def commonAttribute? (name : String) : Option Attribute :=
  if name ∈ ownOperations then some (.object "method")
  else if name ∈ wrappedOperations then some (.object "method-wrapper")
  else if name ∈ builtinOperations then some (.object "builtin_function_or_method")
  else
    match name with
    | "__class__" => some (.object "type")
    | "__module__" => some (.datum (.text "hybridocp.results"))
    | "__hash__" => some (.datum .none)
    | "__weakref__" => some (.datum .none)
    | "__match_args__" => some (.datum (.list (partNames.map .text)))
    | "__dataclass_params__" => some (.object "_DataclassParams")
    | _ => none

/-! ## Looking up -/

def attribute? (r : StatedResults) : Datum → Except Failure (Option Attribute)
  | .text name => .ok ((r.part? name).or (commonAttribute? name))
  | _ => .error .wrongType

def lookup (r : StatedResults) (key : Datum) : Except Failure Attribute := do
  match ← r.attribute? key with
  | some a => .ok a
  | none => .error (.missingKey key.display)

def lookupOr (r : StatedResults) (key fallback : Datum) : Except Failure Attribute := do
  .ok ((← r.attribute? key).getD (.datum fallback))

end StatedResults

end HybridRelaxation
