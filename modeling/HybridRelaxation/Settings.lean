import HybridRelaxation.Datum

/-!
# Settings

The settings of a relaxation, of the conic backend and of the console. They are read from a list of
named options: later options overwrite earlier ones, several names may stand for one setting, and
unset options keep their defaults.
-/

namespace HybridRelaxation

structure Settings where
  freeFinalTime : Bool
  withInputs : Bool
  singularValueThreshold : FloatValue
  solver : Datum
  solverOptions : Datum
  verbose : Bool
  printing : Bool
  profiling : Bool

namespace Settings

def defaults : Settings where
  freeFinalTime := false
  withInputs := false
  singularValueThreshold := .ofInt 1000
  solver := .text "CLARABEL"
  solverOptions := .table []
  verbose := true
  printing := true
  profiling := false

/-! ## Options -/

inductive Setting where
  | freeFinalTime
  | withInputs
  | singularValueThreshold
  | solver
  | solverOptions
  | verbose
  | printing
  | profiling
  deriving DecidableEq

def optionNames : List (String × Setting) :=
  [("freeFinalTime", .freeFinalTime), ("free_final_time", .freeFinalTime),
    ("withInputs", .withInputs), ("with_inputs", .withInputs),
    ("svd_eps", .singularValueThreshold), ("solver_options", .solverOptions),
    ("solver", .solver), ("verbose", .verbose), ("printing", .printing),
    ("profiling", .profiling)]

def recognizedNames : List String :=
  (optionNames.map Prod.fst).mergeSort (fun a b => a ≤ b)

def settingOf? (key : String) : Option Setting :=
  (optionNames.find? (fun entry => entry.1 = key)).map Prod.snd

def flagOf (key : String) (value : Datum) : Except Failure Bool :=
  match value with
  | .flag b => .ok b
  | .integer 0 => .ok false
  | .integer 1 => .ok true
  | value => .error (.configuration (.optionNotFlag key value.literal))

def solverOptionsOf : Datum → Datum
  | .none => .table []
  | value => value

def apply (s : Settings) (key : String) (value : Datum) : Except Failure Settings :=
  match settingOf? key with
  | none => .error (.configuration (.unknownOption key recognizedNames))
  | some .freeFinalTime => do .ok { s with freeFinalTime := ← flagOf key value }
  | some .withInputs => do .ok { s with withInputs := ← flagOf key value }
  | some .singularValueThreshold => do .ok { s with singularValueThreshold := ← value.toFloat }
  | some .solver => .ok { s with solver := value }
  | some .solverOptions => .ok { s with solverOptions := solverOptionsOf value }
  | some .verbose => do .ok { s with verbose := ← flagOf key value }
  | some .printing => do .ok { s with printing := ← flagOf key value }
  | some .profiling => do .ok { s with profiling := ← flagOf key value }

def ofOptions (options : List (Datum × Datum)) : Except Failure Settings :=
  if options.all (fun option => option.1.isKey) then
    (Datum.ofEntries (options.map (fun (key, value) => (key.display, value)))).foldlM
      (fun s (key, value) => s.apply key value) defaults
  else .error .wrongType

@[simp] theorem ofOptions_nil : ofOptions [] = .ok defaults := rfl

end Settings

end HybridRelaxation
