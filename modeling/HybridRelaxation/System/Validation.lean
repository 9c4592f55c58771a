import HybridRelaxation.Polynomial.Coefficients
import HybridRelaxation.System.Basic

/-!
# Validation of hybrid systems

A system is consistent when the sizes of its data fit and each part is polynomial in the
indeterminates it may depend on. The first inconsistency found is reported. What a part may be is
left open by a check of single parts.
-/

namespace HybridRelaxation

variable {K S E : Type}

def reject (fault : ConfigurationFault) : Except Failure Unit := .error (.configuration fault)

def require (condition : Bool) (fault : ConfigurationFault) : Except Failure Unit :=
  if condition then .ok () else reject fault

@[simp] theorem require_eq_ok {condition : Bool} {fault : ConfigurationFault} :
    require condition fault = .ok () ↔ condition = true := by
  cases condition <;> simp [require, reject]

/-- Checks one part, named by a text, that may depend on the listed indeterminates. -/
abbrev PartCheck (S E : Type) := String → List S → E → Except Failure Unit

namespace PartCheck

variable (check : PartCheck S E)

def all (subject : String) (scope : List S) (parts : List E) : Except Failure Unit :=
  parts.forM (check subject scope)

/-! ## Modes -/

def sizes (i : Nat) (m : ModeData K S E) : Except Failure Unit := do
  require (m.stateCount ≠ 0) (.noStates i)
  require (m.drift.height = m.stateCount && m.input.height = m.stateCount)
    (.rowMismatch i m.drift.height m.input.height m.stateCount)
  require (m.input.width = m.controlCount) (.columnMismatch i m.input.width m.controlCount)
  match m.initialState with
  | none => .ok ()
  | some state =>
      require (state.length = m.stateCount) (.initialStateSize i state.length m.stateCount)

def drift (i : Nat) (m : ModeData K S E) : Except Failure Unit :=
  m.drift.entries.zipIdx.forM (fun (e, k) => check s!"f[{k}] of mode {i}" m.states e)

def mode (time : S) (i : Nat) (m : ModeData K S E) : Except Failure Unit := do
  sizes i m
  check.drift i m
  check.all s!"g of mode {i}" m.states m.input.entries
  check.all s!"domain of mode {i}" m.states m.domain
  check.all s!"control set of mode {i}" m.controls m.controlSet
  check.all s!"target set of mode {i}" m.states m.targetSet
  check s!"running cost of mode {i}" (time :: m.states ++ m.controls) m.runningCost
  check s!"terminal cost of mode {i}" m.states m.terminalCost

/-! ## Transitions -/

def modePosition? (modeCount : Nat) (label : Datum) : Option Nat :=
  match label.integer? with
  | some n => if 0 ≤ n ∧ n < modeCount then some n.toNat else none
  | none => none

def label (modeCount : Nat) (t : TransitionData E) (label : Datum) : Except Failure Unit :=
  require (modePosition? modeCount label).isSome
    (.unknownMode t.source.display t.target.display label.display)

def reset (source target : ModeData K S E) (t : TransitionData E) : Except Failure Unit :=
  match t.reset with
  | none =>
      require (source.stateCount = target.stateCount)
        (.identityResetSize t.source.display t.target.display source.stateCount
          target.stateCount)
  | some grid => do
      require (grid.height = target.stateCount)
        (.resetSize t.source.display t.target.display grid.height target.stateCount)
      check.all ("reset map " ++ pairText t.source.display t.target.display) source.states
        grid.entries

def transitions (modes : List (ModeData K S E)) :
    List (Nat × Nat) → List (TransitionData E) → Except Failure Unit
  | _, [] => .ok ()
  | seen, t :: rest => do
      label modes.length t t.source
      label modes.length t t.target
      match modePosition? modes.length t.source, modePosition? modes.length t.target with
      | some i, some j =>
          require (!seen.contains (i, j)) (.duplicateTransition t.source.display t.target.display)
          match modes[i]?, modes[j]? with
          | some source, some target =>
              check.all ("guard " ++ pairText t.source.display t.target.display) source.states
                t.guard
              check.reset source target t
              transitions modes ((i, j) :: seen) rest
          | _, _ => .error .outOfRange
      | _, _ => .error .outOfRange

def system (s : SystemData K S E) : Except Failure Unit := do
  require (!s.modes.isEmpty) .noModes
  s.modes.zipIdx.forM (fun (m, i) => check.mode s.time i m)
  check.transitions s.modes [] s.transitions

end PartCheck

/-! ## Polynomial parts -/

variable [Scalar K]

def foreignNames (symbols scope : List Symbol) : List String :=
  let foreign := symbols.eraseDups.filter (fun s => !scope.contains s)
  (foreign.map Symbol.text).mergeSort (fun a b => a ≤ b)

/--
A part depends on the symbols of its scope only, and in a polynomial way. Messages may quote the
text of a part that is not polynomial, where one can be given.
-/
def checkPolynomial (text? : Expression K → Option String) :
    PartCheck Symbol (Expression K) := fun subject scope e => do
  let names := scope.map Symbol.text
  let foreign := foreignNames e.symbols scope
  require foreign.isEmpty (.foreignSymbols subject foreign names)
  require (isPolynomial e scope) (.notPolynomial subject names (text? e))

def HybridSystem.validate (s : HybridSystem K) : Except Failure Unit :=
  PartCheck.system (checkPolynomial (fun _ => none)) s

end HybridRelaxation
