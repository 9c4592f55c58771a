import HybridRelaxation.Datum
import HybridRelaxation.System.Mode

/-!
# Hybrid systems

A hybrid system is a list of modes with guarded transitions between them. Where all guard
inequalities of a transition hold, the state may jump to its reset image in the target mode. A
transition without guard inequalities can never fire and is not part of a system.
-/

namespace HybridRelaxation

structure TransitionData (E : Type) where
  source : Datum
  target : Datum
  guard : List E
  /-- The image of the state; without one the state is kept. -/
  reset : Option (Grid E)

abbrev Transition (K : Type) := TransitionData (Expression K)

namespace TransitionData

variable {E F : Type}

def joins (t : TransitionData E) (source target : Datum) : Bool :=
  t.source.equals source && t.target.equals target

def display (t : TransitionData E) : String :=
  "Transition(" ++ t.source.display ++ " -> " ++ t.target.display ++ ")"

def mapM {ε : Type} (entry : E → Except ε F) (t : TransitionData E) :
    Except ε (TransitionData F) := do
  let guard ← t.guard.mapM entry
  let reset ← t.reset.mapM (Grid.mapM entry)
  .ok ⟨t.source, t.target, guard, reset⟩

end TransitionData

structure SystemData (K S E : Type) where
  time : S
  modes : List (ModeData K S E)
  transitions : List (TransitionData E)

abbrev HybridSystem (K : Type) := SystemData K Symbol (Expression K)

namespace SystemData

variable {K S E T F : Type}

/-- The system with the transitions that can fire. -/
def ofParts (time : S) (modes : List (ModeData K S E)) (transitions : List (TransitionData E)) :
    SystemData K S E :=
  ⟨time, modes, transitions.filter (fun t => !t.guard.isEmpty)⟩

def modeCount (s : SystemData K S E) : Nat := s.modes.length

def maxControls (s : SystemData K S E) : Nat :=
  (s.modes.map ModeData.controlCount).foldl max 0

def mapM {ε : Type} (symbol : S → Except ε T) (entry : E → Except ε F) (s : SystemData K S E) :
    Except ε (SystemData K T F) := do
  let time ← symbol s.time
  let modes ← s.modes.mapM (ModeData.mapM symbol entry)
  let transitions ← s.transitions.mapM (TransitionData.mapM entry)
  .ok ⟨time, modes, transitions⟩

/-! ## Looking up transitions -/

def transition? (s : SystemData K S E) (source target : Datum) : Option (TransitionData E) :=
  s.transitions.find? (fun t => t.joins source target)

def guard (s : SystemData K S E) (source target : Datum) : List E :=
  match s.transition? source target with
  | some t => t.guard
  | none => []

/-- The reset map between two modes; the column of the states where none was given. -/
def resetWith (column : List S → Except Failure (Grid E)) (s : SystemData K S E)
    (source target : Datum) : Except Failure (Grid E) :=
  match s.transition? source target with
  | none => .error (.noTransition source.display target.display)
  | some t =>
      match t.reset with
      | some grid => .ok grid
      | none => do column (← entryAt s.modes (← source.position)).states

theorem mem_transitions_ofParts {time : S} {modes : List (ModeData K S E)}
    {transitions : List (TransitionData E)} {t : TransitionData E} :
    t ∈ (ofParts time modes transitions).transitions ↔ t ∈ transitions ∧ t.guard ≠ [] := by
  simp [ofParts]

end SystemData

def HybridSystem.reset {K : Type} [Scalar K] (s : HybridSystem K) (source target : Datum) :
    Except Failure (Grid (Expression K)) :=
  s.resetWith (fun states => .ok (.ofColumn (states.map Expression.ofSymbol))) source target

end HybridRelaxation
