import HybridRelaxation.Expression.Basic
import HybridRelaxation.Grid

/-!
# Modes

A mode has states that move along a drift and, weighted by the controls, along the columns of an
input matrix, within a domain and a control set. Costs are paid on the way and at the end; a target
set restricts the end, and an initial state makes the mode part of the objective.

The indeterminates of a mode are symbols and its entries are expressions. Data that are only about
to become a mode have the same parts with other indeterminates and entries.
-/

namespace HybridRelaxation

structure ModeData (K S E : Type) where
  states : List S
  controls : List S
  drift : Grid E
  input : Grid E
  domain : List E
  controlSet : List E
  targetSet : List E
  runningCost : E
  terminalCost : E
  initialState : Option (List K)
  name : Option String
  deriving DecidableEq

abbrev Mode (K : Type) := ModeData K Symbol (Expression K)

namespace ModeData

variable {K S E T F : Type}

def stateCount (m : ModeData K S E) : Nat := m.states.length

def controlCount (m : ModeData K S E) : Nat := m.controls.length

def display (m : ModeData K S E) : String :=
  "Mode(" ++ m.name.getD "" ++ ", n=" ++ toString m.stateCount ++ ", m=" ++
    toString m.controlCount ++ ")"

def mapM {ε : Type} (symbol : S → Except ε T) (entry : E → Except ε F) (m : ModeData K S E) :
    Except ε (ModeData K T F) := do
  .ok {
    states := ← m.states.mapM symbol
    controls := ← m.controls.mapM symbol
    drift := ← m.drift.mapM entry
    input := ← m.input.mapM entry
    domain := ← m.domain.mapM entry
    controlSet := ← m.controlSet.mapM entry
    targetSet := ← m.targetSet.mapM entry
    runningCost := ← entry m.runningCost
    terminalCost := ← entry m.terminalCost
    initialState := m.initialState
    name := m.name }

end ModeData

end HybridRelaxation
