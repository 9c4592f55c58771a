import HybridRelaxation.System.Stated

/-!
# Systems from tables

A system may be given as one list for each kind of mode data and square tables of guards and
resets. An empty guard entry means that there is no transition. Either all resets are identities,
or every guarded pair has a reset of its own.
-/

namespace HybridRelaxation

variable {K : Type} [Scalar K]

structure SystemTables (K : Type) where
  time : Symbol
  states : Entries K
  controls : Entries K
  drift : Entries K
  input : Entries K
  domain : Entries K
  controlSet : Entries K
  targetSet : Entries K
  runningCost : Entries K
  terminalCost : Entries K
  initialState : List Datum
  guards : Entries K
  resets : Entries K
  names : Option (List (Option String))

namespace SystemTables

/-! ## Sizes -/

def checkLength (modes : Nat) (key : String) (length : Nat) : Except Failure Unit :=
  require (length = modes) (.tableLength key length modes)

def checkEntries (modes : Nat) (key : String) (entries : Entries K) : Except Failure Unit := do
  let items ← entries.items
  checkLength modes key items.length

/-- The guard table is square; its rows are looked at up to the first of another length. -/
def checkRows (modes : Nat) : List (Entries K) → Except Failure Unit
  | [] => .ok ()
  | row :: rest => do
      let items ← row.items
      require (items.length = modes) (.guardTable modes)
      checkRows modes rest

def checkGuards (modes : Nat) (guards : Entries K) : Except Failure Unit := do
  let rows ← guards.items
  require (rows.length = modes) (.guardTable modes)
  checkRows modes rows

def check (t : SystemTables K) (modes : Nat) : Except Failure Unit := do
  checkEntries modes "u" t.controls
  checkEntries modes "f" t.drift
  checkEntries modes "g" t.input
  checkEntries modes "hX" t.domain
  checkEntries modes "hU" t.controlSet
  checkLength modes "x0" t.initialState.length
  checkEntries modes "hXT" t.targetSet
  checkEntries modes "h" t.runningCost
  checkEntries modes "H" t.terminalCost
  checkGuards modes t.guards

/-! ## Modes -/

def itemAt (entries : Entries K) (k : Nat) : Except Failure (Entries K) := do
  let items ← entries.items
  match items[k]? with
  | some item => .ok item
  | none => .error .outOfRange

def nameAt (names : Option (List (Option String))) (k : Nat) : Except Failure (Option String) :=
  match names with
  | none => .ok none
  | some names =>
      match names[k]? with
      | some name => .ok name
      | none => .error .outOfRange

def initialStateAt (states : List Datum) (k : Nat) : Except Failure Datum :=
  match states[k]? with
  | some state => .ok state
  | none => .error .outOfRange

def modeAt (t : SystemTables K) (k : Nat) : Except Failure (StatedMode K) := do
  StatedMode.ofEntries {
    states := ← itemAt t.states k
    controls := ← itemAt t.controls k
    drift := ← itemAt t.drift k
    input := ← itemAt t.input k
    domain := ← itemAt t.domain k
    controlSet := ← itemAt t.controlSet k
    targetSet := ← itemAt t.targetSet k
    runningCost := ← itemAt t.runningCost k
    terminalCost := ← itemAt t.terminalCost k
    initialState := ← initialStateAt t.initialState k
    name := ← nameAt t.names k }

/-! ## Transitions -/

/-- The reset of a guarded pair: none if there is no table, and otherwise the entry of the table. -/
def resetAt (resets : Entries K) (i j : Nat) : Except Failure (Entries K) :=
  match resets with
  | .absent => .ok .absent
  | resets => do
      let row ← itemAt resets i
      let reset ← itemAt row j
      if reset.parts.isEmpty then .error (.configuration (.missingReset i j)) else .ok reset

def transitionAt (t : SystemTables K) (i j : Nat) : Except Failure (Option (StatedTransition K)) := do
  let row ← itemAt t.guards i
  let guard ← itemAt row j
  if guard.parts.isEmpty then .ok none
  else do
    let reset ← resetAt t.resets i j
    .ok (some (← StatedTransition.ofEntries (.integer i) (.integer j) guard reset))

def modePairs (modes : Nat) : List (Nat × Nat) :=
  (List.range modes).flatMap (fun i => (List.range modes).map (fun j => (i, j)))

def transitions (t : SystemTables K) (modes : Nat) : Except Failure (List (StatedTransition K)) := do
  let found ← (modePairs modes).mapM (fun (i, j) => t.transitionAt i j)
  .ok (found.filterMap id)

end SystemTables

def StatedSystem.ofTables (t : SystemTables K) : Except Failure (StatedSystem K) := do
  let modes := (← t.states.items).length
  t.check modes
  let ms ← (List.range modes).mapM t.modeAt
  let transitions ← t.transitions modes
  .ok (.ofParts (.one (.ofSymbol t.time)) ms transitions)

end HybridRelaxation
