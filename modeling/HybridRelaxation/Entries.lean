import HybridRelaxation.Expression.Basic
import HybridRelaxation.Failure
import HybridRelaxation.Grid

/-!
# Nested entries

Sets, vector fields and maps are given as one expression, as nested lists of expressions, as a
grid, or not at all. Taken apart they are a list of entries row by row: lists are opened as deep as
all lists of one depth have the same length, and what is deeper stays an entry of its own. A list of
rows, or of blocks of rows, makes a grid of entries. An entry need not be an expression.
-/

namespace HybridRelaxation

inductive Entries (K : Type) where
  | absent
  | one (entry : Expression K)
  | list (items : List (Entries K))
  | grid (rows : Grid (Expression K))

namespace Entries

variable {K : Type}

instance : Inhabited (Entries K) := ⟨.absent⟩

/-! ## Kinds of entries -/

def expression? : Entries K → Option (Expression K)
  | .one e => some e
  | _ => none

def expressionOr (f : Failure) (e : Entries K) : Except Failure (Expression K) :=
  match e.expression? with
  | some e => .ok e
  | none => .error f

def grid? : Entries K → Option (Grid (Expression K))
  | .grid rows => some rows
  | _ => none

def isSequence : Entries K → Bool
  | .list _ => true
  | .grid _ => true
  | _ => false

def items : Entries K → Except Failure (List (Entries K))
  | .list items => .ok items
  | .grid rows => .ok (rows.entries.map .one)
  | _ => .error .wrongType

/-! ## Taking apart -/

def commonShape : List Nat → List Nat → List Nat
  | m :: shape, n :: other => if m = n then m :: commonShape shape other else []
  | _, _ => []

mutual

def shape : Entries K → List Nat
  | .list [] => [0]
  | .list (e :: rest) => (rest.length + 1) :: shapeWith e.shape rest
  | .grid rows => [rows.height, rows.width]
  | _ => []

def shapeWith (found : List Nat) : List (Entries K) → List Nat
  | [] => found
  | e :: rest => shapeWith (commonShape found e.shape) rest

end

def atDepth : Nat → Entries K → List (Entries K)
  | 0, e => [e]
  | depth + 1, .list items => items.flatMap (atDepth depth)
  | depth + 1, .grid rows => rows.rows.flatMap (fun row => atDepth depth (.list (row.map .one)))
  | _ + 1, e => [e]

def parts (e : Entries K) : List (Entries K) :=
  match e with
  | .absent => []
  | e => atDepth e.shape.length e

@[simp] theorem parts_absent : (absent : Entries K).parts = [] := rfl

@[simp] theorem parts_one (e : Expression K) : (one e).parts = [one e] := by
  simp [parts, shape, atDepth]

/-! ## Grids of entries -/

/-- Grids below one another; empty ones count only if they have a width. -/
def stack (grids : List (Grid (Expression K))) : Except Failure (Grid (Expression K)) :=
  match grids.filter (fun g => g.height ≠ 0 ∨ g.width ≠ 0) with
  | [] => .ok ⟨0, []⟩
  | g :: rest =>
      if rest.any (fun other => other.width ≠ g.width) then .error .badValue
      else if g.width = 0 then .error .emptyDivision
      else .ok ⟨g.width, g.rows ++ rest.flatMap Grid.rows⟩

def beside (grids : List (Grid (Expression K))) : Except Failure (Grid (Expression K)) := do
  .ok (← stack (grids.map Grid.transpose)).transpose

def rowsOf : Entries K → Except Failure (List (List (Entries K)))
  | .list [] => .error .emptyDivision
  | .list items =>
      match items.mapM grid? with
      | some grids => do .ok ((← beside grids).rows.map (List.map .one))
      | none => .ok [items]
  | .grid rows => if rows.entries.isEmpty then .ok [] else .ok [[.grid rows]]
  | _ => .error .badValue

def rowsFrom (width : Option Nat) : List (Entries K) → Except Failure (List (List (Entries K)))
  | [] => .ok []
  | item :: rest => do
      let rows ← rowsOf item
      let found := width.or (rows.head?.map List.length)
      if rows.any (fun row => some row.length ≠ found) then .error .badValue
      else .ok (rows ++ (← rowsFrom found rest))

def gridOf (items : List (Entries K)) : Except Failure (Grid (Entries K)) :=
  if items.all (fun e => !e.isSequence) then .ok (.ofColumn items)
  else
    match items.mapM grid? with
    | some grids => (stack grids).map (Grid.map .one)
    | none =>
        if items.all (fun e => e.shape = [0]) then .ok (.ofRows (items.map (fun _ => [])))
        else if items.head?.any (fun e => e.shape = [0]) then .error .badValue
        else (rowsFrom none items).map .ofRows

/-- The grid that entries make; a single expression makes none. -/
def toGrid : Entries K → Except Failure (Grid (Entries K))
  | .grid rows => .ok (rows.map .one)
  | .list items => gridOf items
  | _ => .error .wrongType

def ofRows (rows : List (List (Expression K))) : Except Failure (Entries K) := do
  let grid ← gridOf (rows.map (fun row => .list (row.map .one)))
  .ok (.grid (← grid.mapM (expressionOr .wrongType)))

def toColumn (e : Entries K) : Except Failure (Grid (Entries K)) := gridOf e.parts

end Entries

end HybridRelaxation
