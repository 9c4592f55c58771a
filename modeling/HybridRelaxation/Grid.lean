/-!
# Grids

A grid is a rectangular array with a fixed width, kept even where there are no rows.
-/

namespace HybridRelaxation

structure Grid (α : Type) where
  width : Nat
  rows : List (List α)
  deriving DecidableEq

namespace Grid

variable {α β : Type}

def height (g : Grid α) : Nat := g.rows.length

def entry? (g : Grid α) (i j : Nat) : Option α := do
  let row ← g.rows[i]?
  row[j]?

def entries (g : Grid α) : List α := g.rows.flatten

def map (f : α → β) (g : Grid α) : Grid β := ⟨g.width, g.rows.map (List.map f)⟩

def ofRow (xs : List α) : Grid α := ⟨xs.length, [xs]⟩

/-- A column; with no entries it has no width either. -/
def ofColumn (xs : List α) : Grid α :=
  match xs with
  | [] => ⟨0, []⟩
  | xs => ⟨1, xs.map (fun x => [x])⟩

def ofRows (rows : List (List α)) : Grid α := ⟨(rows.head?.map List.length).getD 0, rows⟩

def filled (height width : Nat) (x : α) : Grid α :=
  ⟨width, List.replicate height (List.replicate width x)⟩

def columns (g : Grid α) : List (List α) :=
  (List.range g.width).map (fun j => g.rows.filterMap (fun row => row[j]?))

def transpose (g : Grid α) : Grid α := ⟨g.height, g.columns⟩

def mapM {ε : Type} (f : α → Except ε β) (g : Grid α) : Except ε (Grid β) := do
  .ok ⟨g.width, ← g.rows.mapM (fun row => row.mapM f)⟩

@[simp] theorem height_map (f : α → β) (g : Grid α) : (g.map f).height = g.height := by
  simp [height, map]

@[simp] theorem width_map (f : α → β) (g : Grid α) : (g.map f).width = g.width := rfl

@[simp] theorem height_filled (h w : Nat) (x : α) : (filled h w x).height = h := by
  simp [height, filled]

@[simp] theorem width_filled (h w : Nat) (x : α) : (filled h w x).width = w := rfl

@[simp] theorem height_ofColumn (xs : List α) : (ofColumn xs).height = xs.length := by
  cases xs <;> simp [ofColumn, height]

end Grid

end HybridRelaxation
