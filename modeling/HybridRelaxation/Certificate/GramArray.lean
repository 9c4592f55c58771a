import HybridRelaxation.Certificate.GramMatrix
import HybridRelaxation.NumberArray

/-!
# Gram matrices given as arrays

An array of any number of dimensions may be given for a Gram matrix. Its symmetric part is the mean
of the array and the array with its dimensions reversed, where a dimension of length one is as long
as its partner. Each slice along the last two dimensions is a matrix, read from its lower triangle,
and the smallest of all eigenvalues counts.
-/

namespace HybridRelaxation

variable {K : Type} [Scalar K]

namespace GramArray

/-! ## Symmetric parts -/

def commonShape : List Nat → List Nat → Option (List Nat)
  | [], [] => some []
  | m :: shape, n :: other =>
      if m = n ∨ n = 1 then (commonShape shape other).map (m :: ·)
      else if m = 1 then (commonShape shape other).map (n :: ·)
      else none
  | _, _ => none

def spreadEntry (a : NumberArray K) (index : List Nat) : K :=
  (a.entry? (List.zipWith (fun i length => if length = 1 then 0 else i) index a.shape)).getD 0

def symmetricPart (a : NumberArray K) : Except Failure (NumberArray K) :=
  match commonShape a.shape a.shape.reverse with
  | some shape =>
      .ok ⟨shape, (NumberArray.positions shape).map (fun index =>
        GramMatrix.mean (spreadEntry a index) (spreadEntry a index.reverse))⟩
  | none => .error .badValue

/-! ## Eigenvalues -/

def ofLowerTriangle (rows : List (List K)) : List (List K) :=
  (List.range rows.length).map (fun i => (List.range rows.length).map (fun j =>
    ((rows[max i j]?).bind (fun row => row[min i j]?)).getD 0))

def slices (a : NumberArray K) : Except Failure (List (List (List K))) :=
  match a.shape.reverse with
  | width :: height :: outer =>
      if width = height then
        let matrices := NumberArray.pieces (height * width) (outer.foldl (· * ·) 1) a.values
        .ok (matrices.map (NumberArray.pieces width height))
      else .error .notSquare
  | _ => .error .notSquare

def smallerDefined (a b : K) : K :=
  if Scalar.isUndefined a then a else if Scalar.isUndefined b then b
  else if Scalar.less b a then b else a

/-- The smallest eigenvalue of the symmetric part; an array without entries has none. -/
def minEigenvalue (a : NumberArray K) : Except Failure K := do
  let matrices ← slices (← symmetricPart a)
  let nonempty := matrices.filter (fun rows => !rows.isEmpty)
  match nonempty.map (fun rows => GramMatrix.smallestEigenvalue (ofLowerTriangle rows)) with
  | [] => .error .badValue
  | c :: rest => .ok (rest.foldl smallerDefined c)

def minEigenvalues (arrays : List (NumberArray K)) : Except Failure (List K) :=
  arrays.mapM minEigenvalue

/-! ## Matrices -/

/-- The matrix that an array is; a flat one is a column. -/
def toGrid (a : NumberArray K) : Except Failure (Grid K) :=
  match a.shape with
  | [height, width] => .ok ⟨width, NumberArray.pieces width height a.values⟩
  | [_] => .ok ⟨1, a.values.map (fun c => [c])⟩
  | _ => .error .unsupportedShape

def ofGrid (g : Grid K) : NumberArray K := ⟨[g.height, g.width], g.entries⟩

end GramArray

end HybridRelaxation
