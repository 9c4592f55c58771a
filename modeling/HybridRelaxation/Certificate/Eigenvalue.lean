/-!
# Smallest eigenvalues

The smallest eigenvalue of a symmetric matrix of rationals is found exactly up to a fixed number of
binary places. All roots of the characteristic polynomial are real, so the number of roots below a
point is the number of sign changes of the polynomial shifted to that point and reflected. The
matrix is scaled to integers first; the search then is over integers, and an integer that is
itself the smallest root is returned as it is. So the sign of the result is always right.
-/

namespace HybridRelaxation

namespace Eigenvalue

/-! ## Characteristic polynomials of integer matrices -/

def dot (xs ys : List Int) : Int := (List.zipWith (· * ·) xs ys).foldl (· + ·) 0

def transpose (rows : List (List Int)) : List (List Int) :=
  match rows with
  | [] => []
  | row :: _ => (List.range row.length).map (fun j => rows.filterMap (fun r => r[j]?))

def times (a b : List (List Int)) : List (List Int) :=
  let columns := transpose b
  a.map (fun row => columns.map (dot row))

def trace (a : List (List Int)) : Int :=
  (a.zipIdx.filterMap (fun (row, i) => row[i]?)).foldl (· + ·) 0

def addDiagonal (c : Int) (a : List (List Int)) : List (List Int) :=
  a.zipIdx.map (fun (row, i) => row.zipIdx.map (fun (x, j) => if i = j then x + c else x))

def coefficientsFrom (a partialProduct : List (List Int)) : Nat → Nat → List Int
  | _, 0 => []
  | k, fuel + 1 =>
      let product := times a partialProduct
      let c := -(trace product) / (k : Int)
      c :: coefficientsFrom a (addDiagonal c product) (k + 1) fuel

def identity (size : Nat) : List (List Int) :=
  (List.range size).map (fun i => (List.range size).map (fun j => if i = j then 1 else 0))

def characteristic (a : List (List Int)) : List Int :=
  1 :: coefficientsFrom a (identity a.length) 1 a.length

/-! ## Counting roots -/

def stretch (c : Int) (p : List Int) : List Int :=
  p.zipIdx.map (fun (coefficient, k) => coefficient * Int.pow c k)

def divideAt (c : Int) (p : List Int) : List Int × Int :=
  let (values, _) := p.foldl (fun (values, last) coefficient =>
    let value := last * c + coefficient
    (value :: values, value)) (([], 0) : List Int × Int)
  match values with
  | [] => ([], 0)
  | remainder :: quotient => (quotient.reverse, remainder)

def shiftTo (c : Int) : Nat → List Int → List Int
  | 0, _ => []
  | fuel + 1, p =>
      let (quotient, remainder) := divideAt c p
      remainder :: shiftTo c fuel quotient

def signChanges (xs : List Int) : Nat :=
  let signs := xs.filter (· ≠ 0)
  (signs.zip signs.tail).countP (fun (x, y) => decide ((x < 0) ≠ (y < 0)))

def reflect (p : List Int) : List Int :=
  p.zipIdx.map (fun (coefficient, k) => if k % 2 = 1 then -coefficient else coefficient)

/-- A real-rooted polynomial has a root below a point. -/
def hasRootBelow (p : List Int) (c : Int) : Bool :=
  0 < signChanges (reflect (shiftTo c p.length p))

/-! ## Searching -/

/-- The largest integer with no root below it, between one with none and one with some. -/
def searchRoot (p : List Int) (low high : Int) : Nat → Int
  | 0 => low
  | fuel + 1 =>
      if high - low ≤ 1 then low
      else
        let middle := (low + high) / 2
        if hasRootBelow p middle then searchRoot p low middle fuel
        else searchRoot p middle high fuel

def bound (a : List (List Int)) : Int :=
  ((a.map (fun row => (row.map Int.natAbs).foldl (· + ·) 0)).foldl max 0 : Nat)

def places : Nat := 64

def unit : Int := Int.pow 2 places

def smallestOfIntegers (a : List (List Int)) : Rat :=
  let p := stretch unit (characteristic a)
  let limit := bound a * unit + 1
  let low := searchRoot p (-limit) limit (Nat.log2 limit.natAbs + 3)
  let scaled : Rat := if (divideAt low p).2 = 0 then low else low + 1 / 2
  scaled / unit

def smallest (a : List (List Rat)) : Rat :=
  let denominator := (a.flatten.map Rat.den).foldl Nat.lcm 1
  smallestOfIntegers (a.map (fun row => row.map (fun q => (q * (denominator : Rat)).num))) / denominator

end Eigenvalue

end HybridRelaxation
