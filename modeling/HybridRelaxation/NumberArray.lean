import HybridRelaxation.Datum

/-!
# Arrays of numbers

Nested lists of numbers in which all lists of one depth have the same length, kept as their shape
and their numbers in order. A single number has the empty shape. Texts are read as numbers, and an
absent number is undefined.
-/

namespace HybridRelaxation

/-- A floating-point value as a scalar; a zero has no sign. -/
def FloatValue.toScalar {K : Type} [Scalar K] : FloatValue → K
  | .finite negative magnitude => Scalar.measured (if negative then -magnitude else magnitude)
  | .infinite negative => Scalar.infinity negative
  | .undefined => Scalar.undefined

def readFraction? {K : Type} [Scalar K] (text : String) : Option K :=
  match text.splitOn "/" with
  | [whole] => (readInteger? whole.toList).map Scalar.ofInt
  | [above, below] => do
      let n ← readInteger? above.toList
      let d ← readInteger? below.toList
      pure (Scalar.quotient (Scalar.ofInt n) (Scalar.ofInt d))
  | _ => none

structure NumberArray (α : Type) where
  shape : List Nat
  values : List α
  deriving DecidableEq

namespace NumberArray

variable {α β : Type}

def map (f : α → β) (a : NumberArray α) : NumberArray β := ⟨a.shape, a.values.map f⟩

def entry? (a : NumberArray α) (index : List Nat) : Option α :=
  a.values[(index.zip a.shape).foldl (fun found (i, length) => found * length + i) 0]?

def positions : List Nat → List (List Nat)
  | [] => [[]]
  | length :: rest => (List.range length).flatMap (fun i => (positions rest).map (i :: ·))

/-! ## From data -/

mutual

/-- The shape of nested lists, if the lists of each depth have one length. -/
def shape? : Datum → Option (List Nat)
  | .list items =>
      match shapes? items with
      | some [] => some [0]
      | some (s :: rest) => if rest.all (· = s) then some ((rest.length + 1) :: s) else none
      | none => none
  | _ => some []

def shapes? : List Datum → Option (List (List Nat))
  | [] => some []
  | d :: rest =>
      match shape? d, shapes? rest with
      | some s, some others => some (s :: others)
      | _, _ => none

end

def ofDatum (d : Datum) : Except Failure (NumberArray FloatValue) :=
  match shape? d with
  | some shape => d.floats.map (fun values => ⟨shape, values⟩)
  | none => .error .badValue

mutual

def hasAbsent : Datum → Bool
  | .none => true
  | .list items => anyAbsent items
  | .table entries => anyEntryAbsent entries
  | _ => false

def anyAbsent : List Datum → Bool
  | [] => false
  | d :: rest => hasAbsent d || anyAbsent rest

def anyEntryAbsent : List (String × Datum) → Bool
  | [] => false
  | (_, d) :: rest => hasAbsent d || anyEntryAbsent rest

end

def ofPresent (d : Datum) : Except Failure (NumberArray FloatValue) :=
  if hasAbsent d then .error .badValue else ofDatum d

/-! ## Parts -/

def pieces (length : Nat) : Nat → List α → List (List α)
  | 0, _ => []
  | count + 1, xs => xs.take length :: pieces length count (xs.drop length)

def negativePositions (a : NumberArray FloatValue) : List Nat :=
  a.values.zipIdx.filterMap (fun (x, k) => if x.lt (.ofInt 0) then some k else none)

end NumberArray

end HybridRelaxation
