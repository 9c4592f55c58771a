/-!
# Scalars

The coefficients of expressions, Gram matrices and solver data. A scalar type contains the
rationals as exact numbers and as measured numbers, the latter rounded if the type rounds, and says
of each element which kind of number it is. Rationals themselves are the scalar type in which
nothing is rounded and every number is exact.
-/

namespace HybridRelaxation

inductive NumberKind where
  | exact (value : Rat)
  | measured (value : Rat)
  | infinite (negative : Bool)
  | unsignedInfinity
  | undefined
  deriving DecidableEq

class Scalar (K : Type) extends Zero K, One K, Add K, Mul K, Neg K where
  equality : DecidableEq K
  /-- An exact rational number. -/
  exact : Rat → K
  /-- The floating-point number nearest to a rational. -/
  measured : Rat → K
  /-- The number that is not finite, with a sign, or zero where there is none. -/
  infinity : Bool → K
  /-- The infinity of no direction, or zero where there is none. -/
  unsignedInfinity : K
  /-- The result of an operation that has no value, or zero where there is none. -/
  undefined : K
  kind : K → NumberKind
  /-- The quotient, rounded once. -/
  quotient : K → K → K
  /-- The integer power, rounded once. -/
  power : K → Int → K
  /-- The number as an eight-byte floating-point number. -/
  machine : K → K
  /-- The order of the finite numbers and of the infinities. -/
  less : K → K → Bool

namespace Scalar

variable {K : Type} [Scalar K]

instance : DecidableEq K := Scalar.equality

/-! ## Kinds -/

def exactValue? (c : K) : Option Rat :=
  match kind c with
  | .exact q => some q
  | _ => none

def measuredValue? (c : K) : Option Rat :=
  match kind c with
  | .measured q => some q
  | _ => none

def finite? (c : K) : Option Rat :=
  match kind c with
  | .exact q => some q
  | .measured q => some q
  | _ => none

def isZero (c : K) : Bool :=
  finite? c == some 0

def isUndefined (c : K) : Bool := kind c = .undefined

def isInfinite (c : K) : Bool :=
  match kind c with
  | .infinite _ => true
  | _ => false

def isMeasured (c : K) : Bool := (measuredValue? c).isSome

def integer? (c : K) : Option Int :=
  match exactValue? c with
  | some q => if q.den = 1 then some q.num else none
  | none => none

def ofInt (n : Int) : K := exact n

def toMeasured (c : K) : K :=
  match finite? c with
  | some q => measured q
  | none => c

/-! ## Arithmetic -/

def reciprocal (c : K) : K := power c (-1)

def isNegative (c : K) : Bool := less c 0

def isPositive (c : K) : Bool := less 0 c

def abs (c : K) : K := if less c 0 then -c else c

def sub (c d : K) : K := c + -d

def machineSum (cs : List K) : K :=
  cs.foldl (fun total c => machine (total + c)) (machine (measured 0))

end Scalar

/-! ## Exact arithmetic -/

/-- Rational arithmetic rounds nothing. -/
instance : Scalar Rat where
  toZero := Zero.ofOfNat0
  toOne := One.ofOfNat1
  toAdd := Rat.instAdd
  toMul := Rat.instMul
  toNeg := Rat.instNeg
  equality := instDecidableEqRat
  exact q := q
  measured q := q
  infinity _ := (0 : Rat)
  unsignedInfinity := (0 : Rat)
  undefined := (0 : Rat)
  kind := .exact
  quotient p q := p / q
  power := Rat.zpow
  machine q := q
  less := Rat.blt

namespace Scalar

@[simp] theorem exact_rat (q : Rat) : Scalar.exact (K := Rat) q = q := rfl

@[simp] theorem measured_rat (q : Rat) : Scalar.measured (K := Rat) q = q := rfl

@[simp] theorem machine_rat (q : Rat) : Scalar.machine q = q := rfl

@[simp] theorem kind_rat (q : Rat) : Scalar.kind q = .exact q := rfl

@[simp] theorem finite?_rat (q : Rat) : Scalar.finite? q = some q := rfl

@[simp] theorem isMeasured_rat (q : Rat) : Scalar.isMeasured q = false := rfl

@[simp] theorem isUndefined_rat (q : Rat) : Scalar.isUndefined q = false := rfl

@[simp] theorem isZero_rat (q : Rat) : Scalar.isZero q = decide (q = 0) := by
  by_cases h : q = 0 <;> simp [isZero, h]

@[simp] theorem toMeasured_rat (q : Rat) : Scalar.toMeasured q = q := rfl

end Scalar

end HybridRelaxation
