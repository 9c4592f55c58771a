import HybridRelaxation.Number.Decimal
import HybridRelaxation.Number.Scalar

/-!
# Numbers with exact and rounded values

A number is an exact rational, a floating-point value of fifty-three significant bits with no limit
on the exponent, or the infinity of no direction. An exact operand meets a floating-point operand
as its nearest floating-point value. A floating-point result that is zero is the exact zero, so a
floating-point zero is only ever one that was stated.
-/

namespace HybridRelaxation

inductive Number where
  | exact (value : Rat)
  | float (value : FloatValue)
  | complexInfinity
  deriving DecidableEq

namespace Number

instance : Inhabited Number := ⟨.exact 0⟩

/-! ## Kinds -/

/-- A floating-point value as a number; zero loses its sign. -/
def ofFloatValue (x : FloatValue) : Number :=
  if x.isZero then .float (.finite false 0) else .float x

def ofResult (x : FloatValue) : Number :=
  if x.isZero then .exact 0 else .float x

def toFloatValue : Number → FloatValue
  | .exact q => .ofRat .unbounded q
  | .float x => x
  | .complexInfinity => .undefined

def toDouble (c : Number) : FloatValue := c.toFloatValue.convert .double

def finite? : Number → Option Rat
  | .exact q => some q
  | .float x => x.toRat?
  | .complexInfinity => none

def kind : Number → NumberKind
  | .exact q => .exact q
  | .float (.finite negative magnitude) => .measured (if negative then -magnitude else magnitude)
  | .float (.infinite negative) => .infinite negative
  | .float .undefined => .undefined
  | .complexInfinity => .unsignedInfinity

/-! ## Arithmetic -/

def add : Number → Number → Number
  | .exact p, .exact q => .exact (p + q)
  | .complexInfinity, d => if d.finite?.isSome then .complexInfinity else .float .undefined
  | c, .complexInfinity => if c.finite?.isSome then .complexInfinity else .float .undefined
  | c, d => ofResult (.add .unbounded c.toFloatValue d.toFloatValue)

def neg : Number → Number
  | .exact q => .exact (-q)
  | .float x => ofFloatValue x.neg
  | .complexInfinity => .complexInfinity

def mul (c d : Number) : Number :=
  match c, d with
  | .exact p, .exact q => .exact (p * q)
  | .complexInfinity, d =>
      if d.finite? = some 0 || d.toFloatValue.isUndefined then .float .undefined
      else .complexInfinity
  | c, .complexInfinity =>
      if c.finite? = some 0 || c.toFloatValue.isUndefined then .float .undefined
      else .complexInfinity
  | c, d => ofResult (.mul .unbounded c.toFloatValue d.toFloatValue)

def powerOfMagnitude (magnitude : Rat) (n : Nat) : Rat :=
  let size := digitCount 2 magnitude.num.natAbs + digitCount 2 magnitude.den
  if size * n ≤ 100000 then Rat.pow magnitude n
  else
    let format : FloatFormat := ⟨200 + 2 * n.log2, none, none⟩
    (Nat.toDigits 2 n).foldl (fun power digit =>
      let square := format.roundMagnitude (power * power)
      if digit = '1' then format.roundMagnitude (square * magnitude) else square) 1

def power (c : Number) (n : Int) : Number :=
  if n = 0 then .exact 1
  else
    match c with
    | .exact q => if q = 0 ∧ n < 0 then .complexInfinity else .exact (Rat.zpow q n)
    | .complexInfinity => if n < 0 then .exact 0 else .complexInfinity
    | .float .undefined => .float .undefined
    | .float (.infinite negative) =>
        if n < 0 then .exact 0 else .float (.infinite (negative && n % 2 = 1))
    | .float (.finite negative magnitude) =>
        if magnitude = 0 then (if n < 0 then .complexInfinity else c)
        else
          let size := powerOfMagnitude magnitude n.natAbs
          .float (.round .unbounded (negative && n % 2 = 1) (if n < 0 then size⁻¹ else size))

/--
The quotient. An exact number is divided by a floating-point number through the reciprocal, and a
nonzero number divided by zero is the infinity of no direction.
-/
def quotient (c d : Number) : Number :=
  match c, d with
  | .exact p, .exact q =>
      if q = 0 then (if p = 0 then .float .undefined else .complexInfinity) else .exact (p / q)
  | .float (.finite a x), d =>
      match d.finite? with
      | some q =>
          if q = 0 then mul c .complexInfinity
          else
            match d.toFloatValue with
            | .finite b y => ofResult (.round .unbounded (a != b) (x / y))
            | _ => .float .undefined
      | none => mul c (power d (-1))
  | c, d => mul c (power d (-1))

def less (c d : Number) : Bool :=
  match c, d with
  | .exact p, .exact q => p < q
  | .complexInfinity, _ => false
  | _, .complexInfinity => false
  | c, d => c.toFloatValue.lt d.toFloatValue

instance : Scalar Number where
  zero := .exact 0
  one := .exact 1
  add := add
  mul := mul
  neg := neg
  equality := inferInstance
  exact := .exact
  measured q := .float (.ofRat .unbounded q)
  infinity negative := .float (.infinite negative)
  unsignedInfinity := .complexInfinity
  undefined := .float .undefined
  kind := kind
  quotient := quotient
  power := power
  machine c := .float c.toDouble
  less := less

/-! ## Text -/

/-- A number in an answer, where an integer and a short binary fraction look alike. -/
def answer : Number → String
  | .exact q => rationalText q
  | .float x => x.answer
  | .complexInfinity => "zoo"

def coefficientText : Number → String
  | .float (.infinite false) => "oo"
  | .float (.infinite true) => "-oo"
  | c => c.answer

end Number

end HybridRelaxation
