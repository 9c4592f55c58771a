/-!
# Rounding a rational to significant bits

A quotient is rounded to the nearest integer, a half to the even neighbour. Rounding a rational to
a number of significant bits scales it by a power of two, rounds, and scales back; a format may
also bound the size of the last place from below and the result from above.
-/

namespace HybridRelaxation

/-! ## Nearest integers -/

/-- The integer nearest to `numerator / denominator`; a half goes to the even neighbour. -/
def nearest (numerator denominator : Nat) : Nat :=
  let quotient := numerator / denominator
  let twice := 2 * (numerator % denominator)
  if twice < denominator then quotient
  else if denominator < twice then quotient + 1
  else quotient + quotient % 2

def scaled (base : Nat) (magnitude : Rat) (exponent : Int) : Nat × Nat :=
  (magnitude.num.natAbs * Nat.pow base exponent.toNat,
    magnitude.den * Nat.pow base (-exponent).toNat)

def nearestScaled (base : Nat) (magnitude : Rat) (exponent : Int) : Nat :=
  nearest (scaled base magnitude exponent).1 (scaled base magnitude exponent).2

def digitCount (base : Nat) (n : Nat) : Nat :=
  if n = 0 then 0 else if base = 2 then n.log2 + 1 else (Nat.toDigits base n).length

/--
The exponent of the leading digit of a positive rational: the largest `e` with
`base ^ e ≤ magnitude`. Digit counts give it up to one.
-/
def leadingExponent (base : Nat) (magnitude : Rat) : Int :=
  let estimate : Int :=
    (digitCount base magnitude.num.natAbs : Int) - (digitCount base magnitude.den : Int)
  let (numerator, denominator) := scaled base magnitude (-estimate)
  if denominator ≤ numerator then estimate else estimate - 1

/-! ## Formats -/

/--
A binary floating-point format: the number of significant bits, the exponent of the smallest last
place if there is one, and the exponent of the power of two from which results are infinite.
-/
structure FloatFormat where
  precision : Nat
  leastExponent : Option Int
  overflowExponent : Option Int
  deriving DecidableEq, Repr

namespace FloatFormat

def double : FloatFormat := ⟨53, some (-1074), some 1024⟩

def single : FloatFormat := ⟨24, some (-149), some 128⟩

def unbounded : FloatFormat := ⟨53, none, none⟩

def lastPlace (format : FloatFormat) (magnitude : Rat) : Int :=
  let natural := leadingExponent 2 magnitude - (format.precision : Int) + 1
  match format.leastExponent with
  | none => natural
  | some least => max natural least

def powerOfTwo (exponent : Int) : Rat :=
  if 0 ≤ exponent then ((Nat.pow 2 exponent.toNat : Nat) : Rat)
  else mkRat 1 (Nat.pow 2 (-exponent).toNat)

def roundMagnitude (format : FloatFormat) (magnitude : Rat) : Rat :=
  if magnitude = 0 then 0
  else
    let place := format.lastPlace magnitude
    (nearestScaled 2 magnitude (-place) : Rat) * powerOfTwo place

def overflows (format : FloatFormat) (magnitude : Rat) : Bool :=
  match format.overflowExponent with
  | none => false
  | some bound => powerOfTwo bound ≤ magnitude

end FloatFormat

end HybridRelaxation
