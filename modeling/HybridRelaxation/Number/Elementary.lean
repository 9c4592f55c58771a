import HybridRelaxation.Number.Rounding

/-!
# Elementary functions of rationals

Approximations of roots, exponentials, logarithms, sines, cosines and angles of rationals, and of
the two constants, by integer arithmetic on multiples of a power of two. The number of binary
places grows with the size of the argument, so that what is left after a reduction is still far
finer than the last place of a floating-point number.
-/

namespace HybridRelaxation.Elementary

/-! ## Fixed-point arithmetic -/

def places : Nat := 192

def unit (p : Nat) : Int := Int.pow 2 p

/-- The multiple of `2 ^ -p` just below a rational. -/
def fix (p : Nat) (q : Rat) : Int := (q * ((Nat.pow 2 p : Nat) : Rat)).floor

def unfix (p : Nat) (n : Int) : Rat := mkRat n (Nat.pow 2 p)

def times (p : Nat) (a b : Int) : Int := Int.fdiv (a * b) (unit p)

def series (step : Nat → Int → Int) : Nat → Nat → Int → Int
  | 0, _, _ => 0
  | count + 1, k, term => term + series step count (k + 1) (step k term)

def oddSeries (p : Nat) (square : Int) : Nat → Nat → Int → Int
  | 0, _, _ => 0
  | count + 1, k, term =>
      Int.fdiv term (2 * k + 1) + oddSeries p square count (k + 1) (times p term square)

def wholeBits (q : Rat) : Nat :=
  let whole := q.abs.floor.natAbs
  if whole = 0 then 0 else whole.log2 + 1

def leadingZeros (q : Rat) : Nat :=
  if q = 0 then 0 else (-(leadingExponent 2 q.abs)).toNat

/-! ## Roots -/

def rootBelow (n m : Nat) : Nat → Nat → Nat
  | 0, r => r
  | bits + 1, r =>
      let candidate := r + Nat.pow 2 bits
      rootBelow n m bits (if Nat.pow candidate n ≤ m then candidate else r)

def natRoot (n m : Nat) : Nat :=
  if n = 0 then 0 else if m.log2 < n then min m 1 else rootBelow n m (m.log2 / n + 1) 0

def exactRoot? (n m : Nat) : Option Nat :=
  if Nat.pow (natRoot n m) n = m then some (natRoot n m) else none

def sqrt (q : Rat) : Rat :=
  let p := places + leadingZeros q
  mkRat (natRoot 2 (q.num.natAbs * q.den * Nat.pow 2 (2 * p)) : Int) (q.den * Nat.pow 2 p)

/-! ## Logarithm and exponential -/

/-- Half the logarithm of `(1 + z) / (1 - z)`, for `z` of magnitude at most one third. -/
def areaTangent (p : Nat) (z : Int) : Int := oddSeries p (times p z z) (p / 3 + 8) 0 z

def logTwo (p : Nat) : Rat := unfix p (2 * areaTangent p (fix p (1 / 3)))

def log (q : Rat) : Rat :=
  let exponent : Int := (q.num.natAbs.log2 : Int) - (q.den.log2 : Int)
  let mantissa : Rat :=
    mkRat ((q.num.natAbs * Nat.pow 2 (-exponent).toNat : Nat) : Int) (q.den * Nat.pow 2 exponent.toNat)
  let p := places + leadingZeros (mantissa - 1) + exponent.natAbs.log2
  unfix p (2 * areaTangent p (fix p ((mantissa - 1) / (mantissa + 1)))) +
    (exponent : Rat) * logTwo p

def exponentBound : Int := 4000000

def exp (q : Rat) : Rat :=
  let two := logTwo (places + wholeBits q)
  let exponent := (q / two).floor
  let x := fix places (q - exponent * two)
  let small := unfix places
    (series (fun k term => Int.fdiv (times places term x) (k + 1)) (places / 4 + 12) 0 (unit places))
  small * FloatFormat.powerOfTwo (max (-exponentBound) (min exponentBound exponent))

def euler : Rat := exp 1

def power (base exponent : Rat) : Rat := exp (exponent * log base)

/-! ## Angles -/

def smallArcTangent (p : Nat) (z : Int) : Int := oddSeries p (-(times p z z)) (p / 4 + 8) 0 z

/-- The constant `pi`, as sixteen arc tangents of a fifth less four of one in 239. -/
def piTo (p : Nat) : Rat :=
  unfix p (16 * smallArcTangent p (fix p (1 / 5)) - 4 * smallArcTangent p (fix p (1 / 239)))

def pi : Rat := piTo places

def halfTangent (z : Rat) : Rat := z / (1 + sqrt (1 + z * z))

def lowArcTangent (z : Rat) : Rat :=
  let p := places + leadingZeros z
  let w := unfix p (fix p (halfTangent (unfix p (fix p (halfTangent z)))))
  4 * unfix p (smallArcTangent p (fix p w))

def arcTangent (z : Rat) : Rat :=
  if z.abs ≤ 1 then lowArcTangent z
  else if 0 < z then pi / 2 - lowArcTangent (1 / z)
  else -(pi / 2) - lowArcTangent (1 / z)

/-- The angle of a point of the plane other than the origin, above minus `pi` and at most `pi`. -/
def angle (x y : Rat) : Rat :=
  if x = 0 then (if 0 < y then pi / 2 else -(pi / 2))
  else if 0 < x then arcTangent (y / x)
  else if 0 ≤ y then arcTangent (y / x) + pi
  else arcTangent (y / x) - pi

/-! ## Trigonometric functions -/

def reduceTurn (q : Rat) : Rat :=
  let turn := 2 * piTo (places + wholeBits q)
  q - ((q / turn + 1 / 2).floor : Rat) * turn

def sin (q : Rat) : Rat :=
  let reduced := reduceTurn q
  let p := places + leadingZeros reduced
  let x := fix p reduced
  let square := times p x x
  unfix p (series (fun k term => Int.fdiv (-(times p term square)) ((2 * k + 2) * (2 * k + 3)))
    (p / 6 + 30) 0 x)

def cos (q : Rat) : Rat :=
  let x := fix places (reduceTurn q)
  let square := times places x x
  unfix places
    (series (fun k term => Int.fdiv (-(times places term square)) ((2 * k + 1) * (2 * k + 2)))
      (places / 6 + 30) 0 (unit places))

end HybridRelaxation.Elementary
