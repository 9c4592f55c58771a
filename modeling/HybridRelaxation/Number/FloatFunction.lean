import HybridRelaxation.Number.Elementary
import HybridRelaxation.Number.FloatValue

/-!
# Functions of floating-point values

Quotients, powers and elementary functions of floating-point values. A finite result is computed
far more finely than the format and rounded once. At infinities, at zeros and outside of its domain
a function has its limit where it has one and is undefined otherwise.
-/

namespace HybridRelaxation

namespace FloatValue

def one : FloatValue := .finite false 1

/-! ## Quotients -/

def div (format : FloatFormat) : FloatValue → FloatValue → FloatValue
  | .undefined, _ => .undefined
  | _, .undefined => .undefined
  | .infinite _, .infinite _ => .undefined
  | .infinite a, .finite b _ => .infinite (a != b)
  | .finite a _, .infinite b => .finite (a != b) 0
  | .finite a x, .finite b y =>
      if y = 0 then (if x = 0 then .undefined else .infinite (a != b))
      else round format (a != b) (x / y)

/-! ## Powers -/

def squaringPower (format : FloatFormat) : Nat → Nat → FloatValue → Option FloatValue → FloatValue
  | 0, _, _, collected => collected.getD one
  | fuel + 1, n, x, collected =>
      if n = 0 then collected.getD one
      else
        let collected := if n % 2 = 1 then some ((collected.map (mul format · x)).getD x) else collected
        if n = 1 then collected.getD one
        else squaringPower format fuel (n / 2) (mul format x x) collected

def natPower (format : FloatFormat) (x : FloatValue) (n : Nat) : FloatValue :=
  squaringPower format (n.log2 + 1) n x none

def intPower (format : FloatFormat) (x : FloatValue) (n : Int) : FloatValue :=
  if n < 0 then div format one (natPower format x n.natAbs) else natPower format x n.natAbs

def magnitudePower (base exponent : Rat) : Rat :=
  if exponent.den = 1 ∧ exponent.num.natAbs < 1000 then Rat.zpow base exponent.num
  else Elementary.power base exponent

def isOdd (q : Rat) : Bool := q.den = 1 && q.num % 2 = 1

/-- A power of a number to an infinite exponent: by whether its size is above or below one. -/
def powerToInfinity (negative : Bool) (size : Rat) : FloatValue :=
  if size = 1 then one
  else if (1 < size) = !negative then .infinite false
  else .finite false 0

def finitePower (format : FloatFormat) (x : FloatValue) (exponent : Rat) : FloatValue :=
  match x with
  | .undefined => .undefined
  | .infinite negative =>
      let negative := negative && isOdd exponent
      if exponent < 0 then .finite negative 0 else .infinite negative
  | .finite negative magnitude =>
      if magnitude = 0 then
        if exponent < 0 then .infinite (negative && isOdd exponent)
        else .finite (negative && isOdd exponent) 0
      else if negative && exponent.den ≠ 1 then .undefined
      else round format (negative && isOdd exponent) (magnitudePower magnitude exponent)

/-- The power with any exponent. One to any power and any power to zero are one. -/
def power (format : FloatFormat) (x exponent : FloatValue) : FloatValue :=
  match exponent with
  | .finite negative size =>
      if size = 0 ∨ x = one then one
      else finitePower format x (if negative then -size else size)
  | .infinite negative =>
      match x with
      | .finite _ magnitude => powerToInfinity negative magnitude
      | .infinite _ => powerToInfinity negative 2
      | .undefined => .undefined
  | .undefined => if x = one then one else .undefined

/-! ## Elementary functions -/

def sqrt (format : FloatFormat) : FloatValue → FloatValue
  | .finite negative magnitude =>
      if magnitude = 0 then .finite negative 0
      else if negative then .undefined
      else round format false (Elementary.sqrt magnitude)
  | .infinite false => .infinite false
  | _ => .undefined

def log (format : FloatFormat) : FloatValue → FloatValue
  | .finite negative magnitude =>
      if magnitude = 0 then .infinite true
      else if negative then .undefined
      else ofRat format (Elementary.log magnitude)
  | .infinite false => .infinite false
  | _ => .undefined

def largestExponent : Rat := 1000

def exp (format : FloatFormat) (x : FloatValue) : FloatValue :=
  match x with
  | .undefined => .undefined
  | .infinite negative => if negative then .finite false 0 else .infinite false
  | .finite negative magnitude =>
      if largestExponent < magnitude then (if negative then .finite false 0 else .infinite false)
      else round format false (Elementary.exp (if negative then -magnitude else magnitude))

def applyReal (format : FloatFormat) (f : Rat → Rat) (x : FloatValue) : FloatValue :=
  match x.toRat? with
  | some q => ofRat format (f q)
  | none => .undefined

def sin (format : FloatFormat) (x : FloatValue) : FloatValue := x.applyReal format Elementary.sin

def cos (format : FloatFormat) (x : FloatValue) : FloatValue := x.applyReal format Elementary.cos

def hyperbolic (format : FloatFormat) (odd : Bool) (x : FloatValue) : FloatValue :=
  match x with
  | .undefined => .undefined
  | .infinite negative => .infinite (odd && negative)
  | .finite negative magnitude =>
      if magnitude = 0 then (if odd then x else one)
      else if largestExponent < magnitude then .infinite (odd && negative)
      else
        let up := Elementary.exp magnitude
        if odd then round format negative ((up - 1 / up) / 2)
        else round format false ((up + 1 / up) / 2)

def signum (x : FloatValue) : FloatValue :=
  match x with
  | .undefined => .undefined
  | .infinite negative => .finite negative 1
  | .finite negative magnitude => .finite negative (if magnitude = 0 then 0 else 1)

end FloatValue

end HybridRelaxation
