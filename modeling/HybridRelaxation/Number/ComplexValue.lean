import HybridRelaxation.Number.Elementary

/-!
# Approximate complex numbers

The value of a constant expression as a complex number whose two parts are rationals of bounded
size. Parts are kept to more bits than any result is written with, and what is left of a part that
cancelled counts as zero.
-/

namespace HybridRelaxation

structure ComplexValue where
  real : Rat
  imaginary : Rat
  deriving DecidableEq

namespace ComplexValue

instance : Inhabited ComplexValue := ⟨⟨0, 0⟩⟩

/-! ## Size of the parts -/

def format : FloatFormat := ⟨256, none, none⟩

def negligibleBits : Int := 160

def roundPart (q : Rat) : Rat :=
  if q.den ≤ 1 ∧ q.num.natAbs < Nat.pow 2 64 then q
  else if q < 0 then -(format.roundMagnitude q.abs) else format.roundMagnitude q.abs

/-- The part is so small beside the size that it is taken for an error of rounding. -/
def isNegligible (size part : Rat) : Bool :=
  part ≠ 0 && size ≠ 0 &&
    leadingExponent 2 part.abs + negligibleBits < leadingExponent 2 size.abs

def clean (size part : Rat) : Rat := if isNegligible size part then 0 else roundPart part

/-- A number whose parts are rounded, and zero where they are negligible beside a size. -/
def ofParts (size real imaginary : Rat) : ComplexValue := ⟨clean size real, clean size imaginary⟩

def ofRat (q : Rat) : ComplexValue := ⟨roundPart q, 0⟩

def isZero (z : ComplexValue) : Bool := z.real = 0 && z.imaginary = 0

def isReal (z : ComplexValue) : Bool := z.imaginary = 0

def larger (p q : Rat) : Rat := if p ≤ q then q else p

def size (z : ComplexValue) : Rat := larger z.real.abs z.imaginary.abs

/-! ## Arithmetic -/

def neg (z : ComplexValue) : ComplexValue := ⟨-z.real, -z.imaginary⟩

def add (z w : ComplexValue) : ComplexValue :=
  ⟨clean (larger z.real.abs w.real.abs) (z.real + w.real),
    clean (larger z.imaginary.abs w.imaginary.abs) (z.imaginary + w.imaginary)⟩

def mul (z w : ComplexValue) : ComplexValue :=
  ofParts (z.size * w.size) (z.real * w.real - z.imaginary * w.imaginary)
    (z.real * w.imaginary + z.imaginary * w.real)

def norm (z : ComplexValue) : Rat := z.real * z.real + z.imaginary * z.imaginary

def inverse (z : ComplexValue) : ComplexValue :=
  ⟨roundPart (z.real / z.norm), roundPart (-z.imaginary / z.norm)⟩

def natPower (z : ComplexValue) : Nat → ComplexValue
  | 0 => ⟨1, 0⟩
  | n + 1 =>
      let half := natPower z ((n + 1) / 2)
      let square := half.mul half
      if (n + 1) % 2 = 1 then square.mul z else square
decreasing_by exact Nat.div_lt_self (Nat.succ_pos n) (by decide)

def intPower (z : ComplexValue) (n : Int) : ComplexValue :=
  if n < 0 then (z.natPower n.natAbs).inverse else z.natPower n.natAbs

/-! ## Functions -/

def abs (z : ComplexValue) : Rat :=
  if z.imaginary = 0 then z.real.abs else Elementary.sqrt (roundPart z.norm)

def exp (z : ComplexValue) : ComplexValue :=
  let growth := Elementary.exp z.real
  if z.imaginary = 0 then ⟨roundPart growth, 0⟩
  else ofParts growth (growth * Elementary.cos z.imaginary) (growth * Elementary.sin z.imaginary)

def log (z : ComplexValue) : ComplexValue :=
  ⟨roundPart (if z.imaginary = 0 then Elementary.log z.real.abs else Elementary.log (roundPart z.norm) / 2),
    if z.imaginary = 0 then (if z.real < 0 then Elementary.pi else 0)
    else roundPart (Elementary.angle z.real z.imaginary)⟩

/-- The principal power; a power of zero is zero unless the exponent is zero. -/
def power (z w : ComplexValue) : ComplexValue :=
  if w.isZero then ⟨1, 0⟩
  else if z.isZero then z
  else if w.isReal && w.real.den = 1 && w.real.num.natAbs < 100000 then z.intPower w.real.num
  else if w.isReal && z.isReal && 0 < z.real then ⟨roundPart (Elementary.power z.real w.real), 0⟩
  else
    let raised := (z.log.mul w).exp
    if w.isReal && w.real.den = 2 && z.isReal then ⟨0, raised.imaginary⟩ else raised

def sin (z : ComplexValue) : ComplexValue :=
  if z.imaginary = 0 then ⟨roundPart (Elementary.sin z.real), 0⟩
  else
    let up := Elementary.exp z.imaginary
    let down := Elementary.exp (-z.imaginary)
    let size := (up + down) / 2
    ofParts size (Elementary.sin z.real * size) (Elementary.cos z.real * ((up - down) / 2))

def cos (z : ComplexValue) : ComplexValue :=
  if z.imaginary = 0 then ⟨roundPart (Elementary.cos z.real), 0⟩
  else
    let up := Elementary.exp z.imaginary
    let down := Elementary.exp (-z.imaginary)
    let size := (up + down) / 2
    ofParts size (Elementary.cos z.real * size) (-(Elementary.sin z.real) * ((up - down) / 2))

def sinh (z : ComplexValue) : ComplexValue :=
  let w := sin ⟨-z.imaginary, z.real⟩
  ⟨w.imaginary, -w.real⟩

def cosh (z : ComplexValue) : ComplexValue := cos ⟨-z.imaginary, z.real⟩

end ComplexValue

end HybridRelaxation
