import HybridRelaxation.Number.Rounding

/-!
# Floating-point values

A floating-point value is a signed magnitude, a signed infinity or undefined. Finite values are
exact rationals, so every operation computes exactly and rounds once into its format.
-/

namespace HybridRelaxation

inductive FloatValue where
  | finite (negative : Bool) (magnitude : Rat)
  | infinite (negative : Bool)
  | undefined
  deriving DecidableEq

namespace FloatValue

instance : Inhabited FloatValue := ⟨.finite false 0⟩

/-! ## Rounding into a format -/

def round (format : FloatFormat) (negative : Bool) (magnitude : Rat) : FloatValue :=
  let rounded := format.roundMagnitude magnitude
  if format.overflows rounded then .infinite negative else .finite negative rounded

/-- The value of the format nearest to a rational; zero is positive. -/
def ofRat (format : FloatFormat) (q : Rat) : FloatValue :=
  round format (q < 0) q.abs

def convert (format : FloatFormat) : FloatValue → FloatValue
  | .finite negative magnitude => round format negative magnitude
  | value => value

def ofInt (n : Int) : FloatValue := ofRat .double n

/-! ## Reading a value -/

def toRat? : FloatValue → Option Rat
  | .finite true magnitude => some (-magnitude)
  | .finite false magnitude => some magnitude
  | _ => none

def isZero : FloatValue → Bool
  | .finite _ magnitude => magnitude = 0
  | _ => false

def isUndefined : FloatValue → Bool
  | .undefined => true
  | _ => false

/-- The order of the real line with both infinities; nothing is below or above an undefined value. -/
def lt : FloatValue → FloatValue → Bool
  | .undefined, _ => false
  | _, .undefined => false
  | .infinite a, .infinite b => a && !b
  | .infinite a, .finite _ _ => a
  | .finite _ _, .infinite b => !b
  | .finite a x, .finite b y => (if a then -x else x) < (if b then -y else y)

/-! ## Arithmetic -/

def neg : FloatValue → FloatValue
  | .finite negative magnitude => .finite (!negative) magnitude
  | .infinite negative => .infinite (!negative)
  | .undefined => .undefined

def abs : FloatValue → FloatValue
  | .finite _ magnitude => .finite false magnitude
  | .infinite _ => .infinite false
  | .undefined => .undefined

/-- The exact sum, rounded once; a sum that cancels is a positive zero. -/
def add (format : FloatFormat) : FloatValue → FloatValue → FloatValue
  | .undefined, _ => .undefined
  | _, .undefined => .undefined
  | .infinite a, .infinite b => if a = b then .infinite a else .undefined
  | .infinite a, .finite _ _ => .infinite a
  | .finite _ _, .infinite b => .infinite b
  | .finite a x, .finite b y =>
      if a = b then round format a (x + y)
      else ofRat format ((if a then -x else x) + (if b then -y else y))

def mul (format : FloatFormat) : FloatValue → FloatValue → FloatValue
  | .undefined, _ => .undefined
  | _, .undefined => .undefined
  | .infinite a, .infinite b => .infinite (a != b)
  | .infinite a, .finite b y => if y = 0 then .undefined else .infinite (a != b)
  | .finite a x, .infinite b => if x = 0 then .undefined else .infinite (a != b)
  | .finite a x, .finite b y => round format (a != b) (x * y)

def sub (format : FloatFormat) (x y : FloatValue) : FloatValue := add format x y.neg

@[simp] theorem neg_neg (x : FloatValue) : x.neg.neg = x := by
  cases x <;> simp [neg]

@[simp] theorem lt_irrefl (x : FloatValue) : x.lt x = false := by
  cases x <;> simp [lt]

end FloatValue

end HybridRelaxation
