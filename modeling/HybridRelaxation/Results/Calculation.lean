import HybridRelaxation.Expression.Basic
import HybridRelaxation.Failure
import HybridRelaxation.Number.ComplexValue
import HybridRelaxation.Number.FloatFunction
import HybridRelaxation.Number.Mixed

/-!
# Calculations with values of symbols

An expression is calculated in four-byte arithmetic, one rounding for each operation. Numbers that
meet only numbers stay what they are, integers or eight-byte numbers, until they meet the value of
a symbol or a function; an integer that then does not fit four bytes is an overflow. A symbol
without a value fails where it meets a value. Of a root of a negative number only the real part is
kept.
-/

namespace HybridRelaxation

inductive Calculated where
  | whole (value : Int)
  | double (value : FloatValue)
  | single (value : FloatValue)
  | unknown
  deriving DecidableEq

namespace Calculated

/-! ## Four-byte values -/

/-- Integers from this one on do not fit four bytes. -/
def wholeBound : Int := 2147483648

def toSingle : Calculated → Except Failure FloatValue
  | .whole n =>
      if -wholeBound ≤ n ∧ n < wholeBound then .ok (.ofRat .single n) else .error .tooLarge
  | .double x => .ok (x.convert .single)
  | .single x => .ok x
  | .unknown => .error .unknownValue

def toDouble : Calculated → FloatValue
  | .whole n => .ofRat .double n
  | .double x => x
  | .single x => x
  | .unknown => .undefined

def ofNumber (c : Number) : Calculated :=
  match c with
  | .exact q => if q.den = 1 then .whole q.num else .double (.ofRat .double q)
  | c => .double c.toDouble

/-! ## Operations -/

/-- An operation with one rounding; on integers it may have an exact result. -/
def combine (onIntegers : Int → Int → Option Int)
    (rounded : FloatFormat → FloatValue → FloatValue → FloatValue) (a b : Calculated) :
    Except Failure Calculated :=
  match a, b with
  | .unknown, .single _ => .error .unknownValue
  | .single _, .unknown => .error .unknownValue
  | .unknown, _ => .ok .unknown
  | _, .unknown => .ok .unknown
  | .single x, b => do .ok (.single (rounded .single x (← b.toSingle)))
  | a, .single y => do .ok (.single (rounded .single (← a.toSingle) y))
  | .whole m, .whole n =>
      match onIntegers m n with
      | some k => .ok (.whole k)
      | none => .ok (.double (rounded .double (.ofRat .double m) (.ofRat .double n)))
  | a, b => .ok (.double (rounded .double a.toDouble b.toDouble))

def add : Calculated → Calculated → Except Failure Calculated :=
  combine (fun m n => some (m + n)) FloatValue.add

def mul : Calculated → Calculated → Except Failure Calculated :=
  combine (fun m n => some (m * n)) FloatValue.mul

def div : Calculated → Calculated → Except Failure Calculated :=
  combine (fun _ _ => none) FloatValue.div

def power : Calculated → Calculated → Except Failure Calculated :=
  combine (fun m n => if n < 0 then none else some (Int.pow m n.toNat)) FloatValue.power

def natPower (a : Calculated) (n : Nat) : Calculated :=
  match a with
  | .whole m => .whole (Int.pow m n)
  | .double x => .double (x.natPower .double n)
  | .single x => .single (x.natPower .single n)
  | .unknown => .unknown

def image (f : FloatValue → FloatValue) (a : Calculated) : Except Failure Calculated :=
  match a with
  | .unknown => .error .wrongType
  | a => do .ok (.single (f (← a.toSingle)))

def abs : Calculated → Calculated
  | .whole n => .whole n.natAbs
  | .double x => .double x.abs
  | .single x => .single x.abs
  | .unknown => .unknown

def apply (f : UnaryFunction) (a : Calculated) : Except Failure Calculated :=
  match f with
  | .abs => .ok a.abs
  | .sin => a.image (FloatValue.sin .single)
  | .cos => a.image (FloatValue.cos .single)
  | .log => a.image (FloatValue.log .single)
  | .sign => a.image FloatValue.signum
  | .sinh => a.image (FloatValue.hyperbolic .single true)
  | .cosh => a.image (FloatValue.hyperbolic .single false)

def product : List Calculated → Except Failure Calculated
  | [] => .ok (.whole 1)
  | a :: rest => rest.foldlM mul a

end Calculated

/-! ## Expressions -/

structure Quotient where
  above : List Calculated
  below : List Calculated

abbrev Point := List (Symbol × FloatValue)

def Point.value (point : Point) (s : Symbol) : Calculated :=
  match point.find? (fun entry => entry.1 = s) with
  | some (_, x) => .single x
  | none => .unknown

namespace Quotient

def withAbove (q : Quotient) (a : Calculated) : Quotient := { q with above := a :: q.above }

def withBelow (q : Quotient) (a : Calculated) : Quotient := { q with below := a :: q.below }

def withIntPower (q : Quotient) (a : Calculated) (n : Int) : Quotient :=
  if n < 0 then q.withBelow (a.natPower n.natAbs) else q.withAbove (a.natPower n.natAbs)

def withRoot (q : Quotient) (a : Calculated) (exponent : Rat) : Except Failure Quotient := do
  let root ←
    if exponent.abs = 1 / 2 then a.image (FloatValue.sqrt .single)
    else a.power (.double (.ofRat .double exponent.abs))
  .ok (if exponent < 0 then q.withBelow root else q.withAbove root)

def value (c : Number) (q : Quotient) : Except Failure Calculated := do
  let coefficient := if c = .exact 1 then [] else [Calculated.ofNumber c]
  let above ← Calculated.product (coefficient ++ q.above)
  match q.below with
  | [] => .ok above
  | below => above.div (← Calculated.product below)

end Quotient

/-- The real part of a root, if it is one of a negative number. -/
def rootOfNegative? (b : Base Number) (exponent : Rat) : Option Calculated :=
  match b with
  | .number (.exact q) =>
      if q < 0 then some (.double (.ofRat .double (ComplexValue.power ⟨q, 0⟩ ⟨exponent, 0⟩).real))
      else none
  | _ => none

mutual

def Expression.calculate (point : Point) : Expression Number → Except Failure Calculated
  | .zero => .ok (.whole 0)
  | .plus c p .zero => do (← p.quotient point).value c
  | .plus c p e => do
      let term ← (← p.quotient point).value c
      term.add (← e.calculate point)

def Product.quotient (point : Point) : Product Number → Except Failure Quotient
  | .one => .ok ⟨[], []⟩
  | .times (.constant .euler) (.integer n) p => do
      let q ← p.quotient point
      if n = 1 then .ok (q.withAbove (.double (.ofRat .double Elementary.euler)))
      else do .ok (q.withAbove (← (Calculated.whole n).image (FloatValue.exp .single)))
  | .times (.constant .euler) (.multiple c direction) p => do
      let q ← p.quotient point
      let exponent ← (Calculated.ofNumber c).mul (← direction.calculate point)
      .ok (q.withAbove (← exponent.image (FloatValue.exp .single)))
  | .times b (.integer n) p => do
      let q ← p.quotient point
      .ok (q.withIntPower (← b.calculate point) n)
  | .times b (.multiple c direction) p => do
      let q ← p.quotient point
      let base ← b.calculate point
      match direction, c with
      | .plus _ .one .zero, .exact exponent =>
          match rootOfNegative? b exponent with
          | some root => .ok (q.withAbove root)
          | none => q.withRoot base exponent
      | direction, c => do
          let exponent ← (Calculated.ofNumber c).mul (← direction.calculate point)
          .ok (q.withAbove (← base.power exponent))

def Base.calculate (point : Point) : Base Number → Except Failure Calculated
  | .symbol s => .ok (point.value s)
  | .constant .pi => .ok (.double (.ofRat .double Elementary.pi))
  | .constant .euler => .ok (.double (.ofRat .double Elementary.euler))
  | .number c => .ok (.ofNumber c)
  | .apply f e => do (← e.calculate point).apply f
  | .group e => e.calculate point

end

def Expression.valueAt (e : Expression Number) (point : Point) : Except Failure FloatValue := do
  let value ← (← e.calculate point).toSingle
  .ok (.add .single value (.finite false 0))

end HybridRelaxation
