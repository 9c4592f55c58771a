import HybridRelaxation.Expression.Product
import HybridRelaxation.Number.ComplexValue

/-!
# Values of constant expressions

An expression without symbols has a value, a complex number, unless a part of it is infinite or has
no value. Powers and logarithms take their principal values.
-/

namespace HybridRelaxation

variable {K : Type} [Scalar K]

namespace ComplexValue

def raise? (z w : ComplexValue) : Option ComplexValue :=
  if z.isZero && !w.isZero && w.real ≤ 0 then none else some (z.power w)

def image? (f : UnaryFunction) (z : ComplexValue) : Option ComplexValue :=
  match f with
  | .sin => some z.sin
  | .cos => some z.cos
  | .sinh => some z.sinh
  | .cosh => some z.cosh
  | .abs => some ⟨roundPart z.abs, 0⟩
  | .log => if z.isZero then none else some z.log
  | .sign =>
      if z.isZero then some z else some (z.mul ⟨roundPart z.abs⁻¹, 0⟩)

end ComplexValue

def Constant.value : Constant → ComplexValue
  | .pi => .ofRat Elementary.pi
  | .euler => .ofRat Elementary.euler

def Scalar.value? (c : K) : Option ComplexValue := (Scalar.finite? c).map ComplexValue.ofRat

mutual

def Expression.value? : Expression K → Option ComplexValue
  | .zero => some ⟨0, 0⟩
  | .plus c p e => do
      let scale ← Scalar.value? c
      let product ← p.value?
      let rest ← e.value?
      some ((scale.mul product).add rest)

def Product.value? : Product K → Option ComplexValue
  | .one => some ⟨1, 0⟩
  | .times b e p => do
      let base ← b.value?
      let exponent ← e.value?
      let power ← base.raise? exponent
      let rest ← p.value?
      some (power.mul rest)

def Base.value? : Base K → Option ComplexValue
  | .symbol _ => none
  | .constant c => some c.value
  | .number c => Scalar.value? c
  | .apply f e => e.value?.bind (ComplexValue.image? f)
  | .group e => e.value?

def Exponent.value? : Exponent K → Option ComplexValue
  | .integer n => some (.ofRat n)
  | .multiple c e => do
      let scale ← Scalar.value? c
      let direction ← e.value?
      some (scale.mul direction)

end

namespace Expression

def realValue? (e : Expression K) : Option Rat :=
  match e.value? with
  | some z => if z.isReal then some z.real else none
  | none => none

end Expression

end HybridRelaxation
