import HybridRelaxation.Number.Scalar

/-!
# Expressions

A symbol is an indeterminate, known by its name, or a decision symbol, an unknown coefficient
known by its position among the coefficients of a program. A decision symbol also has a label, and
never equals an indeterminate.

An expression is a sum of terms, each a coefficient and a product of powers. The base of a power is
a symbol, a constant, a number, a function of an expression, or a sum that has not been multiplied
out. Sums hold no product twice and products combine the powers of one base, so that equal
expressions built in different ways are usually the same value; terms and factors stand in one
fixed order.
-/

namespace HybridRelaxation

inductive Symbol where
  | named (name : String)
  | decision (position : Nat) (label : String)
  deriving DecidableEq, Repr

namespace Symbol

def order : Symbol → Symbol → Ordering
  | .named a, .named b => compare a b
  | .named _, .decision _ _ => .lt
  | .decision _ _, .named _ => .gt
  | .decision i a, .decision j b => (compare i j).then (compare a b)

def text : Symbol → String
  | .named name => name
  | .decision _ label => label

def isNamed : Symbol → Bool
  | .named _ => true
  | .decision _ _ => false

@[simp] theorem order_self (s : Symbol) : s.order s = .eq := by
  cases s <;> simp [order]

theorem eq_of_order_eq {s t : Symbol} (h : s.order t = .eq) : s = t := by
  cases s <;> cases t <;> simp_all [order, Ordering.then_eq_eq]

end Symbol

inductive Constant where
  | pi
  | euler
  deriving DecidableEq, Repr

inductive UnaryFunction where
  | sin
  | cos
  | log
  | abs
  | sign
  | sinh
  | cosh
  deriving DecidableEq, Repr

mutual

/-- A sum of coefficients times products. -/
inductive Expression (K : Type) where
  | zero
  | plus (coefficient : K) (product : Product K) (rest : Expression K)
  deriving DecidableEq

inductive Product (K : Type) where
  | one
  | times (base : Base K) (exponent : Exponent K) (rest : Product K)
  deriving DecidableEq

/-- What a power is taken of. A number occurs as a base only under a root or a symbolic power. -/
inductive Base (K : Type) where
  | symbol (symbol : Symbol)
  | constant (constant : Constant)
  | number (value : K)
  | apply (function : UnaryFunction) (argument : Expression K)
  | group (expression : Expression K)
  deriving DecidableEq

/-- An integer, or another number times a direction, which is one for numeric exponents. -/
inductive Exponent (K : Type) where
  | integer (value : Int)
  | multiple (scale : K) (direction : Expression K)
  deriving DecidableEq

end

variable {K : Type}

instance : Inhabited (Expression K) := ⟨.zero⟩

instance : Inhabited (Product K) := ⟨.one⟩

/-! ## Views -/

namespace Product

def factors : Product K → List (Base K × Exponent K)
  | .one => []
  | .times base exponent rest => (base, exponent) :: rest.factors

@[simp] theorem factors_one : (Product.one : Product K).factors = [] := rfl

@[simp] theorem factors_times (b : Base K) (e : Exponent K) (p : Product K) :
    (Product.times b e p).factors = (b, e) :: p.factors := rfl

end Product

namespace Expression

def terms : Expression K → List (K × Product K)
  | .zero => []
  | .plus coefficient product rest => (coefficient, product) :: rest.terms

@[simp] theorem terms_zero : (Expression.zero : Expression K).terms = [] := rfl

@[simp] theorem terms_plus (c : K) (p : Product K) (e : Expression K) :
    (Expression.plus c p e).terms = (c, p) :: e.terms := rfl

def isZero : Expression K → Bool
  | .zero => true
  | .plus .. => false

@[simp] theorem isZero_iff (e : Expression K) : e.isZero = true ↔ e = .zero := by
  cases e <;> simp [isZero]

end Expression

/-! ## The order of terms and factors -/

variable [Scalar K]

def scalarOrder (c d : K) : Ordering :=
  if Scalar.less c d then .lt else if Scalar.less d c then .gt else .eq

def Constant.rank : Constant → Nat
  | .pi => 0
  | .euler => 1

def UnaryFunction.rank : UnaryFunction → Nat
  | .sin => 0
  | .cos => 1
  | .log => 2
  | .abs => 3
  | .sign => 4
  | .sinh => 5
  | .cosh => 6

def Base.rank : Base K → Nat
  | .number _ => 0
  | .constant _ => 1
  | .symbol _ => 2
  | .apply _ _ => 3
  | .group _ => 4

mutual

def Expression.order : Expression K → Expression K → Ordering
  | .zero, .zero => .eq
  | .zero, .plus .. => .lt
  | .plus .., .zero => .gt
  | .plus c p e, .plus d q f =>
      ((p.order q).then (scalarOrder c d)).then (e.order f)

def Product.order : Product K → Product K → Ordering
  | .one, .one => .eq
  | .one, .times .. => .lt
  | .times .., .one => .gt
  | .times b e p, .times c f q => ((b.order c).then (e.order f)).then (p.order q)

def Base.order : Base K → Base K → Ordering
  | .symbol s, .symbol t => s.order t
  | .constant c, .constant d => compare c.rank d.rank
  | .number c, .number d => scalarOrder c d
  | .apply f e, .apply g e' => (compare f.rank g.rank).then (e.order e')
  | .group e, .group f => e.order f
  | b, c => compare b.rank c.rank

def Exponent.order : Exponent K → Exponent K → Ordering
  | .integer m, .integer n => compare m n
  | .integer _, .multiple _ _ => .lt
  | .multiple _ _, .integer _ => .gt
  | .multiple c e, .multiple d f => (e.order f).then (scalarOrder c d)

end

/-! ## Numbers and symbols -/

namespace Expression

/-- A number as an expression; only the exact zero has no term. -/
def number (c : K) : Expression K :=
  if c = 0 then .zero else .plus c .one .zero

def ofInt (n : Int) : Expression K := number (Scalar.ofInt n)

def ofSymbol (s : Symbol) : Expression K :=
  .plus 1 (.times (.symbol s) (.integer 1) .one) .zero

def ofConstant (c : Constant) : Expression K :=
  .plus 1 (.times (.constant c) (.integer 1) .one) .zero

def number? : Expression K → Option K
  | .zero => some 0
  | .plus c .one .zero => some c
  | _ => none

def symbol? : Expression K → Option Symbol
  | .plus c (.times (.symbol s) (.integer 1) .one) .zero => if c = 1 then some s else none
  | _ => none

@[simp] theorem number_zero : (number 0 : Expression K) = .zero := by
  simp [number]

@[simp] theorem number?_number (c : K) : (number c : Expression K).number? = some c := by
  by_cases h : c = 0 <;> simp [number, number?, h]

@[simp] theorem symbol?_ofSymbol (s : Symbol) : (ofSymbol s : Expression K).symbol? = some s := by
  simp [ofSymbol, symbol?]

end Expression

/-! ## The symbols that occur -/

mutual

def Expression.symbols : Expression K → List Symbol
  | .zero => []
  | .plus _ p e => p.symbols ++ e.symbols

def Product.symbols : Product K → List Symbol
  | .one => []
  | .times b e p => b.symbols ++ e.symbols ++ p.symbols

def Base.symbols : Base K → List Symbol
  | .symbol s => [s]
  | .constant _ => []
  | .number _ => []
  | .apply _ e => e.symbols
  | .group e => e.symbols

def Exponent.symbols : Exponent K → List Symbol
  | .integer _ => []
  | .multiple _ e => e.symbols

end

end HybridRelaxation
