import HybridRelaxation.Expression.Expansion
import HybridRelaxation.Number.Mixed

/-!
# Text of expressions

An expanded expression is written as its monomials with their coefficients. A monomial is its
factor texts in code point order, joined by stars, one for each base; decision symbols carry an at
sign. Inside functions, exponents and reciprocals an expression is written flat, as a sum of
coefficient times monomial.
-/

namespace HybridRelaxation

/-! ## Words -/

def Symbol.answer : Symbol → String
  | .named name => name
  | .decision _ label => "@" ++ label

def Constant.answer : Constant → String
  | .pi => "pi"
  | .euler => "E"

def UnaryFunction.answer : UnaryFunction → String
  | .sin => "sin"
  | .cos => "cos"
  | .log => "log"
  | .abs => "abs"
  | .sign => "sign"
  | .sinh => "sinh"
  | .cosh => "cosh"

def sortTexts (texts : List String) : List String := texts.mergeSort (fun a b => a ≤ b)

def joinFactors (texts : List String) : String :=
  match sortTexts texts with
  | [] => "1"
  | texts => "*".intercalate texts

abbrev WrittenTerms := List (String × Number)

def flatText (pairs : WrittenTerms) : String :=
  match (pairs.filter (fun pair => !Scalar.isZero pair.2)).mergeSort (fun a b => a.1 ≤ b.1) with
  | [] => "0"
  | pairs =>
      " + ".intercalate (pairs.map (fun (monomial, c) => c.coefficientText ++ "*" ++ monomial))

/-! ## Factors with their texts -/

/-- A base, or the integers of a rational base, with the texts of an exponent's terms. -/
structure WrittenPower where
  base : String
  exponent : WrittenTerms

def addWritten (terms more : WrittenTerms) : WrittenTerms :=
  more.foldl (fun found (monomial, c) =>
    match found.findIdx? (fun pair => pair.1 = monomial) with
    | some k => found.modify k (fun pair => (pair.1, pair.2 + c))
    | none => found ++ [(monomial, c)]) terms

def mergeWritten (powers : List WrittenPower) : List WrittenPower :=
  powers.foldl (fun found p =>
    match found.findIdx? (fun q => q.base = p.base) with
    | some k => found.modify k (fun q => ⟨q.base, addWritten q.exponent p.exponent⟩)
    | none => found ++ [p]) []

def writtenNumber? (terms : WrittenTerms) : Option Number :=
  match terms.filter (fun pair => !Scalar.isZero pair.2) with
  | [] => if terms.any (fun pair => Scalar.isMeasured pair.2) then none else some 0
  | [("1", c)] => some c
  | _ => none

def WrittenPower.text (p : WrittenPower) : String :=
  match (writtenNumber? p.exponent).bind Scalar.integer? with
  | some n => if n = 1 then p.base else p.base ++ "^" ++ toString n
  | none => p.base ++ "^(" ++ flatText p.exponent ++ ")"

def negateWritten (terms : WrittenTerms) : WrittenTerms :=
  terms.map (fun (monomial, c) => (monomial, -c))

def numberPowers (c : Number) (exponent : WrittenTerms) : List WrittenPower :=
  match Scalar.exactValue? c with
  | some q =>
      let above : List WrittenPower :=
        if q.den ≠ 1 ∧ q.num = 1 then [] else [⟨toString q.num, exponent⟩]
      let below : List WrittenPower :=
        if q.den = 1 then [] else [⟨toString q.den, negateWritten exponent⟩]
      above ++ below
  | none => [⟨"(" ++ flatText [("1", c)] ++ ")", exponent⟩]

/-! ## Texts of the parts -/

mutual

def Expression.texts : Expression Number → WrittenTerms
  | .zero => []
  | .plus c p e => (joinFactors ((mergeWritten p.powers).map WrittenPower.text), c) :: e.texts

def Product.powers : Product Number → List WrittenPower
  | .one => []
  | .times b e p =>
      (match b with
        | .number c => numberPowers c e.texts
        | b => [⟨b.text, e.texts⟩]) ++ p.powers

def Base.text : Base Number → String
  | .symbol s => s.answer
  | .constant c => c.answer
  | .number c => c.answer
  | .apply f e => f.answer ++ "(" ++ flatText e.texts ++ ")"
  | .group e => "(" ++ flatText e.texts ++ ")"

def Exponent.texts : Exponent Number → WrittenTerms
  | .integer n => [("1", .exact n)]
  | .multiple c e => e.texts.map (fun (monomial, d) => (monomial, c * d))

end

def Expression.answer (e : Expression Number) : List (String × String) :=
  (e.expand.texts.filter (fun pair => !Scalar.isZero pair.2)).map
    (fun pair => (pair.1, pair.2.coefficientText))

end HybridRelaxation
