import HybridRelaxation.Expression.Basic
import HybridRelaxation.Number.Mixed

/-!
# Display of expressions

Messages quote an expression the way it is usually written: terms by descending exponents of the
bases in alphabetical order, two stars for powers, a root sign for the power one half, and what has
a negative exponent below a stroke. Decision symbols are displayed by their labels.
-/

namespace HybridRelaxation

namespace Display

/-- How a text may stand inside of others: as it is, or only in parentheses. -/
inductive Level where
  | sum
  | product
  | power
  | atom
  deriving DecidableEq

def Level.rank : Level → Nat
  | .sum => 0
  | .product => 1
  | .power => 2
  | .atom => 3

structure Piece where
  level : Level
  text : String

def Piece.within (level : Level) (p : Piece) : String :=
  if p.level.rank < level.rank then "(" ++ p.text ++ ")" else p.text

def magnitude : Number → Piece
  | .exact q => if q.den = 1 then ⟨.atom, toString q.num⟩ else ⟨.product, rationalText q⟩
  | .float (.finite negative size) =>
      ⟨.atom, FloatValue.textWith (fun m =>
        (DecimalLayout.mk (-4) 15 true).text (Digits.significant 15 m).trimmed)
        (.finite negative size)⟩
  | c => ⟨.atom, c.coefficientText⟩

def numberPiece (c : Number) : Piece :=
  if Scalar.isNegative c then ⟨.product, "-" ++ (magnitude (-c)).text⟩ else magnitude c

structure WrittenFactor where
  below : Bool
  piece : Piece
  /-- The base and its exponent, which order the terms of a sum. -/
  base : String
  weight : Rat

def powerPiece (base : Piece) (exponent : Number) : Piece :=
  if exponent = .exact 1 then base
  else if exponent = .exact (1 / 2) then ⟨.atom, "sqrt(" ++ base.text ++ ")"⟩
  else ⟨.power, base.within .atom ++ "**" ++ (numberPiece exponent).within .power⟩

def numericFactor (base : Piece) (exponent : Number) : WrittenFactor :=
  let weight := (Scalar.finite? exponent).getD 0
  if (Scalar.exactValue? exponent).any (· < 0) then
    ⟨true, powerPiece base (-exponent), base.text, weight⟩
  else ⟨false, powerPiece base exponent, base.text, weight⟩

def symbolicFactor (base exponent : Piece) : WrittenFactor :=
  let text := base.within .atom ++ "**" ++ exponent.within .power
  ⟨false, ⟨.power, text⟩, text, 1⟩

def joined (pieces : List Piece) : Piece :=
  match pieces with
  | [] => ⟨.atom, "1"⟩
  | [p] => p
  | pieces => ⟨.product, "*".intercalate (pieces.map (Piece.within .product))⟩

def quotient (c : Number) (factors : List WrittenFactor) : Piece :=
  let (numerator, denominator) :=
    match c with
    | .exact q => (Number.exact q.num, Number.exact q.den)
    | c => (c, .exact 1)
  let factorPieces (below : Bool) : List Piece :=
    (factors.filter (fun f => f.below = below)).map WrittenFactor.piece
  let withNumber (n : Number) (pieces : List Piece) : List Piece :=
    if n = .exact 1 then pieces else numberPiece n :: pieces
  let above := joined (withNumber numerator (factorPieces false))
  match withNumber denominator (factorPieces true) with
  | [] => above
  | [p] => ⟨.product, above.within .product ++ "/" ++ p.within .power⟩
  | pieces => ⟨.product, above.within .product ++ "/(" ++ (joined pieces).text ++ ")"⟩

structure WrittenTerm where
  negative : Bool
  piece : Piece
  factors : List WrittenFactor

def termOf (c : Number) (factors : List WrittenFactor) : WrittenTerm :=
  let sorted := factors.mergeSort (fun a b => a.base ≤ b.base)
  let negative := Scalar.isNegative c
  ⟨negative, quotient (if negative then -c else c) sorted, sorted⟩

def WrittenTerm.weightOf (t : WrittenTerm) (base : String) : Rat :=
  ((t.factors.find? (fun f => f.base = base)).map WrittenFactor.weight).getD 0

def precedes (bases : List String) (s t : WrittenTerm) : Bool :=
  match bases.find? (fun base => s.weightOf base ≠ t.weightOf base) with
  | some base => t.weightOf base < s.weightOf base
  | none => true

/-- Terms in order; a positive number comes before a single term that is taken away from it. -/
def ordered (terms : List WrittenTerm) : List WrittenTerm :=
  let bases := (terms.flatMap (fun t => t.factors.map WrittenFactor.base)).eraseDups
  let sorted := terms.mergeSort (precedes (bases.mergeSort (fun a b => a ≤ b)))
  match sorted with
  | [s, t] =>
      if s.negative && !t.negative && t.factors.isEmpty && s.factors.length = 1 then [t, s] else sorted
  | _ => sorted

def sumOf (terms : List WrittenTerm) : Piece :=
  match ordered terms with
  | [] => ⟨.atom, "0"⟩
  | [t] => if t.negative then ⟨.product, "-" ++ t.piece.text⟩ else t.piece
  | t :: rest =>
      let first := if t.negative then "-" ++ t.piece.text else t.piece.text
      ⟨.sum, rest.foldl (fun text t =>
        text ++ (if t.negative then " - " else " + ") ++ t.piece.text) first⟩

end Display

open Display

def UnaryFunction.display : UnaryFunction → String
  | .sin => "sin"
  | .cos => "cos"
  | .log => "log"
  | .abs => "Abs"
  | .sign => "sign"
  | .sinh => "sinh"
  | .cosh => "cosh"

def Constant.display : Constant → String
  | .pi => "pi"
  | .euler => "E"

mutual

def Expression.displayTerms : Expression Number → List WrittenTerm
  | .zero => []
  | .plus c p e => termOf c p.displayFactors :: e.displayTerms

def Product.displayFactors : Product Number → List WrittenFactor
  | .one => []
  | .times b e p =>
      (match b, e with
        | b, .integer n => numericFactor b.displayPiece (.exact n)
        | .constant .euler, .multiple c d =>
            let argument := sumOf (d.displayTerms.map (fun t =>
              { t with piece := quotient c [⟨false, t.piece, "", 0⟩] }))
            ⟨false, ⟨.atom, "exp(" ++ argument.text ++ ")"⟩, "exp(" ++ argument.text ++ ")", 1⟩
        | b, .multiple c .zero => numericFactor b.displayPiece c
        | b, .multiple c (.plus _ .one .zero) => numericFactor b.displayPiece c
        | b, .multiple c d =>
            symbolicFactor b.displayPiece
              (joined ((if c = .exact 1 then [] else [numberPiece c]) ++ [sumOf d.displayTerms])))
        :: p.displayFactors

def Base.displayPiece : Base Number → Piece
  | .symbol s => ⟨.atom, s.text⟩
  | .constant c => ⟨.atom, c.display⟩
  | .number c => numberPiece c
  | .apply f e => ⟨.atom, f.display ++ "(" ++ (sumOf e.displayTerms).text ++ ")"⟩
  | .group e => sumOf e.displayTerms

end

def Expression.display (e : Expression Number) : String := (sumOf e.displayTerms).text

end HybridRelaxation
