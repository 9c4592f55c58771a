import HybridRelaxation.Expression.Radical
import HybridRelaxation.Expression.Rules

/-!
# Products of expressions

The coefficients of all factors become one coefficient, and powers of one base are combined. A
power that has changed is simplified, roots of numbers are brought together, numbers to one
symbolic power are multiplied, and a number that is not finite absorbs the factors whose sign is
known. A finite number times a lone sum is distributed.
-/

namespace HybridRelaxation

variable {K : Type} [Scalar K]

abbrev Factor (K : Type) := Base K × Exponent K

namespace Factor

def expression (f : Factor K) : Expression K := .ofFactor f.1 f.2

def isExactSum (e : Expression K) : Bool :=
  e.terms.all (fun (c, _) => !Scalar.isMeasured c) && !e.symbols.isEmpty

def hasFiniteExponent (e : Exponent K) : Bool :=
  match e with
  | .integer _ => true
  | .multiple c _ => (Scalar.finite? c).isSome

def isInert (f : Factor K) : Bool :=
  match f with
  | (.number _, _) => false
  | (_, .integer 1) => true
  | (.symbol _, e) => hasFiniteExponent e
  | (.constant .pi, e) => hasFiniteExponent e
  | (.group g, .integer _) => isExactSum g
  | _ => false

def root? (f : Factor K) : Option (Rat × Rat) :=
  match f with
  | (.number c, e) =>
      match Scalar.exactValue? c, e.rational? with
      | some base, some exponent => if base = 0 then none else some (base, exponent)
      | _, _ => none
  | _ => none

def isSymbolicPower (f : Factor K) : Bool :=
  match f with
  | (.number c, e) => Scalar.isPositive c && e.number?.isNone
  | _ => false

def ofRoot (root : Rat × Rat) : Factor K :=
  (.number (Scalar.exact root.1), .ofNumber (Scalar.exact root.2))

end Factor

/-! ## Factors of a list of expressions -/

/-- A coefficient and factors that are still to be combined. -/
structure FactorList (K : Type) where
  coefficient : K
  factors : List (Factor K)

namespace FactorList

def addDirect (l : FactorList K) (e : Expression K) : FactorList K :=
  match e with
  | .zero => { l with coefficient := l.coefficient * 0 }
  | .plus c .one .zero => { l with coefficient := l.coefficient * c }
  | .plus c (.times b x .one) .zero =>
      if c = 1 then { l with factors := l.factors ++ [(b, x)] } else l
  | .plus _ _ .zero => l
  | e => { l with factors := l.factors ++ [(.group e, .integer 1)] }

def addNested (l : FactorList K) (e : Expression K) : FactorList K :=
  match e with
  | .plus _ .one .zero => l
  | .plus c (.times b x p) .zero =>
      if c = 1 ∧ p = .one then l
      else ⟨l.coefficient * c, l.factors ++ (Product.times b x p).factors⟩
  | _ => l

/-- The factors of all expressions; products are opened after the others. -/
def ofExpressions (es : List (Expression K)) : FactorList K :=
  es.foldl addNested (es.foldl addDirect ⟨1, []⟩)

def addValue (l : FactorList K) (e : Expression K) : FactorList K :=
  let (c, p) := e.factored
  ⟨l.coefficient * c, l.factors ++ p.factors⟩

/-! ## Numbers that are not finite -/

/-- An infinite coefficient absorbs the factors with a sign. -/
def absorbSigns (l : FactorList K) : FactorList K :=
  l.factors.foldl (fun (l : FactorList K) f =>
    let facts := f.expression.facts
    if Truth.holds facts.isPositive then l
    else if Truth.holds facts.isNegative then { l with coefficient := -l.coefficient }
    else { l with factors := l.factors ++ [f] }) ⟨l.coefficient, []⟩

def absorbNonzero (l : FactorList K) : FactorList K :=
  { l with factors := l.factors.filter (fun f =>
      let facts := f.expression.facts
      !(Truth.fails facts.isZero && facts.isReal.isSome)) }

def finish (l : FactorList K) : Expression K :=
  match Scalar.kind l.coefficient with
  | .undefined => .number l.coefficient
  | .infinite _ =>
      let l := l.absorbSigns
      .plus l.coefficient (.ofFactors l.factors) .zero
  | .unsignedInfinity =>
      let l := l.absorbNonzero
      .plus l.coefficient (.ofFactors l.factors) .zero
  | _ =>
      if Scalar.isZero l.coefficient &&
          l.factors.any (fun f => Truth.fails f.expression.facts.finite) then
        .number Scalar.undefined
      else .ofTerm l.coefficient (.ofFactors l.factors)

/-! ## Simplification -/

/-- Numbers to one symbolic power are the power of their product. -/
def mergeBases (powers : List (Factor K)) : List (K × Exponent K) :=
  let byExponent := powers.foldl (fun found f =>
    match f.1 with
    | .number c => gatherInto (· * ·) f.2 c found
    | _ => found) []
  byExponent.map (fun (e, c) => (c, e))

def simplify (r : Rules K) : Nat → FactorList K → Expression K
  | 0, l => l.finish
  | fuel + 1, l =>
      let roots := l.factors.filterMap Factor.root?
      let symbolic := l.factors.filter Factor.isSymbolicPower
      let others := l.factors.filter (fun f => f.root?.isNone && !f.isSymbolicPower)
      let combined := (Product.ofFactors others).factors.map (fun (f : Factor K) =>
        (f, if f.isInert then f.expression else r.power f.1.toExpression f.2.toExpression))
      let isChanged (entry : Factor K × Expression K) : Bool := entry.2 ≠ entry.1.expression
      let changed := combined.filter isChanged
      if changed.isEmpty then
        let radical := Radical.simplify Radical.depth ⟨1, roots⟩
        let powers := (mergeBases (Product.ofFactors symbolic).factors).map (fun (c, e) =>
          r.power (.number c) e.toExpression)
        let start : FactorList K :=
          ⟨l.coefficient * Scalar.exact radical.coefficient,
            (combined.map Prod.fst) ++ radical.roots.map Factor.ofRoot⟩
        (powers.foldl addValue start).finish
      else
        let kept := (combined.filter (fun entry => !isChanged entry)).map Prod.fst
        let start : FactorList K :=
          ⟨l.coefficient, roots.map Factor.ofRoot ++ symbolic ++ kept⟩
        simplify r fuel ((changed.map Prod.snd).foldl addValue start)

def rounds : Nat := 8

def isPlain (l : FactorList K) : Bool :=
  (Scalar.finite? l.coefficient).isSome && l.factors.all Factor.isInert

def multiply (l : FactorList K) : Expression K := .ofTerm l.coefficient (.ofFactors l.factors)

end FactorList

namespace Rules

def scaled? (c : K) (e : Expression K) : Option (Expression K) :=
  match Scalar.exactValue? c with
  | some q => if q = 0 ∨ !e.isBounded then none else some (e.scale c)
  | none => none

def scaledPair? (e f : Expression K) : Option (Expression K) :=
  match e.number?, f.number? with
  | some c, none => scaled? c f
  | none, some d => scaled? d e
  | _, _ => none

def productByFactors (r : Rules K) (es : List (Expression K)) : Expression K :=
  let l := FactorList.ofExpressions es
  if l.isPlain then l.multiply else l.simplify r FactorList.rounds

def productOf (r : Rules K) (es : List (Expression K)) : Expression K :=
  match es with
  | [e] => e
  | [e, f] =>
      match scaledPair? e f with
      | some value => value
      | none => productByFactors r es
  | _ => productByFactors r es

end Rules

end HybridRelaxation
