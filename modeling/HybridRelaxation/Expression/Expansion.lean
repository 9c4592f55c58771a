import HybridRelaxation.Expression.Arithmetic

/-!
# Expansion

Products of sums and powers of sums are multiplied out, also inside functions and exponents. The
logarithm of a product becomes a sum of logarithms, a power of a product a product of powers, and a
power with a sum as its exponent a product of powers, each where that is right for every real value
of the indeterminates. What is left is a sum of terms in which a sum occurs only below a
reciprocal, a root or a function. An expression that is polynomial in its symbols is multiplied out
directly.
-/

namespace HybridRelaxation

variable {K : Type} [Scalar K]

namespace Expression

/-! ## Multiplying out -/

def distributeTerm (c : K) (p : Product K) : Expression K → Expression K
  | .zero => .zero
  | .plus d q f => (distributeTerm c p f).addTerms (ofTerm (c * d) (p.mul q))

def distribute : Expression K → Expression K → Expression K
  | .zero, _ => .zero
  | .plus c p e, f => (distribute e f).addTerms (f.distributeTerm c p)

def distributePower (e : Expression K) : Nat → Expression K
  | 0 => number 1
  | n + 1 => (distributePower e n).distribute e

@[simp] theorem zero_distribute (f : Expression K) : distribute .zero f = .zero := rfl

@[simp] theorem distributePower_zero (e : Expression K) : e.distributePower 0 = number 1 := rfl

end Expression

/-! ## Polynomial expressions -/

mutual

/-- Symbols to integer powers, and sums of such products to natural powers, without rounding. -/
def Expression.isSimple : Expression K → Bool
  | .zero => true
  | .plus c p e => (Scalar.exactValue? c).isSome && p.isSimple && e.isSimple

def Product.isSimple : Product K → Bool
  | .one => true
  | .times (.symbol _) (.integer _) p => p.isSimple
  | .times (.group e) (.integer n) p => 0 ≤ n && e.isSimple && p.isSimple
  | .times _ _ _ => false

end

def Product.isMonomial : Product K → Bool
  | .one => true
  | .times (.symbol _) (.integer _) p => p.isMonomial
  | .times _ _ _ => false

def Expression.isPolynomialForm : Expression K → Bool
  | .zero => true
  | .plus c p e =>
      (Scalar.finite? c).isSome && (p.isMonomial || p.isSimple) && e.isPolynomialForm

mutual

def Expression.multiplyOut : Expression K → Expression K
  | .zero => .zero
  | .plus c p e => e.multiplyOut.addTerms (p.multiplyOut.scale c)

def Product.multiplyOut : Product K → Expression K
  | .one => .number 1
  | .times (.group e) (.integer n) p =>
      p.multiplyOut.distribute (e.multiplyOut.distributePower n.toNat)
  | .times b e p => p.multiplyOut.distribute (.ofFactor b e)

end

/-! ## Hints -/

namespace Expression

def isProductNode (c : K) (p : Product K) : Bool :=
  match p with
  | .one => false
  | .times _ _ .one => c ≠ 1
  | _ => true

def power? (e : Expression K) : Option (Base K × Exponent K) :=
  match e.factor? with
  | some (_, .integer 1) => none
  | found => found

end Expression

def rebuildTerm (node : Expression K → Expression K) (c : K) (p : Product K)
    (factors : List (Expression K)) : Expression K :=
  let new : Expression K :=
    if factors = p.factors.map (fun (f : Factor K) => f.expression) then .plus c p .zero
    else Expression.product (if c = 1 then factors else .number c :: factors)
  match new with
  | .plus d q .zero => if Expression.isProductNode d q then node new else new
  | _ => new

def rebuildPower (node : Expression K → Expression K) (b : Base K) (e : Exponent K)
    (base exponent : Expression K) : Expression K :=
  node
    (if base = b.toExpression ∧ exponent = e.toExpression then .ofFactor b e
      else base.power exponent)

mutual

/-- Each part replaced, innermost first; a part that contains no change stays as it is. -/
def Expression.transformTerms (node : Expression K → Expression K) :
    Expression K → List (Expression K)
  | .zero => []
  | .plus c p e => rebuildTerm node c p (p.transformFactors node) :: e.transformTerms node

def Product.transformFactors (node : Expression K → Expression K) :
    Product K → List (Expression K)
  | .one => []
  | .times b (.integer n) p =>
      let base := b.transform node
      (if n = 1 then base else rebuildPower node b (.integer n) base (.ofInt n)) ::
        p.transformFactors node
  | .times b (.multiple c (.plus d .one .zero)) p =>
      let e : Exponent K := .multiple c (.plus d .one .zero)
      rebuildPower node b e (b.transform node) e.toExpression :: p.transformFactors node
  | .times b (.multiple c (.plus d q .zero)) p =>
      let factors := q.transformFactors node
      rebuildPower node b (.multiple c (.plus d q .zero)) (b.transform node)
        (rebuildTerm node (c * d) q factors) :: p.transformFactors node
  | .times b (.multiple c direction) p =>
      let terms := direction.transformTerms node
      rebuildPower node b (.multiple c direction) (b.transform node)
        ((Expression.sum terms).scale c) :: p.transformFactors node

def Base.transform (node : Expression K → Expression K) : Base K → Expression K
  | .symbol s => .ofSymbol s
  | .constant c => .ofConstant c
  | .number c => .number c
  | .apply f e =>
      let terms := e.transformTerms node
      let argument := if terms = e.terms.map (fun (c, p) => .plus c p .zero) then e
        else Expression.sum terms
      node (if argument = e then Expression.applied f e else .apply f argument)
  | .group e =>
      let terms := e.transformTerms node
      if terms = e.terms.map (fun (c, p) => .plus c p .zero) then e else Expression.sum terms

end

namespace Expression

def transform (node : Expression K → Expression K) (e : Expression K) : Expression K :=
  let terms := e.transformTerms node
  if terms = e.terms.map (fun (c, p) => .plus c p .zero) then e else Expression.sum terms

/-! ### Logarithms -/

def leavesLogarithm (b e : Expression K) : Bool :=
  let facts := b.facts
  e.isReal &&
    ((Truth.holds facts.isPositive && Truth.holds facts.finite) ||
      (match e.number?.bind Scalar.finite? with
        | some q => -1 < q && q ≤ 1
        | none => false))

def splitLogarithm : Nat → Expression K → Expression K
  | 0, e => applied .log e
  | fuel + 1, e =>
      match e with
      | .plus c .one .zero =>
          match Scalar.exactValue? c with
          | some q =>
              if q.den = 1 then
                match perfectPower? q.num.toNat with
                | some (base, exponent) =>
                    (log (ofInt base)).scale (Scalar.ofInt exponent)
                | none => applied .log e
              else (log (ofInt q.num)).sub (log (ofInt q.den))
          | none => applied .log e
      | .plus c p .zero =>
          match e.power? with
          | some (b, x) =>
              let base := b.toExpression
              let exponent := x.toExpression
              if leavesLogarithm base exponent then
                let value := log base
                product [exponent,
                  match value.factor? with
                  | some (.apply .log y, .integer 1) => splitLogarithm fuel y
                  | _ => value]
              else applied .log e
          | none =>
              if isProductNode c p then
                let parts := Rules.termFactors c p
                let split := parts.foldl (fun (logs, left) (x : Expression K) =>
                  let facts := x.facts
                  if Truth.holds facts.isPositive && Truth.holds facts.finite then
                    let value := log x
                    let value :=
                      match value.factor? with
                      | some (.apply .log y, .integer 1) => splitLogarithm fuel y
                      | _ => value
                    (logs ++ [value], left)
                  else if Truth.holds facts.isNegative && Truth.holds facts.finite then
                    (logs ++ [log x.neg], left ++ [number (Scalar.ofInt (-1))])
                  else (logs, left ++ [x])) (([], []) : List (Expression K) × List (Expression K))
                (sum split.1).add (log (product split.2))
              else applied .log e
      | e => applied .log e

def expandLogarithm (e : Expression K) : Expression K :=
  match e.factor? with
  | some (.apply .log argument, .integer 1) => splitLogarithm 12 argument
  | _ => e

/-! ### Powers of sums -/

abbrev Multinomial (K : Type) := Nat × List (Expression K × Nat)

def choose (n k : Nat) : Nat :=
  (List.range k).foldl (fun c i => c * (n - i) / (i + 1)) 1

def multinomials : List (Expression K) → Nat → List (Multinomial K)
  | [], 0 => [(1, [])]
  | [], _ + 1 => []
  | [t], n => [(1, [(t, n)])]
  | t :: rest, n =>
      (List.range (n + 1)).flatMap (fun k =>
        (multinomials rest k).map (fun (c, powers) => (choose n k * c, (t, n - k) :: powers)))

def multinomialPower (e : Expression K) (n : Nat) : Expression K :=
  let terms := e.terms.map (fun (c, p) => (.plus c p .zero : Expression K))
  sum ((multinomials terms n).map (fun (c, powers) =>
    product (number (Scalar.ofInt c) ::
      (powers.filter (fun (_, k) => k ≠ 0)).map (fun (t, k) => t.power (ofInt k)))))

def complexNatPower (a b : Rat) : Nat → Rat × Rat
  | 0 => (1, 0)
  | n + 1 =>
      let (c, d) := complexNatPower a b n
      (a * c - b * d, a * d + b * c)

def expandedNatPower (e : Expression K) (n : Nat) : Expression K :=
  match e.symbols.isEmpty, e.complexParts? with
  | true, some (a, b) =>
      match Scalar.exactValue? a, Scalar.exactValue? b with
      | some p, some q =>
          let (x, y) := complexNatPower p q n
          (number (Scalar.exact x)).add (imaginaryUnit.scale (Scalar.exact y))
      | _, _ => e.multinomialPower n
  | _, _ => e.multinomialPower n

/-- A power of a sum, as far as its exponent is larger than one. -/
def expandPowerOfSum (base : Expression K) (exponent : Rat) (e : Expression K) : Expression K :=
  if exponent.abs ≤ 1 then e
  else
    let whole := exponent.abs.floor.toNat
    let size :=
      if exponent.den = 1 then base.expandedNatPower whole
      else
        let radical := base.power (number (Scalar.exact (exponent.abs - whole)))
        let power := if whole = 1 then base else base.expandedNatPower whole
        sum (power.terms.map (fun (c, p) => product [.plus c p .zero, radical]))
    if 0 < exponent then size else size.reciprocal

def hasOneSign (e : Expression K) : Bool :=
  let facts := e.terms.map (fun (c, p) => (Expression.plus c p .zero : Expression K).facts)
  facts.all (fun f => Truth.holds f.isNonnegative) || facts.all (fun f => Truth.holds f.isNonpositive)

def splitNumberExponent (base : K) (e : Expression K) : Expression K :=
  let whole := e.terms.filter (fun (_, p) => p = .one)
  let rest := e.filterTerms (fun _ p => p ≠ .one)
  product (whole.map (fun (c, _) => (number base).power (number c)) ++ [(number base).power rest])

def expandMultinomial (e : Expression K) : Expression K :=
  match e.power? with
  | some (b, x) =>
      let base := b.toExpression
      match x.rational? with
      | some exponent => if base.isSum then expandPowerOfSum base exponent e else e
      | none =>
          match b with
          | .number c =>
              let exponent := x.toExpression
              if exponent.isSum && (!Scalar.isZero c || exponent.hasOneSign) then
                splitNumberExponent c exponent
              else e
          | _ => e
  | none => e

/-! ### Products of sums -/

def crossTerms : Nat → List (Expression K) → List (Expression K)
  | 0, _ => []
  | _, [] => [number 1]
  | _, [e] => e.terms.map (fun (c, p) => .plus c p .zero)
  | fuel + 1, es =>
      let half := es.length / 2
      let left := crossTerms fuel (es.take half)
      let right := crossTerms fuel (es.drop half)
      let total := sum (left.flatMap (fun a => right.map (fun b => product [a, b])))
      match total with
      | .zero => [.zero]
      | e => e.terms.map (fun (c, p) => .plus c p .zero)

def expandTerm : Nat → K → Product K → Expression K
  | 0, c, p => .plus c p .zero
  | fuel + 1, c, p =>
      let (above, below) := (Rules.ofLevel Rules.levels).fraction c p
      let opened (e : Expression K) : Expression K :=
        match e with
        | .plus d q .zero => if isProductNode d q then expandTerm fuel d q else e
        | e => e
      let isProduct : Bool :=
        match below with
        | .plus d q .zero => isProductNode d q
        | _ => false
      let value := if isProduct then (opened above).div (opened below) else above.div below
      match value with
      | .plus d q .zero =>
          let sums := q.factors.filter (fun (f : Factor K) =>
            match f with
            | (.group g, .integer 1) => g.isSum
            | _ => false)
          if sums.isEmpty || !isProductNode d q then value
          else
            let others := q.factors.filter (fun f => !sums.contains f)
            let plain := ofTerm d (.ofDistinct others)
            sum ((crossTerms 40 (sums.map (fun (f : Factor K) => f.1.toExpression))).map (fun t =>
              let whole := product [plain, t]
              match whole with
              | .plus d q .zero =>
                  if q.factors.any (fun (f : Factor K) => match f with
                    | (.group g, .integer 1) => g.isSum
                    | _ => false) then expandTerm fuel d q
                  else whole
              | e => e))
      | e => e

def expandProduct (e : Expression K) : Expression K :=
  match e with
  | .plus c p .zero => if isProductNode c p then expandTerm 12 c p else e
  | e => e

/-! ### Powers of products and sums as exponents -/

def expandPowerBase (e : Expression K) : Expression K :=
  match e.power? with
  | some (.group (.plus c p .zero), x) =>
      if isProductNode c p then
        Rules.separatedPower (Rules.ofLevel Rules.levels) (Rules.termFactors c p) x.toExpression
      else e
  | _ => e

def expandPowerExponent (e : Expression K) : Expression K :=
  match e.power? with
  | some (b, x) =>
      let exponent := x.toExpression
      let splits : Bool :=
        match b with
        | .constant .euler => true
        | b => Truth.fails b.facts.isZero || exponent.hasOneSign
      if exponent.isSum && splits then
        product (exponent.terms.map (fun (c, p) => b.toExpression.power (.plus c p .zero)))
      else e
  | none => e

/-! ## All together -/

/-- Sums are multiplied out and logarithms split until nothing changes. -/
def expandRounds : Nat → Expression K → Expression K
  | 0, e => e
  | fuel + 1, e =>
      let next := ((e.transform expandMultinomial).transform expandProduct).transform expandLogarithm
      if next = e then e else expandRounds fuel next

def expandAll (e : Expression K) : Expression K :=
  let hinted := ((((e.transform expandLogarithm).transform expandMultinomial).transform
    expandProduct).transform expandPowerBase).transform expandPowerExponent
  expandRounds 24 hinted

def expand (e : Expression K) : Expression K :=
  if e.isPolynomialForm then e.multiplyOut else e.expandAll

end Expression

end HybridRelaxation
