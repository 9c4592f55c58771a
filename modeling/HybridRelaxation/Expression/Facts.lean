import HybridRelaxation.Expression.Approximation

/-!
# What is known about values

For an expression over real indeterminates some facts hold at every point: its sign, whether it is
real, finite, zero, a whole number or an imaginary number. A fact that does not follow from the
parts by the rules here counts as unknown. An indeterminate is a finite real number of unknown
sign, and nothing is known of a decision symbol.
-/

namespace HybridRelaxation

/-! ## Three-valued logic -/

namespace Truth

def no (a : Option Bool) : Option Bool := a.map (fun b => !b)

def holds (a : Option Bool) : Bool := a = some true

def fails (a : Option Bool) : Bool := a = some false

def group (facts : List (Option Bool)) : Option Bool :=
  if facts.all holds then some true
  else if facts.contains none then none
  else if (facts.filter fails).length = 1 then some false
  else none

end Truth

/-! ## Facts -/

/--
The signs that a value may have, where a value that is not real has no sign, and further facts that
are true, false or unknown. The infinities have signs.
-/
structure Facts where
  mayBeNegative : Bool
  mayBeZero : Bool
  mayBePositive : Bool
  mayBeUnsigned : Bool
  finite : Option Bool
  integer : Option Bool
  even : Option Bool
  rational : Option Bool
  imaginary : Option Bool
  deriving DecidableEq, Repr

namespace Facts

open Truth

def unknown : Facts := ⟨true, true, true, true, none, none, none, none, none⟩

/-! ### Questions -/

def isReal (f : Facts) : Option Bool :=
  if !f.mayBeUnsigned then some true
  else if f.mayBeNegative || f.mayBeZero || f.mayBePositive then none
  else some false

def isZero (f : Facts) : Option Bool :=
  if !f.mayBeZero then some false
  else if f.mayBeNegative || f.mayBePositive || f.mayBeUnsigned then none
  else some true

def isPositive (f : Facts) : Option Bool :=
  if !f.mayBePositive then some false
  else if f.mayBeNegative || f.mayBeZero || f.mayBeUnsigned then none
  else some true

def isNegative (f : Facts) : Option Bool :=
  if !f.mayBeNegative then some false
  else if f.mayBePositive || f.mayBeZero || f.mayBeUnsigned then none
  else some true

def isNonnegative (f : Facts) : Option Bool :=
  if !f.mayBeNegative && !f.mayBeUnsigned then some true
  else if !f.mayBeZero && !f.mayBePositive then some false
  else none

def isNonpositive (f : Facts) : Option Bool :=
  if !f.mayBePositive && !f.mayBeUnsigned then some true
  else if !f.mayBeZero && !f.mayBeNegative then some false
  else none

def isOdd (f : Facts) : Option Bool :=
  if holds f.integer then no f.even else if fails f.integer then some false else none

def isInfinite (f : Facts) : Option Bool := no f.finite

def isFiniteReal (f : Facts) : Bool := holds f.isReal && holds f.finite

/-! ### Conclusions -/

def assumeReal (a : Option Bool) (f : Facts) : Facts :=
  match a with
  | some true => { f with mayBeUnsigned := false }
  | some false => { f with mayBeNegative := false, mayBeZero := false, mayBePositive := false }
  | none => f

def assumeZero (a : Option Bool) (f : Facts) : Facts :=
  match a with
  | some true =>
      { f with mayBeNegative := false, mayBePositive := false, mayBeUnsigned := false }
  | some false => { f with mayBeZero := false }
  | none => f

def assumePositive (a : Option Bool) (f : Facts) : Facts :=
  match a with
  | some true =>
      { f with mayBeNegative := false, mayBeZero := false, mayBeUnsigned := false }
  | some false => { f with mayBePositive := false }
  | none => f

def assumeNegative (a : Option Bool) (f : Facts) : Facts :=
  match a with
  | some true =>
      { f with mayBePositive := false, mayBeZero := false, mayBeUnsigned := false }
  | some false => { f with mayBeNegative := false }
  | none => f

/-- Zero is a finite even number, a real number is not imaginary, and an imaginary one is not real. -/
def close (f : Facts) : Facts :=
  let f := if holds f.imaginary then { (f.assumeReal (some false)) with finite := some true } else f
  let f := if holds f.isReal then { f with imaginary := some false } else f
  if holds f.isZero then
    { f with finite := some true, integer := some true, even := some true, rational := some true }
  else f

def real : Facts := ⟨true, true, true, false, some true, none, none, none, some false⟩

def ofRat (exact : Bool) (q : Rat) : Facts where
  mayBeNegative := q < 0
  mayBeZero := q = 0
  mayBePositive := 0 < q
  mayBeUnsigned := false
  finite := some true
  integer := if exact || q = 0 then some (q.den = 1) else if q.den = 1 then none else some false
  even :=
    if exact || q = 0 then some (q.den = 1 && q.num % 2 = 0)
    else if q.den = 1 then none else some false
  rational := if exact then some true else none
  imaginary := some false

def ofKind : NumberKind → Facts
  | .exact q => ofRat true q
  | .measured q => ofRat false q
  | .infinite negative =>
      ⟨negative, false, !negative, false, some false, some false, some false, some false, some false⟩
  | .unsignedInfinity =>
      ⟨false, false, false, true, some false, some false, some false, some false, some false⟩
  | .undefined => unknown

def positiveConstant : Facts :=
  ⟨false, false, true, false, some true, some false, some false, some false, some false⟩

/-! ### Constant values -/

/-- The sign of a constant whose value is known, and nothing if the value cancelled. -/
def assumeValue (value : Option ComplexValue) (f : Facts) : Facts :=
  match value with
  | none => f
  | some z =>
      if z.isZero then f
      else
        (f.assumePositive (some (z.isReal && 0 < z.real))).assumeNegative
          (some (z.isReal && z.real < 0))

/-! ### Products -/

/-- The state of a walk over the factors that decides whether a product is real. -/
structure Walk where
  real : Bool
  zero : Option Bool
  mixed : Option Facts

/-- One factor of the walk; a result that is settled at once is on the right. -/
def Walk.step (allFinite : Bool) (w : Walk) (f : Facts) : Walk ⊕ Option Bool :=
  if holds f.imaginary then .inl { w with real := !w.real }
  else if holds f.isReal then
    if holds w.zero then .inl w
    else if holds f.isZero then .inr (if allFinite then some true else none)
    else if fails w.zero then .inl { w with zero := f.isZero }
    else .inl w
  else if fails f.isReal || fails f.imaginary then
    if w.mixed.isSome then .inr none else .inl { w with mixed := some f }
  else .inr none

def Walk.run (allFinite : Bool) (w : Walk) : List Facts → Option Bool
  | [] =>
      match w.mixed with
      | some f =>
          if fails f.isReal && w.real then w.zero
          else if fails f.imaginary && !w.real then w.zero
          else none
      | none =>
          if fails w.zero then some w.real else if w.real then some true else none
  | f :: rest =>
      match w.step allFinite f with
      | .inl w => w.run allFinite rest
      | .inr answer => answer

def productIsReal (real : Bool) (fs : List Facts) : Option Bool :=
  Walk.run (fs.all (fun f => holds f.finite)) ⟨real, some false, none⟩ fs

def productSign (everywhereFinite : Bool) : Int → Bool → List Facts → Option Bool
  | sign, vanishing, [] =>
      if sign = 1 ∧ !vanishing then some true else if sign < 0 then some false else none
  | sign, vanishing, f :: rest =>
      if holds f.isPositive then productSign everywhereFinite sign vanishing rest
      else if holds f.isNegative then productSign everywhereFinite (-sign) vanishing rest
      else if holds f.isZero then (if everywhereFinite then some false else none)
      else if holds f.isNonpositive then productSign everywhereFinite (-sign) true rest
      else if holds f.isNonnegative then productSign everywhereFinite sign true rest
      else none

/-- A product is zero, as far as no infinite factor interferes. -/
def productIsZero (fs : List Facts) : Option Bool :=
  let someInfinite := fs.any (fun f => !(holds f.finite))
  if fs.all (fun f => fails f.isZero) then some false
  else if fs.any (fun f => holds f.isZero) && !someInfinite then some true
  else none

def ofProduct (fs : List Facts) : Facts :=
  let everywhereFinite := fs.all (fun f => holds f.finite)
  let finite :=
    if everywhereFinite then some true
    else if fs.any (fun f => fails f.finite) && fs.all (fun f => fails f.isZero) then some false
    else none
  let imaginary :=
    if fs.all (fun f => fails f.isZero && holds f.finite) then productIsReal false fs else none
  let rational :=
    match group (fs.map (fun f => f.rational)) with
    | some false => if fs.all (fun f => fails f.isZero) then some false else none
    | answer => answer
  let integer :=
    if fs.all (fun f => holds f.integer) then some true
    else if fails rational then some false else none
  let even :=
    if holds integer then some (fs.any (fun f => holds f.even))
    else if fails integer then some false else none
  (({ unknown with finite, imaginary, rational, integer, even }.assumeReal
      (productIsReal true fs)).assumeZero (productIsZero fs)
    |>.assumePositive (productSign everywhereFinite 1 false fs)
    |>.assumeNegative (productSign everywhereFinite (-1) false fs)).close

/-! ### Sums -/

def sumIsPositive (fs : List Facts) : Option Bool :=
  let terms := fs.filter (fun f => !(holds f.isZero))
  let infinite := terms.filter (fun f => fails f.finite)
  let uncertain := terms.any (fun f =>
    !(holds f.isPositive || holds f.isNonnegative || holds f.isNonpositive))
  let positive := terms.any (fun f => holds f.isPositive)
  let nonnegative := terms.any (fun f => !(holds f.isPositive) && holds f.isNonnegative)
  let nonpositive := terms.any (fun f => !(holds f.isNonnegative) && holds f.isNonpositive)
  if terms.isEmpty then some false
  else if !infinite.isEmpty then
    if infinite.all (fun f => holds f.isPositive) then some true
    else if infinite.all (fun f => fails f.isPositive) then some false
    else none
  else if uncertain then none
  else if positive && !nonpositive then some true
  else if !positive && !nonnegative then some false
  else none

def exchange (f : Facts) : Facts :=
  { f with mayBeNegative := f.mayBePositive, mayBePositive := f.mayBeNegative }

def splitSum (fs : List Facts) : Option (List Facts × Nat × Nat) :=
  fs.foldr (fun f found =>
    match found with
    | none => none
    | some (reals, zeros, imaginaries) =>
        if holds f.isReal then
          if holds f.isZero then some (reals, zeros + 1, imaginaries)
          else if fails f.isZero then some (f :: reals, zeros, imaginaries)
          else none
        else if holds f.imaginary then some (reals, zeros, imaginaries + 1)
        else none) (some ([], 0, 0))

def sumIsZero (fs : List Facts) : Option Bool :=
  match splitSum fs with
  | none => none
  | some (reals, zeros, _) =>
      if zeros = fs.length then some true
      else if reals.isEmpty || reals.length = fs.length then none
      else
        let positive := sumIsPositive reals
        let negative := sumIsPositive (reals.map exchange)
        if holds positive || holds negative then some false else none

def sumIsImaginary (fs : List Facts) : Option Bool :=
  match splitSum fs with
  | none => none
  | some (reals, _, _) =>
      if reals.length = fs.length then none
      else if reals.isEmpty then some true
      else
        let positive := sumIsPositive reals
        let negative := sumIsPositive (reals.map exchange)
        if holds positive || holds negative then some false else none

def ofSum (constant : Bool) (value : Option ComplexValue) (fs : List Facts) : Facts :=
  match fs with
  | [] => ofRat true 0
  | [f] => f
  | fs =>
      let integer := group (fs.map Facts.integer)
      let even : Option Bool :=
        if holds integer then some ((fs.filter (fun f => holds f.isOdd)).length % 2 = 0)
        else if fails integer then some false else none
      let start := ({ unknown with
          finite := group (fs.map Facts.finite)
          imaginary := sumIsImaginary fs
          rational := group (fs.map Facts.rational)
          integer, even }.assumeReal (group (fs.map isReal))).assumeZero (sumIsZero fs)
      (if constant then start.assumeValue value
        else
          (start.assumePositive (sumIsPositive fs)).assumeNegative
            (sumIsPositive (fs.map exchange))).close

/-! ### Powers -/

def powerIsReal (b e : Facts) : Option Bool :=
  let direct :=
    if holds b.isReal && holds e.isReal then
      if holds b.isPositive then some true
      else if holds b.isNonnegative && holds e.isNonnegative then some true
      else if holds e.integer && fails b.isZero then some true
      else if holds e.integer && holds e.isNonnegative then some true
      else if holds b.isNegative && holds e.rational && fails e.integer then some false
      else none
    else none
  match direct with
  | some answer => some answer
  | none =>
      if holds b.isReal && holds e.isReal && holds e.isNegative && fails b.isZero &&
          holds b.isNonnegative then some true
      else if holds b.imaginary && holds e.integer then
        if holds e.even then some true else if fails e.even then some false else none
      else none

def powerIsZero (b e : Facts) : Option Bool :=
  if holds b.isZero then
    if holds e.isPositive then some true else if holds e.isNonpositive then some false else none
  else if fails b.isZero then
    if holds b.finite && holds e.finite then some false
    else if holds e.isNegative then b.isInfinite
    else if holds e.isNonnegative then some false
    else none
  else if holds b.finite && holds e.isNegative && holds e.finite then some false
  else none

def powerIsPositive (b e : Facts) : Option Bool :=
  if holds b.isPositive && holds b.finite then
    if e.isFiniteReal then some true else none
  else if holds b.isNegative then
    if holds e.even then some true else if holds e.isOdd then some false else none
  else if holds b.isZero then (if holds e.isReal then e.isZero else none)
  else if holds b.isNonpositive then (if holds e.isOdd then some false else none)
  else none

def powerIsNegative (half : Bool) (b e : Facts) : Option Bool :=
  if half && (holds b.finite || holds b.isReal) then some false
  else if holds b.isNegative then
    if holds e.isOdd && holds b.finite then some true
    else if holds e.even then some false
    else none
  else if holds b.isPositive || holds b.isZero then (if holds e.isReal then some false else none)
  else if holds b.isNonnegative then (if holds e.isNonnegative then some false else none)
  else if holds b.isReal then (if holds e.even then some false else none)
  else none

def powerIsFinite (b e : Facts) : Option Bool :=
  if holds e.isNegative && holds b.isZero then some false
  else if holds e.isNegative && (fails b.finite || (fails b.isZero && b.isFiniteReal)) then some true
  else if holds b.finite && holds e.finite &&
      ((holds e.isNonnegative && holds e.finite) || fails b.isZero) then some true
  else none

/-- A power of a real base is imaginary only for a negative base and half an odd exponent. -/
def powerIsImaginary (half : Bool) (b e : Facts) : Option Bool :=
  if holds b.imaginary then (if holds e.integer then e.isOdd else none)
  else if holds b.isReal && holds e.isReal then
    if holds b.isPositive && holds b.finite then some false
    else if !(holds e.rational) then e.rational
    else if holds e.integer then some false
    else if half then b.isNegative
    else some false
  else none

def powerIsRational (b e : Facts) : Option Bool :=
  if holds b.rational && holds e.rational && fails e.integer then some false
  else if holds e.integer && holds b.rational && (fails b.isZero || holds e.isNonnegative) then
    some true
  else none

/-- The facts about a power; `half` says that twice the exponent is an odd number. -/
def ofPower (half : Bool) (b e : Facts) : Facts :=
  (({ unknown with
        finite := powerIsFinite b e
        imaginary := powerIsImaginary half b e
        rational := powerIsRational b e }.assumeReal (powerIsReal b e)).assumeZero (powerIsZero b e)
    |>.assumePositive (powerIsPositive b e)
    |>.assumeNegative (powerIsNegative half b e)).close

def ofExponential (e : Facts) : Facts :=
  let finite :=
    if fails e.finite then
      if holds e.isNegative then some true else if holds e.isPositive then some false else none
    else if holds e.finite then some true else none
  if holds e.isReal then { positiveConstant with finite, integer := none, even := none, rational := none }
  else { unknown with finite, mayBeZero := false }

/-! ### Functions -/

def ofSine (constant : Bool) (value : Option ComplexValue) (f : Facts) : Facts :=
  let start := if holds f.isReal then real else { unknown with finite := f.finite }
  if constant then (start.assumeValue value).close else start

def ofLogarithm (f less : Facts) : Facts :=
  let finite := if holds f.isZero then some false else f.finite
  (({ unknown with finite }.assumeReal f.isPositive).assumeZero less.isZero
    |>.assumePositive less.isPositive
    |>.assumeNegative (if holds less.isNonnegative then some false else none)).close

def ofAbsolute (f : Facts) : Facts :=
  let finite := if holds f.finite then some true else none
  ({ f with
      mayBeNegative := false
      mayBePositive := true
      mayBeUnsigned := false
      mayBeZero := f.mayBeZero
      finite
      integer := if holds f.isReal then f.integer else none
      even := if holds f.isReal then f.even else none
      rational := if holds f.isReal then f.rational else none
      imaginary := some false }.assumeZero f.isZero).close

def ofSign (f : Facts) : Facts :=
  (({ unknown with finite := some true, integer := f.isReal }.assumeReal f.isReal).assumeZero
      f.isZero
    |>.assumeNegative (if fails f.isNegative then some false else none)).close

def ofFunction (g : UnaryFunction) (constant : Bool) (value : Option ComplexValue)
    (f less : Facts) : Facts :=
  match g with
  | .sin | .cos => ofSine constant value f
  | .log => ofLogarithm f less
  | .abs => ofAbsolute f
  | .sign => ofSign f
  | .sinh => if holds f.isReal then real else unknown
  | .cosh => if holds f.isReal then (real.assumePositive (some true)) else unknown

end Facts

/-! ## Facts about expressions -/

variable {K : Type} [Scalar K]

abbrev TermFacts (K : Type) := List (Option K × Facts)

namespace TermFacts

def lessOne (terms : TermFacts K) : TermFacts K :=
  match terms with
  | (some c, _) :: rest =>
      let d := c + Scalar.ofInt (-1)
      if Scalar.isZero d then rest else (some d, .ofKind (Scalar.kind d)) :: rest
  | terms => (some (Scalar.ofInt (-1)), .ofRat true (-1)) :: terms

def facts (constant : Bool) (value : Option ComplexValue) (terms : TermFacts K) : Facts :=
  .ofSum constant value (terms.map Prod.snd)

end TermFacts

mutual

def Expression.termFacts : Expression K → TermFacts K
  | .zero => []
  | .plus c p e =>
      match p with
      | .one => (some c, .ofKind (Scalar.kind c)) :: e.termFacts
      | p =>
          let factors := p.factorFacts
          let all := if c = 1 then factors else Facts.ofKind (Scalar.kind c) :: factors
          (none, match all with
            | [f] => f
            | fs => .ofProduct fs) :: e.termFacts

def Product.factorFacts : Product K → List Facts
  | .one => []
  | .times b e p =>
      let base := b.facts
      let exponent := e.facts
      (match b, e with
        | .constant .euler, .integer 1 => base
        | .constant .euler, _ => .ofExponential exponent
        | _, .integer 1 => base
        | _, e => .ofPower (e.rational?.any (fun q => q.den = 2)) base exponent) :: p.factorFacts

def Base.facts : Base K → Facts
  | .symbol s => if s.isNamed then .real else .unknown
  | .constant _ => .positiveConstant
  | .number c => .ofKind (Scalar.kind c)
  | .apply f e =>
      let terms := e.termFacts
      let constant := e.symbols.isEmpty
      let value := if constant then e.value? else none
      .ofFunction f constant (value.bind (ComplexValue.image? f)) (terms.facts constant value)
        (terms.lessOne.facts constant (value.map (fun z => z.add ⟨-1, 0⟩)))
  | .group e =>
      let constant := e.symbols.isEmpty
      e.termFacts.facts constant (if constant then e.value? else none)

def Exponent.facts : Exponent K → Facts
  | .integer n => .ofRat true n
  | .multiple c e =>
      let constant := e.symbols.isEmpty
      let direction := e.termFacts.facts constant (if constant then e.value? else none)
      if c = 1 then direction
      else if e = Exponent.unit then .ofKind (Scalar.kind c)
      else .ofProduct [.ofKind (Scalar.kind c), direction]

end

def Expression.facts (e : Expression K) : Facts :=
  let constant := e.symbols.isEmpty
  e.termFacts.facts constant (if constant then e.value? else none)

namespace Expression

def isNonnegative (e : Expression K) : Bool := Truth.holds e.facts.isNonnegative

def isReal (e : Expression K) : Bool := Truth.holds e.facts.isReal

end Expression

end HybridRelaxation
