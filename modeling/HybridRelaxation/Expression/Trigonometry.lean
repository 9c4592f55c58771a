import HybridRelaxation.Expression.Fraction

/-!
# Sines and cosines

A sign leaves the odd function and the even one, quarter turns are taken out of a sum, and sines
and cosines of many fractions of a turn are roots of rationals. A real multiple of the imaginary
unit turns a sine into a hyperbolic one.
-/

namespace HybridRelaxation

variable {K : Type} [Scalar K]

namespace Rules

open Expression

/-! ## Fractions of a turn -/

/-- Two fractions with the given denominators whose difference has the denominator of the key. -/
def splitAngles : List (Nat × Nat × Nat) :=
  [(12, 3, 4), (20, 4, 5), (30, 5, 6), (15, 6, 10), (24, 6, 8), (40, 8, 10), (60, 20, 30),
    (120, 40, 60)]

def cosineOfTurns (r : Rules K) : Nat → Rat → Option (Expression K)
  | 0, _ => none
  | fuel + 1, turns =>
      let shown (turns : Rat) : Expression K :=
        (cosineOfTurns r fuel turns).getD (applied .cos (halfTurns turns))
      let exact (q : Rat) : Expression K := number (Scalar.exact q)
      if turns.den = 1 then some (exact (if turns.num % 2 = 0 then 1 else -1))
      else if turns.den = 2 then some .zero
      else
        let turns := if turns < 0 then -turns else turns
        let q : Nat := turns.den
        let p : Int := turns.num % (2 * q)
        if (q : Int) < p then some (shown (mkRat (p - q) q)).neg
        else if (q : Int) < 2 * p then some (shown (mkRat (q - p) q)).neg
        else
          match splitAngles.find? (fun (key, _, _) => key = q) with
          | some (_, a, b) =>
              let first := mkRat p a
              let second := mkRat p b
              some ((r.product [shown first, shown second]).add
                (r.product [shown (1 / 2 - first), shown (1 / 2 - second)]))
          | none =>
              if 12 < q then none
              else if q = 3 then some (exact (1 / 2))
              else if q = 5 then
                some ((exact (if p = 1 then 1 / 4 else -1 / 4)).add
                  ((rationalPower 5 (1 / 2)).scale (Scalar.exact (1 / 4))))
              else if q % 2 = 0 then
                match cosineOfTurns r fuel (mkRat (2 * p) q) with
                | none => none
                | some double =>
                    some (r.power (((exact 1).add double).scale (Scalar.exact (1 / 2)))
                      (exact (1 / 2)))
              else none

def sineOfTurns (r : Rules K) (turns : Rat) : Expression K :=
  let reduced := turns - 2 * (turns / 2).floor
  let (negative, half) := if 1 < reduced then (true, reduced - 1) else (false, reduced)
  let quarter := if 1 / 2 < half then 1 - half else half
  let value : Expression K :=
    if quarter.den = 1 then .zero
    else (cosineOfTurns r 12 (1 / 2 - quarter)).getD (applied .sin (halfTurns quarter))
  if negative then value.neg else value

/-! ## Multiples of pi -/

/-- A floating-point number with one binary place after the leading ones, as a rational. -/
def shortFraction? (q : Rat) : Option Rat :=
  let fraction := q.abs - q.abs.floor
  if fraction = 0 then some q
  else
    let leading := leadingExponent 2 fraction
    let mantissa := fraction * FloatFormat.powerOfTwo (-leading)
    let places := if mantissa * mantissa < 2 then -leading else -leading - 1
    if (q * FloatFormat.powerOfTwo places).den = 1 then some q else none

def turns? (e : Expression K) : Option Rat :=
  match turnCoefficient? e with
  | some (c, .one) =>
      match Scalar.kind c with
      | .exact q => some q
      | .measured q => shortFraction? q
      | _ => none
  | _ => none

/-- A sum as quarter turns and what is left, which keeps less than a quarter turn. -/
def peelQuarters (e : Expression K) : Expression K × Rat :=
  let turning (c : K) (p : Product K) : Option Rat :=
    match turnCoefficient? (.plus c p .zero) with
    | some (d, .one) => Scalar.exactValue? d
    | _ => none
  let turns := e.terms.foldl (fun sum (c, p) => sum + (turning c p).getD 0) (0 : Rat)
  let quarters : Rat := (2 * turns).floor / 2
  let rest := e.filterTerms (fun c p => (turning c p).isNone)
  if turns = 0 then (e, 0) else (rest.add (halfTurns (turns - quarters)), quarters)

/-! ## Functions -/

def atSpecialNumber? (f : UnaryFunction) (e : Expression K) : Option (Expression K) :=
  match e.number? with
  | some c =>
      match Scalar.kind c with
      | .undefined | .unsignedInfinity => some (number Scalar.undefined)
      | .infinite _ => some (applied f e)
      | _ => none
  | none => none

def imaginaryArgument? (e : Expression K) : Option (Expression K) :=
  if Truth.fails e.facts.isReal then
    e.imaginaryCoefficient?.map (fun (c, p) => .ofTerm c p)
  else none

def sine (r : Rules K) (e : Expression K) : Expression K :=
  match atSpecialNumber? .sin e with
  | some value => value
  | none =>
      if Truth.holds e.facts.isZero then .zero
      else if e.leansNegative then (r.apply .sin e.neg).neg
      else
        match imaginaryArgument? e, turns? e with
        | some x, _ => r.product [imaginaryUnit, r.apply .sinh x]
        | none, some turns => sineOfTurns r turns
        | none, none =>
            let (rest, quarters) := if e.isSum then peelQuarters e else (e, 0)
            if quarters ≠ 0 then
              (r.product [r.apply .sin (halfTurns quarters), r.apply .cos rest]).add
                (r.product [r.apply .cos (halfTurns quarters), r.apply .sin rest])
            else (e.measuredValue? .sin).getD (applied .sin e)

def cosine (r : Rules K) (e : Expression K) : Expression K :=
  match atSpecialNumber? .cos e with
  | some value => value
  | none =>
      if Truth.holds e.facts.isZero then number 1
      else if e.leansNegative then r.apply .cos e.neg
      else
        match imaginaryArgument? e, turns? e with
        | some x, _ => r.apply .cosh x
        | none, some turns =>
            match cosineOfTurns r 12 turns with
            | some value => value
            | none => applied .cos (halfTurns (turns - 2 * (turns / 2).floor))
        | none, none =>
            let (rest, quarters) := if e.isSum then peelQuarters e else (e, 0)
            if quarters ≠ 0 then
              (r.product [r.apply .cos (halfTurns quarters), r.apply .cos rest]).sub
                (r.product [r.apply .sin (halfTurns quarters), r.apply .sin rest])
            else (e.measuredValue? .cos).getD (applied .cos e)

def hyperbolicSine (r : Rules K) (e : Expression K) : Expression K :=
  match e.number?.map Scalar.kind with
  | some .undefined | some .unsignedInfinity => number Scalar.undefined
  | some (.infinite _) => e
  | _ =>
      if Truth.holds e.facts.isZero then .zero
      else
        match e.imaginaryCoefficient? with
        | some (c, p) => r.product [imaginaryUnit, r.apply .sin (.ofTerm c p)]
        | none =>
            if e.leansNegative then (r.apply .sinh e.neg).neg
            else (e.measuredValue? .sinh).getD (applied .sinh e)

def hyperbolicCosine (r : Rules K) (e : Expression K) : Expression K :=
  match e.number?.map Scalar.kind with
  | some .undefined | some .unsignedInfinity => number Scalar.undefined
  | some (.infinite _) => number (Scalar.infinity false)
  | _ =>
      if Truth.holds e.facts.isZero then number 1
      else
        match e.imaginaryCoefficient? with
        | some (c, p) => r.apply .cos (.ofTerm c p)
        | none =>
            if e.leansNegative then r.apply .cosh e.neg
            else (e.measuredValue? .cosh).getD (applied .cosh e)

end Rules

end HybridRelaxation
