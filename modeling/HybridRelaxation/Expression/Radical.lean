import HybridRelaxation.Number.Elementary

/-!
# Rational powers of rationals

A product of rational powers of rationals is brought to a rational times roots: powers of integers
that are free of perfect powers, with exponents between zero and one. Powers with one exponent are
one power of the product of the bases, common divisors of two bases are joined, and the powers of
minus one are kept apart unless another power has the same exponent.
-/

namespace HybridRelaxation

/-! ## Factors of integers -/

def divisorFrom (n : Nat) : Nat → Nat → Nat
  | 0, _ => n
  | fuel + 1, d =>
      if n < d * d then n else if n % d = 0 then d else divisorFrom n fuel (d + 1)

/-- Divisors are searched for up to this size; a cofactor without smaller ones counts as prime. -/
def divisorBound : Nat := 32768

def primeFactors : Nat → Nat → List Nat
  | 0, _ => []
  | fuel + 1, n =>
      if n ≤ 1 then []
      else
        let d := divisorFrom n divisorBound 2
        d :: primeFactors fuel (n / d)

def perfectPower? (n : Nat) : Option (Nat × Nat) :=
  if n < 4 then none
  else
    ((List.range (n.log2 - 1)).map (fun k => n.log2 - k)).findSome? (fun exponent =>
      if exponent < 2 then none
      else (Elementary.exactRoot? exponent n).map (fun base => (base, exponent)))

def gatherInto {A B : Type} [BEq A] (join : B → B → B) (key : A) (value : B) :
    List (A × B) → List (A × B)
  | [] => [(key, value)]
  | (other, old) :: rest =>
      if key == other then (other, join old value) :: rest
      else (other, old) :: gatherInto join key value rest

/-- Prime factors with their multiplicities; a perfect power stands for its base. -/
def rootFactors (n : Nat) : List (Nat × Nat) :=
  match perfectPower? n with
  | some found => [found]
  | none => (primeFactors n.log2 n).foldl (fun found d => gatherInto (· + ·) d 1 found) []

/-! ## Radicals -/

structure Radical where
  coefficient : Rat
  roots : List (Rat × Rat)
  deriving DecidableEq, Repr

namespace Radical

def ofRat (q : Rat) : Radical := ⟨q, []⟩

def join (rs : List Radical) : Radical :=
  ⟨rs.foldl (fun c r => c * r.coefficient) 1, rs.flatMap roots⟩

def commonDivisor (p q : Rat) : Rat :=
  mkRat (Nat.gcd p.num.natAbs q.num.natAbs : Int) (Nat.lcm p.den q.den)

def splitWhole (base exponent : Rat) : Rat × Rat :=
  if exponent < 1 then (1, exponent)
  else (Rat.zpow base exponent.floor, exponent - exponent.floor)

/-- What one power shares with the later powers, and the later powers without it. -/
structure Shared where
  base : Rat
  coefficient : Rat
  others : List (Rat × Rat)
  grown : List (Rat × Rat)

def share (exponent : Rat) : Shared → List (Rat × Rat) → Shared
  | s, [] => s
  | s, (base, other) :: rest =>
      if s.base = 1 then { s with others := s.others ++ (base, other) :: rest }
      else
        let divisor := commonDivisor s.base base
        if divisor = 1 then share exponent { s with others := s.others ++ [(base, other)] } rest
        else
          let (whole, fraction) := splitWhole divisor (exponent + other)
          let grown := if fraction = 0 then [] else [(divisor, fraction)]
          share exponent
            ⟨s.base / divisor, s.coefficient * whole, s.others ++ [(base / divisor, other)],
              s.grown ++ grown⟩ rest

/-- Every power made free of common divisors with the others and simplified by itself. -/
def separate (power : Rat → Rat → Radical) : Nat → Radical → List (Rat × Rat) → Radical
  | 0, done, rest => ⟨done.coefficient, done.roots ++ rest⟩
  | _ + 1, done, [] => done
  | fuel + 1, done, (base, exponent) :: rest =>
      let s := share exponent ⟨base, 1, [], []⟩ rest
      let own := if s.base = 1 then ofRat 1 else power s.base exponent
      separate power fuel
        ⟨done.coefficient * s.coefficient * own.coefficient, done.roots ++ own.roots⟩
        (s.others ++ s.grown)

def joinSign (exponent : Rat) (roots : List (Rat × Rat)) : List (Rat × Rat) :=
  if exponent ≠ 1 / 2 ∧ roots.any (fun (base, other) => other = exponent && 0 < base) then
    match roots.findIdx? (fun (base, other) => other = exponent && 0 < base) with
    | some k => roots.modify k (fun (base, other) => (-base, other))
    | none => roots
  else (-1, exponent) :: roots

def signPower (exponent : Rat) : Rat × Rat :=
  (if exponent.floor % 2 = 0 then 1 else -1, exponent - exponent.floor)

mutual

def simplify : Nat → Radical → Radical
  | 0, r => r
  | fuel + 1, r =>
      let inverted := r.roots.map (fun (base, exponent) =>
        if exponent < 0 then power fuel base exponent else ⟨1, [(base, exponent)]⟩)
      let opened := join (ofRat r.coefficient :: inverted)
      let turns := opened.roots.foldl (fun sum (base, exponent) =>
        if base < 0 then sum + exponent else sum) 0
      let byBase := opened.roots.foldl (fun found (base, exponent) =>
        if base.abs = 1 then found else gatherInto (· + ·) base.abs exponent found) []
      let byExponent := byBase.foldl (fun found (base, exponent) =>
        gatherInto (· * ·) exponent base found) []
      let split := byExponent.map (fun (exponent, base) => (base, splitWhole base exponent))
      let whole := split.foldl (fun c (_, c', _) => c * c') opened.coefficient
      let proper := (split.filter (fun (_, _, fraction) => fraction ≠ 0)).map
        (fun (base, _, fraction) => (base, fraction))
      let separated := separate (power fuel) 200 (ofRat whole) proper
      let joined := (separated.roots.foldl (fun found (base, exponent) =>
        gatherInto (· * ·) exponent base found) []).map (fun (exponent, base) => (base, exponent))
      let (sign, exponent) := signPower turns
      let signed := if exponent = 0 then joined else joinSign exponent joined
      let last := signed.map (fun (base, exponent) =>
        if base = -1 then ⟨1, [(base, exponent)]⟩ else power fuel base exponent)
      join (ofRat (sign * separated.coefficient) :: last)

def power : Nat → Rat → Rat → Radical
  | 0, base, exponent => ⟨1, [(base, exponent)]⟩
  | fuel + 1, base, exponent =>
      if exponent.den = 1 then ofRat (Rat.zpow base exponent.num)
      else if base = 1 then ofRat 1
      else if base = -1 then
        let (sign, rest) := signPower exponent
        ⟨sign, [(-1, rest)]⟩
      else if exponent < 0 then
        let inverse := power fuel base.abs⁻¹ (-exponent)
        if base < 0 then simplify fuel (join [power fuel (-1) exponent, inverse]) else inverse
      else if base.den = 1 then
        if base < 0 && exponent = 1 / 2 then
          simplify fuel (join [⟨1, [(-1, 1 / 2)]⟩, power fuel (-base) exponent])
        else integerPower fuel base.num exponent
      else
        let whole : Int := if exponent < 1 then 1 else exponent.floor + 1
        let scale : Radical := ofRat (mkRat 1 (Nat.pow base.den whole.toNat))
        let below := power fuel base.den (whole - exponent)
        let above := if base.num = 1 then ofRat 1 else power fuel base.num exponent
        simplify fuel (join [above, below, scale])

/-- A positive power of an integer, where whole powers of its factors leave the root. -/
def integerPower : Nat → Int → Rat → Radical
  | 0, base, exponent => ⟨1, [(base, exponent)]⟩
  | fuel + 1, base, exponent =>
      let size := base.natAbs
      let sign : List Radical := if base < 0 then [power fuel (-1) exponent] else []
      match Elementary.exactRoot? exponent.den size with
      | some root =>
          simplify fuel (join (ofRat (Nat.pow root exponent.num.toNat : Nat) :: sign))
      | none =>
          let factors : List (Nat × Nat) := (rootFactors size).map (fun (prime, multiplicity) =>
            (prime, multiplicity * exponent.num.toNat))
          let whole : Nat := factors.foldl (fun c (prime, m) =>
            c * Nat.pow prime (m / exponent.den)) 1
          let rests := (factors.map (fun (prime, m) => (prime, m % exponent.den))).filter
            (fun (_, m) => 0 < m)
          let reduced := rests.filter (fun (_, m) => 1 < Nat.gcd m exponent.den)
          let kept := rests.filter (fun (_, m) => Nat.gcd m exponent.den = 1)
          let common : Nat := kept.foldl (fun g (_, m) => Nat.gcd g m) 0
          let product : Nat := kept.foldl (fun c (prime, m) => c * Nat.pow prime (m / common)) 1
          if product = size && whole = 1 && reduced.isEmpty then ⟨1, [(base, exponent)]⟩
          else
            let roots := reduced.map (fun (prime, m) =>
              power fuel (prime : Int) (mkRat (m : Int) exponent.den))
            let rest :=
              if product = 1 then [] else [power fuel (product : Int) (mkRat (common : Int) exponent.den)]
            simplify fuel (join (ofRat (whole : Int) :: roots ++ rest ++ sign))

end

def depth : Nat := 24

end Radical

end HybridRelaxation
