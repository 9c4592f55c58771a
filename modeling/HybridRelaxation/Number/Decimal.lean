import HybridRelaxation.Number.FloatValue

/-!
# Decimal text of numbers

Digits are produced exactly from a rational: a fixed number of significant digits, a fixed number
of places, or the fewest digits that round back to the same eight-byte number. A layout then says
which exponents are written positionally and whether a whole number keeps a point.
-/

namespace HybridRelaxation

/-! ## Digits -/

structure Digits where
  digits : List Char
  exponent : Int
  deriving DecidableEq, Repr

namespace Digits

def zero : Digits := ⟨['0'], 0⟩

def ofNat (n : Nat) (exponent : Int) : Digits := ⟨Nat.toDigits 10 n, exponent⟩

def significant (count : Nat) (magnitude : Rat) : Digits :=
  if magnitude = 0 then ⟨List.replicate count '0', 0⟩
  else
    let exponent := leadingExponent 10 magnitude
    let n := nearestScaled 10 magnitude ((count : Int) - 1 - exponent)
    if n < Nat.pow 10 count then ofNat n exponent else ofNat (n / 10) (exponent + 1)

def trimmed (d : Digits) : Digits :=
  match (d.digits.reverse.dropWhile (· = '0')).reverse with
  | [] => ⟨['0'], d.exponent⟩
  | digits => ⟨digits, d.exponent⟩

end Digits

/-! ## Fewest digits -/

/-- The rationals that round to a magnitude of the format, with its ends included or not. -/
structure RoundingInterval where
  lower : Rat
  upper : Rat
  closed : Bool

namespace RoundingInterval

/-- Half the gap to the neighbour on each side; below a power of two the gap is half as wide. -/
def ofMagnitude (format : FloatFormat) (magnitude : Rat) : RoundingInterval :=
  let place := format.lastPlace magnitude
  let unit := FloatFormat.powerOfTwo place
  let significand := nearestScaled 2 magnitude (-place)
  let narrow := significand == Nat.pow 2 (format.precision - 1) &&
    (match format.leastExponent with | none => true | some least => decide (least < place))
  ⟨magnitude - unit / (if narrow then 4 else 2), magnitude + unit / 2, significand % 2 = 0⟩

def contains (i : RoundingInterval) (q : Rat) : Bool :=
  if i.closed then i.lower ≤ q && q ≤ i.upper else i.lower < q && q < i.upper

end RoundingInterval

def decimalIn? (interval : RoundingInterval) (magnitude : Rat) (exponent : Int)
    (count : Nat) : Option Nat :=
  let place := exponent - (count : Int) + 1
  let (numerator, denominator) := scaled 10 magnitude (-place)
  let below := numerator / denominator
  let value (n : Nat) : Rat :=
    mkRat ((n * Nat.pow 10 place.toNat : Nat) : Int) (Nat.pow 10 (-place).toNat)
  let candidates := [below, below + 1].filter (fun n => interval.contains (value n))
  match candidates with
  | [] => none
  | [n] => some n
  | _ => some (nearest numerator denominator)

def Digits.shortest (format : FloatFormat) (magnitude : Rat) : Digits :=
  if magnitude = 0 then .zero
  else
    let interval := RoundingInterval.ofMagnitude format magnitude
    let exponent := leadingExponent 10 magnitude
    let found := (List.range 17).findSome? (fun k =>
      (decimalIn? interval magnitude exponent (k + 1)).map (fun n => (k + 1, n)))
    match found with
    | some (count, n) =>
        (if n < Nat.pow 10 count then ofNat n exponent else ofNat (n / 10) (exponent + 1)).trimmed
    | none => (significant 17 magnitude).trimmed

/-! ## Layouts -/

structure DecimalLayout where
  positionalFrom : Int
  positionalBelow : Int
  keepPoint : Bool

def zeros (n : Nat) : List Char := List.replicate n '0'

def exponentText (exponent : Int) : String :=
  let digits := toString exponent.natAbs
  (if exponent < 0 then "-" else "+") ++ (if digits.length < 2 then "0" ++ digits else digits)

def scientificText (d : Digits) : String :=
  let point : List Char :=
    match d.digits with
    | [] => []
    | [c] => [c]
    | c :: rest => c :: '.' :: rest
  String.ofList point ++ "e" ++ exponentText d.exponent

def positionalText (keepPoint : Bool) (d : Digits) : String :=
  if d.exponent < 0 then
    "0." ++ String.ofList (zeros (-d.exponent - 1).toNat ++ d.digits)
  else
    let width := d.exponent.toNat + 1
    if d.digits.length ≤ width then
      String.ofList (d.digits ++ zeros (width - d.digits.length)) ++ (if keepPoint then ".0" else "")
    else
      String.ofList (d.digits.take width) ++ "." ++ String.ofList (d.digits.drop width)

def DecimalLayout.text (layout : DecimalLayout) (d : Digits) : String :=
  if layout.positionalFrom ≤ d.exponent ∧ d.exponent < layout.positionalBelow then
    positionalText layout.keepPoint d
  else scientificText d

/-! ## Written forms -/

def FloatValue.textWith (digitsText : Rat → String) : FloatValue → String
  | .undefined => "nan"
  | .infinite false => "inf"
  | .infinite true => "-inf"
  | .finite negative magnitude => (if negative then "-" else "") ++ digitsText magnitude

/-- Console and literal text: positional from `10 ^ -4` to below `10 ^ 16`, whole numbers keep `.0`. -/
def literalLayout : DecimalLayout := ⟨-4, 16, true⟩

def FloatValue.literal : FloatValue → String :=
  textWith (fun magnitude => literalLayout.text (Digits.shortest .double magnitude))

def generalLayout : DecimalLayout := ⟨-4, 12, false⟩

def FloatValue.general : FloatValue → String :=
  textWith (fun magnitude => generalLayout.text (Digits.significant 12 magnitude).trimmed)

def FloatValue.scientific (places : Nat) : FloatValue → String :=
  textWith (fun magnitude => scientificText (Digits.significant (places + 1) magnitude))

def fixedDigits (places : Nat) (magnitude : Rat) : String :=
  let n := nearestScaled 10 magnitude places
  let digits := Nat.toDigits 10 n
  let padded := zeros (places + 1 - digits.length) ++ digits
  let whole := padded.length - places
  String.ofList (padded.take whole) ++ "." ++ String.ofList (padded.drop whole)

def fixedText (places : Nat) (q : Rat) : String :=
  let n := nearestScaled 10 q.abs places
  (if q < 0 ∧ n ≠ 0 then "-" else "") ++ fixedDigits places q.abs

def rationalText (q : Rat) : String :=
  if q.den = 1 then toString q.num else toString q.num ++ "/" ++ toString q.den

/-- Values below `2 ^ 53` with at most twenty binary places are written as exact rationals. -/
def isShortBinary (magnitude : Rat) : Bool :=
  magnitude < (Nat.pow 2 53 : Nat) && Nat.pow 2 20 % magnitude.den = 0

def FloatValue.answer : FloatValue → String
  | .finite negative magnitude =>
      if isShortBinary magnitude then rationalText (if negative then -magnitude else magnitude)
      else FloatValue.general (.finite negative magnitude)
  | value => value.general

end HybridRelaxation
