import HybridRelaxation.Number.FloatValue

/-!
# Reading a floating-point number

A number text is a sign, digits with an optional point, and an optional exponent, or a name for
infinity or for an undefined value. Blanks around it are ignored and an underscore may stand
between two digits. The decimal digits of every script count as digits.
-/

namespace HybridRelaxation

/-! ## Characters -/

def isBlank (c : Char) : Bool :=
  let n := c.toNat
  (9 ≤ n && n ≤ 13) || n = 0x20 || n = 0x85 || n = 0xA0 || n = 0x1680 ||
    (0x2000 ≤ n && n ≤ 0x200A) || n = 0x2028 || n = 0x2029 || n = 0x202F || n = 0x205F ||
    n = 0x3000

/-- The zeros of the scripts that have decimal digits; the other nine digits follow each zero. -/
def decimalZeros : List Nat :=
  [0x30, 0x660, 0x6F0, 0x7C0, 0x966, 0x9E6, 0xA66, 0xAE6, 0xB66, 0xBE6, 0xC66, 0xCE6, 0xD66,
    0xDE6, 0xE50, 0xED0, 0xF20, 0x1040, 0x1090, 0x17E0, 0x1810, 0x1946, 0x19D0, 0x1A80,
    0x1A90, 0x1B50, 0x1BB0, 0x1C40, 0x1C50, 0xA620, 0xA8D0, 0xA900, 0xA9D0, 0xA9F0, 0xAA50,
    0xABF0, 0xFF10, 0x104A0, 0x10D30, 0x11066, 0x110F0, 0x11136, 0x111D0, 0x112F0, 0x11450,
    0x114D0, 0x11650, 0x116C0, 0x11730, 0x118E0, 0x11950, 0x11C50, 0x11D50, 0x11DA0,
    0x16A60, 0x16AC0, 0x16B50, 0x1D7CE, 0x1D7D8, 0x1D7E2, 0x1D7EC, 0x1D7F6, 0x1E140,
    0x1E2F0, 0x1E950, 0x1FBF0]

def plainDigit (c : Char) : Char :=
  match decimalZeros.find? (fun first => first ≤ c.toNat && c.toNat ≤ first + 9) with
  | some first => Char.ofNat ('0'.toNat + (c.toNat - first))
  | none => c

def trimBlanks (cs : List Char) : List Char :=
  ((cs.dropWhile isBlank).reverse.dropWhile isBlank).reverse

/-- The text without its underscores, if each stands between two digits. -/
def removeSeparators? (afterDigit : Bool) : List Char → Option (List Char)
  | [] => some []
  | '_' :: rest =>
      match rest with
      | d :: _ => if afterDigit && d.isDigit then removeSeparators? false rest else none
      | [] => none
  | c :: rest => (removeSeparators? c.isDigit rest).map (c :: ·)

/-! ## Parts of a number -/

def splitSign : List Char → Bool × List Char
  | '-' :: rest => (true, rest)
  | '+' :: rest => (false, rest)
  | cs => (false, cs)

def splitDigits (cs : List Char) : List Char × List Char :=
  (cs.takeWhile Char.isDigit, cs.dropWhile Char.isDigit)

def digitsValue (ds : List Char) : Nat :=
  ds.foldl (fun n c => 10 * n + (c.toNat - '0'.toNat)) 0

def readInteger? (text : List Char) : Option Int := do
  let cs ← removeSeparators? false ((trimBlanks text).map plainDigit)
  let (negative, cs) := splitSign cs
  match splitDigits cs with
  | (d :: ds, []) => some (if negative then -(digitsValue (d :: ds) : Int) else digitsValue (d :: ds))
  | _ => none

def readExponent? : List Char → Option Int
  | [] => some 0
  | c :: rest =>
      if c = 'e' || c = 'E' then
        let (negative, rest) := splitSign rest
        match splitDigits rest with
        | ([], _) => none
        | (ds, []) => some (if negative then -(digitsValue ds : Int) else digitsValue ds)
        | (_, _ :: _) => none
      else none

def readMantissa? (cs : List Char) : Option (List Char × Nat × List Char) :=
  let (whole, rest) := splitDigits cs
  let (fraction, rest) :=
    match rest with
    | '.' :: after => splitDigits after
    | _ => ([], rest)
  if whole.isEmpty && fraction.isEmpty then none
  else some (whole ++ fraction, fraction.length, rest)

/--
The eight-byte number nearest to `digits * 10 ^ exponent`. Far outside the range the answer does
not depend on the digits, so the power is not formed.
-/
def decimalValue (negative : Bool) (digits : Nat) (exponent : Int) : FloatValue :=
  let size : Int := exponent + digitCount 10 digits
  if digits = 0 || size < -400 then .finite negative 0
  else if 400 < size then .infinite negative
  else
    .round .double negative
      (mkRat ((digits * Nat.pow 10 exponent.toNat : Nat) : Int) (Nat.pow 10 (-exponent).toNat))

def namedValue? (negative : Bool) (name : String) : Option FloatValue :=
  if name = "inf" || name = "infinity" then some (.infinite negative)
  else if name = "nan" then some .undefined
  else none

def FloatValue.read? (text : String) : Option FloatValue := do
  let cs ← removeSeparators? false ((trimBlanks text.toList).map plainDigit)
  let (negative, cs) := splitSign cs
  match namedValue? negative (String.ofList (cs.map Char.toLower)) with
  | some value => some value
  | none => do
      let (digits, places, rest) ← readMantissa? cs
      let exponent ← readExponent? rest
      pure (decimalValue negative (digitsValue digits) (exponent - places))

end HybridRelaxation
