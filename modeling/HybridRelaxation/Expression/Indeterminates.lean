import HybridRelaxation.Datum
import HybridRelaxation.Expression.Basic

/-!
# Families of indeterminates

A family of indeterminates shares a name and is numbered from one. The name is read as the name of
a family, so other words and ranges in it stand for symbols of their own.

The name of a family lists words between commas or blanks. A colon in a word makes a range: `x1:3`
stands for `x1` and `x2`, and `a:c` for `a`, `b` and `c`. A word with several ranges stands for
all combinations, the last range running fastest, and one pair of parentheses around a range is
left out. A backslash before a comma, a colon or a blank takes their meaning away.
-/

namespace HybridRelaxation

/-- A character of a family name. One that was escaped separates nothing. -/
structure NameChar where
  char : Char
  escaped : Bool
  deriving DecidableEq

namespace NameChar

def isPlain (c : NameChar) (char : Char) : Bool := !c.escaped && c.char = char

/-- Blanks between words; the four separators of plain text count too. -/
def isBlank (c : NameChar) : Bool :=
  !c.escaped && (HybridRelaxation.isBlank c.char || (0x1C ≤ c.char.toNat && c.char.toNat ≤ 0x1F))

def isDigit (c : NameChar) : Bool := !c.escaped && c.char.isDigit

def isLetter (c : NameChar) : Bool := !c.escaped && c.char.isAlpha

end NameChar

namespace FamilyName

/-! ## Characters and words -/

def escapable : List Char := [',', ':', ' ']

def readChars : List Char → List NameChar
  | [] => []
  | [c] => [⟨c, false⟩]
  | c :: d :: rest =>
      if c = '\\' ∧ d ∈ escapable then ⟨d, true⟩ :: readChars rest
      else ⟨c, false⟩ :: readChars (d :: rest)

def textOf (cs : List NameChar) : String := String.ofList (cs.map NameChar.char)

def splitAtEach {α : Type} (separates : α → Bool) : List α → List (List α)
  | [] => [[]]
  | a :: rest =>
      match separates a, splitAtEach separates rest with
      | true, parts => [] :: parts
      | false, part :: parts => (a :: part) :: parts
      | false, [] => [[a]]

def wordsOf (cs : List NameChar) : List (List NameChar) :=
  (splitAtEach NameChar.isBlank cs).filter (fun word => !word.isEmpty)

/-- The words of a name; between two commas there has to be one. -/
def words (name : List NameChar) : Except Failure (List (List NameChar)) :=
  let parts := (splitAtEach (fun c => c.isPlain ',') name).map wordsOf
  if parts.any List.isEmpty then .error .badValue else .ok parts.flatten

/-! ## Ranges -/

structure NameRange where
  choices : List String

def NameRange.ofNumbers (first stop : Int) : NameRange :=
  ⟨(List.range (stop - first).toNat).map (fun (k : Nat) => toString (first + Int.ofNat k))⟩

/-- Small letters come before capital letters. -/
def letters : List Char := "abcdefghijklmnopqrstuvwxyzABCDEFGHIJKLMNOPQRSTUVWXYZ".toList

def NameRange.ofLetters (first last : Char) : NameRange :=
  ⟨((letters.take (letters.idxOf last + 1)).drop (letters.idxOf first)).map String.singleton⟩

def numberOf (cs : List NameChar) : Nat := digitsValue (cs.map NameChar.char)

def numberRange? (cs : List NameChar) : Option (NameRange × List NameChar) :=
  match cs.dropWhile NameChar.isDigit with
  | colon :: after =>
      let digits := after.takeWhile NameChar.isDigit
      if colon.isPlain ':' && !digits.isEmpty then
        some (.ofNumbers (numberOf (cs.takeWhile NameChar.isDigit)) (numberOf digits),
          after.dropWhile NameChar.isDigit)
      else none
  | [] => none

def letterRange? : List NameChar → Option (NameRange × List NameChar)
  | first :: second :: rest =>
      if first.isPlain ':' then
        if second.isLetter then some (.ofLetters 'a' second.char, rest) else none
      else
        match rest with
        | last :: rest =>
            if first.isLetter && second.isPlain ':' && last.isLetter then
              some (.ofLetters first.char last.char, rest)
            else none
        | [] => none
  | _ => none

def range? (cs : List NameChar) : Option (NameRange × List NameChar) :=
  (numberRange? cs).orElse (fun _ => letterRange? cs)

structure RangedText where
  head : List NameChar
  tail : List (NameRange × List NameChar)

/-- The ranges of a text, from the left; the number bounds the ranges and characters passed. -/
def splitRanges : Nat → List NameChar → RangedText
  | 0, cs => ⟨cs, []⟩
  | _, [] => ⟨[], []⟩
  | fuel + 1, c :: cs =>
      match range? (c :: cs) with
      | some (range, rest) =>
          let after := splitRanges fuel rest
          ⟨[], (range, after.head) :: after.tail⟩
      | none =>
          let after := splitRanges fuel cs
          ⟨c :: after.head, after.tail⟩

def unwrap : List NameChar → List (NameRange × List NameChar) → RangedText
  | text, [] => ⟨text, []⟩
  | text, (range, next) :: rest =>
      let enclosed := text.getLast? = some ⟨'(', false⟩ ∧ next.head? = some ⟨')', false⟩
      let after := unwrap (if enclosed then next.tail else next) rest
      ⟨if enclosed then text.dropLast else text, (range, after.head) :: after.tail⟩

/-! ## Choices -/

def integerOf (cs : List NameChar) : Except Failure Int :=
  if cs.any NameChar.escaped then .error .badValue
  else
    match readInteger? (cs.map NameChar.char) with
    | some n => .ok n
    | none => .error .badValue

/-- What a text without a plain range stands for: a colon in it needs integers around it. -/
def textChoices (cs : List NameChar) : Except Failure (List String) :=
  match splitAtEach (fun c => c.isPlain ':') cs with
  | [_] => .ok [textOf cs]
  | [first, stop] =>
      if (stop.getLast?.map NameChar.isDigit).getD false then do
        let low ← if first.isEmpty then .ok 0 else integerOf first
        let high ← integerOf stop
        .ok (NameRange.ofNumbers low high).choices
      else .error .badValue
  | _ => .error .badValue

def combinations : List (List String) → List String
  | [] => [""]
  | choices :: rest => choices.flatMap (fun text => (combinations rest).map (text ++ ·))

def choicesOf : List (Except Failure (List String)) → Except Failure (Option (List (List String)))
  | [] => .ok (some [])
  | choices :: rest => do
      match ← choices with
      | [] => .ok none
      | texts => do .ok ((← choicesOf rest).map (texts :: ·))

def expandWord (word : List NameChar) : Except Failure (List String × Bool) :=
  if word.any (fun c => c.isPlain ':') then do
    let ranged := splitRanges word.length word
    let ranged := unwrap ranged.head ranged.tail
    let parts := textChoices ranged.head :: ranged.tail.flatMap (fun (range, text) =>
      [.ok range.choices, textChoices text])
    match ← choicesOf parts with
    | some lists => .ok (combinations lists, true)
    | none => .ok ([], false)
  else .ok ([textOf word], false)

/-- The names of a family, in order. A single name that is no range is not a family. -/
def expand (name : String) : Except Failure (List String) := do
  let expanded ← (← words (readChars name.toList)).mapM expandWord
  let names := expanded.flatMap Prod.fst
  if names.length = 1 ∧ !expanded.any Prod.snd then .error .wrongType else .ok names

end FamilyName

/-! ## Numbered families -/

def successorText : Datum → Except Failure String
  | .integer n => .ok (toString (n + 1))
  | .flag b => .ok (if b then "2" else "1")
  | .real x => .ok (FloatValue.add .double x (.ofInt 1)).literal
  | _ => .error .wrongType

def indeterminates (name count : Datum) : Except Failure (List Symbol) :=
  if count.equalsInteger 0 then .ok []
  else do
    let names ← FamilyName.expand (name.display ++ "_1:" ++ (← successorText count))
    .ok (names.map .named)

end HybridRelaxation
