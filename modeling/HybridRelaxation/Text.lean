import HybridRelaxation.Text.Unprinted

/-!
# Quoted text

A text is quoted with single quotes, or with double quotes if it holds a single quote and no double
quote. The quote, the backslash and characters without a printed form are escaped.
-/

namespace HybridRelaxation

def hexDigits (width n : Nat) : List Char :=
  let digits := Nat.toDigits 16 n
  List.replicate (width - digits.length) '0' ++ digits

def quoteChar (quote c : Char) : List Char :=
  if c = quote || c = '\\' then ['\\', c]
  else if c = '\n' then ['\\', 'n']
  else if c = '\r' then ['\\', 'r']
  else if c = '\t' then ['\\', 't']
  else if isPrinted c then [c]
  else if c.toNat < 0x100 then '\\' :: 'x' :: hexDigits 2 c.toNat
  else if c.toNat < 0x10000 then '\\' :: 'u' :: hexDigits 4 c.toNat
  else '\\' :: 'U' :: hexDigits 8 c.toNat

def quoted (text : String) : String :=
  let cs := text.toList
  let quote := if cs.contains '\'' && !cs.contains '"' then '"' else '\''
  String.ofList (quote :: cs.flatMap (quoteChar quote) ++ [quote])

/-! ## Padding -/

def padRight (width : Nat) (text : String) : String :=
  text ++ String.ofList (List.replicate (width - text.length) ' ')

/-- Text between blanks up to a width; an odd blank goes to the right. -/
def padCenter (width : Nat) (text : String) : String :=
  let blanks := width - text.length
  String.ofList (List.replicate (blanks / 2) ' ') ++ text ++
    String.ofList (List.replicate (blanks - blanks / 2) ' ')

@[simp] theorem padRight_zero (text : String) : padRight 0 text = text := by
  simp [padRight]

end HybridRelaxation
