import HybridRelaxation.Failure
import HybridRelaxation.Number.Decimal
import HybridRelaxation.Number.Mixed
import HybridRelaxation.Number.Reading
import HybridRelaxation.Text

/-!
# Data of any kind

Option values, relaxation degrees and the mode labels of transitions are given as data of any kind
and checked where they are used. A datum has a literal text, which messages quote.
-/

namespace HybridRelaxation

inductive Datum where
  | none
  | flag (value : Bool)
  | integer (value : Int)
  | real (value : FloatValue)
  | text (value : String)
  | list (items : List Datum)
  | table (entries : List (String × Datum))

namespace Datum

instance : Inhabited Datum := ⟨.none⟩

/-! ## Tables -/

/-- A key given again keeps its first place and takes its last value. -/
def put (key : String) (value : Datum) : List (String × Datum) → List (String × Datum)
  | [] => [(key, value)]
  | (other, old) :: rest =>
      if other = key then (key, value) :: rest else (other, old) :: put key value rest

def ofEntries (entries : List (String × Datum)) : List (String × Datum) :=
  entries.foldl (fun known (key, value) => put key value known) []

def isKey : Datum → Bool
  | .list _ => false
  | .table _ => false
  | _ => true

/-! ## Text -/

mutual

def literal : Datum → String
  | .none => "None"
  | .flag true => "True"
  | .flag false => "False"
  | .integer n => toString n
  | .real x => x.literal
  | .text s => quoted s
  | .list items => "[" ++ ", ".intercalate (literals items) ++ "]"
  | .table entries => "\x7b" ++ ", ".intercalate (entryLiterals entries) ++ "\x7d"

def literals : List Datum → List String
  | [] => []
  | d :: rest => d.literal :: literals rest

def entryLiterals : List (String × Datum) → List String
  | [] => []
  | (key, d) :: rest => (quoted key ++ ": " ++ d.literal) :: entryLiterals rest

end

def display : Datum → String
  | .text s => s
  | d => d.literal

/-! ## Readings -/

/-- The integer that a datum is; flags count as zero and one. -/
def integer? : Datum → Option Int
  | .integer n => some n
  | .flag b => some (if b then 1 else 0)
  | _ => Option.none

def kindName : Datum → String
  | .none => "NoneType"
  | .flag _ => "bool"
  | .integer _ => "int"
  | .real _ => "float"
  | .text _ => "str"
  | .list _ => "list"
  | .table _ => "dict"

def payload : Datum → Payload
  | .none => .none
  | .text s => .text s
  | d => .text d.kindName

def position (d : Datum) : Except Failure Int :=
  match d.integer? with
  | some n => .ok n
  | Option.none => .error .wrongType

def equalsInteger (n : Int) : Datum → Bool
  | .real x => x.toRat? == some (n : Rat)
  | d => d.integer? == some n

mutual

/-- Numbers are compared by value, lists entry by entry, and tables key by key. -/
def equals : Datum → Datum → Bool
  | .none, .none => true
  | .text s, .text other => s = other
  | .real x, .real y => x ≠ .undefined && (x = y || (x.toRat?.isSome && x.toRat? = y.toRat?))
  | .list xs, .list ys => equalItems xs ys
  | .table xs, .table ys => xs.length = ys.length && equalEntries xs ys
  | .real x, d => d.integer?.any (fun n => equalsInteger n (.real x))
  | d, e => d.integer?.any (fun n => e.equalsInteger n)

def equalItems : List Datum → List Datum → Bool
  | [], [] => true
  | d :: rest, e :: others => d.equals e && equalItems rest others
  | _, _ => false

def equalEntries : List (String × Datum) → List (String × Datum) → Bool
  | [], _ => true
  | (key, d) :: rest, entries => (entries.lookup key).any d.equals && equalEntries rest entries

end

theorem equals_integer (d : Datum) (n : Int) : d.equals (.integer n) = d.equalsInteger n := by
  cases d with
  | real x => simp [equals, equalsInteger, integer?]
  | flag b => simp [equals, equalsInteger, integer?, BEq.comm]
  | integer m => simp [equals, equalsInteger, integer?, BEq.comm]
  | _ => simp [equals, equalsInteger, integer?]

def isTruthy : Datum → Bool
  | .none => false
  | .flag b => b
  | .integer n => n ≠ 0
  | .real x => x.toRat? ≠ some 0
  | .text s => s ≠ ""
  | .list items => !items.isEmpty
  | .table entries => !entries.isEmpty

def toFloat : Datum → Except Failure FloatValue
  | .flag b => .ok (.ofInt (if b then 1 else 0))
  | .integer n =>
      match FloatValue.ofInt n with
      | .infinite _ => .error .tooLarge
      | x => .ok x
  | .real x => .ok x
  | .text s =>
      match FloatValue.read? s with
      | some x => .ok x
      | Option.none => .error .badValue
  | _ => .error .wrongType

def size : Datum → Except Failure FloatValue
  | .text _ => .error .badValue
  | d => d.toFloat

/-- The number that a datum is: whole numbers are exact, and what is no number counts as zero. -/
def number : Datum → Number
  | .integer n => .exact n
  | .flag b => .exact (if b then 1 else 0)
  | .real x => .float x
  | _ => .exact 0

/-- The number that a datum or its text is, with a whole number exact. -/
def toNumber : Datum → Except Failure Number
  | .integer n => .ok (.exact n)
  | d => d.toFloat.map .float

def ofNumber (c : Number) : Datum :=
  match c with
  | .exact q => if q.den = 1 then .integer q.num else .real (.ofRat .unbounded q)
  | .float x => .real x
  | .complexInfinity => .real .undefined

mutual

def floats : Datum → Except Failure (List FloatValue)
  | .list items => floatsOf items
  | .none => .ok [.undefined]
  | d => d.toFloat.map (fun x => [x])

def floatsOf : List Datum → Except Failure (List FloatValue)
  | [] => .ok []
  | d :: rest => do
      let first ← d.floats
      let others ← floatsOf rest
      .ok (first ++ others)

end

end Datum

/-!
## Positions in lists

A position counts from the start of a list, or, if it is negative, from the end. A part of a list
is given by two positions, and ends where the list does.
-/

variable {α : Type}

def entryAt? (xs : List α) (position : Int) : Option α :=
  let k := if position < 0 then position + xs.length else position
  if k < 0 then none else xs[k.toNat]?

def entryAt (xs : List α) (position : Int) : Except Failure α :=
  match entryAt? xs position with
  | some x => .ok x
  | none => .error .outOfRange

def boundAt (length : Nat) (position : Int) : Nat :=
  min length (if position < 0 then position + length else position).toNat

def slice (xs : List α) (start stop : Int) : List α :=
  (xs.take (boundAt xs.length stop)).drop (boundAt xs.length start)

@[simp] theorem entryAt?_natCast (xs : List α) (k : Nat) : entryAt? xs k = xs[k]? := by
  simp [entryAt?, Int.not_lt.mpr (Int.natCast_nonneg k)]

end HybridRelaxation
