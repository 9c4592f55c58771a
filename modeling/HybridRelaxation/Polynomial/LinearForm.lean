import HybridRelaxation.Polynomial.Coefficients

/-!
# Linear forms

An expression affine in decision symbols is read as a constant and a row of coefficients by column.
Each term has to be a number, or a number times one symbol that has a column. Numbers may contain
constants, roots and functions; they become floating-point numbers, which complex numbers cannot.
-/

namespace HybridRelaxation

variable {K : Type} [Scalar K]

/-! ## Values of constant expressions -/

def Expression.machineValue (e : Expression K) : Except Failure K :=
  match e.number? with
  | some c =>
      if Scalar.kind c = .unsignedInfinity then .error .wrongType else .ok (Scalar.machine c)
  | none =>
      match e.value? with
      | some z =>
          if z.isReal then .ok (Scalar.machine (Scalar.measured z.real)) else .error .wrongType
      | none => .error .wrongType

/-! ## Rows -/

structure LinearForm (K : Type) where
  row : List (Int × K)
  constant : K

def byColumn (row : List (Int × K)) : List (Int × K) := row.mergeSort (fun a b => a.1 ≤ b.1)

/-- The columns of listed symbols; a symbol listed twice has its last column. -/
def columnIn (index : List (Symbol × Int)) (s : Symbol) : Option Int :=
  (index.reverse.find? (fun entry => entry.1 = s)).map Prod.snd

namespace LinearForm

def addAt (column : Int) (c : K) : List (Int × K) → List (Int × K)
  | [] => [(column, Scalar.machine (Scalar.measured 0 + c))]
  | (other, d) :: rest =>
      if column = other then (other, Scalar.machine (d + c)) :: rest
      else (other, d) :: addAt column c rest

end LinearForm

def addLinearTerm (index : Symbol → Option Int) (form : LinearForm K) (c : K) (p : Product K) :
    Except Failure (LinearForm K) :=
  match p with
  | .one => do
      let value ← (Expression.number c).machineValue
      .ok { form with constant := Scalar.machine (form.constant + value) }
  | p =>
      match p.symbols.eraseDups with
      | [s] =>
          let factor := (Expression.ofTerm 1 p).mul (Expression.ofSymbol s).reciprocal
          match index s with
          | some column =>
              if factor.symbols.isEmpty then do
                let value ← ((Expression.number c).mul factor).machineValue
                .ok { form with row := LinearForm.addAt column value form.row }
              else .error .notAffine
          | none => .error .notAffine
      | _ => .error .notAffine

/-- The constant and the row of an expression affine in the symbols that have a column. -/
def linearForm (e : Expression K) (index : Symbol → Option Int) :
    Except Failure (LinearForm K) :=
  e.expand.terms.foldlM (fun form (c, p) => addLinearTerm index form c p)
    ⟨[], Scalar.machine (Scalar.measured 0)⟩

end HybridRelaxation
