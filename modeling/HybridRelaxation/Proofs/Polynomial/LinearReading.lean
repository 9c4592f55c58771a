import Mathlib
import HybridRelaxation.Proofs.Polynomial.LinearForm

/-!
# Reading linear forms

Over numbers of any kind each term of an expanded expression is read as a number, or as a number
times one symbol that has a column.  A form adds up the readings of all terms, in order; and the
first term that cannot be read decides how reading fails.
-/

namespace HybridRelaxation

variable {K : Type} [Scalar K] {index : Symbol → Option ℤ}

/-! ## Terms that can be read -/

def Product.over (p : Product K) (s : Symbol) : Expression K :=
  (Expression.ofTerm 1 p).mul (Expression.ofSymbol s).reciprocal

/--
A term is a number, or a number times one symbol that has a column.  It is read as this symbol, if
there is one, and the coefficient.
-/
inductive IsLinearPart (index : Symbol → Option ℤ) :
    K × Product K → Option Symbol × Expression K → Prop
  | number (c : K) : IsLinearPart index (c, .one) (none, .number c)
  | multiple (c : K) {p : Product K} {s : Symbol} {j : ℤ} (nontrivial : p ≠ .one)
      (single : p.symbols.eraseDups = [s]) (column : index s = some j)
      (free : (p.over s).symbols = []) :
      IsLinearPart index (c, p) (some s, (Expression.number c).mul (p.over s))

def LinearForm.plus (form : LinearForm K) (column : Option ℤ) (v : K) : LinearForm K :=
  match column with
  | none => { form with constant := Scalar.machine (form.constant + v) }
  | some j => { form with row := LinearForm.addAt j v form.row }

theorem IsLinearPart.eq {t : K × Product K} {part part' : Option Symbol × Expression K}
    (h : IsLinearPart index t part) (h' : IsLinearPart index t part') : part = part' := by
  cases h with
  | number c =>
      cases h' with
      | number => rfl
      | multiple _ nontrivial => exact absurd rfl nontrivial
  | multiple c nontrivial single =>
      cases h' with
      | number => exact absurd rfl nontrivial
      | multiple _ _ single' =>
          obtain rfl := List.singleton_inj.mp (single.symm.trans single')
          rfl

theorem IsLinearPart.exists_column {t : K × Product K} {part : Option Symbol × Expression K}
    (h : IsLinearPart index t part) {s : Symbol} (hs : part.1 = some s) :
    ∃ j, index s = some j := by
  cases h with
  | number => simp at hs
  | multiple _ _ _ column =>
      obtain rfl := Option.some.inj hs
      exact ⟨_, column⟩

def IsReading (index : Symbol → Option ℤ) (t : K × Product K) (reading : Option ℤ × K) : Prop :=
  ∃ part, IsLinearPart index t part ∧ reading.1 = part.1.bind index ∧
    part.2.machineValue = .ok reading.2

theorem LinearForm.addAt_eq_upsert (j : ℤ) (c : K) (row : List (ℤ × K)) : addAt j c row =
    upsert j (Scalar.machine (Scalar.measured 0 + c)) (fun d => Scalar.machine (d + c)) row := by
  induction row with
  | nil => rfl
  | cons entry row ih => rw [addAt, ih, upsert]

theorem exists_parts {ts : List (K × Product K)} {readings : List (Option ℤ × K)}
    (h : List.Forall₂ (IsReading index) ts readings) : ∃ parts,
      List.Forall₂ (IsLinearPart index) ts parts ∧
        List.Forall₂ (fun part (reading : Option ℤ × K) => reading.1 = part.1.bind index ∧
          part.2.machineValue = .ok reading.2) parts readings := by
  induction h with
  | nil => exact ⟨[], .nil, .nil⟩
  | cons head _ ih =>
      obtain ⟨parts, all, read⟩ := ih
      obtain ⟨part, hpart, hreading⟩ := head
      exact ⟨part :: parts, .cons hpart all, .cons hreading read⟩

end HybridRelaxation
