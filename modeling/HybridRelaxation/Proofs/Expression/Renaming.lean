import Mathlib
import HybridRelaxation.Proofs.Expression.Symbols

/-!
# Renamed expressions

A renaming gives indeterminates other names; decision symbols stay.  A renamed expression has the
terms and factors of the original, put in the order of the new names.  Its value at a point is the
value of the original where each symbol has the value of its new name.
-/

namespace HybridRelaxation

def Symbol.rename (f : String → String) : Symbol → Symbol
  | .named name => .named (f name)
  | .decision position label => .decision position label

@[simp] theorem Symbol.isNamed_rename (f : String → String) (s : Symbol) :
    (s.rename f).isNamed = s.isNamed := by
  cases s <;> rfl

theorem Symbol.rename_of_not_isNamed (f : String → String) {s : Symbol}
    (h : s.isNamed = false) : s.rename f = s := by
  cases s with
  | named name => simp [isNamed] at h
  | decision position label => rfl

@[simp] theorem Symbol.rename_id (s : Symbol) : s.rename id = s := by
  cases s <;> rfl

section

variable {K : Type} [Scalar K]

mutual

/-- The expression under new names. Where these are distinct no terms or factors combine. -/
def Expression.rename (f : String → String) : Expression K → Expression K
  | .zero => .zero
  | .plus c p e => (e.rename f).insert c (p.rename f)

def Product.rename (f : String → String) : Product K → Product K
  | .one => .one
  | .times b x p => (p.rename f).insert (b.rename f) (x.rename f)

def Base.rename (f : String → String) : Base K → Base K
  | .symbol s => .symbol (s.rename f)
  | .constant c => .constant c
  | .number c => .number c
  | .apply g e => .apply g (e.rename f)
  | .group e => .group (e.rename f)

def Exponent.rename (f : String → String) : Exponent K → Exponent K
  | .integer n => .integer n
  | .multiple c e => .multiple c (e.rename f)

end

end

/-! ## Values -/

section

variable {R : Type*} [CommRing R] [Algebra ℚ R] (τ : Symbol → R) (f : String → String)

theorem Exponent.natural_rename (x : Exponent Rat) : (x.rename f).natural = x.natural := by
  cases x <;> simp [Exponent.rename, Exponent.natural]

mutual

theorem Expression.eval_rename : ∀ e : Expression Rat,
    (e.rename f).eval τ = e.eval (fun s => τ (s.rename f))
  | .zero => by simp [Expression.rename]
  | .plus c p e => by
      rw [Expression.rename, Expression.eval_insert, Expression.eval_rename e,
        Product.eval_rename p, Expression.eval_plus, add_comm]

theorem Product.eval_rename : ∀ p : Product Rat,
    (p.rename f).eval τ = p.eval (fun s => τ (s.rename f))
  | .one => by simp [Product.rename]
  | .times b x p => by
      rw [Product.rename, Product.eval_insert, Base.eval_rename b, Product.eval_rename p,
        Exponent.natural_rename, Product.eval_times]

theorem Base.eval_rename : ∀ b : Base Rat,
    (b.rename f).eval τ = b.eval (fun s => τ (s.rename f))
  | .symbol s => by simp [Base.rename]
  | .group e => by simp [Base.rename, Expression.eval_rename e]
  | .constant _ => by simp [Base.rename, Base.eval]
  | .number _ => by simp [Base.rename, Base.eval]
  | .apply _ _ => by simp [Base.rename, Base.eval]

end

end

/-! ## Polynomials -/

section

variable (f : String → String)

theorem Expression.isSum_iff {e : Expression Rat} : e.isSum = true ↔ 2 ≤ e.terms.length := by
  match e with
  | .zero => simp [isSum]
  | .plus c p .zero => simp [isSum]
  | .plus c p (.plus d q e) => simp [isSum]

theorem Expression.length_terms_insert (c : Rat) (p : Product Rat) (e : Expression Rat) :
    (e.insert c p).terms.length = e.terms.length + 1 := by
  induction e with
  | zero => simp [insert]
  | plus d q e ih =>
      unfold insert
      split <;> simp [ih]

theorem Expression.length_terms_rename (e : Expression Rat) :
    (e.rename f).terms.length = e.terms.length := by
  induction e with
  | zero => simp [rename]
  | plus c p e ih => simp [rename, length_terms_insert, ih]

mutual

theorem Expression.isPolynomial_rename : ∀ e : Expression Rat, e.IsPolynomial →
    (e.rename f).IsPolynomial
  | .zero, _ => by simp [Expression.rename]
  | .plus c p e, h => by
      obtain ⟨hp, hrest⟩ := (Expression.isPolynomial_plus c p e).mp h
      rw [Expression.rename]
      exact Expression.isPolynomial_insert (Expression.isPolynomial_rename e hrest)
        (Product.isPolynomial_rename p hp)

theorem Product.isPolynomial_rename : ∀ p : Product Rat, p.IsPolynomial →
    (p.rename f).IsPolynomial
  | .one, _ => by simp [Product.rename]
  | .times b x p, h => by
      obtain ⟨⟨hb, hx⟩, hrest⟩ := (Product.isPolynomial_times b x p).mp h
      obtain ⟨n, rfl⟩ := Exponent.exists_of_isPositive hx
      rw [Product.rename, Exponent.rename]
      exact Product.isPolynomial_insert (Base.isPolynomial_rename b hb) hx
        (Product.isPolynomial_rename p hrest)

theorem Base.isPolynomial_rename : ∀ b : Base Rat, b.IsPolynomial → (b.rename f).IsPolynomial
  | .symbol s, _ => by simp [Base.rename]
  | .group e, h => by
      obtain ⟨hsum, he⟩ := (Base.isPolynomial_group e).mp h
      rw [Base.rename, Base.isPolynomial_group, Expression.isSum_iff,
        Expression.length_terms_rename, ← Expression.isSum_iff]
      exact ⟨hsum, Expression.isPolynomial_rename e he⟩
  | .constant _, h => by simp at h
  | .number _, h => by simp at h
  | .apply _ _, h => by simp at h

end

end

/-! ## Symbols -/

section

variable (f : String → String) {s : Symbol}

mutual

theorem Expression.symbols_rename : ∀ e : Expression Rat, s ∈ (e.rename f).symbols →
    s ∈ e.symbols.map (Symbol.rename f)
  | .zero, h => by simp [Expression.rename, Expression.symbols] at h
  | .plus c p e, h => by
      rw [Expression.rename] at h
      rw [Expression.symbols, List.map_append, List.mem_append]
      rcases Expression.symbols_insert h with h | h
      · exact .inr (Expression.symbols_rename e h)
      · exact .inl (Product.symbols_rename p h)

theorem Product.symbols_rename : ∀ p : Product Rat, s ∈ (p.rename f).symbols →
    s ∈ p.symbols.map (Symbol.rename f)
  | .one, h => absurd h List.not_mem_nil
  | .times b x p, h => by
      rw [Product.rename] at h
      simp only [Product.symbols, List.map_append, List.mem_append]
      rcases Product.mem_symbols_insert h with h | h
      · rcases List.mem_append.mp h with h | h
        · exact .inl (.inl (Base.symbols_rename b h))
        · exact .inl (.inr (Exponent.symbols_rename x h))
      · exact .inr (Product.symbols_rename p h)

theorem Base.symbols_rename : ∀ b : Base Rat, s ∈ (b.rename f).symbols →
    s ∈ b.symbols.map (Symbol.rename f)
  | .symbol t, h => by simpa [Base.rename, Base.symbols] using h
  | .constant _, h => by simp [Base.rename, Base.symbols] at h
  | .number _, h => by simp [Base.rename, Base.symbols] at h
  | .apply _ e, h => by
      rw [Base.rename, Base.symbols] at h
      exact Expression.symbols_rename e h
  | .group e, h => by
      rw [Base.rename, Base.symbols] at h
      exact Expression.symbols_rename e h

theorem Exponent.symbols_rename : ∀ x : Exponent Rat, s ∈ (x.rename f).symbols →
    s ∈ x.symbols.map (Symbol.rename f)
  | .integer _, h => by simp [Exponent.rename, Exponent.symbols] at h
  | .multiple _ e, h => by
      rw [Exponent.rename, Exponent.symbols] at h
      exact Expression.symbols_rename e h

end

end

end HybridRelaxation
