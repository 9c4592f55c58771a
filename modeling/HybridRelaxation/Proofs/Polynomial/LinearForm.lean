import Mathlib
import HybridRelaxation.Polynomial.LinearForm
import HybridRelaxation.Proofs.Expression.Expansion
import HybridRelaxation.Proofs.Expression.Power
import HybridRelaxation.Proofs.Outcome

/-!
# Linear forms of affine expressions

Where a polynomial expression has a linear form, the value of the expression is the value of the
form at the values of the columns.  An expression that is affine in symbols with columns has one.
-/

namespace HybridRelaxation

variable {R : Type*} [CommRing R] [Algebra ℚ R]

/-! ## Values of forms -/

/-- The sum of the coefficients of a row times the values of their columns. -/
def rowValue (φ : ℤ → R) (row : List (ℤ × Rat)) : R :=
  (row.map (fun entry => algebraMap ℚ R entry.2 * φ entry.1)).sum

namespace LinearForm

def eval (φ : ℤ → R) (form : LinearForm Rat) : R :=
  algebraMap ℚ R form.constant + rowValue φ form.row

theorem rowValue_addAt (φ : ℤ → R) (j : ℤ) (c : Rat) (row : List (ℤ × Rat)) :
    rowValue φ (addAt j c row) = rowValue φ row + algebraMap ℚ R c * φ j := by
  induction row with
  | nil => simp [addAt, rowValue]
  | cons entry row ih =>
      obtain ⟨k, d⟩ := entry
      by_cases h : j = k
      · subst h
        simp only [addAt, if_true, Scalar.machine_rat, rowValue, List.map_cons, List.sum_cons,
          map_add]
        ring
      · simp only [rowValue] at ih
        simp only [addAt, h, if_false, rowValue, List.map_cons, List.sum_cons, ih]
        ring

theorem mem_addAt {K : Type} [Scalar K] {j : ℤ} {c : K} {row : List (ℤ × K)} {entry : ℤ × K}
    (h : entry ∈ addAt j c row) : entry.1 = j ∨ ∃ other ∈ row, other.1 = entry.1 := by
  induction row with
  | nil =>
      simp only [addAt, List.mem_singleton] at h
      exact .inl (by rw [h])
  | cons other row ih =>
      obtain ⟨k, d⟩ := other
      by_cases hjk : j = k
      · simp only [addAt, hjk, if_true, List.mem_cons] at h
        rcases h with rfl | h
        · exact .inl hjk.symm
        · exact .inr ⟨entry, by simp [h], rfl⟩
      · simp only [addAt, hjk, if_false, List.mem_cons] at h
        rcases h with rfl | h
        · exact .inr ⟨_, by simp, rfl⟩
        · rcases ih h with heq | ⟨other, hmem, heq⟩
          · exact .inl heq
          · exact .inr ⟨other, by simp [hmem], heq⟩

end LinearForm

/-! ## Columns -/

section Columns

variable {K : Type} [Scalar K] {index : Symbol → Option ℤ}

theorem index_of_addLinearTerm {form form' : LinearForm K} {c : K} {p : Product K}
    (h : addLinearTerm index form c p = .ok form') {entry : ℤ × K} (hentry : entry ∈ form'.row) :
    (∃ s, index s = some entry.1) ∨ ∃ other ∈ form.row, other.1 = entry.1 := by
  unfold addLinearTerm at h
  split at h
  · obtain ⟨value, -, hform⟩ := bind_eq_ok.mp h
    obtain rfl := Except.ok.inj hform
    exact .inr ⟨entry, hentry, rfl⟩
  · split at h
    · simp only at h
      split at h
      · next s _ _ column hcolumn =>
          split at h
          · obtain ⟨value, -, hform⟩ := bind_eq_ok.mp h
            obtain rfl := Except.ok.inj hform
            rcases LinearForm.mem_addAt hentry with heq | other
            · exact .inl ⟨s, by rw [heq, hcolumn]⟩
            · exact .inr other
          · cases h
      · cases h
    · cases h

theorem index_of_linearForm {e : Expression K} {form : LinearForm K}
    (h : linearForm e index = .ok form) : ∀ entry ∈ form.row, ∃ s, index s = some entry.1 := by
  suffices general : ∀ (ts : List (K × Product K)) (start : LinearForm K),
      (∀ entry ∈ start.row, ∃ s, index s = some entry.1) →
      ts.foldlM (fun form t => addLinearTerm index form t.1 t.2) start = .ok form →
        ∀ entry ∈ form.row, ∃ s, index s = some entry.1 from
    general _ ⟨[], _⟩ (by simp) h
  intro ts
  induction ts with
  | nil =>
      intro start hstart h
      rwa [← Except.ok.inj h]
  | cons t ts ih =>
      intro start hstart h
      rw [List.foldlM_cons, bind_eq_ok] at h
      obtain ⟨next, hnext, h⟩ := h
      refine ih next (fun entry hentry => ?_) h
      rcases index_of_addLinearTerm hnext hentry with known | ⟨other, hother, heq⟩
      · exact known
      · rw [← heq]
        exact hstart other hother

end Columns

/-! ## One term -/

theorem machineValue_number (c : Rat) : (Expression.number c).machineValue = .ok c := by
  simp [Expression.machineValue]

theorem addLinearTerm_one (index : Symbol → Option ℤ) (form : LinearForm Rat) (c : Rat) :
    addLinearTerm index form c .one = .ok { form with constant := form.constant + c } := by
  simp [addLinearTerm, machineValue_number]

theorem quotient_symbol (s : Symbol) (n : ℕ) :
    (Expression.ofTerm 1 (.times (.symbol s) (.integer (n + 1)) .one) : Expression Rat).mul
        (Expression.ofSymbol s).reciprocal =
      if n = 0 then .number 1 else .ofFactor (.symbol s) (.integer n) := by
  have reciprocal : (Expression.ofSymbol s : Expression Rat).reciprocal =
      .ofFactor (.symbol s) (.integer (-1)) := by
    simp [Expression.reciprocal, Expression.intPower, Expression.ofSymbol, Expression.factor?,
      Product.power, Expression.ofTerm, Expression.ofFactor]
  have power : (Expression.ofTerm 1 (.times (.symbol s) (.integer (n + 1)) .one) :
      Expression Rat) = .ofFactor (.symbol s) (.integer (n + 1)) := by
    simp [Expression.ofTerm, Expression.ofFactor]
  have factors : FactorList.ofExpressions [(Expression.ofFactor (.symbol s) (.integer (n + 1)) :
      Expression Rat), .ofFactor (.symbol s) (.integer (-1))] =
        ⟨1, [(.symbol s, .integer (n + 1)), (.symbol s, .integer (-1))]⟩ := by
    simp [FactorList.ofExpressions, FactorList.addDirect, FactorList.addNested,
      Expression.ofFactor]
  have plain : (⟨1, [(.symbol s, .integer (n + 1)), (.symbol s, .integer (-1))]⟩ :
      FactorList Rat).isPlain = true := by
    simp [FactorList.isPlain, Factor.isInert_symbol]
  have sum : (-1 : ℤ) + (n + 1) = n := by ring
  have nonzero : (n : ℤ) + 1 ≠ 0 := by omega
  rw [reciprocal, power, Expression.mul_of_isPlain factors plain]
  by_cases hn : n = 0
  · simp [FactorList.multiply, Product.ofFactors, Product.multiply, Product.combine?,
      Product.insert, hn, Expression.ofTerm_one]
  · simp [FactorList.multiply, Product.ofFactors, Product.multiply, Product.combine?,
      Product.insert, nonzero, sum, hn, Expression.ofTerm, Expression.ofFactor]

theorem addLinearTerm_symbol {index : Symbol → Option ℤ} {s : Symbol} {j : ℤ}
    (hs : index s = some j) (form : LinearForm Rat) (c : Rat) :
    addLinearTerm index form c (.times (.symbol s) (.integer 1) .one) =
      .ok { form with row := LinearForm.addAt j c form.row } := by
  have quotient := quotient_symbol s 0
  simp only [Nat.cast_zero, zero_add, if_true] at quotient
  have free : (Expression.number 1 : Expression Rat).symbols.isEmpty = true := by
    simp [Expression.number, Expression.symbols]
  simp [addLinearTerm, List.eraseDups_cons, hs, quotient, free, Expression.number_mul_number,
    machineValue_number]

theorem addLinearTerm_inversion {index : Symbol → Option ℤ} {form form' : LinearForm Rat}
    {c : Rat} {p : Product Rat} (hp : p.IsMonomial)
    (h : addLinearTerm index form c p = .ok form') :
    (p = .one ∧ form' = { form with constant := form.constant + c }) ∨
      ∃ s j, index s = some j ∧ p = .times (.symbol s) (.integer 1) .one ∧
        form' = { form with row := LinearForm.addAt j c form.row } := by
  cases hp with
  | one =>
      rw [addLinearTerm_one] at h
      exact .inl ⟨rfl, (Except.ok.inj h).symm⟩
  | times s n p tail first =>
      right
      have fresh : p.symbols.filter (fun t => !t == s) = p.symbols := by
        rw [List.filter_eq_self]
        intro t ht
        have hlt := first t ht
        by_contra heq
        have : t = s := by simpa using heq
        simp [this] at hlt
      cases tail with
      | one =>
          by_cases hn : n = 0
          · subst hn
            cases hs : index s with
            | none => simp [addLinearTerm, List.eraseDups_cons, hs] at h
            | some j =>
                have := addLinearTerm_symbol hs form c
                simp only [Nat.cast_zero, zero_add] at h ⊢
                rw [this] at h
                exact ⟨s, j, hs, rfl, (Except.ok.inj h).symm⟩
          · have bound : (Expression.ofFactor (.symbol s) (.integer n) :
                Expression Rat).symbols.isEmpty = false := by
              simp [Expression.ofFactor, Expression.symbols, Product.symbols, Base.symbols]
            cases hs : index s with
            | none => simp [addLinearTerm, List.eraseDups_cons, hs] at h
            | some j =>
                simp [addLinearTerm, List.eraseDups_cons, hs, quotient_symbol, hn,
                  bound] at h
      | times t m q tail' first' =>
          simp only [Product.symbols_times_symbol] at fresh
          have two : (s :: t :: q.symbols).eraseDups =
              s :: t :: (q.symbols.filter (fun u => !u == t)).eraseDups := by
            rw [List.eraseDups_cons, fresh, List.eraseDups_cons]
          simp only [addLinearTerm, Product.symbols_times_symbol, two, reduceCtorEq] at h

/-! ## Whole expressions -/

section

variable {index : Symbol → Option ℤ} {e : Expression Rat} {form : LinearForm Rat}

theorem eval_of_linearForm (he : e.IsPolynomial) (h : linearForm e index = .ok form)
    {ρ : Symbol → R} {φ : ℤ → R} (hφ : ∀ s j, index s = some j → ρ s = φ j) :
    form.eval φ = e.eval ρ := by
  suffices general : ∀ (ts : List (Rat × Product Rat)) (start : LinearForm Rat),
      (∀ t ∈ ts, t.2.IsMonomial) →
      ts.foldlM (fun form (c, p) => addLinearTerm index form c p) start = .ok form →
        form.eval φ = start.eval φ + (ts.map (fun t => algebraMap ℚ R t.1 * t.2.eval ρ)).sum by
    have := general e.expand.terms ⟨[], 0⟩ (Expression.isCanonical_expand he).monomials h
    rw [this, ← Expression.eval_eq_sum_terms, Expression.eval_expand ρ he]
    simp [LinearForm.eval, rowValue]
  intro ts
  induction ts with
  | nil =>
      intro start _ h
      obtain rfl : start = form := Except.ok.inj h
      simp
  | cons t ts ih =>
      intro start hts h
      obtain ⟨c, p⟩ := t
      rw [List.foldlM_cons, bind_eq_ok] at h
      obtain ⟨next, hnext, h⟩ := h
      have total := ih next (fun t ht => hts t (by simp [ht])) h
      rw [total, List.map_cons, List.sum_cons]
      rcases addLinearTerm_inversion (hts (c, p) (by simp)) hnext with
        ⟨hp, rfl⟩ | ⟨s, j, hs, hp, rfl⟩
      · obtain rfl : p = .one := hp
        simp only [LinearForm.eval, map_add, Product.eval_one]
        ring
      · obtain rfl : p = .times (.symbol s) (.integer 1) .one := hp
        simp only [LinearForm.eval, LinearForm.rowValue_addAt, Product.eval_times,
          Product.eval_one, Base.eval_symbol, hφ s j hs, Exponent.natural_integer, Int.toNat_one]
        ring

/-- Every monomial is constant or a symbol with a column. -/
def IsAffine (index : Symbol → Option ℤ) (q : MvPolynomial Symbol ℚ) : Prop :=
  ∀ n ∈ q.support, n = 0 ∨ ∃ s j, index s = some j ∧ n = Finsupp.single s 1

theorem exists_linearForm (he : e.IsPolynomial) (haffine : IsAffine index (e.eval MvPolynomial.X)) :
    ∃ form, linearForm e index = .ok form ∧ ∀ entry ∈ form.row, ∃ s, index s = some entry.1 := by
  have canonical := Expression.isCanonical_expand he
  suffices general : ∀ (ts : List (Rat × Product Rat)) (start : LinearForm Rat),
      (∀ t ∈ ts, t ∈ e.expand.terms) →
      ∃ form, ts.foldlM (fun form (c, p) => addLinearTerm index form c p) start = .ok form by
    obtain ⟨form, hform⟩ := general e.expand.terms ⟨[], 0⟩ (fun _ ht => ht)
    exact ⟨form, hform, index_of_linearForm hform⟩
  intro ts
  induction ts with
  | nil => exact fun start _ => ⟨start, rfl⟩
  | cons t ts ih =>
      intro start hts
      obtain ⟨c, p⟩ := t
      have hmem : (c, p) ∈ e.expand.terms := hts (c, p) (by simp)
      have hp := canonical.monomials _ hmem
      have coefficient := canonical.coeff_of_mem hmem
      have hsupport : p.exponent ∈ (e.eval MvPolynomial.X : MvPolynomial Symbol ℚ).support := by
        rw [MvPolynomial.mem_support_iff, ← Expression.eval_expand _ he, coefficient]
        exact canonical.nonzero _ hmem
      have step : ∃ next, addLinearTerm index start c p = .ok next := by
        rcases haffine _ hsupport with hzero | ⟨s, j, hs, hsingle⟩
        · obtain rfl : p = .one := hp.eq_of_exponent .one (by rw [hzero, Product.exponent_one])
          exact ⟨_, addLinearTerm_one index start c⟩
        · have hsymbol := Product.IsMonomial.times s 0 .one .one (by simp)
          have exponents : p.exponent = (Product.times (.symbol s) (.integer (((0 : ℕ) : ℤ) + 1))
              .one : Product Rat).exponent := by
            rw [hsingle, Product.exponent_times_symbol, Product.exponent_one, zero_add, add_zero]
          obtain rfl := hp.eq_of_exponent hsymbol exponents
          exact ⟨_, addLinearTerm_symbol hs start c⟩
      obtain ⟨next, hnext⟩ := step
      obtain ⟨form, hform⟩ := ih next (fun t ht => hts t (by simp [ht]))
      refine ⟨form, ?_⟩
      rw [List.foldlM_cons, bind_eq_ok]
      exact ⟨next, hnext, hform⟩

end

end HybridRelaxation
