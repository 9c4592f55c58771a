import Mathlib
import HybridRelaxation.Proofs.Expression.Value
import HybridRelaxation.Proofs.Expression.Addition

/-!
# Canonical expressions

A sum is canonical if its products are distinct products of positive powers of symbols in order,
each with a coefficient other than zero.  Canonical expressions are normal forms of polynomials:
the coefficients of the polynomial are those of the terms, and only the empty sum stands for zero.
-/

namespace HybridRelaxation

open MvPolynomial (monomial)

/-! ## The order of symbols -/

namespace Symbol

instance : Std.OrientedCmp Symbol.order where
  eq_swap {a b} := by
    cases a <;> cases b <;> simp only [order, Ordering.swap_then, Ordering.swap_lt,
      Ordering.swap_gt]
    · exact Std.OrientedCmp.eq_swap
    · rw [← Std.OrientedCmp.eq_swap, ← Std.OrientedCmp.eq_swap]

theorem order_trans {a b c : Symbol} (hab : a.order b = .lt) (hbc : b.order c = .lt) :
    a.order c = .lt := by
  cases a <;> cases b <;> cases c <;> simp_all only [order, reduceCtorEq, Ordering.then_eq_lt]
  · exact Std.TransCmp.lt_trans hab hbc
  · obtain hab | ⟨hpos, hab⟩ := hab
    · obtain hbc | ⟨hpos, hbc⟩ := hbc
      · exact .inl (Std.TransCmp.lt_trans hab hbc)
      · exact .inl (Std.TransCmp.lt_of_lt_of_eq hab hpos)
    · obtain hbc | ⟨hpos', hbc⟩ := hbc
      · exact .inl (Std.TransCmp.lt_of_eq_of_lt hpos hbc)
      · exact .inr ⟨Std.TransCmp.eq_trans hpos hpos', Std.TransCmp.lt_trans hab hbc⟩

theorem order_lt_of_not {a b : Symbol} (hne : a ≠ b) (h : a.order b ≠ .lt) : b.order a = .lt := by
  have swap : b.order a = (a.order b).swap := Std.OrientedCmp.eq_swap
  rw [swap]
  cases hab : a.order b with
  | lt => exact absurd hab h
  | eq => exact absurd (eq_of_order_eq hab) hne
  | gt => rfl

end Symbol

/-! ## Monomials -/

namespace Product

/-- Positive powers of symbols, in the order of the symbols. -/
inductive IsMonomial : Product Rat → Prop
  | one : IsMonomial .one
  | times (s : Symbol) (n : ℕ) (p : Product Rat) (tail : IsMonomial p)
      (first : ∀ t ∈ p.symbols, s.order t = .lt) :
      IsMonomial (.times (.symbol s) (.integer (n + 1)) p)

noncomputable def exponent : Product Rat → Symbol →₀ ℕ
  | .one => 0
  | .times (.symbol s) x p => Finsupp.single s x.natural + p.exponent
  | .times _ _ p => p.exponent

@[simp] theorem exponent_one : (Product.one : Product Rat).exponent = 0 := rfl

@[simp] theorem exponent_times_symbol (s : Symbol) (n : ℕ) (p : Product Rat) :
    (Product.times (.symbol s) (.integer (n + 1)) p).exponent =
      Finsupp.single s (n + 1) + p.exponent := rfl

@[simp] theorem symbols_one : (Product.one : Product Rat).symbols = [] := by
  simp [Product.symbols]

@[simp] theorem symbols_times_symbol (s : Symbol) (n : ℤ) (p : Product Rat) :
    (Product.times (.symbol s) (.integer n) p).symbols = s :: p.symbols := by
  simp [Product.symbols, Base.symbols, Exponent.symbols]

namespace IsMonomial

theorem isPolynomial {p : Product Rat} (h : p.IsMonomial) : p.IsPolynomial := by
  induction h with
  | one => simp
  | times s n p tail first ih =>
      simp [ih]

theorem eval_X {p : Product Rat} (h : p.IsMonomial) :
    p.eval MvPolynomial.X = monomial p.exponent (1 : ℚ) := by
  induction h with
  | one => simp
  | times s n p tail first ih =>
      rw [eval_times, ih, Base.eval_symbol, exponent_times_symbol, MvPolynomial.X_pow_eq_monomial,
        MvPolynomial.monomial_mul, mul_one]
      rfl

theorem mem_symbols {p : Product Rat} (h : p.IsMonomial) {s : Symbol} :
    s ∈ p.symbols ↔ p.exponent s ≠ 0 := by
  induction h with
  | one => simp [Product.symbols]
  | times t n p tail first ih =>
      rw [symbols_times_symbol, List.mem_cons, ih, exponent_times_symbol, Finsupp.add_apply]
      by_cases hst : s = t
      · simp [hst]
      · simp [hst]

theorem exponent_first {s : Symbol} {p : Product Rat} (h : p.IsMonomial)
    (first : ∀ t ∈ p.symbols, s.order t = .lt) : p.exponent s = 0 := by
  by_contra hne
  have := first s (h.mem_symbols.mpr hne)
  simp at this

/-- A monomial is known by the powers of its symbols. -/
theorem eq_of_exponent {p q : Product Rat} (hp : p.IsMonomial) (hq : q.IsMonomial)
    (h : p.exponent = q.exponent) : p = q := by
  induction hp generalizing q with
  | one =>
      cases hq with
      | one => rfl
      | times s n q tail first =>
          have := DFunLike.congr_fun h s
          simp at this
          omega
  | times s n p tail first ih =>
      cases hq with
      | one =>
          have := DFunLike.congr_fun h s
          simp at this
      | times t m q tail' first' =>
          have hs := DFunLike.congr_fun h s
          have ht := DFunLike.congr_fun h t
          simp only [exponent_times_symbol, Finsupp.add_apply] at hs ht
          have hp := exponent_first tail first
          have hq := exponent_first tail' first'
          by_cases hst : s = t
          · subst hst
            obtain rfl : n = m := by simpa [hp, hq] using hs
            rw [ih tail' (by simpa using h)]
          · exfalso
            -- The smaller of the two first symbols occurs in one of the products only.
            by_cases hlt : s.order t = .lt
            · have absent := exponent_first tail' (fun u hu => Symbol.order_trans hlt (first' u hu))
              simp [hst, absent] at hs
            · have hgt := Symbol.order_lt_of_not hst hlt
              have absent := exponent_first tail (fun u hu => Symbol.order_trans hgt (first u hu))
              simp [Ne.symm hst, absent] at ht
              omega

/-! ### Multiplication -/

theorem symbols_insert (s : Symbol) (n : ℤ) (p : Product Rat) (t : Symbol) :
    t ∈ (p.insert (.symbol s) (.integer n)).symbols ↔ t = s ∨ t ∈ p.symbols := by
  induction p with
  | one => simp [Product.insert, Product.symbols]
  | times b x p ih =>
      unfold Product.insert
      split
      · simp
      · simp only [Product.symbols, List.mem_append, ih]
        tauto

theorem insert {p : Product Rat} (h : p.IsMonomial) {s : Symbol} (n : ℕ) (hs : s ∉ p.symbols) :
    (p.insert (.symbol s) (.integer (n + 1))).IsMonomial := by
  induction h with
  | one => exact .times s n .one .one (by simp [Product.symbols])
  | times t m p tail first ih =>
      simp only [symbols_times_symbol, List.mem_cons, not_or] at hs
      obtain ⟨hst, hrest⟩ := hs
      have order : ((Base.symbol s : Base Rat).order (.symbol t)).then
          ((Exponent.integer (n + 1) : Exponent Rat).order (.integer (m + 1))) = .lt ↔
            s.order t = .lt := by
        have hne : s.order t ≠ .eq := fun heq => hst (Symbol.eq_of_order_eq heq)
        simp [Base.order, Ordering.then_eq_lt, hne]
      simp only [Product.insert, order]
      split
      · next hlt =>
          refine .times s n _ (.times t m p tail first) (fun u hu => ?_)
          simp only [symbols_times_symbol, List.mem_cons] at hu
          rcases hu with rfl | hu
          · exact hlt
          · exact Symbol.order_trans hlt (first u hu)
      · next hlt =>
          refine .times t m _ (ih hrest) (fun u hu => ?_)
          rcases (symbols_insert s _ p u).mp hu with rfl | hu
          · exact Symbol.order_lt_of_not hst hlt
          · exact first u hu

theorem of_combine? {p q : Product Rat} (h : p.IsMonomial) {s : Symbol} {n : ℕ}
    (hq : p.combine? (.symbol s) (.integer (n + 1)) = some q) :
    q.IsMonomial ∧ q.symbols = p.symbols := by
  induction h generalizing q with
  | one => simp [combine?] at hq
  | times t m p tail first ih =>
      by_cases hst : s = t
      · subst hst
        have nonzero : (n : ℤ) + 1 + (m + 1) ≠ 0 := by omega
        simp only [combine?, if_true, Exponent.add?_integer, Exponent.vanishes_integer, nonzero,
          decide_false, Bool.false_eq_true, if_false, Option.some.injEq] at hq
        subst hq
        have positive : (n : ℤ) + 1 + (m + 1) = (n + 1 + m : ℕ) + 1 := by
          push_cast
          ring
        rw [positive]
        exact ⟨.times s _ p tail first, by simp⟩
      · have hne : (Base.symbol s : Base Rat) ≠ .symbol t := by simpa using hst
        simp only [combine?, hne, if_false, Option.map_eq_some_iff] at hq
        obtain ⟨r, hr, rfl⟩ := hq
        obtain ⟨monomial, symbols⟩ := ih hr
        exact ⟨.times t m r monomial (by rwa [symbols]), by simp [symbols]⟩

theorem notMem_of_combine? {p : Product Rat} (h : p.IsMonomial) {s : Symbol} {n : ℕ}
    (hnone : p.combine? (.symbol s) (.integer (n + 1)) = none) : s ∉ p.symbols := by
  induction h with
  | one => simp [Product.symbols]
  | times t m p tail first ih =>
      by_cases hst : s = t
      · simp [combine?, hst] at hnone
      · simp only [combine?, Base.symbol.injEq, hst, if_false, Option.map_eq_none_iff] at hnone
        simp [hst, ih hnone]

theorem multiply {p : Product Rat} (h : p.IsMonomial) (s : Symbol) (n : ℕ) :
    (p.multiply (.symbol s) (.integer (n + 1))).IsMonomial := by
  have nonzero : (n : ℤ) + 1 ≠ 0 := by omega
  simp only [Product.multiply, Exponent.vanishes_integer, nonzero, decide_false,
    Bool.false_eq_true, if_false]
  cases hq : p.combine? (.symbol s) (.integer (n + 1)) with
  | some q => exact (h.of_combine? hq).1
  | none => exact h.insert n (h.notMem_of_combine? hq)

theorem mul {p q : Product Rat} (hp : p.IsMonomial) (hq : q.IsMonomial) :
    (p.mul q).IsMonomial := by
  induction hp with
  | one => exact hq
  | times s n p tail first ih => exact ih.multiply s n

end IsMonomial

end Product

/-! ## Canonical sums -/

namespace Expression

structure IsCanonical (e : Expression Rat) : Prop where
  monomials : ∀ t ∈ e.terms, t.2.IsMonomial
  nonzero : ∀ t ∈ e.terms, t.1 ≠ 0
  distinct : (e.terms.map Prod.snd).Nodup

theorem isCanonical_zero : (Expression.zero : Expression Rat).IsCanonical :=
  ⟨by simp, by simp, by simp⟩

theorem isCanonical_plus {c : Rat} {p : Product Rat} {e : Expression Rat} :
    (Expression.plus c p e).IsCanonical ↔
      c ≠ 0 ∧ p.IsMonomial ∧ p ∉ e.terms.map Prod.snd ∧ e.IsCanonical := by
  constructor
  · rintro ⟨monomials, nonzero, distinct⟩
    simp only [terms_plus, List.mem_cons, forall_eq_or_imp, List.map_cons,
      List.nodup_cons] at monomials nonzero distinct
    exact ⟨nonzero.1, monomials.1, distinct.1, monomials.2, nonzero.2, distinct.2⟩
  · rintro ⟨hc, hp, hnot, monomials, nonzero, distinct⟩
    refine ⟨?_, ?_, ?_⟩
    · simpa [hp] using monomials
    · simpa [hc] using nonzero
    · rw [terms_plus, List.map_cons, List.nodup_cons]
      exact ⟨hnot, distinct⟩

theorem IsCanonical.isPolynomial {e : Expression Rat} (h : e.IsCanonical) : e.IsPolynomial := by
  induction e with
  | zero => simp
  | plus c p e ih =>
      obtain ⟨-, hp, -, he⟩ := isCanonical_plus.mp h
      exact (isPolynomial_plus c p e).mpr ⟨hp.isPolynomial, ih he⟩

theorem isCanonical_number (c : Rat) : (number c).IsCanonical := by
  by_cases hc : c = 0
  · simpa [number, hc] using isCanonical_zero
  · simp only [number, hc, if_false]
    exact isCanonical_plus.mpr ⟨hc, .one, by simp, isCanonical_zero⟩

/-! ### Coefficients -/

theorem mem_symbols {e : Expression Rat} {s : Symbol} :
    s ∈ e.symbols ↔ ∃ t ∈ e.terms, s ∈ t.2.symbols := by
  induction e with
  | zero => simp [Expression.symbols]
  | plus c p e ih => simp [Expression.symbols, ih]

theorem IsCanonical.coeff_eq_zero {e : Expression Rat} (he : e.IsCanonical) {p : Product Rat}
    (hp : p.IsMonomial) (hnot : p ∉ e.terms.map Prod.snd) :
    MvPolynomial.coeff p.exponent (e.eval MvPolynomial.X : MvPolynomial Symbol ℚ) = 0 := by
  induction e with
  | zero => simp
  | plus d q e ih =>
      obtain ⟨-, hq, -, hrest⟩ := isCanonical_plus.mp he
      simp only [terms_plus, List.map_cons, List.mem_cons, not_or] at hnot
      obtain ⟨hne, hnot⟩ := hnot
      have differ : q.exponent ≠ p.exponent := fun h => hne (hp.eq_of_exponent hq h.symm)
      rw [eval_plus, hq.eval_X, MvPolynomial.algebraMap_eq, MvPolynomial.C_mul_monomial,
        MvPolynomial.coeff_add, MvPolynomial.coeff_monomial, if_neg differ, ih hrest hnot, add_zero]

theorem IsCanonical.coeff_of_mem {e : Expression Rat} (he : e.IsCanonical) {c : Rat}
    {p : Product Rat} (h : (c, p) ∈ e.terms) :
    MvPolynomial.coeff p.exponent (e.eval MvPolynomial.X : MvPolynomial Symbol ℚ) = c := by
  induction e with
  | zero => simp at h
  | plus d q e ih =>
      obtain ⟨-, hq, hnot, hrest⟩ := isCanonical_plus.mp he
      rw [eval_plus, hq.eval_X, MvPolynomial.algebraMap_eq, MvPolynomial.C_mul_monomial,
        MvPolynomial.coeff_add, MvPolynomial.coeff_monomial]
      rw [terms_plus, List.mem_cons] at h
      rcases h with heq | hmem
      · obtain ⟨rfl, rfl⟩ := Prod.mk.inj heq
        simp [hrest.coeff_eq_zero hq hnot]
      · have hp := hrest.monomials _ hmem
        have differ : q.exponent ≠ p.exponent := by
          intro hexp
          obtain rfl := hq.eq_of_exponent hp hexp
          exact hnot (List.mem_map_of_mem hmem)
        rw [if_neg differ, ih hrest hmem, zero_add]

theorem IsCanonical.exists_support {e : Expression Rat} (he : e.IsCanonical) {s : Symbol}
    (hs : s ∈ e.symbols) :
    ∃ n ∈ (e.eval MvPolynomial.X : MvPolynomial Symbol ℚ).support, n s ≠ 0 := by
  obtain ⟨⟨c, p⟩, hterm, hsp⟩ := mem_symbols.mp hs
  refine ⟨p.exponent, ?_, (he.monomials _ hterm).mem_symbols.mp hsp⟩
  rw [MvPolynomial.mem_support_iff, he.coeff_of_mem hterm]
  exact he.nonzero _ hterm

theorem IsCanonical.eval_X_eq_zero {e : Expression Rat} (he : e.IsCanonical) :
    (e.eval MvPolynomial.X : MvPolynomial Symbol ℚ) = 0 ↔ e = .zero := by
  constructor
  · intro h
    cases e with
    | zero => rfl
    | plus c p e =>
        have coefficient := he.coeff_of_mem (c := c) (p := p) (by simp)
        rw [h, MvPolynomial.coeff_zero] at coefficient
        exact absurd coefficient.symm (isCanonical_plus.mp he).1
  · rintro rfl
    simp

/-! ### Sums of canonical sums -/

theorem mem_products_of_combine? {c : Rat} {p : Product Rat} {e f : Expression Rat}
    (h : e.combine? c p = some f) {q : Product Rat} (hq : q ∈ f.terms.map Prod.snd) :
    q ∈ e.terms.map Prod.snd := by
  induction e generalizing f with
  | zero => simp [combine?] at h
  | plus d r e ih =>
      by_cases hpr : p = r
      · by_cases hzero : d + c = 0
        · have hf : e = f := by simpa [combine?, hpr, hzero] using h
          simp [hf, hq]
        · have hf : Expression.plus (d + c) r e = f := by simpa [combine?, hpr, hzero] using h
          simpa [← hf] using hq
      · simp only [combine?, hpr, if_false, Option.map_eq_some_iff] at h
        obtain ⟨g, hg, rfl⟩ := h
        rw [terms_plus, List.map_cons, List.mem_cons] at hq ⊢
        exact hq.imp_right (ih hg)

theorem IsCanonical.of_combine? {c : Rat} {p : Product Rat} {e f : Expression Rat}
    (he : e.IsCanonical) (h : e.combine? c p = some f) : f.IsCanonical := by
  induction e generalizing f with
  | zero => simp [combine?] at h
  | plus d r e ih =>
      obtain ⟨hd, hr, hnot, hrest⟩ := isCanonical_plus.mp he
      by_cases hpr : p = r
      · by_cases hzero : d + c = 0
        · have hf : e = f := by simpa [combine?, hpr, hzero] using h
          exact hf ▸ hrest
        · have hf : Expression.plus (d + c) r e = f := by simpa [combine?, hpr, hzero] using h
          exact hf ▸ isCanonical_plus.mpr ⟨hzero, hr, hnot, hrest⟩
      · simp only [combine?, hpr, if_false, Option.map_eq_some_iff] at h
        obtain ⟨g, hg, rfl⟩ := h
        exact isCanonical_plus.mpr
          ⟨hd, hr, fun hmem => hnot (mem_products_of_combine? hg hmem), ih hrest hg⟩

theorem notMem_of_combine? {c : Rat} {p : Product Rat} {e : Expression Rat}
    (h : e.combine? c p = none) : p ∉ e.terms.map Prod.snd := by
  induction e with
  | zero => simp
  | plus d r e ih =>
      by_cases hpr : p = r
      · simp [combine?, hpr] at h
      · simp only [combine?, hpr, if_false, Option.map_eq_none_iff] at h
        rw [terms_plus, List.map_cons, List.mem_cons, not_or]
        exact ⟨hpr, ih h⟩

theorem mem_terms_insert {c : Rat} {p : Product Rat} {e : Expression Rat} {t : Rat × Product Rat} :
    t ∈ (e.insert c p).terms ↔ t = (c, p) ∨ t ∈ e.terms := by
  induction e with
  | zero => simp [insert]
  | plus d q e ih =>
      unfold insert
      split
      · simp
      · rw [terms_plus, List.mem_cons, ih, terms_plus, List.mem_cons]
        tauto

theorem IsCanonical.insert {c : Rat} {p : Product Rat} {e : Expression Rat} (he : e.IsCanonical)
    (hc : c ≠ 0) (hp : p.IsMonomial) (hnot : p ∉ e.terms.map Prod.snd) :
    (e.insert c p).IsCanonical := by
  induction e with
  | zero => exact isCanonical_plus.mpr ⟨hc, hp, hnot, he⟩
  | plus d q e ih =>
      obtain ⟨hd, hq, hfresh, hrest⟩ := isCanonical_plus.mp he
      unfold Expression.insert
      split
      · exact isCanonical_plus.mpr ⟨hc, hp, hnot, he⟩
      · simp only [terms_plus, List.map_cons, List.mem_cons, not_or] at hnot
        refine isCanonical_plus.mpr ⟨hd, hq, ?_, ih hrest hnot.2⟩
        rw [List.mem_map]
        rintro ⟨t, ht, hqt⟩
        rcases mem_terms_insert.mp ht with rfl | ht
        · exact hnot.1 hqt
        · exact hfresh (hqt ▸ List.mem_map_of_mem ht)

theorem IsCanonical.addTerm {c : Rat} {p : Product Rat} {e : Expression Rat} (he : e.IsCanonical)
    (hp : p.IsMonomial) : (e.addTerm c p).IsCanonical := by
  unfold Expression.addTerm
  cases h : e.combine? c p with
  | some f => exact he.of_combine? h
  | none =>
      by_cases hc : c = 0
      · simpa [hc] using he
      · simpa [hc] using he.insert hc hp (notMem_of_combine? h)

theorem IsCanonical.addTerms {e f : Expression Rat} (he : e.IsCanonical)
    (hf : f.IsCanonical) : (e.addTerms f).IsCanonical := by
  induction f with
  | zero => exact he
  | plus c p f ih =>
      obtain ⟨-, hp, -, hrest⟩ := isCanonical_plus.mp hf
      exact (ih hrest).addTerm hp

theorem IsCanonical.add {e f : Expression Rat} (he : e.IsCanonical) (hf : f.IsCanonical) :
    (e + f).IsCanonical := by
  rw [add_eq_addTerms]
  exact he.addTerms hf

theorem mem_products_scale {c : Rat} {e : Expression Rat} {p : Product Rat}
    (h : p ∈ (e.scale c).terms.map Prod.snd) : p ∈ e.terms.map Prod.snd := by
  induction e with
  | zero => simp at h
  | plus d q e ih =>
      unfold scale at h
      rw [terms_plus, List.map_cons, List.mem_cons]
      split at h
      · exact .inr (ih h)
      · rw [terms_plus, List.map_cons, List.mem_cons] at h
        exact h.imp_right ih

theorem IsCanonical.scale {e : Expression Rat} (he : e.IsCanonical) (c : Rat) :
    (e.scale c).IsCanonical := by
  induction e with
  | zero => exact he
  | plus d q e ih =>
      obtain ⟨-, hq, hfresh, hrest⟩ := isCanonical_plus.mp he
      by_cases hcd : c * d = 0
      · simpa [Expression.scale, hcd] using ih hrest
      · simp only [Expression.scale, Scalar.isZero_rat, hcd, decide_false, Bool.false_eq_true,
          if_false]
        exact isCanonical_plus.mpr
          ⟨hcd, hq, fun hmem => hfresh (mem_products_scale hmem), ih hrest⟩

theorem isCanonical_ofTerm (c : Rat) {p : Product Rat} (hp : p.IsMonomial) :
    (ofTerm c p).IsCanonical := by
  by_cases hc : c = 0
  · simpa [ofTerm, hc] using isCanonical_zero
  · have form : ofTerm c p = .plus c p .zero := by
      cases hp <;> simp [ofTerm, hc]
    rw [form]
    exact isCanonical_plus.mpr ⟨hc, hp, by simp, isCanonical_zero⟩

end Expression

end HybridRelaxation
