import Mathlib
import HybridRelaxation.Proofs.Expression.Expansion

/-!
# Normal forms

Monomials are linearly ordered, first by their symbols and then by the powers.  Adding a term keeps
the terms of a sum in this order.  So an expanded polynomial expression is canonical with its terms
in order, and it is the only such expression with its value: two polynomial expressions with one
value expand to the same expression.
-/

namespace HybridRelaxation

open MvPolynomial (X)

/-! ## The order of monomials -/

namespace Product

theorem order_times_symbol (s t : Symbol) (m n : ℤ) (p q : Product Rat) :
    (Product.times (.symbol s) (.integer m) p).order (.times (.symbol t) (.integer n) q) =
      ((s.order t).then (compare m n)).then (p.order q) := by
  simp only [Product.order, Base.order, Exponent.order]

namespace IsMonomial

theorem order_swap {p q : Product Rat} (hp : p.IsMonomial) (hq : q.IsMonomial) :
    q.order p = (p.order q).swap := by
  induction hp generalizing q with
  | one => cases hq <;> simp [Product.order]
  | times s n p tail first ih =>
      cases hq with
      | one => simp [Product.order]
      | times t m q tail' first' =>
          have symbols : t.order s = (s.order t).swap := Std.OrientedCmp.eq_swap
          have powers : compare ((m : ℤ) + 1) (n + 1) = (compare ((n : ℤ) + 1) (m + 1)).swap :=
            Std.OrientedCmp.eq_swap
          rw [order_times_symbol, order_times_symbol, ih tail', symbols, powers,
            Ordering.swap_then, Ordering.swap_then]

theorem eq_of_order_eq {p q : Product Rat} (hp : p.IsMonomial) (hq : q.IsMonomial)
    (h : p.order q = .eq) : p = q := by
  induction hp generalizing q with
  | one => cases hq <;> simp [Product.order] at h ⊢
  | times s n p tail first ih =>
      cases hq with
      | one => simp [Product.order] at h
      | times t m q tail' first' =>
          rw [order_times_symbol, Ordering.then_eq_eq, Ordering.then_eq_eq] at h
          obtain ⟨⟨symbols, powers⟩, rest⟩ := h
          rw [Symbol.eq_of_order_eq symbols, Std.LawfulEqCmp.eq_of_compare powers,
            ih tail' rest]

theorem order_trans {p q r : Product Rat} (hp : p.IsMonomial) (hq : q.IsMonomial)
    (hr : r.IsMonomial) (hpq : p.order q = .lt) (hqr : q.order r = .lt) : p.order r = .lt := by
  induction hp generalizing q r with
  | one =>
      cases hr with
      | one => cases hq <;> simp [Product.order] at hpq hqr
      | times => simp [Product.order]
  | times s n p tail first ih =>
      cases hq with
      | one => simp [Product.order] at hpq
      | times t m q tail' first' =>
          cases hr with
          | one => simp [Product.order] at hqr
          | times u k r tail'' first'' =>
              -- The first place where two neighbours differ decides.
              simp only [order_times_symbol, Ordering.then_eq_lt, Ordering.then_eq_eq] at hpq hqr ⊢
              rcases hpq with (hst | ⟨hst, hnm⟩) | ⟨⟨hst, hnm⟩, hpq⟩
              · rcases hqr with (htu | ⟨htu, -⟩) | ⟨⟨htu, -⟩, -⟩
                · exact .inl (.inl (Symbol.order_trans hst htu))
                · exact .inl (.inl (Symbol.eq_of_order_eq htu ▸ hst))
                · exact .inl (.inl (Symbol.eq_of_order_eq htu ▸ hst))
              · obtain rfl := Symbol.eq_of_order_eq hst
                rcases hqr with (htu | ⟨htu, hmk⟩) | ⟨⟨htu, hmk⟩, -⟩
                · exact .inl (.inl htu)
                · exact .inl (.inr ⟨htu, Std.TransCmp.lt_trans hnm hmk⟩)
                · exact .inl (.inr ⟨htu, Std.TransCmp.lt_of_lt_of_eq hnm hmk⟩)
              · obtain rfl := Symbol.eq_of_order_eq hst
                rcases hqr with (htu | ⟨htu, hmk⟩) | ⟨⟨htu, hmk⟩, hqr⟩
                · exact .inl (.inl htu)
                · exact .inl (.inr ⟨htu, Std.TransCmp.lt_of_eq_of_lt hnm hmk⟩)
                · exact .inr ⟨⟨htu, Std.TransCmp.eq_trans hnm hmk⟩, ih tail' tail'' hpq hqr⟩

theorem order_lt_of_not {p q : Product Rat} (hp : p.IsMonomial) (hq : q.IsMonomial) (hne : p ≠ q)
    (h : p.order q ≠ .lt) : q.order p = .lt := by
  rw [hp.order_swap hq]
  cases hpq : p.order q with
  | lt => exact absurd hpq h
  | eq => exact absurd (hp.eq_of_order_eq hq hpq) hne
  | gt => rfl

end IsMonomial

end Product

/-! ## Terms in order -/

namespace Expression

/-- A canonical sum with its terms in order. -/
structure IsNormal (e : Expression Rat) : Prop extends e.IsCanonical where
  sorted : (e.terms.map Prod.snd).Pairwise (fun p q => p.order q = .lt)

theorem isNormal_plus {c : Rat} {p : Product Rat} {e : Expression Rat} :
    (plus c p e).IsNormal ↔
      c ≠ 0 ∧ p.IsMonomial ∧ (∀ q ∈ e.terms.map Prod.snd, p.order q = .lt) ∧ e.IsNormal := by
  constructor
  · rintro ⟨canonical, sorted⟩
    obtain ⟨hc, hp, -, he⟩ := isCanonical_plus.mp canonical
    rw [terms_plus, List.map_cons, List.pairwise_cons] at sorted
    exact ⟨hc, hp, sorted.1, he, sorted.2⟩
  · rintro ⟨hc, hp, first, he, sorted⟩
    have fresh : p ∉ e.terms.map Prod.snd := by
      intro hmem
      have irreflexive := hp.order_swap hp
      rw [first p hmem] at irreflexive
      simp at irreflexive
    refine ⟨isCanonical_plus.mpr ⟨hc, hp, fresh, he⟩, ?_⟩
    rw [terms_plus, List.map_cons, List.pairwise_cons]
    exact ⟨first, sorted⟩

theorem isNormal_zero : (zero : Expression Rat).IsNormal := ⟨isCanonical_zero, by simp⟩

theorem isNormal_ofTerm (c : Rat) {p : Product Rat} (hp : p.IsMonomial) :
    (ofTerm c p).IsNormal := by
  refine ⟨isCanonical_ofTerm c hp, ?_⟩
  by_cases hc : c = 0
  · simp [ofTerm, hc]
  · cases hp <;> simp [ofTerm, hc]

/-! ### Addition -/

theorem IsNormal.of_combine? {c : Rat} {p : Product Rat} {e f : Expression Rat}
    (he : e.IsNormal) (h : e.combine? c p = some f) : f.IsNormal := by
  induction e generalizing f with
  | zero => simp [combine?] at h
  | plus d r e ih =>
      obtain ⟨hd, hr, first, hrest⟩ := isNormal_plus.mp he
      by_cases hpr : p = r
      · by_cases hzero : d + c = 0
        · have hf : e = f := by simpa [combine?, hpr, hzero] using h
          exact hf ▸ hrest
        · have hf : plus (d + c) r e = f := by simpa [combine?, hpr, hzero] using h
          exact hf ▸ isNormal_plus.mpr ⟨hzero, hr, first, hrest⟩
      · simp only [combine?, hpr, if_false, Option.map_eq_some_iff] at h
        obtain ⟨g, hg, rfl⟩ := h
        exact isNormal_plus.mpr
          ⟨hd, hr, fun q hq => first q (mem_products_of_combine? hg hq), ih hrest hg⟩

theorem IsNormal.insert {c : Rat} {p : Product Rat} {e : Expression Rat} (he : e.IsNormal)
    (hc : c ≠ 0) (hp : p.IsMonomial) (hnot : p ∉ e.terms.map Prod.snd) :
    (e.insert c p).IsNormal := by
  induction e with
  | zero => exact isNormal_plus.mpr ⟨hc, hp, by simp, he⟩
  | plus d q e ih =>
      obtain ⟨hd, hq, first, hrest⟩ := isNormal_plus.mp he
      simp only [terms_plus, List.map_cons, List.mem_cons, not_or] at hnot
      unfold Expression.insert
      split
      · next hlt =>
          refine isNormal_plus.mpr ⟨hc, hp, ?_, he⟩
          simp only [terms_plus, List.map_cons, List.mem_cons, forall_eq_or_imp]
          refine ⟨hlt, fun r hr => ?_⟩
          obtain ⟨t, ht, rfl⟩ := List.mem_map.mp hr
          exact hp.order_trans hq (hrest.monomials t ht) hlt (first _ hr)
      · next hlt =>
          refine isNormal_plus.mpr ⟨hd, hq, fun r hr => ?_, ih hrest hnot.2⟩
          obtain ⟨t, ht, rfl⟩ := List.mem_map.mp hr
          rcases mem_terms_insert.mp ht with rfl | ht
          · exact hp.order_lt_of_not hq hnot.1 hlt
          · exact first _ (List.mem_map_of_mem ht)

theorem IsNormal.addTerm {c : Rat} {p : Product Rat} {e : Expression Rat} (he : e.IsNormal)
    (hp : p.IsMonomial) : (e.addTerm c p).IsNormal := by
  unfold Expression.addTerm
  cases h : e.combine? c p with
  | some f => exact he.of_combine? h
  | none =>
      by_cases hc : c = 0
      · simpa [hc] using he
      · simpa [hc] using he.insert hc hp (notMem_of_combine? h)

theorem IsNormal.addTerms {e f : Expression Rat} (he : e.IsNormal) (hf : f.IsCanonical) :
    (e.addTerms f).IsNormal := by
  induction f with
  | zero => exact he
  | plus c p f ih =>
      obtain ⟨-, hp, -, hrest⟩ := isCanonical_plus.mp hf
      exact (ih hrest).addTerm hp

theorem IsNormal.add {e f : Expression Rat} (he : e.IsNormal) (hf : f.IsCanonical) :
    (e + f).IsNormal := by
  rw [add_eq_addTerms]
  exact he.addTerms hf

/-! ### Expansion -/

theorem isNormal_multiplyOut {e : Expression Rat} (h : e.IsPolynomial) :
    e.multiplyOut.IsNormal := by
  induction e with
  | zero => simpa [multiplyOut] using isNormal_zero
  | plus c p e ih =>
      obtain ⟨hp, hrest⟩ := (isPolynomial_plus c p e).mp h
      have product := (Product.multiplyOut_spec (fun _ => (0 : ℚ)) p hp).1
      rw [multiplyOut]
      exact (ih hrest).addTerms (product.scale c)

theorem isNormal_expand {e : Expression Rat} (h : e.IsPolynomial) : e.expand.IsNormal := by
  rw [expand, if_pos (isPolynomialForm_of_isPolynomial h)]
  exact isNormal_multiplyOut h

/-! ## Uniqueness -/

theorem terms_injective {e f : Expression Rat} (h : e.terms = f.terms) : e = f := by
  induction e generalizing f with
  | zero => cases f <;> simp at h ⊢
  | plus c p e ih =>
      cases f with
      | zero => simp at h
      | plus d q f =>
          simp only [terms_plus, List.cons.injEq, Prod.mk.injEq] at h
          obtain ⟨⟨rfl, rfl⟩, hrest⟩ := h
          rw [ih hrest]

theorem IsCanonical.mem_terms_of_eval_eq {e f : Expression Rat} (he : e.IsCanonical)
    (hf : f.IsCanonical) (h : (e.eval X : MvPolynomial Symbol ℚ) = f.eval X)
    {t : Rat × Product Rat} (ht : t ∈ e.terms) : t ∈ f.terms := by
  obtain ⟨c, p⟩ := t
  have hp := he.monomials _ ht
  have coefficient := he.coeff_of_mem ht
  rw [h] at coefficient
  by_cases hmem : p ∈ f.terms.map Prod.snd
  · obtain ⟨⟨d, q⟩, hq, rfl⟩ := List.mem_map.mp hmem
    rwa [← coefficient, hf.coeff_of_mem hq]
  · rw [hf.coeff_eq_zero hp hmem] at coefficient
    exact absurd coefficient.symm (he.nonzero _ ht)

theorem IsNormal.eq_of_eval_eq {e f : Expression Rat} (he : e.IsNormal) (hf : f.IsNormal)
    (h : (e.eval X : MvPolynomial Symbol ℚ) = f.eval X) : e = f := by
  have nodup {g : Expression Rat} (hg : g.IsNormal) : g.terms.Nodup := hg.distinct.of_map _
  have same : e.terms.Perm f.terms :=
    (List.perm_ext_iff_of_nodup (nodup he) (nodup hf)).mpr (fun t =>
      ⟨he.mem_terms_of_eval_eq hf.toIsCanonical h, hf.mem_terms_of_eval_eq he.toIsCanonical h.symm⟩)
  have ascending {g : Expression Rat} (hg : g.IsNormal) :
      g.terms.Pairwise (fun s t => s.2.order t.2 = .lt) := List.pairwise_map.mp hg.sorted
  refine terms_injective (same.eq_of_pairwise (fun s t hs ht hst hts => ?_) (ascending he)
    (ascending hf))
  rw [(he.monomials s hs).order_swap (hf.monomials t ht), hst] at hts
  simp at hts

/-- Polynomial expressions with one value expand to one expression. -/
theorem expand_eq_of_eval_eq {e f : Expression Rat} (he : e.IsPolynomial) (hf : f.IsPolynomial)
    (h : (e.eval X : MvPolynomial Symbol ℚ) = f.eval X) : e.expand = f.expand :=
  (isNormal_expand he).eq_of_eval_eq (isNormal_expand hf)
    (by rw [eval_expand _ he, eval_expand _ hf, h])

end Expression

end HybridRelaxation
