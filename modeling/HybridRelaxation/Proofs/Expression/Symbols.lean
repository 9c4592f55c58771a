import Mathlib
import HybridRelaxation.Proofs.Expression.Power

/-!
# Symbols of products

Multiplying polynomial expressions brings in no symbols: each symbol of a product is one of its
factors'.  This is about the expressions as they stand, before anything is multiplied out.
-/

namespace HybridRelaxation

variable {s : Symbol}

/-! ## Powers of one base -/

namespace Exponent

theorem symbols_of_isPositive {x : Exponent Rat} (hx : x.IsPositive) : x.symbols = [] := by
  obtain ⟨n, rfl⟩ := exists_of_isPositive hx
  simp [Exponent.symbols]

end Exponent

namespace Product

theorem mem_symbols_times {b : Base Rat} {x : Exponent Rat} {p : Product Rat} (hx : x.IsPositive) :
    s ∈ (Product.times b x p).symbols ↔ s ∈ b.symbols ∨ s ∈ p.symbols := by
  rw [Product.symbols, Exponent.symbols_of_isPositive hx, List.append_nil, List.mem_append]

theorem mem_symbols_insert {b : Base Rat} {x : Exponent Rat} {p : Product Rat}
    (h : s ∈ (p.insert b x).symbols) : s ∈ b.symbols ++ x.symbols ∨ s ∈ p.symbols := by
  induction p with
  | one => simpa [Product.insert, Product.symbols] using h
  | times c y p ih =>
      unfold Product.insert at h
      split at h
      · simpa [Product.symbols, or_assoc] using h
      · simp only [Product.symbols, List.mem_append] at h ih ⊢
        tauto

theorem symbols_of_combine? {b : Base Rat} {x : Exponent Rat} {p q : Product Rat}
    (hx : x.IsPositive) (hp : p.IsPolynomial) (h : p.combine? b x = some q)
    (hs : s ∈ q.symbols) : s ∈ p.symbols := by
  induction p generalizing q with
  | one => simp [combine?] at h
  | times c y p ih =>
      obtain ⟨⟨-, hy⟩, htail⟩ := (isPolynomial_times c y p).mp hp
      rw [mem_symbols_times hy]
      by_cases hbc : b = c
      · obtain ⟨z, hz, positive, nonzero, -⟩ := Exponent.add?_of_isPositive hx hy
        obtain rfl : Product.times c z p = q := by simpa [combine?, hbc, hz, nonzero] using h
        exact (mem_symbols_times positive).mp hs
      · simp only [combine?, hbc, if_false, Option.map_eq_some_iff] at h
        obtain ⟨r, hr, rfl⟩ := h
        exact ((mem_symbols_times hy).mp hs).imp_right (ih htail hr)

theorem symbols_multiply {b : Base Rat} {x : Exponent Rat} {p : Product Rat} (hx : x.IsPositive)
    (hp : p.IsPolynomial) (hs : s ∈ (p.multiply b x).symbols) : s ∈ b.symbols ∨ s ∈ p.symbols := by
  simp only [multiply, Exponent.vanishes_of_isPositive hx, Bool.false_eq_true, if_false] at hs
  cases h : p.combine? b x with
  | some q =>
      rw [h] at hs
      exact .inr (symbols_of_combine? hx hp h hs)
  | none =>
      rw [h] at hs
      have := mem_symbols_insert hs
      rwa [Exponent.symbols_of_isPositive hx, List.append_nil] at this

theorem symbols_ofFactors {fs : List (Factor Rat)} (h : ∀ f ∈ fs, Factor.IsPolynomial f)
    (hs : s ∈ (ofFactors fs).symbols) : ∃ f ∈ fs, s ∈ f.1.symbols := by
  suffices general : ∀ (fs : List (Factor Rat)) (p : Product Rat), p.IsPolynomial →
      (∀ f ∈ fs, Factor.IsPolynomial f) →
      s ∈ (fs.foldl (fun p (b, x) => p.multiply b x) p).symbols →
      s ∈ p.symbols ∨ ∃ f ∈ fs, s ∈ f.1.symbols by
    exact (general fs .one isPolynomial_one h hs).resolve_left (by simp [Product.symbols])
  intro fs
  induction fs with
  | nil => exact fun p _ _ hs => .inl hs
  | cons f fs ih =>
      intro p hp hfs hs
      obtain ⟨hb, hx⟩ := hfs f (by simp)
      rcases ih (p.multiply f.1 f.2) (isPolynomial_multiply hb hx hp)
        (fun g hg => hfs g (by simp [hg])) hs with h | ⟨g, hg, h⟩
      · rcases symbols_multiply hx hp h with h | h
        · exact .inr ⟨f, by simp, h⟩
        · exact .inl h
      · exact .inr ⟨g, by simp [hg], h⟩

theorem mem_symbols_iff {p : Product Rat} (hp : p.IsPolynomial) :
    s ∈ p.symbols ↔ ∃ f ∈ p.factors, s ∈ f.1.symbols := by
  induction p with
  | one => simp [Product.symbols]
  | times b x p ih =>
      obtain ⟨⟨-, hx⟩, htail⟩ := (isPolynomial_times b x p).mp hp
      simp [mem_symbols_times hx, ih htail]

end Product

/-! ## Lists of factors -/

namespace FactorList

def Mentions (l : FactorList Rat) (s : Symbol) : Prop := ∃ f ∈ l.factors, s ∈ f.1.symbols

theorem mentions_addDirect {l : FactorList Rat} {e : Expression Rat}
    (hs : (l.addDirect e).Mentions s) : l.Mentions s ∨ s ∈ e.symbols := by
  match e with
  | .zero => exact .inl hs
  | .plus c .one .zero => exact .inl hs
  | .plus c (.times b x .one) .zero =>
      by_cases hc : c = 1
      · obtain ⟨f, hf, h⟩ := hs
        simp only [addDirect, hc, if_true, List.mem_append, List.mem_singleton] at hf
        rcases hf with hf | rfl
        · exact .inl ⟨f, hf, h⟩
        · exact .inr (by simp [Expression.symbols, Product.symbols, h])
      · exact .inl (by simpa [addDirect, hc] using hs)
  | .plus c (.times b x (.times b' x' p)) .zero => exact .inl hs
  | .plus c p (.plus d q e) =>
      obtain ⟨f, hf, h⟩ := hs
      simp only [addDirect, List.mem_append, List.mem_singleton] at hf
      rcases hf with hf | rfl
      · exact .inl ⟨f, hf, h⟩
      · exact .inr (by simpa [Base.symbols] using h)

theorem mentions_addNested {l : FactorList Rat} {e : Expression Rat} (he : e.IsPolynomial)
    (hs : (l.addNested e).Mentions s) : l.Mentions s ∨ s ∈ e.symbols := by
  match e, he with
  | .zero, _ => exact .inl hs
  | .plus c .one .zero, _ => exact .inl hs
  | .plus c (.times b x p) .zero, he =>
      by_cases hc : c = 1 ∧ p = .one
      · exact .inl (by simpa [addNested, hc] using hs)
      · have hp : (Product.times b x p).IsPolynomial :=
          ((Expression.isPolynomial_plus _ _ _).mp he).1
        obtain ⟨f, hf, h⟩ := hs
        simp only [addNested, hc, if_false, List.mem_append] at hf
        rcases hf with hf | hf
        · exact .inl ⟨f, hf, h⟩
        · rw [Expression.symbols, List.mem_append]
          exact .inr (.inl ((Product.mem_symbols_iff hp).mpr ⟨f, hf, h⟩))
  | .plus c p (.plus d q f), _ => exact .inl (by simpa [addNested] using hs)

theorem mentions_ofExpressions {es : List (Expression Rat)} (h : ∀ e ∈ es, e.IsPolynomial)
    (hs : (ofExpressions es).Mentions s) : ∃ e ∈ es, s ∈ e.symbols := by
  have direct : (es.foldl addDirect ⟨1, []⟩).Mentions s → ∃ e ∈ es, s ∈ e.symbols :=
    List.foldlRecOn es addDirect (motive := fun l => l.Mentions s → ∃ e ∈ es, s ∈ e.symbols)
      (by simp [Mentions])
      (fun l hl e he hs => (mentions_addDirect hs).elim hl (fun h => ⟨e, he, h⟩))
  exact List.foldlRecOn es addNested (motive := fun l => l.Mentions s → ∃ e ∈ es, s ∈ e.symbols)
    direct (fun l hl e he hs => (mentions_addNested (h e he) hs).elim hl (fun h => ⟨e, he, h⟩)) hs

theorem symbols_multiply {l : FactorList Rat} (h : l.IsPolynomial) (hs : s ∈ l.multiply.symbols) :
    l.Mentions s :=
  Product.symbols_ofFactors h (Expression.symbols_ofTerm hs)

theorem symbols_finish {l : FactorList Rat} (h : l.IsPolynomial) (hs : s ∈ l.finish.symbols) :
    l.Mentions s := by
  simp only [finish, Scalar.kind_rat] at hs
  split at hs
  · have undefined : (Scalar.undefined : Rat) = 0 := rfl
    simp [undefined, Expression.number, Expression.symbols] at hs
  · exact symbols_multiply h hs

theorem symbols_simplify (level fuel : ℕ) {l : FactorList Rat} (h : l.IsPolynomial)
    (hs : s ∈ (l.simplify (Rules.ofLevel level) fuel).symbols) : l.Mentions s := by
  cases fuel with
  | zero => exact symbols_finish h hs
  | succ fuel =>
      rw [simplify_succ level fuel h] at hs
      have combined := (Product.ofFactors_spec (fun _ => (0 : ℚ)) h).1
      have mentioned := symbols_finish
        (l := ⟨l.coefficient, (Product.ofFactors l.factors).factors⟩)
        ((Product.isPolynomial_iff_factors _).mp combined) hs
      exact Product.symbols_ofFactors h ((Product.mem_symbols_iff combined).mpr mentioned)

end FactorList

/-! ## Products -/

theorem Rules.symbols_productByFactors (level : ℕ) {es : List (Expression Rat)}
    (h : ∀ e ∈ es, e.IsPolynomial)
    (hs : s ∈ (productByFactors (ofLevel level) es).symbols) : ∃ e ∈ es, s ∈ e.symbols := by
  have factors := FactorList.isPolynomial_ofExpressions h
  refine FactorList.mentions_ofExpressions h ?_
  simp only [productByFactors] at hs
  split at hs
  · exact FactorList.symbols_multiply factors hs
  · exact FactorList.symbols_simplify level FactorList.rounds factors hs

theorem Rules.symbols_scaledPair? {e f g : Expression Rat} (h : scaledPair? e f = some g)
    (hs : s ∈ g.symbols) : s ∈ e.symbols ∨ s ∈ f.symbols := by
  have scaled {c : Rat} {e : Expression Rat} (h : scaled? c e = some g) : s ∈ e.symbols := by
    simp only [scaled?, Scalar.exactValue?_rat, Expression.isBounded_rat] at h
    split at h
    · simp at h
    · obtain rfl : e.scale c = g := by simpa using h
      exact Expression.symbols_scale hs
  unfold scaledPair? at h
  split at h
  · exact .inr (scaled h)
  · exact .inl (scaled h)
  · simp at h

theorem Rules.symbols_productOf (level : ℕ) {es : List (Expression Rat)}
    (h : ∀ e ∈ es, e.IsPolynomial) (hs : s ∈ (productOf (ofLevel level) es).symbols) :
    ∃ e ∈ es, s ∈ e.symbols := by
  unfold productOf at hs
  split at hs
  · exact ⟨_, List.mem_singleton_self _, hs⟩
  · split at hs
    · next value hvalue =>
        rcases symbols_scaledPair? hvalue hs with hs | hs
        · exact ⟨_, by simp, hs⟩
        · exact ⟨_, by simp, hs⟩
    · exact symbols_productByFactors level h hs
  · exact symbols_productByFactors level h hs

namespace Expression

theorem symbols_product {es : List (Expression Rat)} (h : ∀ e ∈ es, e.IsPolynomial)
    (hs : s ∈ (product es).symbols) : ∃ e ∈ es, s ∈ e.symbols := by
  unfold product at hs
  split at hs
  · exact ⟨_, List.mem_singleton_self _, hs⟩
  simp only at hs
  split at hs
  · exact FactorList.mentions_ofExpressions h
      (FactorList.symbols_multiply (FactorList.isPolynomial_ofExpressions h) hs)
  · exact Rules.symbols_productOf 39 h hs

theorem symbols_mul {e f : Expression Rat} (he : e.IsPolynomial) (hf : f.IsPolynomial)
    (hs : s ∈ (e * f).symbols) : s ∈ e.symbols ∨ s ∈ f.symbols := by
  have product : ∃ g ∈ [e, f], s ∈ g.symbols := symbols_product (by simp [he, hf]) hs
  simpa using product

/-! ## Sums and differences -/

theorem symbols_sum {es : List (Expression Rat)} (hs : s ∈ (sum es).symbols) :
    ∃ e ∈ es, s ∈ e.symbols := by
  have folded (fs : List (Expression Rat)) (e : Expression Rat)
      (hs : s ∈ (fs.foldl add e).symbols) : s ∈ e.symbols ∨ ∃ f ∈ fs, s ∈ f.symbols := by
    induction fs generalizing e with
    | nil => exact .inl hs
    | cons f fs ih =>
        rcases ih (e.add f) hs with h | ⟨g, hg, h⟩
        · rcases symbols_add h with h | h
          · exact .inl h
          · exact .inr ⟨f, by simp, h⟩
        · exact .inr ⟨g, by simp [hg], h⟩
  unfold sum at hs
  split at hs
  · exact ⟨_, List.mem_singleton_self _, hs⟩
  · rcases folded _ _ hs with h | ⟨e, he, h⟩
    · simp [Expression.symbols] at h
    · refine ⟨e, ?_, h⟩
      rcases List.mem_append.mp he with he | he
      · exact (List.mem_filter.mp he).1
      · exact (List.mem_filter.mp he).1

theorem symbols_sub {e f : Expression Rat} (hs : s ∈ (e - f).symbols) :
    s ∈ e.symbols ∨ s ∈ f.symbols :=
  (symbols_add hs).imp_right symbols_scale

theorem symbols_intPower_ofSymbol {t : Symbol} {n : ℕ}
    (hs : s ∈ ((ofSymbol t : Expression Rat).intPower n).symbols) : s = t := by
  have power : (ofSymbol t : Expression Rat).intPower n =
      .ofTerm 1 (.power (.symbol t) (.integer (1 * n))) := rfl
  rw [power] at hs
  have := symbols_ofTerm hs
  unfold Product.power at this
  split at this
  · simp [Product.symbols] at this
  · simpa [Product.symbols, Base.symbols, Exponent.symbols] using this

end Expression

end HybridRelaxation
