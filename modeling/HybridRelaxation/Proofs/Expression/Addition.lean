import Mathlib
import HybridRelaxation.Proofs.Expression.Value

/-!
# Values of sums

Adding, scaling and negating polynomial expressions gives polynomial expressions, whose values are
the sums, multiples and negatives of the values.  Rationals are all finite, so no term absorbs
another one.
-/

namespace HybridRelaxation

variable {R : Type*} [CommRing R] [Algebra ℚ R] (ρ : Symbol → R)

namespace Expression

/-! ## Adding a term -/

theorem eval_of_combine? {c : Rat} {p : Product Rat} {e f : Expression Rat}
    (h : e.combine? c p = some f) :
    f.eval ρ = e.eval ρ + algebraMap ℚ R c * p.eval ρ := by
  induction e generalizing f with
  | zero => simp [combine?] at h
  | plus d q e ih =>
      by_cases hpq : p = q
      · subst hpq
        by_cases hzero : d + c = 0
        · have hf : e = f := by simpa [combine?, hzero] using h
          have hmap : algebraMap ℚ R d + algebraMap ℚ R c = 0 := by
            rw [← map_add, hzero, map_zero]
          rw [← hf, eval_plus]
          linear_combination -(p.eval ρ) * hmap
        · have hf : Expression.plus (d + c) p e = f := by simpa [combine?, hzero] using h
          rw [← hf]
          simp only [eval_plus, map_add]
          ring
      · simp only [combine?, hpq, if_false, Option.map_eq_some_iff] at h
        obtain ⟨g, hg, rfl⟩ := h
        simp only [eval_plus, ih hg]
        ring

theorem eval_insert (c : Rat) (p : Product Rat) (e : Expression Rat) :
    (e.insert c p).eval ρ = e.eval ρ + algebraMap ℚ R c * p.eval ρ := by
  induction e with
  | zero => simp [insert]
  | plus d q e ih =>
      by_cases hlt : p.order q = .lt
      · simp only [insert, hlt, if_true, eval_plus]
        ring
      · simp only [insert, hlt, if_false, eval_plus, ih]
        ring

theorem eval_addTerm (c : Rat) (p : Product Rat) (e : Expression Rat) :
    (e.addTerm c p).eval ρ = e.eval ρ + algebraMap ℚ R c * p.eval ρ := by
  unfold addTerm
  cases h : e.combine? c p with
  | some f => exact eval_of_combine? ρ h
  | none =>
      by_cases hc : c = 0
      · simp [hc]
      · simp [hc, eval_insert]

@[simp] theorem eval_addTerms (e f : Expression Rat) :
    (e.addTerms f).eval ρ = e.eval ρ + f.eval ρ := by
  induction f with
  | zero => simp
  | plus c p f ih =>
      rw [addTerms_plus, eval_addTerm, ih, eval_plus]
      ring

theorem isPolynomial_of_combine? {c : Rat} {p : Product Rat} {e f : Expression Rat}
    (he : e.IsPolynomial) (h : e.combine? c p = some f) : f.IsPolynomial := by
  induction e generalizing f with
  | zero => simp [combine?] at h
  | plus d q e ih =>
      obtain ⟨hq, hrest⟩ := (isPolynomial_plus d q e).mp he
      by_cases hpq : p = q
      · subst hpq
        by_cases hzero : d + c = 0
        · have hf : e = f := by simpa [combine?, hzero] using h
          exact hf ▸ hrest
        · have hf : Expression.plus (d + c) p e = f := by simpa [combine?, hzero] using h
          exact hf ▸ (isPolynomial_plus _ _ _).mpr ⟨hq, hrest⟩
      · simp only [combine?, hpq, if_false, Option.map_eq_some_iff] at h
        obtain ⟨g, hg, rfl⟩ := h
        exact (isPolynomial_plus d q g).mpr ⟨hq, ih hrest hg⟩

theorem isPolynomial_insert {c : Rat} {p : Product Rat} {e : Expression Rat}
    (he : e.IsPolynomial) (hp : p.IsPolynomial) : (e.insert c p).IsPolynomial := by
  induction e with
  | zero => simp [insert, hp]
  | plus d q e ih =>
      obtain ⟨hq, he⟩ := (isPolynomial_plus d q e).mp he
      by_cases hlt : p.order q = .lt
      · simp [insert, hlt, hp, hq, he]
      · simp [insert, hlt, hq, ih he]

theorem isPolynomial_addTerm {c : Rat} {p : Product Rat} {e : Expression Rat}
    (he : e.IsPolynomial) (hp : p.IsPolynomial) : (e.addTerm c p).IsPolynomial := by
  unfold addTerm
  cases h : e.combine? c p with
  | some f => exact isPolynomial_of_combine? he h
  | none =>
      by_cases hc : c = 0
      · simpa [hc] using he
      · simpa [hc] using isPolynomial_insert he hp

theorem isPolynomial_addTerms {e f : Expression Rat} (he : e.IsPolynomial)
    (hf : f.IsPolynomial) : (e.addTerms f).IsPolynomial := by
  induction f with
  | zero => exact he
  | plus c p f ih =>
      obtain ⟨hp, hf⟩ := (isPolynomial_plus c p f).mp hf
      exact isPolynomial_addTerm (ih hf) hp

/-! ## Sums -/

theorem isBounded_rat (e : Expression Rat) : e.isBounded = true := by
  induction e with
  | zero => rfl
  | plus c p e ih => simp [isBounded, ih]

@[simp] theorem absorb_rat (e : Expression Rat) : e.absorb = e :=
  absorb_of_isBounded (isBounded_rat e)

theorem add_eq_addTerms (e f : Expression Rat) : e + f = e.addTerms f := absorb_rat _

@[simp] theorem eval_add (e f : Expression Rat) : (e + f).eval ρ = e.eval ρ + f.eval ρ := by
  rw [add_eq_addTerms, eval_addTerms]

theorem isPolynomial_add {e f : Expression Rat} (he : e.IsPolynomial) (hf : f.IsPolynomial) :
    (e + f).IsPolynomial := by
  rw [add_eq_addTerms]
  exact isPolynomial_addTerms he hf

theorem eval_foldl_add (es : List (Expression Rat)) (e : Expression Rat) :
    (es.foldl add e).eval ρ = e.eval ρ + (es.map (eval ρ)).sum := by
  induction es generalizing e with
  | nil => simp
  | cons f es ih =>
      have head : (e.add f).eval ρ = e.eval ρ + f.eval ρ := eval_add ρ e f
      simp [ih, head, add_assoc]

theorem isPolynomial_foldl_add {es : List (Expression Rat)} {e : Expression Rat}
    (he : e.IsPolynomial) (hes : ∀ f ∈ es, f.IsPolynomial) :
    (es.foldl add e).IsPolynomial := by
  induction es generalizing e with
  | nil => exact he
  | cons f es ih =>
      have head : (e.add f).IsPolynomial := isPolynomial_add he (hes f (by simp))
      exact ih head (fun g hg => hes g (by simp [hg]))

theorem sum_eq_foldl {es : List (Expression Rat)} (h : es.length ≠ 1) :
    sum es = ((es.filter (fun e => !e.isSum)) ++ es.filter isSum).foldl add .zero := by
  match es, h with
  | [], _ => rfl
  | _ :: _ :: _, _ => rfl

@[simp] theorem eval_sum (es : List (Expression Rat)) :
    (sum es).eval ρ = (es.map (eval ρ)).sum := by
  by_cases h : es.length = 1
  · obtain ⟨e, rfl⟩ := List.length_eq_one_iff.mp h
    simp [sum]
  · have perm : ((es.filter (fun e => !e.isSum)) ++ es.filter isSum).Perm es :=
      List.perm_append_comm.trans (List.filter_append_perm isSum es)
    rw [sum_eq_foldl h, eval_foldl_add, eval_zero, zero_add]
    exact (perm.map (eval ρ)).sum_eq

theorem isPolynomial_sum {es : List (Expression Rat)} (h : ∀ e ∈ es, e.IsPolynomial) :
    (sum es).IsPolynomial := by
  by_cases hlength : es.length = 1
  · obtain ⟨e, rfl⟩ := List.length_eq_one_iff.mp hlength
    exact h e (by simp)
  · rw [sum_eq_foldl hlength]
    refine isPolynomial_foldl_add isPolynomial_zero (fun f hf => h f ?_)
    rcases List.mem_append.mp hf with hf | hf
    · exact List.mem_of_mem_filter hf
    · exact List.mem_of_mem_filter hf

/-! ## Multiples -/

@[simp] theorem eval_scale (c : Rat) (e : Expression Rat) :
    (e.scale c).eval ρ = algebraMap ℚ R c * e.eval ρ := by
  induction e with
  | zero => simp
  | plus d p e ih =>
      by_cases hzero : c * d = 0
      · have hmap : algebraMap ℚ R c * algebraMap ℚ R d = 0 := by
          rw [← map_mul, hzero, map_zero]
        simp only [scale, Scalar.isZero_rat, hzero, decide_true, if_true, ih, eval_plus]
        linear_combination -(p.eval ρ) * hmap
      · simp only [scale, Scalar.isZero_rat, hzero, decide_false, Bool.false_eq_true, if_false,
          eval_plus, ih, map_mul]
        ring

theorem isPolynomial_scale {c : Rat} {e : Expression Rat} (he : e.IsPolynomial) :
    (e.scale c).IsPolynomial := by
  induction e with
  | zero => simp
  | plus d p e ih =>
      obtain ⟨hp, he⟩ := (isPolynomial_plus d p e).mp he
      by_cases hzero : c * d = 0
      · simpa [scale, hzero] using ih he
      · simpa [scale, hzero] using ⟨hp, ih he⟩

theorem neg_eq_scale (e : Expression Rat) : -e = e.scale (-1) := rfl

@[simp] theorem eval_neg (e : Expression Rat) : (-e).eval ρ = -e.eval ρ := by
  simp [neg_eq_scale]

theorem isPolynomial_neg {e : Expression Rat} (he : e.IsPolynomial) : (-e).IsPolynomial :=
  isPolynomial_scale he

theorem sub_eq_add (e f : Expression Rat) : e - f = e + -f := rfl

@[simp] theorem eval_sub (e f : Expression Rat) : (e - f).eval ρ = e.eval ρ - f.eval ρ := by
  rw [sub_eq_add, eval_add, eval_neg]
  ring

theorem isPolynomial_sub {e f : Expression Rat} (he : e.IsPolynomial) (hf : f.IsPolynomial) :
    (e - f).IsPolynomial :=
  isPolynomial_add he (isPolynomial_neg hf)

/-! ## Terms -/

theorem ofTerm_one (c : Rat) : ofTerm c .one = number c := by
  by_cases hc : c = 0 <;> simp [ofTerm, number, hc]

@[simp] theorem eval_ofTerm (c : Rat) (p : Product Rat) :
    (ofTerm c p).eval ρ = algebraMap ℚ R c * p.eval ρ := by
  unfold ofTerm
  by_cases hc : c = 0
  · simp [hc]
  · simp only [Scalar.isZero_rat, hc, decide_false, Bool.false_eq_true, if_false]
    split
    · simp
    · simp

theorem isPolynomial_ofTerm {c : Rat} {p : Product Rat} (hp : p.IsPolynomial) :
    (ofTerm c p).IsPolynomial := by
  unfold ofTerm
  by_cases hc : c = 0
  · simp [hc]
  · simp only [Scalar.isZero_rat, hc, decide_false, Bool.false_eq_true, if_false]
    split
    · simp only [Product.isPolynomial_times, Base.isPolynomial_group] at hp
      simpa using isPolynomial_scale hp.1.1.2
    · simpa using hp

/-! ## Symbols -/

section Symbols

variable {K : Type} [Scalar K] {s : Symbol}

theorem symbols_combine? {c : K} {p : Product K} {e f : Expression K}
    (h : e.combine? c p = some f) (hs : s ∈ f.symbols) : s ∈ e.symbols := by
  induction e generalizing f with
  | zero => simp [combine?] at h
  | plus d q e ih =>
      rw [Expression.symbols, List.mem_append]
      unfold combine? at h
      split at h
      · obtain rfl := Option.some.inj h
        split at hs
        · exact .inr hs
        · simpa [Expression.symbols] using hs
      · obtain ⟨g, hg, rfl⟩ := Option.map_eq_some_iff.mp h
        rw [Expression.symbols, List.mem_append] at hs
        exact hs.imp_right (ih hg)

theorem symbols_insert {c : K} {p : Product K} {e : Expression K}
    (hs : s ∈ (e.insert c p).symbols) : s ∈ e.symbols ∨ s ∈ p.symbols := by
  induction e with
  | zero => simpa [insert, Expression.symbols] using hs
  | plus d q e ih =>
      unfold insert at hs
      split at hs
      · simp only [Expression.symbols, List.mem_append] at hs ⊢
        tauto
      · simp only [Expression.symbols, List.mem_append] at hs ⊢
        tauto

theorem symbols_addTerm {c : K} {p : Product K} {e : Expression K}
    (hs : s ∈ (e.addTerm c p).symbols) : s ∈ e.symbols ∨ s ∈ p.symbols := by
  unfold addTerm at hs
  cases h : e.combine? c p with
  | some f =>
      rw [h] at hs
      exact .inl (symbols_combine? h hs)
  | none =>
      rw [h] at hs
      simp only at hs
      split at hs
      · exact .inl hs
      · exact symbols_insert hs

omit [Scalar K] in
theorem symbols_filterTerms {keep : K → Product K → Bool} {e : Expression K}
    (hs : s ∈ (e.filterTerms keep).symbols) : s ∈ e.symbols := by
  induction e with
  | zero => exact hs
  | plus c p e ih =>
      unfold filterTerms at hs
      rw [Expression.symbols, List.mem_append]
      split at hs
      · rw [Expression.symbols, List.mem_append] at hs
        exact hs.imp_right ih
      · exact .inr (ih hs)

theorem symbols_number (c : K) : (number c : Expression K).symbols = [] := by
  unfold number
  split <;> simp [Expression.symbols, Product.symbols]

theorem symbols_absorb {e : Expression K} (hs : s ∈ e.absorb.symbols) : s ∈ e.symbols := by
  unfold absorb at hs
  split at hs
  · exact hs
  · split at hs
    · simp [symbols_number] at hs
    · exact symbols_filterTerms hs

theorem symbols_add {e f : Expression K} (hs : s ∈ (e + f).symbols) :
    s ∈ e.symbols ∨ s ∈ f.symbols := by
  have together := symbols_absorb hs
  clear hs
  induction f with
  | zero => exact .inl together
  | plus c p f ih =>
      rw [Expression.symbols, List.mem_append]
      rcases symbols_addTerm together with h | h
      · have := ih h
        tauto
      · exact .inr (.inl h)

theorem symbols_scale {c : K} {e : Expression K} (hs : s ∈ (e.scale c).symbols) :
    s ∈ e.symbols := by
  induction e with
  | zero => exact hs
  | plus d q e ih =>
      unfold scale at hs
      rw [Expression.symbols, List.mem_append]
      split at hs
      · exact .inr (ih hs)
      · rw [Expression.symbols, List.mem_append] at hs
        exact hs.imp_right ih

theorem symbols_ofTerm {c : K} {p : Product K} (hs : s ∈ (ofTerm c p).symbols) : s ∈ p.symbols := by
  unfold ofTerm at hs
  split at hs
  · simp [Expression.symbols] at hs
  · split at hs
    · split at hs
      · simpa [Product.symbols, Base.symbols, Exponent.symbols] using symbols_scale hs
      · simpa [Expression.symbols, Product.symbols] using hs
    · simpa [Expression.symbols] using hs

end Symbols

end Expression

end HybridRelaxation
