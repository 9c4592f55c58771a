import Mathlib
import HybridRelaxation.Proofs.Expression.PowerProduct
import HybridRelaxation.Proofs.Expression.Value

/-!
# Meanings of expressions

Once the symbols have complex values, an expression over scalars of any kind has a value where
everything in it is defined: its numbers are finite, no logarithm is taken of zero, and zero is only
raised to zero or to powers with a positive real part.  Powers and logarithms are principal ones.
At polynomial expressions over the rationals this is the value in the algebra of complex numbers.
-/

namespace HybridRelaxation

/-! ## Numbers, functions and powers -/

/-- The number that a scalar stands for, if it is finite. -/
noncomputable def Scalar.meaning? {K : Type} [Scalar K] (c : K) : Option ℂ :=
  (Scalar.finite? c).map (fun q => (q : ℂ))

theorem Scalar.meaning?_of_integer? {K : Type} [Scalar K] {c : K} {n : ℤ}
    (h : Scalar.integer? c = some n) : Scalar.meaning? c = some (n : ℂ) := by
  cases hc : Scalar.kind c with
  | exact q =>
      simp only [Scalar.integer?, Scalar.exactValue?, hc, Option.ite_none_right_eq_some,
        Option.some.injEq] at h
      obtain ⟨hden, rfl⟩ := h
      have value : (q.num : ℚ) = q := (Rat.den_eq_one_iff q).mp hden
      simp only [Scalar.meaning?, Scalar.finite?, hc]
      rw [← value]
      simp
  | _ => simp [Scalar.integer?, Scalar.exactValue?, hc] at h

/-- Zero is zero, also as a floating-point number. -/
class Scalar.HasZero (K : Type) [Scalar K] : Prop where
  finite?_zero : Scalar.finite? (0 : K) = some 0
  finite?_measured_zero : Scalar.finite? (Scalar.measured 0 : K) = some 0
  finite?_machine_zero : Scalar.finite? (Scalar.machine (Scalar.measured 0) : K) = some 0

instance : Scalar.HasZero Rat := ⟨rfl, rfl, rfl⟩

instance : Scalar.HasZero Number := ⟨by decide +kernel, by decide +kernel, by decide +kernel⟩

noncomputable def Constant.meaning : Constant → ℂ
  | .pi => Real.pi
  | .euler => Complex.exp 1

noncomputable def UnaryFunction.meaning? (f : UnaryFunction) (z : ℂ) : Option ℂ :=
  match f with
  | .sin => some (Complex.sin z)
  | .cos => some (Complex.cos z)
  | .log => if z = 0 then none else some (Complex.log z)
  | .abs => some ‖z‖
  | .sign => some (z / ‖z‖)
  | .sinh => some (Complex.sinh z)
  | .cosh => some (Complex.cosh z)

/-- The principal power, where it is defined. -/
noncomputable def power? (z w : ℂ) : Option ℂ :=
  if z = 0 ∧ w ≠ 0 ∧ w.re ≤ 0 then none else some (z ^ w)

theorem power?_eq_some {z w v : ℂ} :
    power? z w = some v ↔ (z = 0 → w = 0 ∨ 0 < w.re) ∧ v = z ^ w := by
  unfold power?
  split
  · next h =>
      simp only [reduceCtorEq, false_iff, not_and]
      intro defined
      rcases defined h.1 with zero | positive
      · exact absurd zero h.2.1
      · exact absurd h.2.2 (not_le.mpr positive)
  · next h =>
      rw [Option.some.injEq, eq_comm]
      refine (and_iff_right fun hz => ?_).symm
      by_contra undefined
      rw [not_or, not_lt] at undefined
      exact h ⟨hz, undefined⟩

theorem power?_natCast (z : ℂ) (n : ℕ) : power? z n = some (z ^ n) := by
  refine power?_eq_some.mpr ⟨fun _ => ?_, (Complex.cpow_natCast z n).symm⟩
  rcases n.eq_zero_or_pos with rfl | hn
  · exact .inl Nat.cast_zero
  · exact .inr (by simpa using hn)

@[simp] theorem power?_one (z : ℂ) : power? z 1 = some z := by
  simpa using power?_natCast z 1

@[simp] theorem power?_ofNat (z : ℂ) (n : ℕ) [n.AtLeastTwo] :
    power? z ofNat(n) = some (z ^ (ofNat(n) : ℕ)) :=
  power?_natCast z n

theorem power?_add {z a b x y : ℂ} (hx : power? z a = some x) (hy : power? z b = some y) :
    power? z (a + b) = some (x * y) := by
  obtain ⟨first, rfl⟩ := power?_eq_some.mp hx
  obtain ⟨second, rfl⟩ := power?_eq_some.mp hy
  by_cases hz : z = 0
  · subst hz
    rcases first rfl with rfl | ha
    · simpa using hy
    · have hne : a ≠ 0 := fun h => by simp [h] at ha
      rcases second rfl with rfl | hb
      · simpa using hx
      · have positive : 0 < (a + b).re := by
          rw [Complex.add_re]
          exact add_pos ha hb
        have hsum : a + b ≠ 0 := fun h => by simp [h] at positive
        refine power?_eq_some.mpr ⟨fun _ => .inr positive, ?_⟩
        rw [Complex.zero_cpow hne, Complex.zero_cpow hsum, zero_mul]
  · exact power?_eq_some.mpr ⟨fun h => absurd h hz, (Complex.cpow_add a b hz).symm⟩

theorem power?_sum {z : ℂ} {ws vs : List ℂ}
    (h : List.Forall₂ (fun w v => power? z w = some v) ws vs) : power? z ws.sum = some vs.prod := by
  induction h with
  | nil => simpa using power?_natCast z 0
  | cons head _ ih =>
      rw [List.sum_cons, List.prod_cons]
      exact power?_add head ih

/-! ## Values of expressions -/

variable {K : Type} [Scalar K]

mutual

/-- The value at a point, where there is one. -/
noncomputable def Expression.meaning? (ρ : Symbol → ℂ) : Expression K → Option ℂ
  | .zero => some 0
  | .plus c p e => do
      let a ← Scalar.meaning? c
      let x ← p.meaning? ρ
      let y ← e.meaning? ρ
      some (a * x + y)

noncomputable def Product.meaning? (ρ : Symbol → ℂ) : Product K → Option ℂ
  | .one => some 1
  | .times b x p => do
      let u ← b.meaning? ρ
      let w ← x.meaning? ρ
      let v ← power? u w
      let y ← p.meaning? ρ
      some (v * y)

noncomputable def Base.meaning? (ρ : Symbol → ℂ) : Base K → Option ℂ
  | .symbol s => some (ρ s)
  | .constant c => some c.meaning
  | .number c => Scalar.meaning? c
  | .apply f e => (e.meaning? ρ).bind f.meaning?
  | .group e => e.meaning? ρ

noncomputable def Exponent.meaning? (ρ : Symbol → ℂ) : Exponent K → Option ℂ
  | .integer n => some n
  | .multiple c e => do
      let a ← Scalar.meaning? c
      let w ← e.meaning? ρ
      some (a * w)

end

noncomputable def termMeaning? (ρ : Symbol → ℂ) (t : K × Product K) : Option ℂ := do
  let a ← Scalar.meaning? t.1
  let x ← t.2.meaning? ρ
  some (a * x)

noncomputable def Factor.meaning? (ρ : Symbol → ℂ) (f : Factor K) : Option ℂ := do
  let u ← f.1.meaning? ρ
  let w ← f.2.meaning? ρ
  power? u w

section

variable (ρ : Symbol → ℂ)

@[simp] theorem Expression.meaning?_zero :
    (Expression.zero : Expression K).meaning? ρ = some 0 := by
  simp [Expression.meaning?]

@[simp] theorem Product.meaning?_one : (Product.one : Product K).meaning? ρ = some 1 := by
  simp [Product.meaning?]

@[simp] theorem Base.meaning?_symbol (s : Symbol) :
    (Base.symbol s : Base K).meaning? ρ = some (ρ s) := by
  simp [Base.meaning?]

@[simp] theorem Exponent.meaning?_integer (n : ℤ) :
    (Exponent.integer n : Exponent K).meaning? ρ = some (n : ℂ) := by
  simp [Exponent.meaning?]

@[simp] theorem Expression.meaning?_ofSymbol [Scalar.HasUnits K] (s : Symbol) :
    (Expression.ofSymbol s : Expression K).meaning? ρ = some (ρ s) := by
  simp [Expression.ofSymbol, Expression.meaning?, Product.meaning?, Scalar.meaning?]

@[simp] theorem Factor.meaning?_integer_one (b : Base K) :
    Factor.meaning? ρ (b, .integer 1) = b.meaning? ρ := by
  simp [Factor.meaning?]

variable {ρ}

theorem termMeaning?_eq_some {t : K × Product K} {z : ℂ} :
    termMeaning? ρ t = some z ↔
      ∃ a x, Scalar.meaning? t.1 = some a ∧ t.2.meaning? ρ = some x ∧ z = a * x := by
  simp only [termMeaning?, Option.bind_eq_bind, Option.bind_eq_some_iff, Option.some.injEq]
  exact ⟨fun ⟨a, ha, x, hx, h⟩ => ⟨a, x, ha, hx, h.symm⟩,
    fun ⟨a, x, ha, hx, h⟩ => ⟨a, ha, x, hx, h.symm⟩⟩

theorem Expression.meaning?_plus {c : K} {p : Product K} {e : Expression K} {z : ℂ} :
    (Expression.plus c p e).meaning? ρ = some z ↔
      ∃ x y, termMeaning? ρ (c, p) = some x ∧ e.meaning? ρ = some y ∧ z = x + y := by
  simp only [Expression.meaning?, termMeaning?, Option.bind_eq_bind, Option.bind_eq_some_iff,
    Option.some.injEq]
  constructor
  · rintro ⟨a, ha, x, hx, y, hy, rfl⟩
    exact ⟨a * x, y, ⟨a, ha, x, hx, rfl⟩, hy, rfl⟩
  · rintro ⟨_, y, ⟨a, ha, x, hx, rfl⟩, hy, rfl⟩
    exact ⟨a, ha, x, hx, y, hy, rfl⟩

theorem Product.meaning?_times {b : Base K} {x : Exponent K} {p : Product K} {z : ℂ} :
    (Product.times b x p).meaning? ρ = some z ↔
      ∃ v y, Factor.meaning? ρ (b, x) = some v ∧ p.meaning? ρ = some y ∧ z = v * y := by
  simp only [Product.meaning?, Factor.meaning?, Option.bind_eq_bind, Option.bind_eq_some_iff,
    Option.some.injEq]
  constructor
  · rintro ⟨u, hu, w, hw, v, hv, y, hy, rfl⟩
    exact ⟨v, y, ⟨u, hu, w, hw, hv⟩, hy, rfl⟩
  · rintro ⟨v, y, ⟨u, hu, w, hw, hv⟩, hy, rfl⟩
    exact ⟨u, hu, w, hw, v, hv, y, hy, rfl⟩

theorem Expression.meaning?_eq_some_iff_terms {e : Expression K} {z : ℂ} :
    e.meaning? ρ = some z ↔
      ∃ zs, List.Forall₂ (fun t z => termMeaning? ρ t = some z) e.terms zs ∧ zs.sum = z := by
  induction e generalizing z with
  | zero => simp
  | plus c p e ih =>
      simp only [meaning?_plus, ih, terms_plus, List.forall₂_cons_left_iff]
      constructor
      · rintro ⟨x, y, hx, ⟨zs, hzs, rfl⟩, rfl⟩
        exact ⟨x :: zs, ⟨x, zs, hx, hzs, rfl⟩, List.sum_cons⟩
      · rintro ⟨_, ⟨x, zs, hx, hzs, rfl⟩, rfl⟩
        exact ⟨x, zs.sum, hx, ⟨zs, hzs, rfl⟩, List.sum_cons⟩

theorem Product.meaning?_eq_some_iff_factors {p : Product K} {z : ℂ} :
    p.meaning? ρ = some z ↔
      ∃ vs, List.Forall₂ (fun (f : Factor K) v => f.meaning? ρ = some v) p.factors vs ∧
        vs.prod = z := by
  induction p generalizing z with
  | one => simp
  | times b x p ih =>
      simp only [meaning?_times, ih, factors_times, List.forall₂_cons_left_iff]
      constructor
      · rintro ⟨v, y, hv, ⟨vs, hvs, rfl⟩, rfl⟩
        exact ⟨v :: vs, ⟨v, vs, hv, hvs, rfl⟩, List.prod_cons⟩
      · rintro ⟨_, ⟨v, vs, hv, hvs, rfl⟩, rfl⟩
        exact ⟨v, vs.prod, hv, ⟨vs, hvs, rfl⟩, List.prod_cons⟩

theorem Expression.meaning?_of_number? [Scalar.HasZero K] {e : Expression K} {c : K}
    (h : e.number? = some c) : e.meaning? ρ = Scalar.meaning? c := by
  match e, h with
  | .zero, h =>
      obtain rfl := Option.some.inj h
      simp [Scalar.meaning?, Scalar.HasZero.finite?_zero]
  | .plus d .one .zero, h =>
      obtain rfl := Option.some.inj h
      simp only [meaning?, Product.meaning?_one]
      cases Scalar.meaning? d <;> simp

end

/-! ## Points with the same values -/

mutual

theorem Expression.meaning?_congr {ρ σ : Symbol → ℂ} :
    ∀ e : Expression K, (∀ s ∈ e.symbols, ρ s = σ s) → e.meaning? ρ = e.meaning? σ
  | .zero, _ => by simp
  | .plus c p e, h => by
      have hp := Product.meaning?_congr p (fun s hs => h s (by simp [Expression.symbols, hs]))
      have he := Expression.meaning?_congr e (fun s hs => h s (by simp [Expression.symbols, hs]))
      simp only [Expression.meaning?, hp, he]

theorem Product.meaning?_congr {ρ σ : Symbol → ℂ} :
    ∀ p : Product K, (∀ s ∈ p.symbols, ρ s = σ s) → p.meaning? ρ = p.meaning? σ
  | .one, _ => by simp
  | .times b x p, h => by
      have hb := Base.meaning?_congr b (fun s hs => h s (by simp [Product.symbols, hs]))
      have hx := Exponent.meaning?_congr x (fun s hs => h s (by simp [Product.symbols, hs]))
      have hp := Product.meaning?_congr p (fun s hs => h s (by simp [Product.symbols, hs]))
      simp only [Product.meaning?, hb, hx, hp]

theorem Base.meaning?_congr {ρ σ : Symbol → ℂ} :
    ∀ b : Base K, (∀ s ∈ b.symbols, ρ s = σ s) → b.meaning? ρ = b.meaning? σ
  | .symbol s, h => by simp [h s (by simp [Base.symbols])]
  | .constant _, _ => by simp only [Base.meaning?]
  | .number _, _ => by simp only [Base.meaning?]
  | .apply _ e, h => by
      simp only [Base.meaning?, Expression.meaning?_congr e (by simpa [Base.symbols] using h)]
  | .group e, h => by
      simp only [Base.meaning?, Expression.meaning?_congr e (by simpa [Base.symbols] using h)]

theorem Exponent.meaning?_congr {ρ σ : Symbol → ℂ} :
    ∀ x : Exponent K, (∀ s ∈ x.symbols, ρ s = σ s) → x.meaning? ρ = x.meaning? σ
  | .integer _, _ => by simp
  | .multiple _ e, h => by
      simp only [Exponent.meaning?,
        Expression.meaning?_congr e (by simpa [Exponent.symbols] using h)]

end

/-! ## Polynomial expressions -/

section

variable (ρ : Symbol → ℂ)

mutual

theorem Expression.meaning?_of_isPolynomial :
    ∀ e : Expression Rat, e.IsPolynomial → e.meaning? ρ = some (e.eval ρ)
  | .zero, _ => by simp
  | .plus c p e, h => by
      obtain ⟨hp, he⟩ := (Expression.isPolynomial_plus c p e).mp h
      simp [Expression.meaning?, Scalar.meaning?, Product.meaning?_of_isPolynomial p hp,
        Expression.meaning?_of_isPolynomial e he]

theorem Product.meaning?_of_isPolynomial :
    ∀ p : Product Rat, p.IsPolynomial → p.meaning? ρ = some (p.eval ρ)
  | .one, _ => by simp
  | .times b x p, h => by
      obtain ⟨⟨hb, hx⟩, hp⟩ := (Product.isPolynomial_times b x p).mp h
      obtain ⟨n, rfl⟩ := Exponent.exists_of_isPositive hx
      have power := power?_natCast (b.eval ρ) (n + 1)
      push_cast at power
      simp [Product.meaning?, Base.meaning?_of_isPolynomial b hb, power,
        Product.meaning?_of_isPolynomial p hp]

theorem Base.meaning?_of_isPolynomial :
    ∀ b : Base Rat, b.IsPolynomial → b.meaning? ρ = some (b.eval ρ)
  | .symbol s, _ => by simp
  | .group e, h => by
      obtain ⟨-, he⟩ := (Base.isPolynomial_group e).mp h
      simp [Base.meaning?, Expression.meaning?_of_isPolynomial e he]
  | .constant _, h => by simp at h
  | .number _, h => by simp at h
  | .apply _ _, h => by simp at h

end

end

/-! ## Exact sums

Where nothing is rounded, sums and multiples keep the values.
-/

section

variable {ρ : Symbol → ℂ}

theorem termMeaning?_rat {c : Rat} {p : Product Rat} {z : ℂ} :
    termMeaning? ρ (c, p) = some z ↔ ∃ x, p.meaning? ρ = some x ∧ z = c * x := by
  simp [termMeaning?_eq_some, Scalar.meaning?]

theorem Expression.meaning?_plus_rat {c : Rat} {p : Product Rat} {e : Expression Rat} {z : ℂ} :
    (Expression.plus c p e).meaning? ρ = some z ↔
      ∃ x y, p.meaning? ρ = some x ∧ e.meaning? ρ = some y ∧ z = c * x + y := by
  simp only [meaning?_plus, termMeaning?_rat]
  constructor
  · rintro ⟨_, y, ⟨x, hx, rfl⟩, hy, rfl⟩
    exact ⟨x, y, hx, hy, rfl⟩
  · rintro ⟨x, y, hx, hy, rfl⟩
    exact ⟨_, y, ⟨x, hx, rfl⟩, hy, rfl⟩

namespace Expression

theorem meaning?_combine? {c : Rat} {p : Product Rat} {e f : Expression Rat}
    (h : e.combine? c p = some f) {x y : ℂ} (hp : p.meaning? ρ = some x)
    (he : e.meaning? ρ = some y) : f.meaning? ρ = some (y + c * x) := by
  induction e generalizing f y with
  | zero => simp [combine?] at h
  | plus d q e ih =>
      obtain ⟨u, w, hu, hw, rfl⟩ := meaning?_plus_rat.mp he
      unfold combine? at h
      split at h
      · next same =>
          subst same
          obtain rfl := Option.some.inj (hp.symm.trans hu)
          obtain rfl := Option.some.inj h
          split
          · next hzero =>
              have sum : (d : ℂ) + c = 0 := by
                exact_mod_cast (by simpa using hzero : d + c = 0)
              rw [hw, show (d : ℂ) * x + w + c * x = (d + c) * x + w by ring, sum, zero_mul,
                zero_add]
          · exact meaning?_plus_rat.mpr ⟨x, w, hp, hw, by push_cast; ring⟩
      · obtain ⟨g, hg, rfl⟩ := Option.map_eq_some_iff.mp h
        exact meaning?_plus_rat.mpr ⟨u, w + c * x, hu, ih hg hw, by ring⟩

theorem meaning?_insert {c : Rat} {p : Product Rat} {e : Expression Rat} {x y : ℂ}
    (hp : p.meaning? ρ = some x) (he : e.meaning? ρ = some y) :
    (e.insert c p).meaning? ρ = some (y + c * x) := by
  induction e generalizing y with
  | zero =>
      obtain rfl : 0 = y := by simpa using he
      exact meaning?_plus_rat.mpr ⟨x, 0, hp, he, add_comm _ _⟩
  | plus d q e ih =>
      unfold insert
      split
      · exact meaning?_plus_rat.mpr ⟨x, y, hp, he, add_comm _ _⟩
      · obtain ⟨u, w, hu, hw, rfl⟩ := meaning?_plus_rat.mp he
        exact meaning?_plus_rat.mpr ⟨u, w + c * x, hu, ih hw, by ring⟩

theorem meaning?_addTerm {c : Rat} {p : Product Rat} {e : Expression Rat} {x y : ℂ}
    (hp : p.meaning? ρ = some x) (he : e.meaning? ρ = some y) :
    (e.addTerm c p).meaning? ρ = some (y + c * x) := by
  unfold addTerm
  split
  · next f hf => exact meaning?_combine? hf hp he
  · split
    · next hzero =>
        have value : c = 0 := by simpa using hzero
        simp [he, value]
    · exact meaning?_insert hp he

theorem meaning?_add {e f : Expression Rat} {x y : ℂ} (he : e.meaning? ρ = some x)
    (hf : f.meaning? ρ = some y) : (e + f).meaning? ρ = some (x + y) := by
  rw [add_eq_addTerms]
  induction f generalizing y with
  | zero =>
      obtain rfl : 0 = y := by simpa using hf
      simpa using he
  | plus c p f ih =>
      obtain ⟨u, w, hu, hw, rfl⟩ := meaning?_plus_rat.mp hf
      rw [addTerms_plus, meaning?_addTerm hu (ih hw)]
      congr 1
      ring

theorem meaning?_scale {c : Rat} {e : Expression Rat} {x : ℂ} (he : e.meaning? ρ = some x) :
    (e.scale c).meaning? ρ = some (c * x) := by
  induction e generalizing x with
  | zero =>
      obtain rfl : 0 = x := by simpa using he
      simp
  | plus d p e ih =>
      obtain ⟨u, w, hu, hw, rfl⟩ := meaning?_plus_rat.mp he
      unfold scale
      split
      · next hzero =>
          have product : (c : ℂ) * d = 0 := by
            exact_mod_cast (by simpa using hzero : c * d = 0)
          rw [ih hw, mul_add, ← mul_assoc, product, zero_mul, zero_add]
      · exact meaning?_plus_rat.mpr ⟨u, c * w, hu, ih hw, by push_cast; ring⟩

theorem meaning?_ofTerm {c : Rat} {p : Product Rat} {z : ℂ} (h : termMeaning? ρ (c, p) = some z) :
    (ofTerm c p).meaning? ρ = some z := by
  obtain ⟨x, hx, rfl⟩ := termMeaning?_rat.mp h
  unfold ofTerm
  split
  · next hzero =>
      have value : c = 0 := by simpa using hzero
      simp [value]
  · split
    · next e =>
        obtain ⟨v, y, hv, hy, rfl⟩ := Product.meaning?_times.mp hx
        obtain rfl : 1 = y := by simpa using hy
        have power : e.meaning? ρ = some v := by simpa [Base.meaning?] using hv
        simpa using meaning?_scale power
    · exact meaning?_plus_rat.mpr ⟨x, 0, hx, by simp, (add_zero _).symm⟩

end Expression

theorem Exponent.meaning?_toExpression {x : Exponent Rat} {w : ℂ} (h : x.meaning? ρ = some w) :
    x.toExpression.meaning? ρ = some w := by
  cases x with
  | integer n =>
      obtain rfl : (n : ℂ) = w := by simpa using h
      rw [toExpression, Expression.ofInt,
        Expression.meaning?_of_number? (Expression.number?_number _)]
      simp [Scalar.meaning?, Scalar.ofInt]
  | multiple c e =>
      obtain ⟨u, hu, rfl⟩ : ∃ u, e.meaning? ρ = some u ∧ c * u = w := by
        simpa [meaning?, Scalar.meaning?, Option.bind_eq_some_iff] using h
      rw [toExpression]
      split
      · next unit =>
          obtain rfl : 1 = u := by
            simpa [unit, Exponent.unit, Expression.meaning?, Scalar.meaning?] using hu
          rw [Expression.meaning?_of_number? (Expression.number?_number c)]
          simp [Scalar.meaning?]
      · exact Expression.meaning?_scale hu

end

end HybridRelaxation
