import Mathlib
import HybridRelaxation.Polynomial.Coefficients
import HybridRelaxation.Proofs.Expression.Symbols

/-!
# Monomials of exponent vectors

A natural exponent vector over a list of variables stands for a monomial.  The monomial of a sum of
vectors is the product of the monomials, and over distinct variables different vectors stand for
different monomials.  The enumeration lists exactly the vectors of bounded total degree.
-/

namespace HybridRelaxation

/-! ## Natural exponent vectors -/

/-- One natural number for each of some variables. -/
structure Exponents.IsNatural (n : ℕ) (e : Exponents) : Prop where
  length : e.length = n
  nonneg : ∀ k ∈ e, 0 ≤ k

namespace Exponents

@[simp] theorem isNatural_nil {n : ℕ} : IsNatural n [] ↔ n = 0 :=
  ⟨fun h => by simpa using h.length.symm, fun h => ⟨by simp [h], by simp⟩⟩

@[simp] theorem isNatural_cons {n : ℕ} {k : ℤ} {e : Exponents} :
    IsNatural (n + 1) (k :: e) ↔ 0 ≤ k ∧ IsNatural n e := by
  constructor
  · intro h
    exact ⟨h.nonneg k (by simp), by simpa using h.length, fun l hl => h.nonneg l (by simp [hl])⟩
  · rintro ⟨hk, length, nonneg⟩
    exact ⟨by simp [length], by simpa [hk] using nonneg⟩

theorem not_isNatural_zero_cons {k : ℤ} {e : Exponents} : ¬ IsNatural 0 (k :: e) :=
  fun h => by simpa using h.length

theorem isNatural_zero {e : Exponents} : IsNatural 0 e ↔ e = [] := by
  cases e with
  | nil => simp
  | cons k e => simp [not_isNatural_zero_cons]

theorem isNatural_replicate (n : ℕ) : IsNatural n (List.replicate n 0) :=
  ⟨by simp, by simp⟩

theorem IsNatural.totalDegreeOf_nonneg {n : ℕ} {e : Exponents} (h : IsNatural n e) :
    0 ≤ totalDegreeOf e := by
  induction e generalizing n with
  | nil => simp
  | cons k e ih =>
      cases n with
      | zero => exact absurd h not_isNatural_zero_cons
      | succ n =>
          obtain ⟨hk, he⟩ := isNatural_cons.mp h
          have := ih he
          rw [totalDegreeOf_cons]
          omega

theorem isNatural_addExponents {n : ℕ} {e f : Exponents} (he : IsNatural n e)
    (hf : IsNatural n f) : IsNatural n (addExponents e f) := by
  constructor
  · simp [addExponents, he.length, hf.length]
  · intro k hk
    obtain ⟨i, hi, rfl⟩ := List.mem_iff_getElem.mp hk
    simp only [addExponents, List.length_zipWith, lt_min_iff] at hi
    have := he.nonneg e[i] (List.getElem_mem hi.1)
    have := hf.nonneg f[i] (List.getElem_mem hi.2)
    simp only [addExponents, List.getElem_zipWith]
    omega

theorem isNatural_addAt {n : ℕ} {e : Exponents} (he : IsNatural n e) (i m : ℕ) :
    IsNatural n (addAt i m e) := by
  constructor
  · simp [addAt, he.length]
  · intro k hk
    rw [addAt, List.mem_iff_getElem] at hk
    obtain ⟨j, hj, rfl⟩ := hk
    rw [List.length_modify] at hj
    rw [List.getElem_modify]
    have := he.nonneg e[j] (List.getElem_mem hj)
    split <;> omega

/-! ## Enumeration -/

theorem mem_homogeneousExponents {n d : ℕ} {e : Exponents} :
    e ∈ homogeneousExponents n d ↔ IsNatural n e ∧ totalDegreeOf e = d := by
  induction n generalizing d e with
  | zero =>
      cases d with
      | zero =>
          rw [homogeneousExponents, List.mem_singleton, isNatural_zero]
          exact ⟨fun h => ⟨h, by simp [h]⟩, And.left⟩
      | succ d =>
          simp only [homogeneousExponents, List.not_mem_nil, false_iff, isNatural_zero]
          rintro ⟨rfl, h⟩
          simp at h
          omega
  | succ n ih =>
      simp only [homogeneousExponents, List.mem_flatMap, List.mem_range, List.mem_map, ih]
      constructor
      · rintro ⟨rest, hrest, f, ⟨hf, total⟩, rfl⟩
        rw [isNatural_cons, totalDegreeOf_cons, total]
        exact ⟨⟨by omega, hf⟩, by omega⟩
      · rintro ⟨hnat, total⟩
        cases e with
        | nil => simp at hnat
        | cons k f =>
            obtain ⟨hk, hf⟩ := isNatural_cons.mp hnat
            have hrest := hf.totalDegreeOf_nonneg
            rw [totalDegreeOf_cons] at total
            refine ⟨(totalDegreeOf f).toNat, by omega, f, ⟨hf, by omega⟩, ?_⟩
            congr 1
            omega

theorem mem_exponents {n : ℕ} {degree least : ℤ} {e : Exponents} :
    e ∈ exponents n degree least ↔
      IsNatural n e ∧ least ≤ totalDegreeOf e ∧ totalDegreeOf e ≤ degree := by
  simp only [exponents, List.mem_flatMap, mem_integerRange, mem_homogeneousExponents]
  constructor
  · rintro ⟨d, ⟨hleast, hdegree⟩, hnat, total⟩
    exact ⟨hnat, by omega, by omega⟩
  · rintro ⟨hnat, hleast, hdegree⟩
    have := hnat.totalDegreeOf_nonneg
    exact ⟨totalDegreeOf e, by omega, hnat, by omega⟩

theorem totalDegreeOf_replicate (n : ℕ) : totalDegreeOf (List.replicate n 0) = 0 := by
  induction n with
  | zero => rfl
  | succ n ih => simpa [totalDegreeOf, List.replicate_succ] using ih

theorem replicate_mem_exponents (n : ℕ) {degree : ℤ} (h : 0 ≤ degree) :
    List.replicate n 0 ∈ exponents n degree 0 := by
  have zero := totalDegreeOf_replicate n
  exact mem_exponents.mpr ⟨isNatural_replicate n, zero.ge, zero.trans_le h⟩

theorem nodup_homogeneousExponents (n d : ℕ) : (homogeneousExponents n d).Nodup := by
  induction n generalizing d with
  | zero => cases d <;> simp [homogeneousExponents]
  | succ n ih =>
      rw [homogeneousExponents, List.nodup_flatMap]
      constructor
      · intro rest _
        exact (ih rest).map (fun e f h => (List.cons.inj h).2)
      · refine List.Nodup.pairwise_of_forall_ne List.nodup_range (fun i hi j hj hij => ?_)
        have hi := List.mem_range.mp hi
        have hj := List.mem_range.mp hj
        rw [Function.onFun, List.disjoint_left]
        simp only [List.mem_map]
        rintro e ⟨f, -, rfl⟩ ⟨g, -, h⟩
        have heads := (List.cons.inj h).1
        omega

theorem nodup_exponents (n : ℕ) (degree least : ℤ) : (exponents n degree least).Nodup := by
  have ascending : (integerRange (max least 0) degree).Nodup :=
    List.nodup_range.map (fun i j h => by omega)
  rw [exponents, List.nodup_flatMap]
  constructor
  · intro d _
    exact nodup_homogeneousExponents n d.toNat
  · refine ascending.pairwise_of_forall_ne (fun i hi j hj hij => ?_)
    rw [mem_integerRange] at hi hj
    rw [Function.onFun, List.disjoint_left]
    intro e he he'
    rw [mem_homogeneousExponents] at he he'
    omega

end Exponents

/-! ## Values of monomials -/

section Values

variable {R : Type*} [CommRing R] (ρ : Symbol → R)

def monomialValue : List Symbol → Exponents → R
  | s :: scope, k :: e => ρ s ^ k.toNat * monomialValue scope e
  | _, _ => 1

/-- The powers of the variables in the monomial of a vector. -/
noncomputable def monomialPowers : List Symbol → Exponents → Symbol →₀ ℕ
  | s :: scope, k :: e => Finsupp.single s k.toNat + monomialPowers scope e
  | _, _ => 0

@[simp] theorem monomialValue_cons (s : Symbol) (scope : List Symbol) (k : ℤ) (e : Exponents) :
    monomialValue ρ (s :: scope) (k :: e) = ρ s ^ k.toNat * monomialValue ρ scope e := rfl

@[simp] theorem monomialPowers_cons (s : Symbol) (scope : List Symbol) (k : ℤ) (e : Exponents) :
    monomialPowers (s :: scope) (k :: e) =
      Finsupp.single s k.toNat + monomialPowers scope e := rfl

@[simp] theorem monomialValue_nil (e : Exponents) : monomialValue ρ [] e = 1 := by
  simp [monomialValue]

@[simp] theorem monomialPowers_nil (e : Exponents) : monomialPowers [] e = 0 := by
  simp [monomialPowers]

theorem monomial_spec [Algebra ℚ R] {n : ℕ} {scope : List Symbol} {e : Exponents} (he : e.IsNatural n) :
    (monomial scope e).IsPolynomial ∧ (monomial scope e).eval ρ = monomialValue ρ scope e := by
  have powers : ∀ (scope : List Symbol) (e : Exponents), (∀ k ∈ e, 0 ≤ k) →
      (∀ f ∈ List.zipWith (fun s k => (Expression.ofSymbol s : Expression Rat).intPower k) scope e,
        f.IsPolynomial) ∧
      ((List.zipWith (fun s k => (Expression.ofSymbol s : Expression Rat).intPower k)
        scope e).map (Expression.eval ρ)).prod = monomialValue ρ scope e := by
    intro scope
    induction scope with
    | nil => intro e _; simp
    | cons s scope ih =>
        intro e he
        cases e with
        | nil => simp [monomialValue]
        | cons k e =>
            obtain ⟨tail, value⟩ := ih e (fun l hl => he l (by simp [hl]))
            have hk : 0 ≤ k := he k (by simp)
            lift k to ℕ using hk
            obtain ⟨power, raised⟩ :=
              Expression.intPower_spec ρ (Expression.isPolynomial_ofSymbol s) k
            constructor
            · simpa only [List.zipWith_cons_cons, List.mem_cons, forall_eq_or_imp]
                using ⟨power, tail⟩
            · rw [List.zipWith_cons_cons, List.map_cons, List.prod_cons, raised, value,
                Expression.eval_ofSymbol, monomialValue_cons, Int.toNat_natCast]
  obtain ⟨polynomial, value⟩ := powers scope e he.nonneg
  exact ⟨Expression.isPolynomial_product polynomial,
    (Expression.eval_product ρ polynomial).trans value⟩

theorem isPolynomial_monomial {n : ℕ} {scope : List Symbol} {e : Exponents}
    (he : e.IsNatural n) : (monomial scope e : Expression Rat).IsPolynomial :=
  (monomial_spec (fun _ => (0 : ℚ)) he).1

theorem eval_monomial [Algebra ℚ R] {n : ℕ} {scope : List Symbol} {e : Exponents} (he : e.IsNatural n) :
    (monomial scope e).eval ρ = monomialValue ρ scope e := (monomial_spec ρ he).2

theorem symbols_monomial {n : ℕ} {scope : List Symbol} {e : Exponents} (he : e.IsNatural n)
    {t : Symbol} (ht : t ∈ (monomial scope e : Expression Rat).symbols) : t ∈ scope := by
  have powers : ∀ f ∈ List.zipWith
      (fun s k => (Expression.ofSymbol s : Expression Rat).intPower k) scope e,
        ∃ s ∈ scope, ∃ k : ℕ, f = (Expression.ofSymbol s).intPower k := by
    intro f hf
    obtain ⟨k, hk, rfl⟩ := List.mem_iff_getElem.mp hf
    rw [List.length_zipWith] at hk
    have natural := he.nonneg e[k] (List.getElem_mem (by omega))
    refine ⟨scope[k], List.getElem_mem (by omega), e[k].toNat, ?_⟩
    rw [List.getElem_zipWith, Int.toNat_of_nonneg natural]
  have polynomial : ∀ f ∈ List.zipWith
      (fun s k => (Expression.ofSymbol s : Expression Rat).intPower k) scope e, f.IsPolynomial := by
    intro f hf
    obtain ⟨s, -, k, rfl⟩ := powers f hf
    exact (Expression.intPower_spec (fun _ => (0 : ℚ)) (Expression.isPolynomial_ofSymbol s) k).1
  obtain ⟨f, hf, ht⟩ := Expression.symbols_product polynomial ht
  obtain ⟨s, hs, k, rfl⟩ := powers f hf
  rwa [Expression.symbols_intPower_ofSymbol ht]

theorem map_monomialValue {S : Type*} [CommRing S] (f : R →+* S) (scope : List Symbol)
    (e : Exponents) : f (monomialValue ρ scope e) = monomialValue (fun s => f (ρ s)) scope e := by
  induction scope generalizing e with
  | nil => simp
  | cons s scope ih =>
      cases e with
      | nil => simp [monomialValue]
      | cons k e => simp [ih]

theorem monomialValue_replicate (scope : List Symbol) (n : ℕ) :
    monomialValue ρ scope (List.replicate n 0) = 1 := by
  induction scope generalizing n with
  | nil => simp
  | cons s scope ih =>
      cases n with
      | zero => simp [monomialValue]
      | succ n => simp [List.replicate_succ, ih]

theorem monomialValue_addExponents {scope : List Symbol} {e f : Exponents}
    (he : e.IsNatural scope.length) (hf : f.IsNatural scope.length) :
    monomialValue ρ scope (addExponents e f) =
      monomialValue ρ scope e * monomialValue ρ scope f := by
  induction scope generalizing e f with
  | nil => simp
  | cons s scope ih =>
      cases e with
      | nil => simp at he
      | cons k e =>
          cases f with
          | nil => simp at hf
          | cons l f =>
              obtain ⟨hk, he⟩ := Exponents.isNatural_cons.mp he
              obtain ⟨hl, hf⟩ := Exponents.isNatural_cons.mp hf
              have sum : addExponents (k :: e) (l :: f) = (k + l) :: addExponents e f := rfl
              rw [sum, monomialValue_cons, ih he hf, Int.toNat_add hk hl, pow_add]
              simp only [monomialValue_cons]
              ring

theorem monomialValue_addAt {scope : List Symbol} {e : Exponents} {i : ℕ} {s : Symbol}
    (he : e.IsNatural scope.length) (hs : scope[i]? = some s) (m : ℕ) :
    monomialValue ρ scope (addAt i m e) = ρ s ^ m * monomialValue ρ scope e := by
  induction scope generalizing e i with
  | nil => simp at hs
  | cons t scope ih =>
      cases e with
      | nil => simp at he
      | cons k e =>
          obtain ⟨hk, he⟩ := Exponents.isNatural_cons.mp he
          cases i with
          | zero =>
              obtain rfl : t = s := by simpa using hs
              have sum : addAt 0 m (k :: e) = (k + m) :: e := by simp [addAt]
              rw [sum, monomialValue_cons, monomialValue_cons, Int.toNat_add hk (by omega),
                Int.toNat_natCast, pow_add]
              ring
          | succ i =>
              have sum : addAt (i + 1) m (k :: e) = k :: addAt i m e := by simp [addAt]
              rw [sum, monomialValue_cons, monomialValue_cons, ih he (by simpa using hs)]
              ring

end Values

/-! ## Monomials of polynomial rings -/

variable {A : Type*} [CommRing A]

theorem monomialValue_X (scope : List Symbol) (e : Exponents) :
    monomialValue (MvPolynomial.X : Symbol → MvPolynomial Symbol A) scope e =
      MvPolynomial.monomial (monomialPowers scope e) 1 := by
  induction scope generalizing e with
  | nil =>
      rw [monomialValue_nil, monomialPowers_nil]
      rfl
  | cons s scope ih =>
      cases e with
      | nil =>
          simp only [monomialValue, monomialPowers]
          rfl
      | cons k e =>
          rw [monomialValue_cons, ih, MvPolynomial.X_pow_eq_monomial, MvPolynomial.monomial_mul,
            mul_one, monomialPowers_cons]

theorem monomialPowers_of_notMem {scope : List Symbol} {s : Symbol} (hs : s ∉ scope)
    (e : Exponents) : monomialPowers scope e s = 0 := by
  induction scope generalizing e with
  | nil => simp
  | cons t scope ih =>
      cases e with
      | nil => simp [monomialPowers]
      | cons k e =>
          rw [List.mem_cons, not_or] at hs
          simp [ih hs.2, Ne.symm hs.1]

theorem monomialPowers_injective {scope : List Symbol} (hscope : scope.Nodup) {e f : Exponents}
    (he : e.IsNatural scope.length) (hf : f.IsNatural scope.length)
    (h : monomialPowers scope e = monomialPowers scope f) : e = f := by
  induction scope generalizing e f with
  | nil =>
      rw [Exponents.isNatural_zero.mp he, Exponents.isNatural_zero.mp hf]
  | cons s scope ih =>
      obtain ⟨hs, hscope⟩ := List.nodup_cons.mp hscope
      cases e with
      | nil => simp at he
      | cons k e =>
          cases f with
          | nil => simp at hf
          | cons l f =>
              obtain ⟨hk, he⟩ := Exponents.isNatural_cons.mp he
              obtain ⟨hl, hf⟩ := Exponents.isNatural_cons.mp hf
              have first := DFunLike.congr_fun h s
              simp only [monomialPowers_cons, Finsupp.add_apply, Finsupp.single_eq_same,
                monomialPowers_of_notMem hs, add_zero] at first
              have rest : monomialPowers scope e = monomialPowers scope f := by
                rw [monomialPowers_cons, monomialPowers_cons, first] at h
                exact add_left_cancel h
              rw [ih hscope he hf rest, show k = l by omega]

theorem degree_monomialPowers {scope : List Symbol} {e : Exponents}
    (he : e.IsNatural scope.length) : ((monomialPowers scope e).degree : ℤ) = totalDegreeOf e := by
  induction scope generalizing e with
  | nil => simp [Exponents.isNatural_zero.mp he]
  | cons s scope ih =>
      cases e with
      | nil => simp at he
      | cons k e =>
          obtain ⟨hk, he⟩ := Exponents.isNatural_cons.mp he
          rw [monomialPowers_cons, map_add, Nat.cast_add, ih he, Finsupp.degree_single,
            totalDegreeOf_cons, Int.toNat_of_nonneg hk]

end HybridRelaxation
