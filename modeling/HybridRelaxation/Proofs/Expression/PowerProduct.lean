import Mathlib
import HybridRelaxation.Expression.Expansion
import HybridRelaxation.Number.Mixed
import HybridRelaxation.Proofs.Expression.Power
import HybridRelaxation.Proofs.Outcome

/-!
# Products of powers of distinct symbols

Over numbers of any kind in which one times one is one, products of powers of distinct symbols
multiply by putting their powers together, in some order, and a sum of different such products has
each of them as a term.  Neither changes where the sum is expanded.
-/

namespace HybridRelaxation

/-- Zero, one and two are what they are, also as floating-point numbers, and integers are exact. -/
class Scalar.HasUnits (K : Type) [Scalar K] : Prop where
  one_ne_zero : (1 : K) ≠ 0
  one_mul_one : (1 : K) * 1 = 1
  finite?_one : Scalar.finite? (1 : K) = some 1
  integer?_ofInt : ∀ n : ℤ, Scalar.integer? (Scalar.ofInt n : K) = some n
  finite?_total_one :
    Scalar.finite? (Scalar.machine (Scalar.measured 0 + Scalar.machine 1) : K) = some 1
  finite?_neg_zero :
    Scalar.finite? (Scalar.machine (-Scalar.machine (Scalar.measured 0)) : K) = some 0
  finite?_measured_one : Scalar.finite? (Scalar.machine (Scalar.measured 1) : K) = some 1
  finite?_measured_two : Scalar.finite? (Scalar.machine (Scalar.measured 2) : K) = some 2

attribute [simp] Scalar.HasUnits.one_ne_zero Scalar.HasUnits.one_mul_one
  Scalar.HasUnits.finite?_one Scalar.HasUnits.integer?_ofInt

instance : Scalar.HasUnits Rat where
  one_ne_zero := by simp
  one_mul_one := one_mul 1
  finite?_one := rfl
  integer?_ofInt n := by simp [Scalar.integer?, Scalar.exactValue?, Scalar.ofInt]
  finite?_total_one := by simp
  finite?_neg_zero := by simp
  finite?_measured_one := rfl
  finite?_measured_two := rfl

instance : Scalar.HasUnits Number where
  one_ne_zero := by decide +kernel
  one_mul_one := by decide +kernel
  finite?_one := by decide +kernel
  integer?_ofInt n := by
    simp [Scalar.integer?, Scalar.exactValue?, Scalar.ofInt, Scalar.exact, Scalar.kind, Number.kind]
  finite?_total_one := by decide +kernel
  finite?_neg_zero := by decide +kernel
  finite?_measured_one := by decide +kernel
  finite?_measured_two := by decide +kernel

/-! ## Powers of symbols -/

section Powers

variable {K : Type}

def symbolPower (power : Symbol × ℤ) : Factor K := (.symbol power.1, .integer power.2)

/-- Powers of distinct symbols, none of them the zeroth. -/
structure AreDistinctPowers (powers : List (Symbol × ℤ)) : Prop where
  distinct : (powers.map Prod.fst).Nodup
  nonzero : ∀ power ∈ powers, power.2 ≠ 0

theorem AreDistinctPowers.perm {powers powers' : List (Symbol × ℤ)} (h : AreDistinctPowers powers)
    (hperm : powers.Perm powers') : AreDistinctPowers powers' :=
  ⟨(hperm.map Prod.fst).nodup_iff.mp h.distinct,
    fun power hpower => h.nonzero power (hperm.mem_iff.mpr hpower)⟩

theorem AreDistinctPowers.sublist {powers powers' : List (Symbol × ℤ)}
    (h : AreDistinctPowers powers') (hsub : powers.Sublist powers') : AreDistinctPowers powers :=
  ⟨h.distinct.sublist (hsub.map Prod.fst), fun power hpower => h.nonzero power (hsub.subset hpower)⟩

/-- The factors of the product are the given powers, in some order. -/
def Product.Holds (p : Product K) (powers : List (Symbol × ℤ)) : Prop :=
  p.factors.Perm (powers.map symbolPower)

theorem Product.Holds.mem {p : Product K} {powers : List (Symbol × ℤ)} (h : p.Holds powers)
    {f : Factor K} (hf : f ∈ p.factors) : ∃ power ∈ powers, f = symbolPower power := by
  obtain ⟨power, hpower, rfl⟩ := List.mem_map.mp (h.mem_iff.mp hf)
  exact ⟨power, hpower, rfl⟩

theorem Product.isMonomial_of_factors : ∀ {p : Product K},
    (∀ f ∈ p.factors, ∃ power, f = symbolPower power) → p.isMonomial = true
  | .one, _ => rfl
  | .times b x p, h => by
      obtain ⟨power, heq⟩ := h (b, x) (by simp)
      obtain ⟨rfl, rfl⟩ := Prod.mk.inj heq
      exact isMonomial_of_factors (p := p) (fun f hf => h f (by simp [hf]))

theorem Product.Holds.isMonomial {p : Product K} {powers : List (Symbol × ℤ)} (h : p.Holds powers) :
    p.isMonomial = true :=
  isMonomial_of_factors (fun _ hf => (h.mem hf).imp (fun _ hpower => hpower.2))

theorem Product.Holds.eq_one {p : Product K} (h : p.Holds []) : p = .one := by
  match p, List.perm_nil.mp h with
  | .one, _ => rfl

theorem Product.Holds.eq_times {p : Product K} {s : Symbol} {k : ℤ} (h : p.Holds [(s, k)]) :
    p = .times (.symbol s) (.integer k) .one := by
  match p, List.perm_singleton.mp h with
  | .times b x .one, single =>
      obtain ⟨rfl, rfl⟩ : b = .symbol s ∧ x = .integer k := by simpa [symbolPower] using single
      rfl

theorem Product.Holds.perm_powers {p : Product K} {powers powers' : List (Symbol × ℤ)}
    (h : p.Holds powers) (h' : p.Holds powers') : powers.Perm powers' := by
  refine (List.map_perm_map_iff (fun power power' heq => ?_)).mp (h.symm.trans h')
  simpa [symbolPower, Prod.ext_iff] using heq

theorem Product.nodup_of_holds {ps : List (Product K)} {terms : List (List (Symbol × ℤ))}
    (h : List.Forall₂ Product.Holds ps terms)
    (hterms : terms.Pairwise (fun powers powers' => ¬ powers.Perm powers')) : ps.Nodup := by
  induction h with
  | nil => exact List.nodup_nil
  | cons head tail ih =>
      obtain ⟨first, rest⟩ := List.pairwise_cons.mp hterms
      refine List.nodup_cons.mpr ⟨fun hp => ?_, ih rest⟩
      obtain ⟨powers, hmem, holds⟩ := exists_right_of_mem tail hp
      exact first powers hmem (head.perm_powers holds)

theorem Product.perm_factors_of_holds {ps : List (Product K)} {powers : List (List (Symbol × ℤ))}
    (h : List.Forall₂ Product.Holds ps powers) :
    (ps.flatMap Product.factors).Perm (powers.flatten.map symbolPower) := by
  induction h with
  | nil => simp
  | cons head tail ih =>
      rw [List.flatMap_cons, List.flatten_cons, List.map_append]
      exact head.append ih

namespace FactorList

def single (p : Product K) : List (Factor K) := if p.factors.length = 1 then p.factors else []

def several (p : Product K) : List (Factor K) := if p.factors.length = 1 then [] else p.factors

theorem perm_single_several (ps : List (Product K)) :
    (ps.flatMap single ++ ps.flatMap several).Perm (ps.flatMap Product.factors) := by
  have parts (p : Product K) : single p ++ several p = p.factors := by
    unfold single several
    split <;> simp
  refine (List.flatMap_append_perm ps single several).trans ?_
  simp only [parts]
  exact .refl _

end FactorList

end Powers

variable {K : Type} [Scalar K]

@[simp] theorem Scalar.isZero_one [Scalar.HasUnits K] : Scalar.isZero (1 : K) = false := by
  simp [Scalar.isZero]

/-! ## Factors of products -/

namespace Product

theorem combine?_eq_none {b : Base K} (e : Exponent K) :
    ∀ {p : Product K}, (∀ f ∈ p.factors, f.1 ≠ b) → p.combine? b e = none
  | .one, _ => rfl
  | .times c x p, h => by
      have other : b ≠ c := (h (c, x) (by simp)).symm
      have rest := combine?_eq_none (b := b) e (p := p) (fun f hf => h f (by simp [hf]))
      rw [combine?, if_neg other, rest]
      rfl

theorem factors_insert (b : Base K) (e : Exponent K) :
    ∀ p : Product K, (p.insert b e).factors.Perm ((b, e) :: p.factors)
  | .one => .refl _
  | .times c x p => by
      rw [insert]
      split
      · exact .refl _
      · exact ((factors_insert b e p).cons (c, x)).trans (.swap (b, e) (c, x) p.factors)

theorem factors_multiply {b : Base K} {e : Exponent K} {p : Product K} (he : e.vanishes = false)
    (h : ∀ f ∈ p.factors, f.1 ≠ b) : (p.multiply b e).factors.Perm ((b, e) :: p.factors) := by
  rw [multiply, he, combine?_eq_none e h]
  exact factors_insert b e p

/-- Powers of distinct bases, none of which vanishes. -/
structure AreApart (fs : List (Factor K)) : Prop where
  distinct : (fs.map Prod.fst).Nodup
  lasting : ∀ f ∈ fs, f.2.vanishes = false

theorem AreApart.perm {fs gs : List (Factor K)} (h : AreApart fs) (hperm : fs.Perm gs) :
    AreApart gs :=
  ⟨(hperm.map Prod.fst).nodup_iff.mp h.distinct, fun f hf => h.lasting f (hperm.mem_iff.mpr hf)⟩

theorem AreApart.sublist {fs gs : List (Factor K)} (h : AreApart gs) (hsub : fs.Sublist gs) :
    AreApart fs :=
  ⟨h.distinct.sublist (hsub.map Prod.fst), fun f hf => h.lasting f (hsub.subset hf)⟩

theorem AreApart.factors_multiply {f : Factor K} {fs : List (Factor K)} {p : Product K}
    (h : AreApart (f :: fs)) (hp : p.factors.Perm fs) :
    (p.multiply f.1 f.2).factors.Perm (f :: fs) := by
  refine (Product.factors_multiply (h.lasting f (by simp)) (fun g hg heq => ?_)).trans (hp.cons f)
  exact (List.nodup_cons.mp h.distinct).1
    (heq ▸ List.mem_map_of_mem (hp.mem_iff.mp hg))

theorem factors_mul {q : Product K} :
    ∀ {p : Product K}, AreApart (p.factors ++ q.factors) →
      (mul p q).factors.Perm (p.factors ++ q.factors)
  | .one, _ => .refl _
  | .times b e p, h => by
      have rest := factors_mul (p := p) (q := q)
        (h.sublist (List.sublist_cons_self (b, e) _))
      exact h.factors_multiply rest

theorem factors_foldl {fs : List (Factor K)} {p : Product K} (h : AreApart (p.factors ++ fs)) :
    (fs.foldl (fun p f => p.multiply f.1 f.2) p).factors.Perm (p.factors ++ fs) := by
  induction fs generalizing p with
  | nil => simp
  | cons f fs ih =>
      have middle : (p.factors ++ f :: fs).Perm ((f :: p.factors) ++ fs) := List.perm_middle
      have apart := h.perm middle
      have head : AreApart (f :: p.factors) := apart.sublist (List.sublist_append_left _ fs)
      have first := head.factors_multiply (p := p) (.refl _)
      exact (ih (apart.perm (first.symm.append_right fs))).trans
        ((first.append_right fs).trans middle.symm)

theorem factors_ofFactors {fs : List (Factor K)} (h : AreApart fs) :
    (ofFactors fs).factors.Perm fs :=
  factors_foldl (p := .one) h

end Product

/-! ## Products and sums of powers -/

theorem AreDistinctPowers.areApart {powers : List (Symbol × ℤ)} (h : AreDistinctPowers powers) :
    Product.AreApart (powers.map (symbolPower (K := K))) where
  distinct := by
    have bases : (powers.map (symbolPower (K := K))).map Prod.fst =
        (powers.map Prod.fst).map Base.symbol := by simp [symbolPower]
    rw [bases]
    exact h.distinct.map (fun s t heq => Base.symbol.inj heq)
  lasting := by
    intro f hf
    obtain ⟨power, hpower, rfl⟩ := List.mem_map.mp hf
    simpa [symbolPower] using h.nonzero power hpower

theorem Product.holds_mul {p q : Product K} {powers powers' : List (Symbol × ℤ)}
    (hp : p.Holds powers) (hq : q.Holds powers') (h : AreDistinctPowers (powers ++ powers')) :
    (p.mul q).Holds (powers ++ powers') := by
  have together : (p.factors ++ q.factors).Perm ((powers ++ powers').map symbolPower) := by
    rw [List.map_append]
    exact hp.append hq
  exact (factors_mul (h.areApart.perm together.symm)).trans together

def Expression.IsProductOf (e : Expression K) (powers : List (Symbol × ℤ)) : Prop :=
  ∃ p : Product K, e = .plus 1 p .zero ∧ p.Holds powers

theorem Expression.isProductOf_ofSymbol (s : Symbol) :
    (ofSymbol s : Expression K).IsProductOf [(s, 1)] :=
  ⟨_, rfl, .refl _⟩

theorem Expression.exists_of_isProductOf {es : List (Expression K)}
    {powers : List (List (Symbol × ℤ))} (h : List.Forall₂ IsProductOf es powers) :
    ∃ ps : List (Product K), es = ps.map (fun p => .plus 1 p .zero) ∧
      List.Forall₂ Product.Holds ps powers := by
  induction h with
  | nil => exact ⟨[], rfl, .nil⟩
  | cons head tail ih =>
      obtain ⟨p, rfl, hp⟩ := head
      obtain ⟨ps, rfl, hps⟩ := ih
      exact ⟨p :: ps, rfl, .cons hp hps⟩

def nonzeroPower (s : Symbol) (k : ℤ) : List (Symbol × ℤ) := if k = 0 then [] else [(s, k)]

@[simp] theorem mem_nonzeroPower {s : Symbol} {k : ℤ} {power : Symbol × ℤ} :
    power ∈ nonzeroPower s k ↔ power = (s, k) ∧ k ≠ 0 := by
  by_cases hk : k = 0 <;> simp [nonzeroPower, hk]

theorem Expression.product_of_isPlain {es : List (Expression K)} (hes : es.length ≠ 1)
    (plain : (FactorList.ofExpressions es).isPlain = true) :
    product es = (FactorList.ofExpressions es).multiply := by
  unfold product
  split
  · simp at hes
  · simp [plain]

namespace Expression

/-- The terms of the expression are products of the given powers, in some order. -/
def IsSumOf (e : Expression K) (terms : List (List (Symbol × ℤ))) : Prop :=
  ∃ ps : List (Product K), e.terms.Perm (ps.map (fun p => (1, p))) ∧
    List.Forall₂ Product.Holds ps terms

theorem combine?_eq_none {c : K} {p : Product K} :
    ∀ {e : Expression K}, p ∉ e.terms.map Prod.snd → e.combine? c p = none
  | .zero, _ => rfl
  | .plus d q e, h => by
      rw [terms_plus, List.map_cons, List.mem_cons, not_or] at h
      rw [combine?, if_neg h.1, combine?_eq_none h.2]
      rfl

theorem terms_insert (c : K) (p : Product K) :
    ∀ e : Expression K, (e.insert c p).terms.Perm ((c, p) :: e.terms)
  | .zero => .refl _
  | .plus d q e => by
      rw [insert]
      split
      · exact .refl _
      · exact ((terms_insert c p e).cons (d, q)).trans (.swap (c, p) (d, q) e.terms)

end Expression

section Units

variable [Scalar.HasUnits K]

theorem Expression.ofTerm_of_holds {p : Product K} {powers : List (Symbol × ℤ)} (h : p.Holds powers) :
    ofTerm 1 p = .plus 1 p .zero := by
  unfold ofTerm
  rw [Scalar.isZero_one, if_neg Bool.false_ne_true]
  split
  · next e =>
      obtain ⟨power, -, heq⟩ := h.mem (f := (.group e, .integer 1)) (by simp)
      cases (Prod.mk.inj heq).1
  · rfl

theorem Expression.isProductOf_intPower (s : Symbol) (k : ℤ) :
    ((ofSymbol s : Expression K).intPower k).IsProductOf (nonzeroPower s k) := by
  have holds : (Product.power (.symbol s) (.integer k) : Product K).Holds (nonzeroPower s k) := by
    by_cases hk : k = 0
    · subst hk
      exact .refl _
    · have lasting : (Exponent.integer k : Exponent K) ≠ .integer 0 := fun h =>
        hk (Exponent.integer.inj h)
      rw [Product.power, if_neg lasting, nonzeroPower, if_neg hk]
      exact .refl _
  refine ⟨_, ?_, holds⟩
  simp only [intPower, ofSymbol, factor?, if_true, one_mul]
  exact ofTerm_of_holds holds

/-! ## Products of expressions -/

namespace FactorList

theorem addDirect_unit (fs : List (Factor K)) (p : Product K) :
    addDirect ⟨1, fs⟩ (.plus 1 p .zero) = ⟨1, fs ++ single p⟩ := by
  match p with
  | .one => simp [addDirect, single]
  | .times b x .one => simp [addDirect, single]
  | .times b x (.times c y p) => simp [addDirect, single]

theorem addNested_unit (fs : List (Factor K)) (p : Product K) :
    addNested ⟨1, fs⟩ (.plus 1 p .zero) = ⟨1, fs ++ several p⟩ := by
  match p with
  | .one => simp [addNested, several]
  | .times b x .one => simp [addNested, several]
  | .times b x (.times c y p) => simp [addNested, several]

theorem ofExpressions_units (ps : List (Product K)) :
    ofExpressions (ps.map (fun p => .plus 1 p .zero)) =
      ⟨1, ps.flatMap single ++ ps.flatMap several⟩ := by
  have direct (fs : List (Factor K)) (ps : List (Product K)) :
      (ps.map (fun p => (.plus 1 p .zero : Expression K))).foldl addDirect ⟨1, fs⟩ =
        ⟨1, fs ++ ps.flatMap single⟩ := by
    induction ps generalizing fs with
    | nil => simp
    | cons p ps ih => rw [List.map_cons, List.foldl_cons, addDirect_unit, ih]; simp
  have nested (fs : List (Factor K)) (ps : List (Product K)) :
      (ps.map (fun p => (.plus 1 p .zero : Expression K))).foldl addNested ⟨1, fs⟩ =
        ⟨1, fs ++ ps.flatMap several⟩ := by
    induction ps generalizing fs with
    | nil => simp
    | cons p ps ih => rw [List.map_cons, List.foldl_cons, addNested_unit, ih]; simp
  rw [ofExpressions, direct, nested]
  rfl

theorem ofExpressions_of_powers {ps : List (Product K)} {powers : List (Symbol × ℤ)}
    (hps : (ps.flatMap Product.factors).Perm (powers.map symbolPower)) :
    ∃ fs : List (Factor K), fs.Perm (powers.map symbolPower) ∧
      ofExpressions (ps.map (fun p => .plus 1 p .zero)) = ⟨1, fs⟩ ∧
      (ofExpressions (ps.map (fun p => .plus 1 p .zero))).isPlain = true := by
  have together := (perm_single_several ps).trans hps
  refine ⟨_, together, ofExpressions_units ps, ?_⟩
  rw [ofExpressions_units, isPlain, Scalar.HasUnits.finite?_one, Option.isSome_some,
    Bool.true_and, List.all_eq_true]
  intro f hf
  obtain ⟨power, -, rfl⟩ := List.mem_map.mp (together.mem_iff.mp hf)
  exact Factor.isInert_symbol power.1 power.2

theorem isProductOf_multiply {ps : List (Product K)} {powers : List (Symbol × ℤ)}
    (h : AreDistinctPowers powers)
    (hps : (ps.flatMap Product.factors).Perm (powers.map symbolPower)) :
    (ofExpressions (ps.map (fun p => .plus 1 p .zero))).isPlain = true ∧
      (ofExpressions (ps.map (fun p => .plus 1 p .zero))).multiply.IsProductOf powers := by
  obtain ⟨fs, together, factors, plain⟩ := ofExpressions_of_powers hps
  refine ⟨plain, ?_⟩
  have holds : (Product.ofFactors fs).Holds powers :=
    (Product.factors_ofFactors (h.areApart.perm together.symm)).trans together
  rw [factors]
  exact ⟨_, Expression.ofTerm_of_holds holds, holds⟩

end FactorList

theorem Expression.isProductOf_product {es : List (Expression K)}
    {powers : List (List (Symbol × ℤ))} (h : List.Forall₂ IsProductOf es powers)
    (hpowers : AreDistinctPowers powers.flatten) :
    (product es).IsProductOf powers.flatten := by
  obtain ⟨ps, rfl, holds⟩ := exists_of_isProductOf h
  have together := Product.perm_factors_of_holds holds
  obtain ⟨plain, multiplied⟩ := FactorList.isProductOf_multiply hpowers together
  by_cases single : ps.length = 1
  · obtain ⟨p, rfl⟩ := List.length_eq_one_iff.mp single
    rw [List.flatMap_singleton] at together
    exact ⟨p, rfl, together⟩
  · rwa [product_of_isPlain (by simpa using single) plain]

theorem Expression.isProductOf_mul {e f : Expression K} {powers powers' : List (Symbol × ℤ)}
    (he : e.IsProductOf powers) (hf : f.IsProductOf powers')
    (h : AreDistinctPowers (powers ++ powers')) : (e * f).IsProductOf (powers ++ powers') := by
  have both : (powers ++ powers') = [powers, powers'].flatten := by simp
  rw [both] at h ⊢
  exact isProductOf_product (.cons he (.cons hf .nil)) h

/-! ## Sums -/

namespace Expression

theorem terms_addTerm {p : Product K} {e : Expression K} (h : p ∉ e.terms.map Prod.snd) :
    (e.addTerm 1 p).terms.Perm ((1, p) :: e.terms) := by
  rw [addTerm, combine?_eq_none h]
  simp only [Scalar.isZero_one, if_neg Bool.false_ne_true]
  exact terms_insert 1 p e

theorem isBounded_of_terms : ∀ {e : Expression K}, (∀ t ∈ e.terms, t.1 = 1) → e.isBounded = true
  | .zero, _ => rfl
  | .plus c p e, h => by
      have one : c = 1 := h (c, p) (by simp)
      rw [isBounded, one, Scalar.HasUnits.finite?_one,
        isBounded_of_terms (fun t ht => h t (by simp [ht]))]
      rfl

theorem terms_foldl_add {ps : List (Product K)} {e : Expression K} {qs : List (Product K)}
    (he : e.terms.Perm (qs.map (fun p => (1, p)))) (h : (qs ++ ps).Nodup) :
    ((ps.map (fun p => (.plus 1 p .zero : Expression K))).foldl add e).terms.Perm
      ((qs ++ ps).map (fun p => (1, p))) := by
  induction ps generalizing e qs with
  | nil => simpa using he
  | cons p ps ih =>
      have fresh : p ∉ e.terms.map Prod.snd := by
        intro hp
        have hmem : p ∈ qs := by simpa using (he.map Prod.snd).mem_iff.mp hp
        exact (List.disjoint_of_nodup_append h) hmem (by simp)
      have added : (e.addTerm 1 p).terms.Perm ((p :: qs).map (fun p => (1, p))) :=
        (terms_addTerm fresh).trans (he.cons (1, p))
      have bounded : (e.addTerm 1 p).isBounded = true := by
        refine isBounded_of_terms (fun t ht => ?_)
        obtain ⟨q, -, rfl⟩ := List.mem_map.mp (added.mem_iff.mp ht)
        rfl
      have middle : (qs ++ p :: ps).Perm ((p :: qs) ++ ps) := List.perm_middle
      rw [List.map_cons, List.foldl_cons, add, addTerms_plus, addTerms_zero,
        absorb_of_isBounded bounded]
      exact (ih added (middle.nodup_iff.mp h)).trans (middle.map _).symm

theorem isSumOf_sum {es : List (Expression K)} {terms : List (List (Symbol × ℤ))}
    (h : List.Forall₂ IsProductOf es terms)
    (hterms : terms.Pairwise (fun powers powers' => ¬ powers.Perm powers')) :
    (sum es).IsSumOf terms := by
  obtain ⟨ps, rfl, holds⟩ := exists_of_isProductOf h
  have distinct := Product.nodup_of_holds holds hterms
  refine ⟨ps, ?_, holds⟩
  have single : (ps.map (fun p => (.plus 1 p .zero : Expression K))).filter isSum = [] := by
    simp [isSum]
  have all : (ps.map (fun p => (.plus 1 p .zero : Expression K))).filter (fun e => !e.isSum) =
      ps.map (fun p => .plus 1 p .zero) := by
    simp [isSum]
  have folded : ((ps.map (fun p => (.plus 1 p .zero : Expression K))).foldl add .zero).terms.Perm
      (([] ++ ps).map (fun p => (1, p))) := terms_foldl_add (by simp) (by simpa using distinct)
  unfold sum
  split
  · next e heq =>
      rcases ps with _ | ⟨p, _ | ⟨q, ps⟩⟩ <;> simp at heq
      subst heq
      simp
  · rw [all, single, List.append_nil]
    simpa using folded

end Expression

/-! ## Expansion -/

/-- The product that a product is where it is multiplied out. -/
def Product.reduced (p : Product K) : Product K :=
  match p.multiplyOut with
  | .plus _ q _ => q
  | .zero => .one

theorem Expression.addTerm_zero (p : Product K) :
    (Expression.zero : Expression K).addTerm 1 p = .plus 1 p .zero := by
  simp [addTerm, combine?, insert]

theorem Product.distribute_factor {p : Product K} {b : Base K} {x : Exponent K}
    {powers : List (Symbol × ℤ)} (h : (p.mul (.times b x .one)).Holds powers) :
    (Expression.plus 1 p .zero).distribute (.ofFactor b x) =
      .plus 1 (p.mul (.times b x .one)) .zero := by
  simp only [Expression.distribute, Expression.ofFactor, Expression.distributeTerm,
    Scalar.HasUnits.one_mul_one, Expression.ofTerm_of_holds h, Expression.addTerms_plus,
    Expression.addTerms_zero, Expression.addTerm_zero]

theorem Product.multiplyOut_of_holds : ∀ {p : Product K} {powers : List (Symbol × ℤ)},
    p.Holds powers → AreDistinctPowers powers →
      p.multiplyOut = .plus 1 p.reduced .zero ∧ p.reduced.Holds powers
  | .one, powers, h, _ => by
      have out : (Product.one : Product K).multiplyOut = .plus 1 .one .zero := by
        rw [Product.multiplyOut, Expression.number, if_neg Scalar.HasUnits.one_ne_zero]
      rw [reduced, out]
      exact ⟨rfl, h⟩
  | .times b x p, powers, h, hpowers => by
      obtain ⟨⟨s, k⟩, hmem, heq⟩ := h.mem (f := (b, x)) (by simp)
      obtain ⟨rfl, rfl⟩ := Prod.mk.inj heq
      have split : powers.Perm ((s, k) :: powers.erase (s, k)) := List.perm_cons_erase hmem
      have others : p.Holds (powers.erase (s, k)) :=
        (h.trans (split.map symbolPower)).cons_inv
      obtain ⟨out, holds⟩ := multiplyOut_of_holds others (hpowers.sublist List.erase_sublist)
      have last : (powers.erase (s, k) ++ [(s, k)]).Perm powers :=
        (List.perm_append_singleton _ _).trans split.symm
      have power : (Product.times (.symbol s) (.integer k) .one : Product K).Holds [(s, k)] :=
        .refl _
      have together := holds_mul holds power (hpowers.perm last.symm)
      have times : (Product.times (.symbol s) (.integer k) p).multiplyOut =
          .plus 1 (p.reduced.mul (.times (.symbol s) (.integer k) .one)) .zero := by
        rw [Product.multiplyOut, out]
        · exact distribute_factor together
        · simp
      rw [reduced, times]
      exact ⟨rfl, together.trans (last.map symbolPower)⟩

/-! ### Sums -/

namespace Expression

def IsPowerTerm (t : K × Product K) : Prop :=
  t.1 = 1 ∧ ∃ powers, AreDistinctPowers powers ∧ t.2.Holds powers

theorem isPolynomialForm_of_isPowerTerm :
    ∀ {e : Expression K}, (∀ t ∈ e.terms, IsPowerTerm t) → e.isPolynomialForm = true
  | .zero, _ => rfl
  | .plus c p e, h => by
      obtain ⟨rfl, powers, -, holds⟩ : c = 1 ∧ _ := h (c, p) (by simp)
      rw [isPolynomialForm, Scalar.HasUnits.finite?_one, holds.isMonomial,
        isPolynomialForm_of_isPowerTerm (fun t ht => h t (by simp [ht]))]
      rfl

theorem terms_multiplyOut :
    ∀ {e : Expression K}, (∀ t ∈ e.terms, IsPowerTerm t) →
      (e.terms.map (fun t => t.2.reduced)).Nodup →
        e.multiplyOut.terms.Perm (e.terms.map (fun t => (1, t.2.reduced)))
  | .zero, _, _ => .refl _
  | .plus c p e, h, distinct => by
      obtain ⟨rfl, powers, hpowers, holds⟩ : c = 1 ∧ _ := h (c, p) (by simp)
      rw [terms_plus, List.map_cons, List.nodup_cons] at distinct
      have rest := terms_multiplyOut (fun t ht => h t (by simp [ht])) distinct.2
      have scaled : p.multiplyOut.scale 1 = .plus 1 p.reduced .zero := by
        rw [(Product.multiplyOut_of_holds holds hpowers).1]
        simp [scale]
      have fresh : p.reduced ∉ e.multiplyOut.terms.map Prod.snd := by
        intro hp
        have hmem := (rest.map Prod.snd).mem_iff.mp hp
        rw [List.map_map] at hmem
        exact distinct.1 hmem
      rw [multiplyOut, scaled, addTerms_plus, addTerms_zero]
      exact (terms_addTerm fresh).trans (rest.cons _)

theorem isSumOf_expand {e : Expression K} {terms : List (List (Symbol × ℤ))} (h : e.IsSumOf terms)
    (distinct : ∀ powers ∈ terms, AreDistinctPowers powers)
    (hterms : terms.Pairwise (fun powers powers' => ¬ powers.Perm powers')) :
    e.expand.IsSumOf terms := by
  obtain ⟨ps, perm, holds⟩ := h
  have reduced : List.Forall₂ Product.Holds (ps.map Product.reduced) terms := by
    rw [List.forall₂_map_left_iff]
    exact (forall₂_imp_of_mem holds.flip (fun powers hpowers p hp =>
      (Product.multiplyOut_of_holds hp (distinct powers hpowers)).2)).flip
  have power : ∀ t ∈ e.terms, IsPowerTerm t := by
    intro t ht
    obtain ⟨p, hp, rfl⟩ := List.mem_map.mp (perm.mem_iff.mp ht)
    obtain ⟨powers, hmem, hholds⟩ := exists_right_of_mem holds hp
    exact ⟨rfl, powers, distinct powers hmem, hholds⟩
  have apart : (e.terms.map (fun t => t.2.reduced)).Nodup := by
    have same := (perm.map (fun t => t.2.reduced))
    rw [List.map_map] at same
    exact same.nodup_iff.mpr (Product.nodup_of_holds reduced hterms)
  refine ⟨ps.map Product.reduced, ?_, reduced⟩
  rw [expand, if_pos (isPolynomialForm_of_isPowerTerm power)]
  have image := perm.map (fun t => ((1 : K), t.2.reduced))
  rw [List.map_map] at image
  rw [List.map_map]
  exact (terms_multiplyOut power apart).trans image

theorem expand_ofSymbol (s : Symbol) : (ofSymbol s : Expression K).expand = ofSymbol s := by
  have distinct : AreDistinctPowers [(s, 1)] := ⟨by simp, by simp⟩
  have holds : (Product.times (.symbol s) (.integer 1) .one : Product K).Holds [(s, 1)] := .refl _
  have form : (ofSymbol s : Expression K).isPolynomialForm = true :=
    isPolynomialForm_of_isPowerTerm (by simpa [ofSymbol] using ⟨rfl, _, distinct, holds⟩)
  obtain ⟨out, reduced⟩ := Product.multiplyOut_of_holds holds distinct
  rw [expand, if_pos form, ofSymbol, multiplyOut, out, reduced.eq_times]
  simp [scale, multiplyOut, addTerm_zero]

end Expression

end Units

end HybridRelaxation
