import Mathlib
import HybridRelaxation.Proofs.Expression.Meaning
import HybridRelaxation.Proofs.Polynomial.ScopePoint
import HybridRelaxation.Proofs.Rearrangement
import HybridRelaxation.Proofs.SquareSum.FreePolynomial

/-!
# Reconstruction from coefficients

Over numbers of any kind the coefficients of an expression, times the monomials of their vectors,
sum to its value wherever it has one, as long as simplifying keeps values.  A term has the value of
its factors free of the variables times the monomial of its vector: the factors by base fall into
groups, and each group is a natural power of a variable.  The parts of one vector are a group in
turn.  So whatever has coefficients depends on the variables as a polynomial does.
-/

namespace HybridRelaxation

variable {K : Type} [Scalar K] {ρ : Symbol → ℂ} {scope : List Symbol}

/-! ## Powers by base -/

theorem addBasePower_eq_upsert (b : Base K) (e : Expression K) (powers : List (BasePower K)) :
    addBasePower b e powers = upsert b e (· + e) powers := by
  induction powers with
  | nil => rfl
  | cons power powers ih => rw [addBasePower, ih, upsert]; rfl

def powersByBase (fs : List (Factor K)) : List (BasePower K) :=
  fs.foldl (fun powers f => addBasePower f.1 f.2.toExpression powers) []

theorem powersByBase_concat (fs : List (Factor K)) (f : Factor K) :
    powersByBase (fs ++ [f]) = addBasePower f.1 f.2.toExpression (powersByBase fs) :=
  List.foldl_append

theorem nodup_powersByBase (fs : List (Factor K)) : ((powersByBase fs).map Prod.fst).Nodup := by
  induction fs using List.reverseRecOn with
  | nil => exact List.nodup_nil
  | append_singleton fs f ih =>
      rw [powersByBase_concat, addBasePower_eq_upsert]
      exact nodup_upsert _ _ _ ih

theorem mem_bases_powersByBase {fs : List (Factor K)} {b : Base K} :
    b ∈ (powersByBase fs).map Prod.fst ↔ b ∈ fs.map Prod.fst := by
  induction fs using List.reverseRecOn with
  | nil => rfl
  | append_singleton fs f ih =>
      rw [powersByBase_concat, addBasePower_eq_upsert, keys_upsert, List.map_append,
        List.mem_append, ← ih]
      split
      · next known =>
          refine ⟨.inl, fun h => h.elim id (fun same => ?_)⟩
          rwa [List.mem_singleton.mp same]
      · rw [List.mem_append]
        rfl

theorem meaning?_selectFactors (scope : List Symbol) {p : Product K} {z : ℂ}
    (h : p.meaning? ρ = some z) :
    ∃ u w, (selectFactors scope true p).meaning? ρ = some u ∧
      (selectFactors scope false p).meaning? ρ = some w ∧ z = w * u := by
  induction p generalizing z with
  | one => exact ⟨1, 1, by simp [selectFactors], by simp [selectFactors], by simpa using h.symm⟩
  | times b x p ih =>
      obtain ⟨v, y, hv, hy, rfl⟩ := Product.meaning?_times.mp h
      obtain ⟨u, w, hu, hw, rfl⟩ := ih hy
      cases hdep : dependsOn scope (b.symbols ++ x.symbols) with
      | true =>
          refine ⟨v * u, w, ?_, by simpa [selectFactors, hdep] using hw, by ring⟩
          rw [selectFactors, if_pos hdep]
          exact Product.meaning?_times.mpr ⟨v, u, hv, hu, rfl⟩
      | false =>
          refine ⟨u, v * w, by simpa [selectFactors, hdep] using hu, ?_, by ring⟩
          rw [selectFactors, if_pos hdep]
          exact Product.meaning?_times.mpr ⟨v, w, hv, hw, rfl⟩

theorem Expression.meaning?_of_natural? [Scalar.HasZero K] {e : Expression K} {n : ℕ}
    (h : e.natural? = some n) : e.meaning? ρ = some (n : ℂ) := by
  unfold natural? at h
  split at h
  · next m hm =>
      obtain rfl := Option.some.inj h
      obtain ⟨c, hc, hinteger⟩ := Option.bind_eq_some_iff.mp hm
      rw [meaning?_of_number? hc, Scalar.meaning?_of_integer? hinteger]
      simp
  · simp at h

/-! ## Exponent vectors -/

theorem exists_exponentVector {powers : List (BasePower K)}
    (h : ∀ power ∈ powers, ∃ s ∈ scope, ∃ n : ℕ, power.1 = .symbol s ∧
      power.2.natural? = some n) : ∃ v, exponentVector scope powers = .ok v := by
  induction powers with
  | nil => exact ⟨_, rfl⟩
  | cons power powers ih =>
      obtain ⟨w, hw⟩ := ih (fun power hpower => h power (by simp [hpower]))
      obtain ⟨b, e⟩ := power
      obtain ⟨s, hs, n, rfl, hn⟩ := h (b, e) (by simp)
      obtain ⟨i, hposition, -⟩ := exists_lastPosition? hs
      simp only at hn
      exact ⟨addAt i n w, by simp [exponentVector, hw, hn, hposition]⟩

theorem SplitsInto.exponentVector (hscope : scope.Nodup) {p free : Product K} {v : Exponents}
    (h : SplitsInto scope p free v) :
    exponentVector scope (selectFactors scope true p).basePowers = .ok v := by
  obtain ⟨w, hw⟩ := exists_exponentVector h.powers
  have natural := isNatural_of_exponentVector hw
  obtain rfl : w = v := by
    refine List.ext_getElem? (fun i => ?_)
    cases hi : scope[i]? with
    | none =>
        have bound := List.getElem?_eq_none_iff.mp hi
        rw [List.getElem?_eq_none (natural.length ▸ bound),
          List.getElem?_eq_none (h.natural.length ▸ bound)]
    | some s => rw [exponentVector_getElem? hscope hw hi, h.vector i s hi]
  exact hw

theorem prod_of_exponentVector {powers : List (BasePower K)} {v : Exponents}
    (h : exponentVector scope powers = .ok v) {zs : List ℂ}
    (hzs : List.Forall₂ (fun power z => ∀ s n, power.1 = .symbol s → power.2.natural? = some n →
      z = ρ s ^ n) powers zs) : zs.prod = monomialValue ρ scope v := by
  induction hzs generalizing v with
  | nil =>
      obtain rfl := Except.ok.inj h
      rw [List.prod_nil, monomialValue_replicate]
  | cons head _ ih =>
      obtain ⟨w, s, n, i, hw, hs, hn, hposition, rfl⟩ := exponentVector_cons h
      rw [List.prod_cons, head s n hs hn, ih hw,
        monomialValue_addAt ρ (isNatural_of_exponentVector hw)
          (getElem?_of_lastPosition? hposition), mul_comm]

/-! ## Values that are kept -/

/--
Where an expression is split into coefficients, expanding it, adding the exponents of one base,
writing what a term leaves as an expression, and adding the parts of one coefficient keep the
values.
-/
structure Expression.KeepsValues (e : Expression K) (scope : List Symbol) (ρ : Symbol → ℂ) :
    Prop where
  expand : ∀ z, e.meaning? ρ = some z → e.expand.meaning? ρ = some z
  exponents : ∀ t ∈ e.expand.terms, ∀ power ∈ (selectFactors scope true t.2).basePowers, ∀ ws,
    List.Forall₂ (fun (f : Factor K) w => f.2.meaning? ρ = some w)
      ((selectFactors scope true t.2).factors.filter (fun f => f.1 = power.1)) ws →
        power.2.meaning? ρ = some ws.sum
  terms : ∀ t ∈ e.expand.terms, ∀ z,
    termMeaning? ρ (t.1, selectFactors scope false t.2) = some z →
      (Expression.ofTerm t.1 (selectFactors scope false t.2)).meaning? ρ = some z
  coefficients : ∀ parts : List (Exponents × Expression K),
    List.Forall₂ (TermLeaves scope) (e.expand.terms.filter (fun t => !Scalar.isZero t.1)) parts →
      ∀ v c, CoefficientMap.gathered v parts = some c → ∀ zs,
        List.Forall₂ (fun part z => part.2.meaning? ρ = some z)
          (parts.filter (fun part => part.1 = v)) zs → c.meaning? ρ = some zs.sum

theorem exists_exponents {s : Symbol} {fs : List (Factor K)} (hfs : ∀ f ∈ fs, f.1 = .symbol s)
    {vs : List ℂ} (h : List.Forall₂ (fun (f : Factor K) v => f.meaning? ρ = some v) fs vs) :
    ∃ ws, List.Forall₂ (fun (f : Factor K) w => f.2.meaning? ρ = some w) fs ws ∧
      List.Forall₂ (fun w v => power? (ρ s) w = some v) ws vs := by
  induction h with
  | nil => exact ⟨[], .nil, .nil⟩
  | @cons f v fs vs head _ ih =>
      obtain ⟨ws, all, powers⟩ := ih (fun f hf => hfs f (by simp [hf]))
      obtain ⟨u, hu, w, hw, hv⟩ : ∃ u, f.1.meaning? ρ = some u ∧ ∃ w, f.2.meaning? ρ = some w ∧
          power? u w = some v := by
        simpa [Factor.meaning?, Option.bind_eq_some_iff] using head
      rw [hfs f (by simp), Base.meaning?_symbol] at hu
      obtain rfl := Option.some.inj hu
      exact ⟨w :: ws, .cons hw all, .cons hv powers⟩

section

variable [Scalar.HasZero K]

theorem SplitsInto.meaning_dependent (hscope : scope.Nodup) {p free : Product K} {v : Exponents}
    (h : SplitsInto scope p free v)
    (hexponents : ∀ power ∈ (selectFactors scope true p).basePowers, ∀ ws,
      List.Forall₂ (fun (f : Factor K) w => f.2.meaning? ρ = some w)
        ((selectFactors scope true p).factors.filter (fun f => f.1 = power.1)) ws →
          power.2.meaning? ρ = some ws.sum)
    {u : ℂ} (hu : (selectFactors scope true p).meaning? ρ = some u) :
    u = monomialValue ρ scope v := by
  obtain ⟨vs, hvs, rfl⟩ := Product.meaning?_eq_some_iff_factors.mp hu
  obtain ⟨groups, all, perm⟩ := exists_groups Prod.fst hvs (nodup_powersByBase _)
    (fun f hf => mem_bases_powersByBase.mpr (List.mem_map_of_mem hf))
  rw [List.forall₂_map_left_iff] at all
  have values : List.Forall₂ (fun (power : BasePower K) z => ∀ s n, power.1 = .symbol s →
      power.2.natural? = some n → z = ρ s ^ n) (selectFactors scope true p).basePowers
        (groups.map List.prod) := by
    rw [List.forall₂_map_right_iff]
    refine forall₂_imp_of_mem all (fun power hpower group hgroup s n hs hn => ?_)
    obtain ⟨ws, hws, powers⟩ := exists_exponents (s := s) (fun f hf => by
      simpa [hs] using List.of_mem_filter hf) hgroup
    have sum : ws.sum = n := Option.some.inj
      ((hexponents power hpower ws hws).symm.trans (Expression.meaning?_of_natural? hn))
    have product := power?_sum powers
    rw [sum, power?_natCast] at product
    exact (Option.some.inj product).symm
  rw [← prod_of_exponentVector (h.exponentVector hscope) values, ← perm.prod_eq, List.prod_flatten]

theorem Expression.KeepsValues.meaning_part {e : Expression K} (keeps : e.KeepsValues scope ρ)
    (hscope : scope.Nodup) {t : K × Product K} (ht : t ∈ e.expand.terms)
    {part : Exponents × Expression K} (hpart : TermLeaves scope t part) {z : ℂ}
    (hz : termMeaning? ρ t = some z) :
    ∃ y, part.2.meaning? ρ = some y ∧ z = y * monomialValue ρ scope part.1 := by
  obtain ⟨free, split, left⟩ := hpart
  obtain ⟨a, x, ha, hx, rfl⟩ := termMeaning?_eq_some.mp hz
  obtain ⟨u, w, hu, hw, rfl⟩ := meaning?_selectFactors scope hx
  refine ⟨a * w, ?_, ?_⟩
  · rw [left, split.free_eq]
    exact keeps.terms t ht (a * w) (termMeaning?_eq_some.mpr ⟨a, w, ha, hw, rfl⟩)
  · rw [split.meaning_dependent hscope (keeps.exponents t ht) hu, mul_assoc]

end

/-! ## Monomials -/

theorem nonneg_vectorPowers {v : Exponents} (hv : v.IsNatural scope.length) :
    ∀ power ∈ vectorPowers scope v, 0 ≤ power.2 := by
  induction scope generalizing v with
  | nil => simp [vectorPowers]
  | cons s scope ih =>
      cases v with
      | nil => simp at hv
      | cons k v =>
          obtain ⟨hk, hv⟩ := Exponents.isNatural_cons.mp hv
          intro power hpower
          rw [vectorPowers_cons, List.mem_append] at hpower
          rcases hpower with hpower | hpower
          · obtain ⟨rfl, -⟩ := mem_nonzeroPower.mp hpower
            exact hk
          · exact ih hv power hpower

theorem prod_vectorPowers (ρ : Symbol → ℂ) {v : Exponents} (hv : v.IsNatural scope.length) :
    ((vectorPowers scope v).map (fun power => ρ power.1 ^ power.2.toNat)).prod =
      monomialValue ρ scope v := by
  induction scope generalizing v with
  | nil => simp [vectorPowers]
  | cons s scope ih =>
      cases v with
      | nil => simp at hv
      | cons k v =>
          rw [vectorPowers_cons, List.map_append, List.prod_append,
            ih (Exponents.isNatural_cons.mp hv).2, monomialValue_cons]
          by_cases hk : k = 0 <;> simp [nonzeroPower, hk]

theorem Product.Holds.meaning? {p : Product K} {powers : List (Symbol × ℤ)} (h : p.Holds powers)
    (hpowers : ∀ power ∈ powers, 0 ≤ power.2) : p.meaning? ρ =
      some (powers.map (fun power => ρ power.1 ^ power.2.toNat)).prod := by
  have values : List.Forall₂ (fun (f : Factor K) v => f.meaning? ρ = some v)
      (powers.map symbolPower) (powers.map (fun power => ρ power.1 ^ power.2.toNat)) := by
    rw [List.forall₂_map_left_iff, List.forall₂_map_right_iff, List.forall₂_same]
    intro power hpower
    obtain ⟨n, hn⟩ := Int.eq_ofNat_of_zero_le (hpowers power hpower)
    simp [symbolPower, Factor.meaning?, hn, power?_natCast]
  obtain ⟨vs, all, perm⟩ := List.perm_comp_forall₂ h values
  exact Product.meaning?_eq_some_iff_factors.mpr ⟨vs, all, perm.prod_eq⟩

theorem meaning?_monomial [Scalar.HasUnits K] (hscope : scope.Nodup) {v : Exponents}
    (hv : v.IsNatural scope.length) :
    (monomial scope v : Expression K).meaning? ρ = some (monomialValue ρ scope v) := by
  obtain ⟨p, hp, holds⟩ := isProductOf_monomial (K := K) hscope v
  rw [hp, Expression.meaning?_plus.mpr ⟨monomialValue ρ scope v, 0, ?_, by simp, (add_zero _).symm⟩]
  exact termMeaning?_eq_some.mpr ⟨1, _, by simp [Scalar.meaning?],
    holds.meaning? (nonneg_vectorPowers hv), by rw [prod_vectorPowers ρ hv, one_mul]⟩

/-! ## Values of coefficient maps -/

namespace CoefficientMap

noncomputable def meaning? (scope : List Symbol) (ρ : Symbol → ℂ) : CoefficientMap K → Option ℂ
  | [] => some 0
  | (v, c) :: m => do
      let a ← c.meaning? ρ
      let b ← (monomial scope v : Expression K).meaning? ρ
      let y ← meaning? scope ρ m
      some (a * b + y)

theorem meaning?_of_forall₂ {m : CoefficientMap K} {zs : List ℂ}
    (h : List.Forall₂ (fun entry z => ∃ y w, entry.2.meaning? ρ = some y ∧
      (monomial scope entry.1 : Expression K).meaning? ρ = some w ∧ z = y * w) m zs) :
    m.meaning? scope ρ = some zs.sum := by
  induction h with
  | nil => simp [meaning?]
  | cons head _ ih =>
      obtain ⟨y, w, hy, hw, rfl⟩ := head
      simp [meaning?, hy, hw, ih]

end CoefficientMap

theorem exists_sum_nonzero {ts : List (K × Product K)} {zs : List ℂ}
    (h : List.Forall₂ (fun t z => termMeaning? ρ t = some z) ts zs) : ∃ ws,
      List.Forall₂ (fun t z => termMeaning? ρ t = some z)
        (ts.filter (fun t => !Scalar.isZero t.1)) ws ∧ ws.sum = zs.sum := by
  induction h with
  | nil => exact ⟨[], .nil, rfl⟩
  | @cons t z ts zs head _ ih =>
      obtain ⟨ws, all, sum⟩ := ih
      cases hzero : Scalar.isZero t.1 with
      | true =>
          obtain ⟨a, x, ha, -, rfl⟩ := termMeaning?_eq_some.mp head
          have hfinite : Scalar.finite? t.1 = some 0 := by simpa [Scalar.isZero] using hzero
          obtain rfl : 0 = a := by simpa [Scalar.meaning?, hfinite] using ha
          exact ⟨ws, by simpa [hzero] using all, by simp [sum]⟩
      | false =>
          refine ⟨z :: ws, ?_, by simp [sum]⟩
          rw [List.filter_cons_of_pos (by simp [hzero])]
          exact .cons head all

/-- The parts of one vector have a sum that is a multiple of its monomial. -/
theorem exists_factor {v : Exponents} {parts : List (Exponents × Expression K)}
    (hparts : ∀ part ∈ parts, part.1 = v) {zs : List ℂ}
    (h : List.Forall₂ (fun (part : Exponents × Expression K) z => ∃ y,
      part.2.meaning? ρ = some y ∧ z = y * monomialValue ρ scope part.1) parts zs) :
    ∃ ys, List.Forall₂ (fun (part : Exponents × Expression K) y => part.2.meaning? ρ = some y)
      parts ys ∧ zs.sum = ys.sum * monomialValue ρ scope v := by
  induction h with
  | nil => exact ⟨[], .nil, by simp⟩
  | @cons part z parts zs head _ ih =>
      obtain ⟨ys, all, sum⟩ := ih (fun part hpart => hparts part (by simp [hpart]))
      obtain ⟨y, hy, rfl⟩ := head
      refine ⟨y :: ys, .cons hy all, ?_⟩
      rw [List.sum_cons, List.sum_cons, sum, hparts part (by simp), add_mul]

theorem CoefficientMap.exists_gathered {parts : List (Exponents × Expression K)} {v : Exponents}
    (hv : v ∈ parts.map Prod.fst) : ∃ c, gathered v parts = some c := by
  obtain ⟨part, hpart, rfl⟩ := List.mem_map.mp hv
  have hmem : part ∈ parts.filter (fun other => other.1 = part.1) := by simp [hpart]
  unfold gathered
  split
  · next none => simp [none] at hmem
  · exact ⟨_, rfl⟩

section

variable {e : Expression K} {parts : List (Exponents × Expression K)}

theorem Expression.KeepsValues.meaning_parts [Scalar.HasZero K] (keeps : e.KeepsValues scope ρ)
    (hscope : scope.Nodup)
    (hparts : List.Forall₂ (TermLeaves scope)
      (e.expand.terms.filter (fun t => !Scalar.isZero t.1)) parts)
    {z : ℂ} (hz : e.meaning? ρ = some z) :
    ∃ ws, List.Forall₂ (fun (part : Exponents × Expression K) z => ∃ y,
      part.2.meaning? ρ = some y ∧ z = y * monomialValue ρ scope part.1) parts ws ∧ ws.sum = z := by
  obtain ⟨zs, hzs, rfl⟩ := Expression.meaning?_eq_some_iff_terms.mp (keeps.expand z hz)
  obtain ⟨ws, hws, sum⟩ := exists_sum_nonzero hzs
  have known : List.Forall₂ (fun t part => t ∈ e.expand.terms ∧ TermLeaves scope t part) _ parts :=
    forall₂_imp_of_mem hparts (fun t ht part hpart => ⟨List.mem_of_mem_filter ht, hpart⟩)
  exact ⟨ws, (forall₂_comp known.flip hws).imp
    (fun part z ⟨t, ⟨ht, hpart⟩, hz⟩ => keeps.meaning_part hscope ht hpart hz), sum⟩

theorem Expression.KeepsValues.meaning_group (keeps : e.KeepsValues scope ρ)
    (hparts : List.Forall₂ (TermLeaves scope)
      (e.expand.terms.filter (fun t => !Scalar.isZero t.1)) parts)
    {v : Exponents} {c : Expression K} (hc : CoefficientMap.gathered v parts = some c)
    {group : List ℂ}
    (hgroup : List.Forall₂ (fun (part : Exponents × Expression K) z => ∃ y,
      part.2.meaning? ρ = some y ∧ z = y * monomialValue ρ scope part.1)
        (parts.filter (fun part => part.1 = v)) group) :
    ∃ y, c.meaning? ρ = some y ∧ group.sum = y * monomialValue ρ scope v := by
  obtain ⟨ys, hys, sum⟩ := exists_factor
    (fun part hpart => by simpa using List.of_mem_filter hpart) hgroup
  exact ⟨ys.sum, keeps.coefficients parts hparts v c hc ys hys, sum⟩

theorem CoefficientMap.Collects.meaning? [Scalar.HasZero K] [Scalar.HasUnits K]
    {m : CoefficientMap K} (hm : m.Collects scope e) (hscope : scope.Nodup)
    (keeps : e.KeepsValues scope ρ) {z : ℂ} (hz : e.meaning? ρ = some z) :
    m.meaning? scope ρ = some z := by
  obtain ⟨parts, all, gathers⟩ := hm.gathers
  obtain ⟨ws, values, rfl⟩ := keeps.meaning_parts hscope all hz
  -- the vectors of the map come first, and those whose coefficients vanish after them
  let vanishing := (parts.map Prod.fst).dedup.filter (fun v => v ∉ m.map Prod.fst)
  have distinct : (m.map Prod.fst ++ vanishing).Nodup :=
    hm.distinct.append ((List.nodup_dedup _).filter _)
      (fun v hv hmem => by simpa [hv] using List.of_mem_filter hmem)
  have cover : ∀ part ∈ parts, part.1 ∈ m.map Prod.fst ++ vanishing := by
    intro part hpart
    by_cases hmem : part.1 ∈ m.map Prod.fst
    · exact List.mem_append_left _ hmem
    · refine List.mem_append_right _ (List.mem_filter.mpr ⟨?_, by simpa using hmem⟩)
      exact List.mem_dedup.mpr (List.mem_map_of_mem hpart)
  obtain ⟨groups, grouped, perm⟩ := exists_groups Prod.fst values distinct cover
  have kept := List.forall₂_take (m.map Prod.fst).length grouped
  have others := List.forall₂_drop (m.map Prod.fst).length grouped
  rw [List.take_left, List.forall₂_map_left_iff] at kept
  rw [List.drop_left] at others
  have zero : ((groups.drop (m.map Prod.fst).length).map List.sum).sum = 0 := by
    refine List.sum_eq_zero (fun x hx => ?_)
    obtain ⟨group, hgroup, rfl⟩ := List.mem_map.mp hx
    obtain ⟨v, hv, related⟩ := exists_left_of_mem others hgroup
    obtain ⟨hlisted, hfresh⟩ := List.mem_filter.mp hv
    obtain ⟨c, hc⟩ := exists_gathered (List.mem_dedup.mp hlisted)
    obtain ⟨y, hy, total⟩ := keeps.meaning_group all hc related
    have hzero : c = .zero := by
      rw [← Expression.isZero_iff]
      by_contra hne
      have hmem := (gathers v c).mpr ⟨hc, (Bool.not_eq_true _).mp hne⟩
      exact of_decide_eq_true hfresh (List.mem_map_of_mem hmem)
    rw [hzero, Expression.meaning?_zero] at hy
    rw [total, ← Option.some.inj hy, zero_mul]
  have coefficients : m.meaning? scope ρ =
      some ((groups.take (m.map Prod.fst).length).map List.sum).sum := by
    refine meaning?_of_forall₂ ?_
    rw [List.forall₂_map_right_iff]
    refine forall₂_imp_of_mem kept (fun entry hentry group related => ?_)
    obtain ⟨hc, -⟩ := (gathers entry.1 entry.2).mp hentry
    obtain ⟨y, hy, total⟩ := keeps.meaning_group all hc related
    exact ⟨y, monomialValue ρ scope entry.1, hy,
      meaning?_monomial hscope (hm.natural _ (List.mem_map_of_mem hentry)), total⟩
  have total : ((groups.take (m.map Prod.fst).length).map List.sum).sum = ws.sum := by
    rw [← perm.sum_eq, List.sum_flatten, ← List.take_append_drop (m.map Prod.fst).length
      (groups.map List.sum), List.sum_append, ← List.map_take, ← List.map_drop, zero, add_zero]
  rw [coefficients, total]

end

/-! ## Exact arithmetic

Over the rationals only the expansion has to keep the value.
-/

section

variable {e : Expression Rat}

theorem mem_addBasePower {b : Base K} {x : Expression K} {powers : List (BasePower K)}
    (hpowers : (powers.map Prod.fst).Nodup) {power : BasePower K}
    (h : power ∈ addBasePower b x powers) :
    (power ∈ powers ∧ power.1 ≠ b) ∨ power.1 = b ∧
      ((b ∉ powers.map Prod.fst ∧ power.2 = x) ∨ ∃ y, (b, y) ∈ powers ∧ power.2 = y + x) := by
  induction powers with
  | nil =>
      obtain rfl : power = (b, x) := by simpa [addBasePower] using h
      exact .inr ⟨rfl, .inl ⟨by simp, rfl⟩⟩
  | cons other powers ih =>
      obtain ⟨c, y⟩ := other
      obtain ⟨fresh, distinct⟩ := List.nodup_cons.mp hpowers
      by_cases hbc : b = c
      · subst hbc
        simp only [addBasePower, if_true, List.mem_cons] at h
        rcases h with rfl | h
        · exact .inr ⟨rfl, .inr ⟨y, by simp, rfl⟩⟩
        · exact .inl ⟨by simp [h], fun same => fresh (List.mem_map.mpr ⟨power, h, same⟩)⟩
      · simp only [addBasePower, hbc, if_false, List.mem_cons] at h
        rcases h with rfl | h
        · exact .inl ⟨by simp, Ne.symm hbc⟩
        · rcases ih distinct h with ⟨hmem, hne⟩ | ⟨rfl, ⟨hnew, hx⟩ | ⟨z, hz, hx⟩⟩
          · exact .inl ⟨by simp [hmem], hne⟩
          · exact .inr ⟨rfl, .inl ⟨by simpa [hbc] using hnew, hx⟩⟩
          · exact .inr ⟨rfl, .inr ⟨z, by simp [hz], hx⟩⟩

theorem meaning?_powersByBase {fs : List (Factor Rat)} {power : BasePower Rat}
    (h : power ∈ powersByBase fs) {ws : List ℂ}
    (hws : List.Forall₂ (fun (f : Factor Rat) w => f.2.meaning? ρ = some w)
      (fs.filter (fun f => f.1 = power.1)) ws) : power.2.meaning? ρ = some ws.sum := by
  induction fs using List.reverseRecOn generalizing power ws with
  | nil => simp [powersByBase] at h
  | append_singleton fs f ih =>
      rw [powersByBase_concat] at h
      rw [List.filter_append] at hws
      rcases mem_addBasePower (nodup_powersByBase fs) h with ⟨hmem, hne⟩ | ⟨hbase, hnew | hold⟩
      · exact ih hmem (by simpa [Ne.symm hne] using hws)
      · obtain ⟨hfresh, hx⟩ := hnew
        have none : fs.filter (fun g => g.1 = power.1) = [] := by
          rw [List.filter_eq_nil_iff]
          intro g hg same
          refine hfresh (mem_bases_powersByBase.mpr (List.mem_map.mpr ⟨g, hg, ?_⟩))
          rw [← hbase]
          exact of_decide_eq_true same
        rw [none, List.nil_append, List.filter_cons_of_pos (by simp [hbase])] at hws
        cases hws with
        | cons head tail =>
            obtain rfl := List.forall₂_nil_left_iff.mp tail
            rw [hx, Exponent.meaning?_toExpression head, List.sum_singleton]
      · obtain ⟨y, hy, hx⟩ := hold
        rw [List.filter_cons_of_pos (by simp [hbase])] at hws
        obtain ⟨us, w, rfl, all, last⟩ := exists_last_right hws
        rw [hx, Expression.meaning?_add (ih hy (by rwa [hbase] at all))
          (Exponent.meaning?_toExpression last), List.sum_append, List.sum_singleton]

theorem meaning?_gathered {v : Exponents} {parts : List (Exponents × Expression Rat)}
    {c : Expression Rat} (hc : CoefficientMap.gathered v parts = some c) {zs : List ℂ}
    (h : List.Forall₂ (fun (part : Exponents × Expression Rat) z => part.2.meaning? ρ = some z)
      (parts.filter (fun part => part.1 = v)) zs) : c.meaning? ρ = some zs.sum := by
  have sum (rest : List (Exponents × Expression Rat)) :
      ∀ (d : Expression Rat) (y : ℂ) (ys : List ℂ), d.meaning? ρ = some y →
      List.Forall₂ (fun (part : Exponents × Expression Rat) z => part.2.meaning? ρ = some z)
        rest ys →
      (rest.foldl (fun d next => d + next.2) d).meaning? ρ = some (y + ys.sum) := by
    induction rest with
    | nil =>
        intro d y ys hd hys
        obtain rfl := List.forall₂_nil_left_iff.mp hys
        simpa using hd
    | cons part rest ih =>
        intro d y ys hd hys
        cases hys with
        | cons head tail =>
            rw [List.foldl_cons, ih _ _ _ (Expression.meaning?_add hd head) tail, List.sum_cons,
              add_assoc]
  unfold CoefficientMap.gathered at hc
  split at hc
  · simp at hc
  · next part rest hfilter =>
      rw [hfilter] at h
      obtain rfl := Option.some.inj hc
      cases h with
      | cons head tail => rw [sum rest _ _ _ head tail, List.sum_cons]

theorem Expression.keepsValues_of_expand
    (h : ∀ z, e.meaning? ρ = some z → e.expand.meaning? ρ = some z) : e.KeepsValues scope ρ where
  expand := h
  exponents _ _ _ hpower _ hws := meaning?_powersByBase hpower hws
  terms _ _ _ hz := Expression.meaning?_ofTerm hz
  coefficients _ _ _ _ hc _ hzs := meaning?_gathered hc hzs

end

/-! ## Reconstruction -/

omit [Scalar K] in
theorem notMem_of_selectFactors {p : Product K} {s : Symbol}
    (hs : s ∈ (selectFactors scope false p).symbols) : s ∉ scope := by
  induction p with
  | one => simp [selectFactors, Product.symbols] at hs
  | times b x p ih =>
      cases hdep : dependsOn scope (b.symbols ++ x.symbols) with
      | true => exact ih (by simpa [selectFactors, hdep] using hs)
      | false =>
          rw [selectFactors, if_pos hdep, Product.symbols, List.mem_append] at hs
          rcases hs with hs | hs
          · have free := List.any_eq_false.mp hdep s hs
            simpa using free
          · exact ih hs

theorem notMem_of_gathered {ts : List (K × Product K)} {parts : List (Exponents × Expression K)}
    (h : List.Forall₂ (TermLeaves scope) ts parts) {v : Exponents} {c : Expression K}
    (hc : CoefficientMap.gathered v parts = some c) {s : Symbol} (hs : s ∈ c.symbols) :
    s ∉ scope := by
  have parts_free : ∀ part ∈ parts, s ∈ part.2.symbols → s ∉ scope := by
    intro part hpart hs
    obtain ⟨t, -, free, split, left⟩ := exists_left_of_mem h hpart
    rw [left, split.free_eq] at hs
    exact notMem_of_selectFactors (Expression.symbols_ofTerm hs)
  have sum (rest : List (Exponents × Expression K)) : ∀ d : Expression K,
      s ∈ (rest.foldl (fun d next => d + next.2) d).symbols →
        s ∈ d.symbols ∨ ∃ part ∈ rest, s ∈ part.2.symbols := by
    induction rest with
    | nil => exact fun d hs => .inl hs
    | cons part rest ih =>
        intro d hs
        rcases ih _ hs with hs | ⟨other, hmem, hs⟩
        · exact (Expression.symbols_add hs).imp id (fun hs => ⟨part, by simp, hs⟩)
        · exact .inr ⟨other, by simp [hmem], hs⟩
  unfold CoefficientMap.gathered at hc
  split at hc
  · simp at hc
  · next part rest hfilter =>
      have member : ∀ part' ∈ part :: rest, part' ∈ parts := fun part' hmem =>
        List.mem_of_mem_filter (hfilter ▸ hmem)
      obtain rfl := Option.some.inj hc
      rcases sum rest _ hs with hs | ⟨other, hmem, hs⟩
      · exact parts_free part (member part (by simp)) hs
      · exact parts_free other (member other (by simp [hmem])) hs

/--
A coefficient map reconstructs an expression: its vectors are natural and distinct, its coefficients
are not zero and free of the variables, and they sum with the monomials to the value of the
expression.  With the other symbols fixed, this value is a polynomial in the variables.
-/
structure CoefficientMap.Reconstructs (m : CoefficientMap K) (e : Expression K)
    (scope : List Symbol) : Prop where
  distinct : (m.map Prod.fst).Nodup
  natural : ∀ entry ∈ m, entry.1.IsNatural scope.length
  nonzero : ∀ entry ∈ m, entry.2 ≠ .zero
  free : ∀ entry ∈ m, ∀ s ∈ entry.2.symbols, s ∉ scope
  value : ∀ ρ z, e.KeepsValues scope ρ → e.meaning? ρ = some z → m.meaning? scope ρ = some z
  polynomial : ∀ σ : Symbol → ℂ, ∃ q : MvPolynomial Symbol ℂ, IsOver scope q ∧
    ∀ ρ z, (∀ s ∉ scope, ρ s = σ s) → e.KeepsValues scope ρ → e.meaning? ρ = some z →
      MvPolynomial.eval ρ q = z

namespace CoefficientMap

noncomputable def polynomialAt (scope : List Symbol) (σ : Symbol → ℂ) (m : CoefficientMap K) :
    MvPolynomial Symbol ℂ :=
  (m.map (fun entry => MvPolynomial.monomial (monomialPowers scope entry.1)
    ((entry.2.meaning? σ).getD 0))).sum

theorem isOver_polynomialAt {m : CoefficientMap K} (σ : Symbol → ℂ)
    (hm : ∀ entry ∈ m, entry.1.IsNatural scope.length) : IsOver scope (m.polynomialAt scope σ) := by
  refine isOver_sum (fun q hq => ?_)
  obtain ⟨entry, hentry, rfl⟩ := List.mem_map.mp hq
  exact isOver_monomial (hm entry hentry) _

theorem eval_monomialPowers (v : Exponents) (a : ℂ) :
    MvPolynomial.eval ρ (MvPolynomial.monomial (monomialPowers scope v) a) =
      a * monomialValue ρ scope v := by
  rw [← mul_one a, ← MvPolynomial.C_mul_monomial, ← monomialValue_X, map_mul, MvPolynomial.eval_C,
    map_monomialValue, mul_one]
  simp only [MvPolynomial.eval_X]

theorem eval_polynomialAt [Scalar.HasUnits K] (hscope : scope.Nodup) {m : CoefficientMap K}
    {σ : Symbol → ℂ} (hρ : ∀ s ∉ scope, ρ s = σ s)
    (hm : ∀ entry ∈ m, entry.1.IsNatural scope.length)
    (hfree : ∀ entry ∈ m, ∀ s ∈ entry.2.symbols, s ∉ scope) {z : ℂ}
    (h : m.meaning? scope ρ = some z) : MvPolynomial.eval ρ (m.polynomialAt scope σ) = z := by
  induction m generalizing z with
  | nil =>
      obtain rfl : 0 = z := by simpa [meaning?] using h
      simp [polynomialAt]
  | cons entry m ih =>
      obtain ⟨v, c⟩ := entry
      simp only [meaning?, Option.bind_eq_bind, Option.bind_eq_some_iff] at h
      obtain ⟨a, ha, b, hb, y, hy, sum⟩ := h
      have value := ih (fun entry hentry => hm entry (by simp [hentry]))
        (fun entry hentry => hfree entry (by simp [hentry])) hy
      rw [meaning?_monomial hscope (hm (v, c) (by simp))] at hb
      rw [Expression.meaning?_congr c (fun s hs => hρ s (hfree (v, c) (by simp) s hs))] at ha
      rw [polynomialAt, List.map_cons, List.sum_cons, map_add, eval_monomialPowers, ha,
        Option.getD_some, Option.some.inj hb]
      exact (congrArg (a * b + ·) value).trans (Option.some.inj sum)

end CoefficientMap

/-- What has coefficients over distinct variables is reconstructed from them. -/
theorem reconstructs_of_coefficients [Scalar.HasZero K] [Scalar.HasUnits K] {e : Expression K}
    {m : CoefficientMap K} (hscope : scope.Nodup) (h : coefficients e scope = .ok m) :
    m.Reconstructs e scope := by
  have collects := collects_of_coefficients hscope h
  obtain ⟨parts, all, gathers⟩ := collects.gathers
  have natural : ∀ entry ∈ m, entry.1.IsNatural scope.length := fun entry hentry =>
    collects.natural _ (List.mem_map_of_mem hentry)
  have free : ∀ entry ∈ m, ∀ s ∈ entry.2.symbols, s ∉ scope := fun entry hentry s hs =>
    notMem_of_gathered all ((gathers entry.1 entry.2).mp hentry).1 hs
  refine ⟨collects.distinct, natural, fun entry hentry zero => ?_, free,
    fun ρ z keeps hz => collects.meaning? hscope keeps hz, fun σ => ?_⟩
  · have nonzero := ((gathers entry.1 entry.2).mp hentry).2
    simp [zero, Expression.isZero] at nonzero
  · exact ⟨m.polynomialAt scope σ, CoefficientMap.isOver_polynomialAt σ natural,
      fun ρ z hρ keeps hz => CoefficientMap.eval_polynomialAt hscope hρ natural free
        (collects.meaning? hscope keeps hz)⟩

/-- The sine of a symbol times the square of `x + 1`. -/
def scaledSquare : Expression Rat :=
  .plus 1 (.times (.apply .sin (.ofSymbol (.named "a"))) (.integer 1)
    (.times (.group (.plus 1 .one (.ofSymbol (.named "x")))) (.integer 2) .one)) .zero

theorem expand_scaledSquare : scaledSquare.expand =
    .plus 2 (.times (.symbol (.named "x")) (.integer 1)
      (.times (.apply .sin (.ofSymbol (.named "a"))) (.integer 1) .one))
    (.plus 1 (.times (.symbol (.named "x")) (.integer 2)
      (.times (.apply .sin (.ofSymbol (.named "a"))) (.integer 1) .one))
    (.plus 1 (.times (.apply .sin (.ofSymbol (.named "a"))) (.integer 1) .one) .zero)) := by
  decide +kernel

theorem coefficients_scaledSquare : coefficients scaledSquare [.named "x"] =
    .ok [([1], .plus 2 (.times (.apply .sin (.ofSymbol (.named "a"))) (.integer 1) .one) .zero),
      ([2], .plus 1 (.times (.apply .sin (.ofSymbol (.named "a"))) (.integer 1) .one) .zero),
      ([0], .plus 1 (.times (.apply .sin (.ofSymbol (.named "a"))) (.integer 1) .one) .zero)] := by
  decide +kernel

theorem meaning?_scaledSquare (ρ : Symbol → ℂ) : scaledSquare.meaning? ρ =
    some (Complex.sin (ρ (.named "a")) * (ρ (.named "x") + 1) ^ 2) := by
  simp [scaledSquare, Expression.meaning?, Product.meaning?, Base.meaning?,
    UnaryFunction.meaning?, Scalar.meaning?, add_comm]

theorem reconstructs_of_coefficients_scaledSquare :
    (∀ ρ, (scaledSquare.meaning? ρ).isSome = true ∧ scaledSquare.KeepsValues [.named "x"] ρ) ∧
      ∃ m, coefficients scaledSquare [.named "x"] = .ok m ∧
        m.map Prod.fst = [[1], [2], [0]] ∧ m.Reconstructs scaledSquare [.named "x"] := by
  refine ⟨fun ρ => ⟨by rw [meaning?_scaledSquare]; rfl, ?_⟩, _, coefficients_scaledSquare, rfl,
    reconstructs_of_coefficients (List.nodup_singleton _) coefficients_scaledSquare⟩
  refine Expression.keepsValues_of_expand (fun z hz => ?_)
  rw [← hz, meaning?_scaledSquare, expand_scaledSquare]
  simp [Expression.meaning?, Product.meaning?, Base.meaning?, UnaryFunction.meaning?,
    Scalar.meaning?]
  ring

end HybridRelaxation
