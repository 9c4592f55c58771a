import Mathlib
import HybridRelaxation.Proofs.Polynomial.Coefficients

/-!
# Collected coefficients

Over numbers of any kind a coefficient map says all that there is to say about an expanded
expression.  Each term splits into the powers of the variables, which over distinct variables are the
entries of its exponent vector, and the factors free of the variables; and the coefficient of a
vector is the sum of what the terms with this vector leave.
-/

namespace HybridRelaxation

variable {K : Type} [Scalar K]

/-! ## Powers of variables -/

def powerOf (s : Symbol) : List (BasePower K) → ℤ
  | [] => 0
  | (b, e) :: rest => (if b = .symbol s then (e.natural?.getD 0 : ℤ) else 0) + powerOf s rest

theorem getElem?_of_lastPosition? {scope : List Symbol} {i : ℕ} {s : Symbol}
    (h : lastPosition? s scope = some i) : scope[i]? = some s := by
  obtain ⟨k, hk, -⟩ := Option.map_eq_some_iff.mp h
  obtain ⟨bound, hget, -⟩ := List.idxOf?_eq_some_iff.mp hk
  obtain ⟨j, hj, found⟩ := exists_lastPosition? (List.mem_reverse.mp (hget ▸ List.getElem_mem bound))
  rwa [Option.some.inj (h.symm.trans hj)]

theorem lastPosition?_of_nodup {scope : List Symbol} (hscope : scope.Nodup) {i : ℕ} {s : Symbol}
    (hi : scope[i]? = some s) : lastPosition? s scope = some i := by
  obtain ⟨j, hj, hget⟩ := exists_lastPosition? (List.mem_of_getElem? hi)
  have bound : i < scope.length := (List.getElem?_eq_some_iff.mp hi).1
  rw [hj, (List.getElem?_inj bound hscope).mp (hi.trans hget.symm)]

theorem exponentVector_cons {scope : List Symbol} {b : Base K} {e : Expression K}
    {rest : List (BasePower K)} {v : Exponents}
    (h : exponentVector scope ((b, e) :: rest) = .ok v) : ∃ w s n position,
      exponentVector scope rest = .ok w ∧ b = .symbol s ∧ e.natural? = some n ∧
        lastPosition? s scope = some position ∧ v = addAt position n w := by
  obtain ⟨w, hw, h⟩ := bind_eq_ok.mp h
  split at h
  · next s n hn _ =>
      split at h
      · next position hposition =>
          exact ⟨w, s, n, position, hw, rfl, hn, hposition, (Except.ok.inj h).symm⟩
      · simp at h
  · simp at h

theorem isNatural_of_exponentVector {scope : List Symbol} {powers : List (BasePower K)}
    {v : Exponents} (h : exponentVector scope powers = .ok v) : v.IsNatural scope.length := by
  induction powers generalizing v with
  | nil =>
      obtain rfl := Except.ok.inj h
      exact Exponents.isNatural_replicate _
  | cons power powers ih =>
      obtain ⟨w, s, n, position, hw, -, -, -, rfl⟩ := exponentVector_cons h
      exact Exponents.isNatural_addAt (ih hw) position n

theorem isPower_of_exponentVector {scope : List Symbol} {powers : List (BasePower K)}
    {v : Exponents} (h : exponentVector scope powers = .ok v) :
    ∀ power ∈ powers, ∃ s ∈ scope, ∃ n : ℕ, power.1 = .symbol s ∧ power.2.natural? = some n := by
  induction powers generalizing v with
  | nil => simp
  | cons power powers ih =>
      obtain ⟨w, s, n, position, hw, hs, hn, hposition, -⟩ := exponentVector_cons h
      exact List.forall_mem_cons.mpr
        ⟨⟨s, List.mem_of_getElem? (getElem?_of_lastPosition? hposition), n, hs, hn⟩, ih hw⟩

theorem exponentVector_getElem? {scope : List Symbol} (hscope : scope.Nodup)
    {powers : List (BasePower K)} {v : Exponents} (h : exponentVector scope powers = .ok v) {i : ℕ}
    {s : Symbol} (hi : scope[i]? = some s) : v[i]? = some (powerOf s powers) := by
  induction powers generalizing v with
  | nil =>
      obtain rfl := Except.ok.inj h
      have bound : i < scope.length := (List.getElem?_eq_some_iff.mp hi).1
      simp [powerOf, bound]
  | cons power powers ih =>
      obtain ⟨b, e⟩ := power
      obtain ⟨w, t, n, position, hw, rfl, hn, hposition, rfl⟩ := exponentVector_cons h
      rw [addAt, List.getElem?_modify, ih hw, powerOf, hn]
      by_cases hst : t = s
      · subst hst
        rw [lastPosition?_of_nodup hscope hi] at hposition
        obtain rfl := Option.some.inj hposition
        simp [add_comm]
      · have apart : position ≠ i := by
          rintro rfl
          exact hst (Option.some.inj ((getElem?_of_lastPosition? hposition).symm.trans hi))
        simp [apart, hst]

/-! ## Terms -/

/--
The factors of a product that are free of the variables, and the vector of the others: these are
powers of variables, and the vector has the power of each variable.
-/
structure SplitsInto (scope : List Symbol) (p free : Product K) (v : Exponents) : Prop where
  free_eq : free = selectFactors scope false p
  powers : ∀ power ∈ (selectFactors scope true p).basePowers,
    ∃ s ∈ scope, ∃ n : ℕ, power.1 = .symbol s ∧ power.2.natural? = some n
  natural : v.IsNatural scope.length
  vector : ∀ (i : ℕ) (s : Symbol), scope[i]? = some s →
    v[i]? = some (powerOf s (selectFactors scope true p).basePowers)

theorem splitsInto_of_splitProduct {scope : List Symbol} (hscope : scope.Nodup) {p free : Product K}
    {v : Exponents} (h : splitProduct scope p = .ok (free, v)) : SplitsInto scope p free v := by
  obtain ⟨w, hw, h⟩ := bind_eq_ok.mp h
  obtain ⟨rfl, rfl⟩ := Prod.mk.inj (Except.ok.inj h)
  exact ⟨rfl, isPower_of_exponentVector hw, isNatural_of_exponentVector hw,
    fun i s hi => exponentVector_getElem? hscope hw hi⟩

/-- What a term leaves for the coefficient of its vector. -/
def TermLeaves (scope : List Symbol) (term : K × Product K) (part : Exponents × Expression K) :
    Prop :=
  ∃ free, SplitsInto scope term.2 free part.1 ∧ part.2 = .ofTerm term.1 free

/-! ## Collecting -/

namespace CoefficientMap

def gathered (v : Exponents) (parts : List (Exponents × Expression K)) : Option (Expression K) :=
  match parts.filter (fun part => part.1 = v) with
  | [] => none
  | part :: rest => some (rest.foldl (fun c next => c + next.2) part.2)

theorem gathered_concat (v : Exponents) (parts : List (Exponents × Expression K))
    (part : Exponents × Expression K) : gathered v (parts ++ [part]) =
      if part.1 = v then some (match gathered v parts with
        | none => part.2
        | some c => c + part.2)
      else gathered v parts := by
  by_cases h : part.1 = v
  · simp only [gathered, List.filter_append, List.filter_singleton, h, decide_true, cond_true,
      if_true]
    cases parts.filter (fun part => part.1 = v) with
    | nil => simp
    | cons first rest => simp
  · simp [gathered, h]

theorem exists_part {v : Exponents} {parts : List (Exponents × Expression K)} {c : Expression K}
    (h : gathered v parts = some c) : ∃ part ∈ parts, part.1 = v := by
  unfold gathered at h
  split at h
  · simp at h
  · next part rest hparts =>
      have hmem : part ∈ parts.filter (fun part => part.1 = v) := by simp [hparts]
      exact ⟨part, List.mem_of_mem_filter hmem, by simpa using List.of_mem_filter hmem⟩

def get? (m : CoefficientMap K) (v : Exponents) : Option (Expression K) :=
  (m.find? (fun entry => entry.1 = v)).map Prod.snd

omit [Scalar K] in
theorem mem_iff_get? {m : CoefficientMap K} (hm : (m.map Prod.fst).Nodup) {v : Exponents}
    {c : Expression K} : (v, c) ∈ m ↔ m.get? v = some c := by
  rw [get?, Option.map_eq_some_iff]
  constructor
  · intro h
    exact ⟨(v, c), (find?_key_eq_some hm).mpr ⟨h, rfl⟩, rfl⟩
  · rintro ⟨entry, found, rfl⟩
    obtain ⟨h, rfl⟩ := (find?_key_eq_some hm).mp found
    exact h

theorem get?_addAt (m : CoefficientMap K) (v w : Exponents) (c : Expression K) :
    (m.addAt w c).get? v = if w = v then some (match m.get? v with
      | none => c
      | some d => d + c)
    else m.get? v := by
  induction m with
  | nil => by_cases h : w = v <;> simp [CoefficientMap.addAt, get?, h]
  | cons entry m ih =>
      obtain ⟨u, d⟩ := entry
      by_cases hwu : w = u
      · subst hwu
        by_cases hwv : w = v <;> simp [CoefficientMap.addAt, get?, hwv]
      · by_cases huv : u = v
        · subst huv
          simp [CoefficientMap.addAt, get?, hwu]
        · simpa [CoefficientMap.addAt, get?, hwu, huv] using ih

def addAll (m : CoefficientMap K) (parts : List (Exponents × Expression K)) : CoefficientMap K :=
  parts.foldl (fun m part => m.addAt part.1 part.2) m

theorem nodup_addAll {m : CoefficientMap K} (hm : (m.map Prod.fst).Nodup)
    (parts : List (Exponents × Expression K)) : ((m.addAll parts).map Prod.fst).Nodup := by
  induction parts generalizing m with
  | nil => exact hm
  | cons part parts ih => exact ih (nodup_addAt hm part.1 part.2)

theorem get?_addAll (parts : List (Exponents × Expression K)) (v : Exponents) :
    (addAll [] parts).get? v = gathered v parts := by
  induction parts using List.reverseRecOn with
  | nil => rfl
  | append_singleton parts part ih =>
      rw [gathered_concat, ← ih, ← get?_addAt, addAll, List.foldl_append]
      rfl

end CoefficientMap

theorem collectTerms_inversion {scope : List Symbol} (hscope : scope.Nodup)
    {ts : List (K × Product K)} {m m' : CoefficientMap K}
    (h : collectTerms scope ts m = .ok m') : ∃ parts,
      List.Forall₂ (TermLeaves scope) (ts.filter (fun t => !Scalar.isZero t.1)) parts ∧
        m' = m.addAll parts := by
  induction ts generalizing m with
  | nil => exact ⟨[], .nil, (Except.ok.inj h).symm⟩
  | cons t ts ih =>
      obtain ⟨c, p⟩ := t
      unfold collectTerms at h
      split at h
      · next hc =>
          obtain ⟨parts, all, added⟩ := ih h
          exact ⟨parts, by simpa [hc] using all, added⟩
      · next hc =>
          obtain ⟨⟨free, v⟩, split, h⟩ := bind_eq_ok.mp h
          obtain ⟨parts, all, added⟩ := ih h
          refine ⟨(v, .ofTerm c free) :: parts, ?_, added⟩
          rw [List.filter_cons_of_pos (by simpa using hc)]
          exact .cons ⟨free, splitsInto_of_splitProduct hscope split, rfl⟩ all

/--
A coefficient map collects an expression: its vectors are natural, none of them occurs twice, and
the coefficient of a vector is the sum of what the terms with this vector leave, unless this is
zero.
-/
structure CoefficientMap.Collects (m : CoefficientMap K) (scope : List Symbol)
    (e : Expression K) : Prop where
  distinct : (m.map Prod.fst).Nodup
  natural : ∀ v ∈ m.map Prod.fst, v.IsNatural scope.length
  gathers : ∃ parts,
    List.Forall₂ (TermLeaves scope) (e.expand.terms.filter (fun t => !Scalar.isZero t.1)) parts ∧
      ∀ v c, (v, c) ∈ m ↔ CoefficientMap.gathered v parts = some c ∧ c.isZero = false

theorem collects_of_coefficients {scope : List Symbol} (hscope : scope.Nodup) {e : Expression K}
    {m : CoefficientMap K} (h : coefficients e scope = .ok m) : m.Collects scope e := by
  obtain ⟨collected, hcollected, h⟩ := bind_eq_ok.mp h
  obtain rfl := Except.ok.inj h
  obtain ⟨parts, all, rfl⟩ := collectTerms_inversion hscope hcollected
  have distinct := CoefficientMap.nodup_addAll (m := []) List.nodup_nil parts
  have gathers (v : Exponents) (c : Expression K) :
      (v, c) ∈ CoefficientMap.addAll [] parts ↔ CoefficientMap.gathered v parts = some c := by
    rw [CoefficientMap.mem_iff_get? distinct, CoefficientMap.get?_addAll]
  refine ⟨distinct.sublist (List.filter_sublist.map _), fun v hv => ?_, parts, all, fun v c => ?_⟩
  · obtain ⟨⟨w, c⟩, hmem, rfl⟩ := List.mem_map.mp hv
    obtain ⟨part, hpart, rfl⟩ := CoefficientMap.exists_part
      ((gathers w c).mp (List.mem_of_mem_filter hmem))
    obtain ⟨term, -, free, split, -⟩ := exists_left_of_mem all hpart
    exact split.natural
  · rw [List.mem_filter, gathers]
    simp

end HybridRelaxation
