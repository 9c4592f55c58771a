import Mathlib
import HybridRelaxation.Proofs.Polynomial.Enumeration
import HybridRelaxation.Proofs.Relaxation.Records
import HybridRelaxation.Proofs.SquareSum.Degrees
import HybridRelaxation.Proofs.SquareSum.FreePolynomial
import HybridRelaxation.Proofs.SquareSum.History

/-!
# Rows of matching equations

A registered certificate has one matching equation for each monomial up to twice the half-degree of
its Gram basis, in graded order.  Every entry of the upper triangle of a Gram matrix is in exactly
one of them, and none of them is without.  The equations of a multiplier say that its coefficients
are those of the quadratic form.  All of this holds over numbers of any kind.
-/

namespace HybridRelaxation

open MvPolynomial (X)

/-! ## Products of the basis -/

namespace SquareSum

section Pairs

variable {K : Type} {s : SquareSum K} {n : ℕ} {half : ℤ}

theorem exists_pair (hbasis : s.basis = exponents n half 0) (hhalf : 0 ≤ half) {v : Exponents}
    (hv : v ∈ exponents n (2 * half) 0) :
    ∃ pair ∈ trianglePairs s.gramSize, s.pairExponents pair = v := by
  obtain ⟨e, he, f, hf, rfl⟩ := Exponents.exists_halves hhalf hv
  rw [← hbasis] at he hf
  obtain ⟨i, hi, rfl⟩ := List.mem_iff_getElem.mp he
  obtain ⟨j, hj, rfl⟩ := List.mem_iff_getElem.mp hf
  have entry {k : ℕ} (hk : k < s.basis.length) : s.basis.getD k [] = s.basis[k] :=
    List.getD_eq_getElem _ _ hk
  rcases le_total i j with hij | hij
  · exact ⟨(i, j), mem_trianglePairs.mpr ⟨hij, hj⟩, by rw [pairExponents, entry hi, entry hj]⟩
  · exact ⟨(j, i), mem_trianglePairs.mpr ⟨hij, hi⟩, by
      rw [pairExponents, entry hi, entry hj, addExponents_comm]⟩

theorem pairExponents_mem (hbasis : s.basis = exponents n half 0) {pair : ℕ × ℕ}
    (hpair : pair ∈ trianglePairs s.gramSize) : s.pairExponents pair ∈ exponents n (2 * half) 0 := by
  obtain ⟨hle, hlt⟩ := mem_trianglePairs.mp hpair
  have listed {k : ℕ} (hk : k < s.basis.length) : s.basis.getD k [] ∈ exponents n half 0 := by
    rw [List.getD_eq_getElem _ _ hk, ← hbasis]
    exact List.getElem_mem hk
  exact Exponents.addExponents_mem_exponents (listed (hle.trans_lt hlt)) (listed hlt)

theorem matchedExponents_eq (hbasis : s.basis = exponents n half 0) (hhalf : 0 ≤ half)
    (hkeys : ∀ v ∈ s.coefficients.map Prod.fst, v ∈ exponents n (2 * half) 0) :
    s.matchedExponents = exponents n (2 * half) 0 := by
  refine Exponents.sortGraded_eq_exponents (nodup_eraseDups _) (fun v => ?_)
  rw [List.mem_eraseDups, List.mem_append]
  constructor
  · rintro (hv | hv)
    · exact hkeys v hv
    · obtain ⟨pair, hpair, rfl⟩ := List.mem_map.mp hv
      exact pairExponents_mem hbasis hpair
  · intro hv
    exact .inr (List.mem_map.mpr (exists_pair hbasis hhalf hv))

end Pairs

/-! ## Entries of Gram matrices -/

variable {K : Type} [Scalar K] {s : SquareSum K}

theorem mem_gramEntries {v : Exponents} {entry : ℕ × K} : entry ∈ s.gramEntries v ↔
    ∃ pair, (trianglePairs s.gramSize)[entry.1]? = some pair ∧ s.pairExponents pair = v ∧
      entry.2 = Scalar.machine (Scalar.measured (if pair.1 = pair.2 then 1 else 2)) := by
  obtain ⟨k, c⟩ := entry
  simp only [gramEntries, List.mem_filterMap, Prod.exists, List.mem_zipIdx_iff_getElem?,
    Option.ite_none_right_eq_some, Option.some.injEq, Prod.mk.injEq]
  constructor
  · rintro ⟨i, j, l, hget, hpair, rfl, rfl⟩
    exact ⟨i, j, hget, hpair, rfl⟩
  · rintro ⟨i, j, hget, hpair, rfl⟩
    exact ⟨i, j, k, hget, hpair, rfl, rfl⟩

theorem nodup_gramEntries (s : SquareSum K) (v : Exponents) :
    ((s.gramEntries v).map Prod.fst).Nodup := by
  have positions : (s.gramEntries v).map Prod.fst =
      ((trianglePairs s.gramSize).zipIdx.filter
        (fun entry => s.pairExponents entry.1 = v)).map Prod.snd := by
    rw [gramEntries, List.map_filterMap, ← List.filterMap_eq_map, ← List.filterMap_eq_filter,
      List.filterMap_filterMap]
    congr 1
    funext ⟨pair, k⟩
    by_cases h : s.pairExponents pair = v <;> simp [h, Option.guard]
  rw [positions]
  refine List.Nodup.sublist (List.filter_sublist.map _) ?_
  rw [List.zipIdx_map_snd]
  exact List.nodup_range'

theorem perm_gramEntries {vs : List Exponents} (hvs : vs.Nodup)
    (h : ∀ pair ∈ trianglePairs s.gramSize, s.pairExponents pair ∈ vs) :
    ((vs.flatMap s.gramEntries).map Prod.fst).Perm
      (List.range (trianglePairs s.gramSize).length) := by
  refine (List.perm_ext_iff_of_nodup ?_ List.nodup_range).mpr (fun k => ?_)
  · rw [List.map_flatMap, List.nodup_flatMap]
    refine ⟨fun v _ => s.nodup_gramEntries v, hvs.imp (fun {v w} hne => ?_)⟩
    rw [Function.onFun, List.disjoint_left]
    intro k hk hk'
    obtain ⟨entry, hentry, rfl⟩ := List.mem_map.mp hk
    obtain ⟨entry', hentry', hsame⟩ := List.mem_map.mp hk'
    obtain ⟨pair, hpair, rfl, -⟩ := mem_gramEntries.mp hentry
    obtain ⟨pair', hpair', rfl, -⟩ := mem_gramEntries.mp hentry'
    rw [hsame, hpair] at hpair'
    exact hne (congrArg s.pairExponents (Option.some.inj hpair'))
  · rw [List.mem_range, List.mem_map]
    constructor
    · rintro ⟨entry, hentry, rfl⟩
      obtain ⟨v, -, hv⟩ := List.mem_flatMap.mp hentry
      obtain ⟨pair, hpair, -⟩ := mem_gramEntries.mp hv
      exact (List.getElem?_eq_some_iff.mp hpair).1
    · intro hk
      have hpair := List.getElem?_eq_getElem hk
      refine ⟨(k, _), List.mem_flatMap.mpr ⟨_, h _ (List.mem_of_getElem? hpair),
        mem_gramEntries.mpr ⟨_, hpair, rfl, rfl⟩⟩, rfl⟩

end SquareSum

/-! ## Complete matchings -/

/--
The equations of a matching are those of all monomials up to twice the half-degree, in graded order.
Each entry of the upper triangle is in exactly one of them, with weight one on the diagonal and two
off it, and every equation has such entries.
-/
structure Matching.IsComplete {K : Type} [Scalar K] (m : Matching K) (n : ℕ) (half : ℤ) :
    Prop where
  rows : m.rows.map MatchingRow.exponents = exponents n (2 * half) 0
  pairs : m.pairs = trianglePairs (exponents n half 0).length
  reached : ∀ row ∈ m.rows, row.gram ≠ []
  columns : ((m.rows.flatMap MatchingRow.gram).map Prod.fst).Perm (List.range m.pairs.length)
  weights : ∀ row ∈ m.rows, ∀ entry ∈ row.gram, ∃ pair, m.pairs[entry.1]? = some pair ∧
    Scalar.finite? entry.2 = some (if pair.1 = pair.2 then 1 else 2)

namespace SquareSum

variable {K : Type} [Scalar K] {s : SquareSum K} {n : ℕ} {half : ℤ}

theorem isComplete_of_matching [Scalar.HasUnits K] (hbasis : s.basis = exponents n half 0)
    (hhalf : 0 ≤ half) (hkeys : ∀ v ∈ s.coefficients.map Prod.fst, v ∈ exponents n (2 * half) 0)
    {index : Symbol → Option ℤ} {columns : ℤ} {m : Matching K}
    (h : s.matching index columns = .ok m) : m.IsComplete n half := by
  have rows := matchedExponents_eq hbasis hhalf hkeys
  obtain ⟨related, pairs⟩ := matching_inversion h
  have gram : List.Forall₂ (fun v row => row.gram = s.gramEntries v) s.matchedExponents m.rows :=
    related.imp (fun v row hrow => gram_of_matchingRow hrow)
  have size : s.gramSize = (exponents n half 0).length := by rw [gramSize, hbasis]
  refine ⟨(map_exponents_of_matching h).trans rows, by rw [pairs, size], fun row hrow => ?_, ?_,
    fun row hrow entry hentry => ?_⟩
  · obtain ⟨v, hv, hgram⟩ := exists_left_of_mem gram hrow
    obtain ⟨pair, hpair, hvector⟩ := exists_pair hbasis hhalf (rows ▸ hv)
    obtain ⟨k, hk⟩ := List.mem_iff_getElem?.mp hpair
    rw [hgram]
    exact List.ne_nil_of_mem
      (show (k, _) ∈ s.gramEntries v from mem_gramEntries.mpr ⟨pair, hk, hvector, rfl⟩)
  · have all : m.rows.flatMap MatchingRow.gram = s.matchedExponents.flatMap s.gramEntries := by
      rw [List.flatMap_def, List.flatMap_def]
      congr 1
      rw [← List.forall₂_eq_eq_eq, List.forall₂_map_left_iff, List.forall₂_map_right_iff]
      exact gram.flip
    rw [all, pairs]
    refine perm_gramEntries s.nodup_matchedExponents (fun pair hpair => ?_)
    rw [rows]
    exact pairExponents_mem hbasis hpair
  · obtain ⟨v, -, hgram⟩ := exists_left_of_mem gram hrow
    obtain ⟨pair, hpair, -, hweight⟩ := mem_gramEntries.mp (hgram ▸ hentry)
    refine ⟨pair, by rwa [pairs], ?_⟩
    rw [hweight]
    split
    · exact Scalar.HasUnits.finite?_measured_one
    · exact Scalar.HasUnits.finite?_measured_two

theorem isComplete_of_halfDegree [Scalar.HasUnits K]
    (natural : ∀ v ∈ s.coefficients.map Prod.fst, v.IsNatural n)
    (hbasis : s.basis = exponents n (SquareProgram.halfDegree s.coefficients.totalDegree) 0)
    {index : Symbol → Option ℤ} {columns : ℤ} {m : Matching K}
    (h : s.matching index columns = .ok m) :
    m.IsComplete n (SquareProgram.halfDegree s.coefficients.totalDegree) := by
  have nonneg := CoefficientMap.totalDegree_nonneg natural
  refine s.isComplete_of_matching hbasis (by rw [SquareProgram.halfDegree]; omega)
    (fun v hv => ?_) h
  obtain ⟨t, ht, rfl⟩ := List.mem_map.mp hv
  have bound := CoefficientMap.totalDegreeOf_le ht
  refine Exponents.mem_exponents.mpr ⟨natural _ hv, (natural _ hv).totalDegreeOf_nonneg, ?_⟩
  rw [SquareProgram.halfDegree]
  omega

end SquareSum

/-! ## Multipliers -/

/--
The equations of a matching say that free coefficients are those of the quadratic form: row by row
the left side is the next symbol of the block, in its column and with coefficient one, and the right
side is zero.
-/
structure Matching.IsTemplate {K : Type} [Scalar K] (m : Matching K) (index : Symbol → Option ℤ)
    (block : List Symbol) : Prop where
  count : m.rows.length = block.length
  equations : ∀ (k : ℕ) (row : MatchingRow K), m.rows[k]? = some row →
    Scalar.finite? row.right = some 0 ∧ ∃ s column value, block[k]? = some s ∧
      index s = some column ∧ row.free = [(column, value)] ∧ Scalar.finite? value = some 1

/--
A statement about a free polynomial of degree `2 * half` over fresh decisions, which stand one after
the other among the decisions of a program.
-/
structure SquareSum.IsTemplate {K : Type} [Scalar K] (s : SquareSum K) (scope : List Symbol)
    (half : ℤ) (block decisions : List Symbol) : Prop where
  nonneg : 0 ≤ half
  scope_eq : s.scope = scope
  basis : s.basis = exponents scope.length half 0
  polynomial : s.polynomial = SquareProgram.combination block (monomials scope (2 * half) 0)
  coefficients : HybridRelaxation.coefficients s.polynomial scope = .ok s.coefficients
  count : block.length = (exponents scope.length (2 * half) 0).length
  distinct : block.Nodup
  fresh : ∀ t ∈ block, t ∉ scope
  registered : ∀ t ∈ block, ∃ position label,
    t = .decision position label ∧ decisions[position]? = some t

namespace SquareSum.IsTemplate

variable {K : Type} [Scalar K] {s : SquareSum K} {scope : List Symbol} {half : ℤ}
  {block decisions : List Symbol}

theorem mono (h : s.IsTemplate scope half block decisions) {decisions' : List Symbol}
    (hdecisions : decisions <+: decisions') : s.IsTemplate scope half block decisions' := by
  refine { h with registered := fun t ht => ?_ }
  obtain ⟨position, label, rfl, hposition⟩ := h.registered t ht
  exact ⟨position, label, rfl, SquareProgram.getElem?_of_isPrefix hdecisions hposition⟩

variable [Scalar.HasUnits K] (hscope : scope.Nodup) (h : s.IsTemplate scope half block decisions)

include hscope h

theorem mem_coefficients {v : Exponents} {c : Expression K} : (v, c) ∈ s.coefficients ↔
    (v, c) ∈ List.zipWith (fun t w => (w, Expression.ofSymbol t)) block
      (exponents scope.length (2 * half) 0) :=
  mem_coefficients_combination hscope h.distinct h.fresh (h.polynomial ▸ h.coefficients)

theorem key_mem {v : Exponents} (hv : v ∈ s.coefficients.map Prod.fst) :
    v ∈ exponents scope.length (2 * half) 0 := by
  obtain ⟨⟨w, c⟩, hmem, rfl⟩ := List.mem_map.mp hv
  obtain ⟨k, hk, heq⟩ := List.mem_iff_getElem.mp ((h.mem_coefficients hscope).mp hmem)
  rw [List.getElem_zipWith] at heq
  rw [← (Prod.mk.inj heq).1]
  exact List.getElem_mem _

theorem coefficientOf_getElem {k : ℕ} {t : Symbol} {v : Exponents} (ht : block[k]? = some t)
    (hv : (exponents scope.length (2 * half) 0)[k]? = some v) :
    s.coefficientOf v = some (.ofSymbol t) := by
  have distinct := (collects_of_coefficients hscope h.coefficients).distinct
  refine (CoefficientMap.mem_iff_get? distinct).mp ((h.mem_coefficients hscope).mpr ?_)
  refine List.mem_of_getElem? (i := k) ?_
  rw [List.getElem?_zipWith, ht, hv]

theorem matchingRow_getElem {r : SquareProgram K} (hr : decisions <+: r.decisions) {k : ℕ}
    {v : Exponents} (hv : (exponents scope.length (2 * half) 0)[k]? = some v) :
    ∃ (t : Symbol) (position : ℕ), block[k]? = some t ∧ r.index t = some (position : ℤ) ∧
      position < r.size ∧ s.matchingRow r.index v = .ok ⟨v,
        [((position : ℤ), Scalar.machine (Scalar.measured 0 + Scalar.machine 1))],
        s.gramEntries v, Scalar.machine (-Scalar.machine (Scalar.measured 0))⟩ := by
  have bound : k < block.length := h.count ▸ (List.getElem?_eq_some_iff.mp hv).1
  have ht : block[k]? = some block[k] := List.getElem?_eq_getElem bound
  obtain ⟨position, label, hdecision, hposition⟩ := h.registered _ (List.getElem_mem bound)
  have found := SquareProgram.getElem?_of_isPrefix hr hposition
  have column : r.index block[k] = some (position : ℤ) := by
    rw [hdecision] at found ⊢
    rw [SquareProgram.index, if_pos found]
  refine ⟨block[k], position, ht, column, (List.getElem?_eq_some_iff.mp found).1, ?_⟩
  rw [matchingRow, h.coefficientOf_getElem hscope ht hv]
  simp only [linearForm_ofSymbol column]
  rfl

theorem exists_matching {r : SquareProgram K} (hr : decisions <+: r.decisions) :
    ∃ m, s.matching r.index r.size = .ok m ∧ m.IsTemplate r.index block := by
  have vectors := matchedExponents_eq h.basis h.nonneg (fun v hv => h.key_mem hscope hv)
  have equations := fun k v => h.matchingRow_getElem hscope hr (k := k) (v := v)
  rw [← vectors] at equations
  obtain ⟨m, hm⟩ : ∃ m, s.matching r.index r.size = .ok m :=
    exists_matching_of_rows (fun v hv => by
      obtain ⟨k, hk⟩ := List.mem_iff_getElem?.mp hv
      obtain ⟨t, position, -, -, bound, hrow⟩ := equations k v hk
      exact ⟨_, hrow, by simp [MatchingRow.fits, bound]⟩)
  have rows := (matching_inversion hm).1
  refine ⟨m, hm, ?_, fun k row hk => ?_⟩
  · rw [h.count, ← vectors]
    exact rows.length_eq.symm
  · obtain ⟨v, hv, hrow⟩ := exists_right_at rows.flip hk
    obtain ⟨t, position, ht, column, -, hrow'⟩ := equations k v hv
    obtain rfl := Except.ok.inj (hrow.symm.trans hrow')
    exact ⟨Scalar.HasUnits.finite?_neg_zero, t, position, _, ht, column, rfl,
      Scalar.HasUnits.finite?_total_one⟩

theorem isComplete {index : Symbol → Option ℤ} {columns : ℤ} {m : Matching K}
    (hm : s.matching index columns = .ok m) : m.IsComplete scope.length half :=
  isComplete_of_matching h.basis h.nonneg (fun _ hv => h.key_mem hscope hv) hm

end SquareSum.IsTemplate

/-! ## Registered statements -/

namespace SquareProgram

variable {K : Type} [Scalar K] {p q : SquareProgram K} {scope : List Symbol} {name : String}

/-- The decisions among the variables, if there are any, are already in the program. -/
def IsBefore (scope : List Symbol) (p : SquareProgram K) : Prop :=
  ∀ position label, Symbol.decision position label ∈ scope → position < p.size

theorem exists_of_mem_freshDecisions {start count : ℕ} {t : Symbol}
    (h : t ∈ freshDecisions name start count) : ∃ k < count, ∃ label,
      t = .decision (start + k) label ∧ (freshDecisions name start count)[k]? = some t := by
  obtain ⟨k, hk, rfl⟩ := List.mem_map.mp h
  rw [List.mem_range] at hk
  exact ⟨k, hk, _, rfl, by simp [freshDecisions, hk]⟩

omit [Scalar K] in
theorem IsBefore.mono (h : p.IsBefore scope) (growth : p.decisions <+: q.decisions) :
    q.IsBefore scope :=
  fun position label hmem => (h position label hmem).trans_le growth.length_le

omit [Scalar K] in
theorem IsBefore.notMem (h : p.IsBefore scope) {count : ℕ} {t : Symbol}
    (ht : t ∈ freshDecisions name p.size count) : t ∉ scope := by
  intro hmem
  obtain ⟨k, -, label, rfl, -⟩ := exists_of_mem_freshDecisions ht
  have before := h _ _ hmem
  omega

theorem nodup_freshDecisions (name : String) (start count : ℕ) :
    (freshDecisions name start count).Nodup := by
  refine List.nodup_range.map (fun k l h => ?_)
  have positions := (Symbol.decision.inj h).1
  omega

theorem newSquareSum_isTemplate {half : ℤ} (hhalf : 0 ≤ half) (hscope : p.IsBefore scope)
    {e : Expression K} (h : p.newSquareSum scope half name = (q, .ok e)) :
    ∃ s block, q.statements = p.statements ++ [s] ∧ p.decisions <+: q.decisions ∧
      s.IsTemplate scope half block q.decisions := by
  obtain ⟨p', free, position, hfree, hstated, -⟩ := newSquareSum_eq_ok.mp h
  obtain ⟨rfl, rfl⟩ := Prod.mk.inj hfree
  obtain ⟨s, hs, rfl, -⟩ := withSquareSum_eq_ok.mp hstated
  obtain ⟨hcoefficients, hpolynomial, hs_scope, -, hbasis⟩ := statement_inversion hs
  refine ⟨s, _, rfl, List.prefix_append _ _, hhalf, hs_scope, hbasis, hpolynomial,
    hpolynomial ▸ hcoefficients, ?_, nodup_freshDecisions _ _ _, fun t => hscope.notMem,
    fun t ht => ?_⟩
  · simp [freshDecisions, monomials]
  · obtain ⟨k, -, label, rfl, hk⟩ := exists_of_mem_freshDecisions ht
    refine ⟨p.size + k, label, rfl, ?_⟩
    have shift : p.size + k - p.decisions.length = k := Nat.add_sub_cancel_left _ _
    have bound : p.decisions.length ≤ p.size + k := Nat.le_add_right _ _
    refine (List.getElem?_append_right bound).trans ?_
    rw [shift]
    exact hk

theorem registerMultipliers_isTemplate {degree : ℤ} (hscope : p.IsBefore scope)
    {rest rest' : Expression K} {constraints multipliers : List (Expression K)} {k : ℕ}
    (h : p.registerMultipliers rest scope degree name k constraints =
      (q, .ok (multipliers, rest'))) :
    ∃ added, q.statements = p.statements ++ added ∧ p.decisions <+: q.decisions ∧
      added.length = constraints.length ∧
      ∀ s ∈ added, ∃ half block, s.IsTemplate scope half block q.decisions := by
  induction constraints generalizing p rest rest' k multipliers with
  | nil =>
      simp only [registerMultipliers, Prod.mk.injEq, Except.ok.injEq] at h
      obtain ⟨rfl, -⟩ := h
      exact ⟨[], by simp, List.prefix_rfl, rfl, by simp⟩
  | cons g constraints ih =>
      obtain ⟨d, p', e, others, -, hnew, hothers, -⟩ := registerMultipliers_cons_eq_ok.mp h
      obtain ⟨s, block, statements, growth, template⟩ :=
        newSquareSum_isTemplate (le_max_left _ _) hscope hnew
      obtain ⟨added, statements', growth', count, templates⟩ := ih (hscope.mono growth) hothers
      refine ⟨s :: added, by simp [statements', statements], growth.trans growth',
        by simp [count], fun t ht => ?_⟩
      rcases List.mem_cons.mp ht with rfl | ht
      · exact ⟨_, block, template.mono growth'⟩
      · exact templates t ht

/-! ## Bases -/

theorem isComplete_of_statement [Scalar.HasUnits K] (hscope : scope.Nodup) {e : Expression K}
    {s : SquareSum K} (h : statement e scope none name = .ok s) {index : Symbol → Option ℤ}
    {columns : ℤ} {m : Matching K} (hm : s.matching index columns = .ok m) :
    m.IsComplete scope.length (halfDegree s.coefficients.totalDegree) := by
  obtain ⟨hcoefficients, -, -, -, hbasis⟩ := statement_inversion h
  exact s.isComplete_of_halfDegree (collects_of_coefficients hscope hcoefficients).natural hbasis hm

theorem exists_matching_iff (hscope : scope.Nodup) {e : Expression K} {half : Option ℤ}
    {s : SquareSum K} (h : statement e scope half name = .ok s) (r : SquareProgram K) :
    (∃ m, s.matching r.index r.size = .ok m) ↔
      ∀ t ∈ s.coefficients, ∃ form, linearForm t.2 r.index = .ok form := by
  have distinct := (collects_of_coefficients hscope (statement_inversion h).1).distinct
  constructor
  · rintro ⟨m, hm⟩ t ht
    have listed : t.1 ∈ s.matchedExponents :=
      SquareSum.mem_matchedExponents.mpr (.inl (List.mem_map_of_mem ht))
    have found : s.coefficientOf t.1 = some t.2 := (CoefficientMap.mem_iff_get? distinct).mp ht
    obtain ⟨row, -, hrow⟩ := exists_right_of_mem (SquareSum.matching_inversion hm).1 listed
    rcases SquareSum.matchingRow_eq_ok.mp hrow with ⟨absent, -⟩ | ⟨c, form, present, hform, -⟩
    · simp [absent] at found
    · obtain rfl := Option.some.inj (present.symm.trans found)
      exact ⟨form, hform⟩
  · intro affine
    refine SquareSum.exists_matching_of_rows (fun v _ => ?_)
    cases hc : s.coefficientOf v with
    | none => exact ⟨_, SquareSum.matchingRow_eq_ok.mpr (.inl ⟨hc, rfl⟩), rfl⟩
    | some c =>
        obtain ⟨form, hform⟩ := affine _ ((CoefficientMap.mem_iff_get? distinct).mpr hc)
        refine ⟨_, SquareSum.matchingRow_eq_ok.mpr (.inr ⟨c, form, hc, hform, rfl⟩),
          List.all_eq_true.mpr (fun entry hentry => ?_)⟩
        obtain ⟨t, ht⟩ := index_of_linearForm hform entry hentry
        obtain ⟨k, label, -, hk, found⟩ := index_eq_some ht
        have bound : k < r.size := (List.getElem?_eq_some_iff.mp found).1
        simp [hk, bound]

/-! ## Whole registrations -/

/--
What a registration on a set adds to a program.  The matching equations of every new statement are
complete.  Those of the multipliers exist wherever the decisions are known, and identify their
coefficients; those of the base exist exactly if its coefficients are affine in the decisions.
-/
structure AddsRows (p q : SquareProgram K) (scope : List Symbol) (multipliers : List (SquareSum K))
    (base : SquareSum K) : Prop where
  statements : q.statements = p.statements ++ (multipliers ++ [base])
  complete : ∀ s ∈ multipliers ++ [base], ∃ half, 0 ≤ half ∧
    s.basis = exponents scope.length half 0 ∧ ∀ {index : Symbol → Option ℤ} {columns : ℤ}
      {m : Matching K}, s.matching index columns = .ok m → m.IsComplete scope.length half
  templates : ∀ s ∈ multipliers, ∃ half block, s.basis = exponents scope.length half 0 ∧
    s.polynomial = combination block (monomials scope (2 * half) 0) ∧
      ∀ r : SquareProgram K, q.decisions <+: r.decisions →
        ∃ m, s.matching r.index r.size = .ok m ∧ m.IsTemplate r.index block
  affine : ∀ r : SquareProgram K, (∃ m, base.matching r.index r.size = .ok m) ↔
    ∀ t ∈ base.coefficients, ∃ form, linearForm t.2 r.index = .ok form

theorem addsRows_of_nonnegativeOn [Scalar.HasUnits K] (hscope : scope.Nodup)
    (hbefore : p.IsBefore scope) {e : Expression K} {constraints result : List (Expression K)}
    {degree : ℤ} (h : p.nonnegativeOn e scope constraints degree name = (q, .ok result)) :
    ∃ multipliers base, multipliers.length = constraints.length ∧
      p.AddsRows q scope multipliers base := by
  obtain ⟨p', rest, position, hmultipliers, hstated⟩ := nonnegativeOn_eq_ok.mp h
  obtain ⟨added, statements, -, count, templates⟩ :=
    registerMultipliers_isTemplate hbefore hmultipliers
  obtain ⟨base, hbase, rfl, -⟩ := withSquareSum_eq_ok.mp hstated
  have basis := (statement_inversion hbase).2.2.2.2
  refine ⟨added, base, count, by simp [statements], fun s hs => ?_, fun s hs => ?_,
    exists_matching_iff hscope hbase⟩
  · rcases List.mem_append.mp hs with hs | hs
    · obtain ⟨half, block, template⟩ := templates s hs
      exact ⟨half, template.nonneg, template.basis, template.isComplete hscope⟩
    · obtain rfl := List.mem_singleton.mp hs
      have nonneg := CoefficientMap.totalDegree_nonneg
        (collects_of_coefficients hscope (statement_inversion hbase).1).natural
      exact ⟨_, by simp only [Option.getD_none, halfDegree]; omega, basis,
        isComplete_of_statement hscope hbase⟩
  · obtain ⟨half, block, template⟩ := templates s hs
    exact ⟨half, block, template.basis, template.polynomial,
      fun r hr => template.exists_matching hscope hr⟩

theorem exists_addsRows {p : SquareProgram Rat} (hscope : scope.Nodup)
    (hnamed : ∀ t ∈ scope, t.isNamed = true) (hp : p.IsNumbered) {e : Expression Rat}
    (he : e.IsPolynomial) (haffine : e.eval X ∈ affineSpan scope p.decisions)
    {constraints : List (Expression Rat)} (hconstraints : ∀ g ∈ constraints, g.IsPolynomial)
    (hwithin : ∀ g ∈ constraints, g.eval X ∈ scopePolynomials scope) (degree : ℤ) (name : String) :
    ∃ q result multipliers base,
      p.nonnegativeOn e scope constraints degree name = (q, .ok result) ∧
        p.AddsRows q scope multipliers base ∧
        ∀ s ∈ multipliers ++ [base], ∃ m, s.matching q.index q.size = .ok m := by
  obtain ⟨bare, q, c, registered, hstatements, all⟩ :=
    exists_isRegistered hscope hnamed hp he haffine hconstraints hwithin degree name
  have before : p.IsBefore scope := fun position label hmem => by
    simpa [Symbol.isNamed] using hnamed _ hmem
  obtain ⟨multipliers, base, -, adds⟩ := addsRows_of_nonnegativeOn hscope before registered
  refine ⟨_, _, multipliers, base, registered, adds, fun s hs => all.after.exists_matching ?_⟩
  have statements : p.statements ++ q.statements = p.statements ++ (multipliers ++ [base]) :=
    adds.statements
  rwa [List.append_cancel_left statements]

/--
The rows of registered certificates.  Over numbers of any kind, the matching equations of everything
that a registration adds are complete, and those of the multipliers identify their coefficients.
Over polynomial data that are affine in the decisions the registration succeeds and all equations
exist.
-/
theorem rows_of_nonnegativeOn :
    (∀ {K : Type} [Scalar K] [Scalar.HasUnits K] {p q : SquareProgram K} {scope : List Symbol}
        {e : Expression K} {constraints result : List (Expression K)} {degree : ℤ} {name : String},
        scope.Nodup → p.IsBefore scope →
        p.nonnegativeOn e scope constraints degree name = (q, .ok result) →
        ∃ multipliers base, multipliers.length = constraints.length ∧
          p.AddsRows q scope multipliers base) ∧
      ∀ {p : SquareProgram Rat} {scope : List Symbol} {e : Expression Rat}
        {constraints : List (Expression Rat)} (degree : ℤ) (name : String),
        scope.Nodup → (∀ t ∈ scope, t.isNamed = true) → p.IsNumbered →
        e.IsPolynomial → e.eval X ∈ affineSpan scope p.decisions →
        (∀ g ∈ constraints, g.IsPolynomial) →
        (∀ g ∈ constraints, g.eval X ∈ scopePolynomials scope) →
        ∃ q result multipliers base,
          p.nonnegativeOn e scope constraints degree name = (q, .ok result) ∧
            p.AddsRows q scope multipliers base ∧
            ∀ s ∈ multipliers ++ [base], ∃ m, s.matching q.index q.size = .ok m :=
  ⟨fun hscope hbefore h => addsRows_of_nonnegativeOn hscope hbefore h,
    fun degree name hscope hnamed hp he haffine hconstraints hwithin =>
      exists_addsRows hscope hnamed hp he haffine hconstraints hwithin degree name⟩

theorem rows_of_nonnegativeOn_halfLine :
    ∃ q result multipliers base, (empty : SquareProgram Rat).nonnegativeOn
        (.ofSymbol (.named "x")) [.named "x"] [.ofSymbol (.named "x")] 2 "s" = (q, .ok result) ∧
      multipliers.length = 1 ∧ empty.AddsRows q [.named "x"] multipliers base ∧
      ∃ m, base.matching q.index q.size = .ok m := by
  have x : (Expression.ofSymbol (.named "x") : Expression Rat).IsPolynomial :=
    Expression.isPolynomial_ofSymbol _
  have within : (Expression.ofSymbol (.named "x") : Expression Rat).eval X ∈
      scopePolynomials [.named "x"] := by
    rw [Expression.eval_ofSymbol]
    exact X_mem_scopePolynomials (by simp)
  have distinct : [Symbol.named "x"].Nodup := by simp
  obtain ⟨q, result, others, last, registered, adds, matched⟩ :=
    rows_of_nonnegativeOn.2 (p := empty) 2 "s" distinct (by simp [Symbol.isNamed])
      (fun k s h => by simp [empty] at h) x (mem_affineSpan_of_mem within)
      (fun g hg => List.mem_singleton.mp hg ▸ x) (fun g hg => List.mem_singleton.mp hg ▸ within)
  obtain ⟨multipliers, base, count, adds'⟩ :=
    rows_of_nonnegativeOn.1 distinct (fun position label h => by simp at h) registered
  have same : others ++ [last] = multipliers ++ [base] :=
    List.append_cancel_left (adds.statements.symm.trans adds'.statements)
  exact ⟨q, result, multipliers, base, registered, count, adds',
    matched base (same ▸ List.mem_append_right _ (List.mem_singleton_self base))⟩

end SquareProgram

end HybridRelaxation
