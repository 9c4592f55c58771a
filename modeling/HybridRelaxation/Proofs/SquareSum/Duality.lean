import Mathlib
import HybridRelaxation.Datum
import HybridRelaxation.Proofs.SquareSum.FeasiblePoint

/-!
# Weak duality

The dual of a program has a number for each matching equation.  A position of the Gram matrix of a
statement contributes to one equation only, that of the sum of its two exponent vectors, so that the
numbers of a statement are moments: they make a matrix over its basis, whose inner product with the
Gram matrix is what the Gram matrix puts into the equations.  Where these moment matrices are
positive semidefinite and the columns of the equations make up the objective, the right-hand sides
bound the objective from below.
-/

namespace HybridRelaxation

open MvPolynomial (X)

/-! ## Columns -/

/-- The coefficient of a column in a row, all its entries taken together. -/
noncomputable def columnCoefficient (row : List (ℤ × Rat)) (j : ℕ) : ℝ :=
  rowValue (fun column => if column = j then 1 else 0) row

theorem columnCoefficient_cons (entry : ℤ × Rat) (row : List (ℤ × Rat)) (j : ℕ) :
    columnCoefficient (entry :: row) j =
      (if entry.1 = j then (entry.2 : ℝ) else 0) + columnCoefficient row j := by
  simp [columnCoefficient, rowValue]

theorem columnValues_natCast {n : ℕ} (x : Fin n → ℝ) (j : Fin n) :
    columnValues x ((j : ℕ) : ℤ) = x j := by
  simp [columnValues]

theorem rowValue_eq_sum {n : ℕ} (x : Fin n → ℝ) {row : List (ℤ × Rat)}
    (hrow : ∀ entry ∈ row, 0 ≤ entry.1 ∧ entry.1 < n) :
    rowValue (columnValues x) row = ∑ j : Fin n, columnCoefficient row j * x j := by
  induction row with
  | nil => simp [rowValue, columnCoefficient]
  | cons entry row ih =>
      obtain ⟨column, c⟩ := entry
      obtain ⟨least, most⟩ := hrow (column, c) (by simp)
      obtain ⟨i, rfl⟩ := Int.eq_ofNat_of_zero_le least
      let i' : Fin n := ⟨i, Int.ofNat_lt.mp most⟩
      have single : ∑ j : Fin n, (if (i : ℤ) = ((j : ℕ) : ℤ) then (c : ℝ) else 0) * x j =
          c * x i' := by
        rw [Finset.sum_eq_single i' (fun j _ hj => ?_) (by simp)]
        · simp [i']
        · have apart : (i : ℤ) ≠ ((j : ℕ) : ℤ) := fun h => hj (Fin.ext (by simp [i']; omega))
          simp [apart]
      have tail := ih (fun entry hentry => hrow entry (by simp [hentry]))
      have value := columnValues_natCast x i'
      simp only [i'] at value
      simp only [rowValue, List.map_cons, List.sum_cons] at tail ⊢
      simp only [columnCoefficient_cons, add_mul, Finset.sum_add_distrib, tail, single]
      rw [value]
      rfl

theorem addLinearTerm_row {index : Symbol → Option ℤ} {form form' : LinearForm Rat} {c : Rat}
    {p : Product Rat} (h : addLinearTerm index form c p = .ok form') :
    form'.row = form.row ∨
      ∃ s j value, index s = some j ∧ form'.row = LinearForm.addAt j value form.row := by
  unfold addLinearTerm at h
  split at h
  · obtain ⟨value, -, h⟩ := bind_eq_ok.mp h
    exact .inl (by rw [← Except.ok.inj h])
  · dsimp only at h
    split at h
    · next s _ =>
        split at h
        · next j hj =>
            split at h
            · obtain ⟨value, -, h⟩ := bind_eq_ok.mp h
              exact .inr ⟨s, j, value, hj, by rw [← Except.ok.inj h]⟩
            · simp at h
        · simp at h
    · simp at h

theorem exists_symbol_of_linearForm {index : Symbol → Option ℤ} {e : Expression Rat}
    {form : LinearForm Rat} (h : linearForm e index = .ok form) :
    ∀ entry ∈ form.row, ∃ s, index s = some entry.1 := by
  suffices general : ∀ (ts : List (Rat × Product Rat)) (start : LinearForm Rat),
      (∀ entry ∈ start.row, ∃ s, index s = some entry.1) →
      ts.foldlM (fun form (c, p) => addLinearTerm index form c p) start = .ok form →
        ∀ entry ∈ form.row, ∃ s, index s = some entry.1 from
    general _ _ (by simp) h
  intro ts
  induction ts with
  | nil =>
      intro start hstart h
      obtain rfl : start = form := Except.ok.inj h
      exact hstart
  | cons t ts ih =>
      intro start hstart h
      rw [List.foldlM_cons] at h
      obtain ⟨next, hnext, h⟩ := bind_eq_ok.mp h
      refine ih next (fun entry hentry => ?_) h
      rcases addLinearTerm_row hnext with same | ⟨s, j, value, hs, added⟩
      · exact hstart entry (same ▸ hentry)
      · rcases LinearForm.mem_addAt (added ▸ hentry) with heq | ⟨other, hother, heq⟩
        · exact ⟨s, heq ▸ hs⟩
        · exact heq ▸ hstart other hother

/-! ## Equations -/

def MatchingRow.gramValue (upper : List ℝ) (row : MatchingRow Rat) : ℝ :=
  (row.gram.map (fun entry => (entry.2 : ℝ) * (upper[entry.1]?).getD 0)).sum

theorem MatchingRow.gap_eq (φ : ℤ → ℝ) (upper : List ℝ) (row : MatchingRow Rat) :
    row.gap φ upper = rowValue φ row.free - row.gramValue upper - (row.right : ℝ) := rfl

theorem SquareSum.gramValue_of_matching {s : SquareSum Rat} {index : Symbol → Option ℤ}
    {columns : ℤ} {m : Matching Rat} (h : s.matching index columns = .ok m)
    {row : MatchingRow Rat} (hrow : row ∈ m.rows) (g : ℕ → ℕ → ℝ) :
    row.gramValue (m.pairs.map (fun pair => g pair.1 pair.2)) =
      ((trianglePairs s.gramSize).map (fun pair =>
        if s.pairExponents pair = row.exponents then
          (if pair.1 = pair.2 then 1 else 2) * g pair.1 pair.2 else 0)).sum := by
  obtain ⟨rows, pairs⟩ := matching_inversion h
  obtain ⟨v, -, hok⟩ := exists_left_of_mem rows hrow
  rw [exponents_of_matchingRow hok, ← s.sum_gramEntries g v, MatchingRow.gramValue,
    gram_of_matchingRow hok, pairs]
  rfl

theorem SquareSum.existsUnique_row {s : SquareSum Rat} {index : Symbol → Option ℤ} {columns : ℤ}
    {m : Matching Rat} (h : s.matching index columns = .ok m) {i j : ℕ} (hi : i < s.gramSize)
    (hj : j < s.gramSize) :
    ∃! r : Fin m.rows.length, (m.rows.get r).exponents = s.pairExponents (i, j) := by
  have vectors := map_exponents_of_matching h
  have listed : s.pairExponents (i, j) ∈ m.rows.map MatchingRow.exponents := by
    rw [vectors, mem_matchedExponents]
    rcases le_total i j with hij | hij
    · exact .inr ⟨(i, j), mem_trianglePairs.mpr ⟨hij, hj⟩, rfl⟩
    · exact .inr ⟨(j, i), mem_trianglePairs.mpr ⟨hij, hi⟩, s.pairExponents_swap j i⟩
  obtain ⟨row, hrow, exponents⟩ := List.mem_map.mp listed
  obtain ⟨r, rfl⟩ := List.mem_iff_get.mp hrow
  refine ⟨r, exponents, fun r' hr' => ?_⟩
  have distinct : (m.rows.map MatchingRow.exponents).Nodup := vectors ▸ s.nodup_matchedExponents
  have same : m.rows.get r' = m.rows.get r :=
    List.inj_on_of_nodup_map distinct (List.get_mem ..) (List.get_mem ..)
      (hr'.trans exponents.symm)
  have nodup : m.rows.Nodup := distinct.of_map _
  exact nodup.get_inj_iff.mp same

def Matching.moment (m : Matching Rat) (value : Fin m.rows.length → ℝ) (v : Exponents) : ℝ :=
  ∑ r, if (m.rows.get r).exponents = v then value r else 0

theorem Matching.moment_eq_value {m : Matching Rat} (value : Fin m.rows.length → ℝ)
    {r : Fin m.rows.length} {v : Exponents} (h : ∀ r', (m.rows.get r').exponents = v ↔ r' = r) :
    m.moment value v = value r := by
  simp only [moment, h, Finset.sum_ite_eq', Finset.mem_univ, if_true]

theorem SquareSum.sum_gramValue {s : SquareSum Rat} {index : Symbol → Option ℤ} {columns : ℤ}
    {m : Matching Rat} (h : s.matching index columns = .ok m) (value : Fin m.rows.length → ℝ)
    {g : ℕ → ℕ → ℝ} (hg : ∀ i j, g i j = g j i) :
    ∑ r, value r * (m.rows.get r).gramValue (m.pairs.map (fun pair => g pair.1 pair.2)) =
      ∑ i ∈ Finset.range s.gramSize, ∑ j ∈ Finset.range s.gramSize,
        g i j * m.moment value (s.pairExponents (i, j)) := by
  have symmetric (i j : ℕ) : g i j * m.moment value (s.pairExponents (i, j)) =
      g j i * m.moment value (s.pairExponents (j, i)) := by
    rw [hg i j, s.pairExponents_swap i j]
  have each (r : Fin m.rows.length) :
      value r * (m.rows.get r).gramValue (m.pairs.map (fun pair => g pair.1 pair.2)) =
        ∑ pair ∈ (trianglePairs s.gramSize).toFinset, (if pair.1 = pair.2 then 1 else 2) *
          (g pair.1 pair.2 *
            if (m.rows.get r).exponents = s.pairExponents pair then value r else 0) := by
    rw [gramValue_of_matching h (List.get_mem _ r),
      ← List.sum_toFinset _ (nodup_trianglePairs _), Finset.mul_sum]
    refine Finset.sum_congr rfl (fun pair _ => ?_)
    by_cases hv : (m.rows.get r).exponents = s.pairExponents pair
    · rw [if_pos hv, if_pos hv.symm]
      ring
    · rw [if_neg hv, if_neg (Ne.symm hv)]
      ring
  rw [← sum_trianglePairs s.gramSize symmetric, ← List.sum_toFinset _ (nodup_trianglePairs _),
    Finset.sum_congr rfl (fun r _ => each r), Finset.sum_comm]
  refine Finset.sum_congr rfl (fun pair _ => ?_)
  rw [← Finset.mul_sum, ← Finset.mul_sum]
  rfl

/-! ## Dual vectors -/

/-- A number for each matching equation of a program. -/
structure DualVectors (p : SquareProgram Rat) where
  matching : Fin p.statements.length → Matching Rat
  matched : ∀ k, (p.statements.get k).matching p.index p.size = .ok (matching k)
  value : ∀ k, Fin (matching k).rows.length → ℝ

namespace DualVectors

variable {p : SquareProgram Rat} (y : DualVectors p)

def row (k : Fin p.statements.length) (r : Fin (y.matching k).rows.length) : MatchingRow Rat :=
  (y.matching k).rows.get r

/-- The numbers of a statement over the positions of its Gram matrix. -/
def moments (k : Fin p.statements.length) :
    Matrix (Fin (p.statements.get k).gramSize) (Fin (p.statements.get k).gramSize) ℝ :=
  fun a b => (y.matching k).moment (y.value k) ((p.statements.get k).pairExponents (a, b))

/-- What the equations have in a column, each times its number. -/
noncomputable def column (j : ℕ) : ℝ :=
  ∑ k, ∑ r, y.value k r * columnCoefficient (y.row k r).free j

def right : ℝ := ∑ k, ∑ r, y.value k r * ((y.row k r).right : ℝ)

def upper (k : Fin p.statements.length)
    (G : Matrix (Fin (p.statements.get k).gramSize) (Fin (p.statements.get k).gramSize) ℝ) :
    List ℝ :=
  (y.matching k).pairs.map (fun pair => entriesOf G pair.1 pair.2)

theorem moments_eq_value (k : Fin p.statements.length)
    (a b : Fin (p.statements.get k).gramSize) :
    ∃ r, (∀ r', (y.row k r').exponents = (p.statements.get k).pairExponents (a, b) ↔ r' = r) ∧
      y.moments k a b = y.value k r := by
  obtain ⟨r, hr, unique⟩ := SquareSum.existsUnique_row (y.matched k) a.isLt b.isLt
  have only (r') : (y.row k r').exponents = (p.statements.get k).pairExponents (a, b) ↔ r' = r :=
    ⟨unique r', fun h => h ▸ hr⟩
  exact ⟨r, only, Matching.moment_eq_value _ only⟩

theorem sum_gramValue (k : Fin p.statements.length)
    {G : Matrix (Fin (p.statements.get k).gramSize) (Fin (p.statements.get k).gramSize) ℝ}
    (hG : G.IsSymm) :
    ∑ r, y.value k r * (y.row k r).gramValue (y.upper k G) =
      ∑ a, ∑ b, G a b * y.moments k a b := by
  refine (SquareSum.sum_gramValue (y.matched k) (y.value k) (entriesOf_symm hG)).trans ?_
  simp only [Finset.sum_range]
  refine Finset.sum_congr rfl (fun a _ => Finset.sum_congr rfl (fun b _ => ?_))
  simp only [entriesOf, a.isLt, b.isLt, and_self, dite_true]
  rfl

end DualVectors

/-! ## Inner products -/

theorem sum_mul_nonneg_of_posSemidef {n : ℕ} {G M : Matrix (Fin n) (Fin n) ℝ}
    (hG : G.PosSemidef) (hM : M.PosSemidef) : 0 ≤ ∑ a, ∑ b, G a b * M a b := by
  simpa [dotProduct, Matrix.mulVec, Finset.mul_sum] using
    (Matrix.posSemidef_iff_dotProduct_mulVec.mp (hG.hadamard hM)).2 (fun _ => 1)

namespace FeasiblePoint

variable {p : SquareProgram Rat} (point : FeasiblePoint p)

theorem rowValue_eq (y : DualVectors p) (k : Fin p.statements.length)
    (r : Fin (y.matching k).rows.length) :
    rowValue (columnValues point.free) (y.row k r).free =
      (y.row k r).right + (y.row k r).gramValue (y.upper k (point.gram k)) := by
  obtain ⟨m, hm, gaps⟩ := point.matched k
  obtain rfl : m = y.matching k := Except.ok.inj (hm.symm.trans (y.matched k))
  have gap := gaps (y.row k r) (List.get_mem _ r)
  rw [MatchingRow.gap_eq] at gap
  change _ - MatchingRow.gramValue (y.upper k (point.gram k)) (y.row k r) - _ = 0 at gap
  linarith

theorem sum_column (y : DualVectors p) :
    ∑ j : Fin p.size, y.column j * point.free j =
      y.right + ∑ k, ∑ a, ∑ b, point.gram k a b * y.moments k a b := by
  have fits (k : Fin p.statements.length) (r : Fin (y.matching k).rows.length) :
      ∀ entry ∈ (y.row k r).free, 0 ≤ entry.1 ∧ entry.1 < (p.size : ℤ) :=
    fun entry hentry => SquareSum.fits_of_matching (y.matched k) (List.get_mem _ r) hentry
  calc ∑ j : Fin p.size, y.column j * point.free j
      = ∑ k, ∑ r, y.value k r * rowValue (columnValues point.free) (y.row k r).free := by
        simp only [DualVectors.column, Finset.sum_mul]
        rw [Finset.sum_comm]
        refine Finset.sum_congr rfl (fun k _ => ?_)
        rw [Finset.sum_comm]
        refine Finset.sum_congr rfl (fun r _ => ?_)
        rw [rowValue_eq_sum point.free (fits k r), Finset.mul_sum]
        simp only [mul_assoc]
    _ = ∑ k, ∑ r, (y.value k r * ((y.row k r).right : ℝ) +
          y.value k r * (y.row k r).gramValue (y.upper k (point.gram k))) := by
        refine Finset.sum_congr rfl (fun k _ => Finset.sum_congr rfl (fun r _ => ?_))
        rw [point.rowValue_eq y k r, mul_add]
    _ = _ := by
        simp only [Finset.sum_add_distrib]
        congr 1
        refine Finset.sum_congr rfl (fun k _ => ?_)
        exact y.sum_gramValue k (isSymm_of_posSemidef (point.posSemidef k))

theorem right_le_eval {e : Expression Rat} {form : LinearForm Rat}
    (hform : linearForm e p.index = .ok form) (y : DualVectors p)
    (hcolumns : ∀ j : Fin p.size, y.column j = columnCoefficient form.row j)
    (hmoments : ∀ k, (y.moments k).PosSemidef) :
    form.constant + y.right ≤ form.eval (columnValues point.free) := by
  have fits : ∀ entry ∈ form.row, 0 ≤ entry.1 ∧ entry.1 < (p.size : ℤ) := by
    intro entry hentry
    obtain ⟨s, hs⟩ := exists_symbol_of_linearForm hform entry hentry
    obtain ⟨k, label, -, hk, hget⟩ := SquareProgram.index_eq_some hs
    have bound : k < p.size := (List.getElem?_eq_some_iff.mp hget).1
    omega
  have objective : rowValue (columnValues point.free) form.row =
      y.right + ∑ k, ∑ a, ∑ b, point.gram k a b * y.moments k a b := by
    rw [rowValue_eq_sum point.free fits, ← point.sum_column y]
    exact Finset.sum_congr rfl (fun j _ => by rw [hcolumns j])
  have products : 0 ≤ ∑ k, ∑ a, ∑ b, point.gram k a b * y.moments k a b :=
    Finset.sum_nonneg (fun k _ => sum_mul_nonneg_of_posSemidef (point.posSemidef k) (hmoments k))
  rw [LinearForm.eval, objective]
  simp only [eq_ratCast]
  linarith

end FeasiblePoint

theorem SquareProgram.IsRegular.nonempty_dualVectors {p : SquareProgram Rat} (hp : p.IsRegular) :
    Nonempty (DualVectors p) := by
  choose matching matched using
    fun k : Fin p.statements.length => hp.exists_matching (List.get_mem p.statements k)
  exact ⟨⟨matching, matched, fun _ _ => 0⟩⟩

/--
The numbers of the matching equations are moments, and they bound every objective that is made up by
the columns of the equations.  Regular programs have such numbers, and affine objectives have linear
forms.
-/
theorem moments_and_weakDuality :
    (∀ p : SquareProgram Rat, p.IsRegular → Nonempty (DualVectors p) ∧
      ∀ e : Expression Rat, e.IsPolynomial → e.eval X ∈ affineSpan [] p.decisions →
        ∃ form, linearForm e p.index = .ok form) ∧
    ∀ (p : SquareProgram Rat) (y : DualVectors p),
      (∀ k (a b : Fin (p.statements.get k).gramSize), ∃ r,
        (∀ r', (y.row k r').exponents = (p.statements.get k).pairExponents (a, b) ↔ r' = r) ∧
          y.moments k a b = y.value k r) ∧
      (∀ k (G : Matrix (Fin (p.statements.get k).gramSize) (Fin (p.statements.get k).gramSize) ℝ),
        G.IsSymm → ∑ r, y.value k r * (y.row k r).gramValue (y.upper k G) =
          ∑ a, ∑ b, G a b * y.moments k a b) ∧
      ∀ (e : Expression Rat) (form : LinearForm Rat), linearForm e p.index = .ok form →
        (∀ j : Fin p.size, y.column j = columnCoefficient form.row j) →
        (∀ k, (y.moments k).PosSemidef) → ∀ point : FeasiblePoint p,
          form.constant + y.right ≤ form.eval (columnValues point.free) := by
  refine ⟨fun p hp => ⟨hp.nonempty_dualVectors, fun e he haffine => hp.exists_linearForm he haffine⟩,
    fun p y => ⟨y.moments_eq_value, fun k G hG => y.sum_gramValue k hG, ?_⟩⟩
  intro e form hform hcolumns hmoments point
  exact point.right_le_eval hform y hcolumns hmoments

/-! ## A parabola -/

/-- The parabola `(x - 1) ^ 2 + 2` less a free constant is stated to be a sum of squares. -/
def parabolaProgram : SquareProgram Rat :=
  let x : Expression Rat := .ofSymbol (.named "x")
  let (p, bound) := SquareProgram.empty.newFreePolynomial [.number 1] "bound"
  (p.withSquareSum (x * x - .number 2 * x + .number 3 - bound.polynomial) [.named "x"] none
    "gap").1

def parabolaMatching : Matching Rat where
  rows := [⟨[0], [(0, -1)], [(0, 1)], -3⟩, ⟨[1], [], [(1, 2)], 2⟩, ⟨[2], [], [(2, 1)], -1⟩]
  columns := 1
  pairs := [(0, 0), (0, 1), (1, 1)]

theorem exists_statement_parabola : ∃ s : SquareSum Rat,
    parabolaProgram = ⟨[], [.decision 0 "bound_0"], [s]⟩ ∧ s.gramSize = 2 ∧
      s.matching parabolaProgram.index 1 = .ok parabolaMatching := by
  have checked : (do
      let s ← entryAt parabolaProgram.statements 0
      let rows ← [[0], [1], [2]].mapM (s.matchingRow parabolaProgram.index)
      .ok (decide (parabolaProgram = ⟨[], [.decision 0 "bound_0"], [s]⟩ ∧ s.gramSize = 2 ∧
        (s.coefficients.map Prod.fst ++ (trianglePairs s.gramSize).map s.pairExponents).eraseDups =
          [[0], [1], [2]] ∧ rows = parabolaMatching.rows))) = (.ok true : Except Failure Bool) := by
    decide +kernel
  obtain ⟨s, -, checked⟩ := bind_eq_ok.mp checked
  obtain ⟨rows, hrows, checked⟩ := bind_eq_ok.mp checked
  obtain ⟨program, size, vectors, rfl⟩ := of_decide_eq_true (Except.ok.inj checked)
  have sorted : s.matchedExponents = [[0], [1], [2]] := by
    rw [SquareSum.matchedExponents, vectors, sortGraded]
    exact List.mergeSort_of_pairwise (by decide)
  refine ⟨s, program, size, ?_⟩
  rw [SquareSum.matching, sorted, hrows, size, ok_bind, if_pos]
  · rfl
  · decide

def parabolaObjective : Expression Rat := -Expression.ofSymbol (.decision 0 "bound_0")

theorem linearForm_parabola : linearForm parabolaObjective parabolaProgram.index =
    .ok ⟨[(0, -1)], 0⟩ := by
  have checked : (linearForm parabolaObjective parabolaProgram.index).map
      (fun form => (form.row, form.constant)) = .ok ([(0, -1)], 0) := by
    decide +kernel
  obtain ⟨⟨row, constant⟩, hform, same⟩ := map_eq_ok.mp checked
  obtain ⟨rfl, rfl⟩ := Prod.mk.inj same
  exact hform

theorem exists_feasiblePoint_parabola :
    ∃ point : FeasiblePoint parabolaProgram, ∀ j, point.free j = 2 := by
  obtain ⟨s, program, size, hm⟩ := exists_statement_parabola
  rw [program] at hm ⊢
  let v : Fin s.gramSize → ℝ := fun a => (-1) ^ (a : ℕ)
  have entries (i j : ℕ) (hi : i < 2) (hj : j < 2) :
      entriesOf (Matrix.vecMulVec v (star v)) i j = (-1) ^ (i + j) := by
    simp [entriesOf, size, hi, hj, v, Matrix.vecMulVec_apply, pow_add]
  have gaps : ∀ row ∈ parabolaMatching.rows, row.gap (columnValues (fun _ : Fin 1 => 2))
      (parabolaMatching.pairs.map
        (fun pair => entriesOf (Matrix.vecMulVec v (star v)) pair.1 pair.2)) = 0 := by
    simp only [parabolaMatching, List.map_cons, List.map_nil, entries, Nat.zero_lt_two,
      Nat.one_lt_two]
    simp [MatchingRow.gap, rowValue, columnValues]
    norm_num
  have one (k : Fin [s].length) : [s].get k = s := by simp
  refine ⟨⟨fun _ => 2, fun k => (one k).symm ▸ Matrix.vecMulVec v (star v), fun k => ?_,
    fun k => ?_⟩, fun _ => rfl⟩
  · obtain rfl : k = 0 := Fin.fin_one_eq_zero k
    exact Matrix.posSemidef_vecMulVec_self_star v
  · obtain rfl : k = 0 := Fin.fin_one_eq_zero k
    exact ⟨parabolaMatching, hm, gaps⟩

theorem exists_dualVectors_parabola : ∃ y : DualVectors parabolaProgram,
    (∀ j : Fin parabolaProgram.size, y.column j = columnCoefficient [(0, -1)] j) ∧
      (∀ k, (y.moments k).PosSemidef) ∧ y.right = -2 := by
  obtain ⟨s, program, -, hm⟩ := exists_statement_parabola
  rw [program] at hm ⊢
  have one (k : Fin [s].length) : [s].get k = s := by simp
  let y : DualVectors ⟨[], [.decision 0 "bound_0"], [s]⟩ :=
    ⟨fun _ => parabolaMatching, fun k => (one k).symm ▸ hm, fun _ _ => 1⟩
  -- All numbers are one, so that sums over the equations are sums over the list of rows.
  have total (f : MatchingRow Rat → ℝ) : ∑ k, ∑ r, y.value k r * f (y.row k r) =
      (parabolaMatching.rows.map f).sum := by
    simp only [y, DualVectors.row, one_mul]
    exact (Fin.sum_univ_one _).trans (Fin.sum_univ_fun_getElem parabolaMatching.rows f)
  refine ⟨y, fun j => ?_, fun k => ?_, ?_⟩
  · rw [DualVectors.column, total (fun row => columnCoefficient row.free j)]
    simp [parabolaMatching, columnCoefficient, rowValue]
  · have ones : y.moments k = Matrix.vecMulVec 1 (star 1) := by
      ext a b
      obtain ⟨r, -, value⟩ := y.moments_eq_value k a b
      rw [value]
      simp [y, Matrix.vecMulVec_apply]
    exact ones ▸ Matrix.posSemidef_vecMulVec_self_star 1
  · rw [DualVectors.right, total (fun row => (row.right : ℝ))]
    simp [parabolaMatching]
    norm_num

theorem isRegular_parabolaProgram : parabolaProgram.IsRegular := by
  have x : (Expression.ofSymbol (.named "x") : Expression Rat).IsPolynomial :=
    Expression.isPolynomial_ofSymbol _
  have number (c : Rat) : (Expression.number c).IsPolynomial := Expression.isPolynomial_number c
  have one : ∀ e ∈ [(.number 1 : Expression Rat)], e.IsPolynomial :=
    fun e he => List.mem_singleton.mp he ▸ number 1
  let γ : Symbol := .decision (0 + 0) ("bound" ++ "_" ++ toString (0 + 0))
  obtain ⟨bound, value⟩ := SquareProgram.combination_spec (X : Symbol → MvPolynomial Symbol ℚ) one
    [γ]
  have free : (SquareProgram.combination [γ] [.number (1 : Rat)]).eval X ∈
      affineSpan [.named "x"] [γ] := by
    have decision : (X γ : MvPolynomial Symbol ℚ) ∈ affineSpan [.named "x"] [γ] :=
      X_mem_affineSpan (by simp)
    simpa [value] using decision
  have place : (X (.named "x") : MvPolynomial Symbol ℚ) ∈ scopePolynomials [.named "x"] :=
    X_mem_scopePolynomials (by simp)
  have constant (c : ℚ) : algebraMap ℚ (MvPolynomial Symbol ℚ) c ∈
      scopePolynomials [.named "x"] := (scopePolynomials _).algebraMap_mem c
  have square := Expression.isPolynomial_mul x x
  have linear := Expression.isPolynomial_mul (number 2) x
  have parabola := Expression.isPolynomial_add (Expression.isPolynomial_sub square linear)
    (number 3)
  refine (SquareProgram.isRegular_empty.newFreePolynomial [.number 1] "bound").withSquareSum
    (Expression.isPolynomial_sub parabola bound) (by simp) (by simp [Symbol.isNamed]) ?_ none "gap"
  rw [Expression.eval_sub, Expression.eval_add, Expression.eval_sub, Expression.eval_mul X x x,
    Expression.eval_mul X (number 2) x, Expression.eval_number, Expression.eval_number,
    Expression.eval_ofSymbol]
  exact sub_mem (add_mem (sub_mem (mem_affineSpan_of_mem (mul_mem place place))
    (mem_affineSpan_of_mem (mul_mem (constant 2) place))) (mem_affineSpan_of_mem (constant 3))) free

/-- The bound on the parabola is met: the objective cannot fall below minus two, and gets there. -/
theorem moments_and_weakDuality_parabola : Nonempty (DualVectors parabolaProgram) ∧
    ∃ (y : DualVectors parabolaProgram) (form : LinearForm Rat)
      (point : FeasiblePoint parabolaProgram),
      linearForm parabolaObjective parabolaProgram.index = .ok form ∧
        (form.constant : ℝ) + y.right = -2 ∧ form.eval (columnValues point.free) = -2 ∧
          form.constant + y.right ≤ form.eval (columnValues point.free) := by
  obtain ⟨y, columns, moments, right⟩ := exists_dualVectors_parabola
  obtain ⟨point, free⟩ := exists_feasiblePoint_parabola
  refine ⟨(moments_and_weakDuality.1 _ isRegular_parabolaProgram).1, y, _, point,
    linearForm_parabola, by simp [right], ?_,
    (moments_and_weakDuality.2 _ y).2.2 _ _ linearForm_parabola columns moments point⟩
  have positive : 0 < parabolaProgram.size := by decide +kernel
  have first : columnValues point.free 0 = 2 := (columnValues_natCast point.free ⟨0, positive⟩).trans
    (free _)
  simp [LinearForm.eval, rowValue, first]

end HybridRelaxation
