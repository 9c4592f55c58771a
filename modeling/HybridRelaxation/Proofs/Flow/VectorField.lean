import Mathlib
import HybridRelaxation.Flow.VectorField
import HybridRelaxation.Proofs.Expression.Derivative
import HybridRelaxation.Proofs.Expression.Expansion
import HybridRelaxation.Proofs.Outcome
import HybridRelaxation.Proofs.System.Consistency

/-!
# Values of derivatives along vector fields

A derivative along the columns of a field is a list of inner products.  Weighted by controls they
add up to the derivative along a single velocity: the inner products of the rows of the field with
the controls.
-/

namespace HybridRelaxation

/-! ## Inner products of lists -/

section

variable {R : Type*} [CommRing R]

def innerValue (xs ys : List R) : R := (List.zipWith (· * ·) xs ys).sum

@[simp] theorem innerValue_nil_left (ys : List R) : innerValue [] ys = 0 := by simp [innerValue]

@[simp] theorem innerValue_nil_right (xs : List R) : innerValue xs [] = 0 := by simp [innerValue]

@[simp] theorem innerValue_cons (x y : R) (xs ys : List R) :
    innerValue (x :: xs) (y :: ys) = x * y + innerValue xs ys := by simp [innerValue]

theorem innerValue_add (ds : List R) {xs ys : List R} (h : xs.length = ys.length) :
    innerValue ds (List.zipWith (· + ·) xs ys) = innerValue ds xs + innerValue ds ys := by
  induction ds generalizing xs ys with
  | nil => simp
  | cons d ds ih =>
      match xs, ys, h with
      | [], [], _ => simp
      | x :: xs, y :: ys, h =>
          have tail : innerValue ds (List.zipWith (· + ·) xs ys) =
              innerValue ds xs + innerValue ds ys := ih (by simpa using h)
          simp only [List.zipWith_cons_cons, innerValue_cons, tail]
          ring

theorem innerValue_eq_sum {xs ys : List R} {n : ℕ} (h : xs.length ≤ n ∨ ys.length ≤ n) :
    innerValue xs ys = ∑ k ∈ Finset.range n, xs.getD k 0 * ys.getD k 0 := by
  induction n generalizing xs ys with
  | zero =>
      rcases h with h | h
      · rw [List.length_eq_zero_iff.mp (Nat.le_zero.mp h)]
        simp
      · rw [List.length_eq_zero_iff.mp (Nat.le_zero.mp h)]
        simp
  | succ n ih =>
      match xs, ys with
      | [], ys => simp
      | x :: xs, [] => simp
      | x :: xs, y :: ys =>
          have tail : innerValue xs ys =
              ∑ k ∈ Finset.range n, xs.getD k 0 * ys.getD k 0 := ih (by simpa using h)
          rw [innerValue_cons, tail, Finset.sum_range_succ']
          simp [add_comm]

theorem innerValue_columns {rows : List (List R)} {us : List R}
    (h : ∀ row ∈ rows, row.length = us.length) (ds : List R) :
    innerValue ((List.range us.length).map (fun j => innerValue ds (rows.map (·.getD j 0)))) us =
      innerValue ds (rows.map (fun row => innerValue row us)) := by
  have column (j : ℕ) : innerValue ds (rows.map (·.getD j 0)) =
      ∑ k ∈ Finset.range ds.length, ds.getD k 0 * (rows.getD k []).getD j 0 := by
    rw [innerValue_eq_sum (.inl le_rfl)]
    refine Finset.sum_congr rfl (fun k _ => ?_)
    cases hk : rows[k]? <;> simp [hk]
  have row (k : ℕ) : (rows.map (fun row => innerValue row us)).getD k 0 =
      ∑ j ∈ Finset.range us.length, (rows.getD k []).getD j 0 * us.getD j 0 := by
    cases hk : rows[k]? with
    | none => simp [hk]
    | some row =>
        have length := h row (List.mem_of_getElem? hk)
        simp only [List.getD_eq_getElem?_getD, List.getElem?_map, hk, Option.map_some,
          Option.getD_some]
        rw [innerValue_eq_sum (.inl length.le)]
        simp only [List.getD_eq_getElem?_getD]
  rw [innerValue_eq_sum (n := us.length) (.inr le_rfl),
    innerValue_eq_sum (n := ds.length) (.inl le_rfl)]
  simp only [row, Finset.mul_sum]
  rw [Finset.sum_comm]
  refine Finset.sum_congr rfl (fun j hj => ?_)
  have hj := Finset.mem_range.mp hj
  simp only [List.getD_eq_getElem?_getD, List.getElem?_map, List.getElem?_range hj,
    Option.map_some, Option.getD_some] at column ⊢
  rw [column, Finset.sum_mul]
  refine Finset.sum_congr rfl (fun k _ => ?_)
  ring

end

/-! ## Columns -/

theorem Grid.columns_of_isRectangular {α : Type} {g : Grid α} (hg : g.IsRectangular) (x : α) :
    g.columns = (List.range g.width).map (fun j => g.rows.map (·.getD j x)) := by
  refine List.map_congr_left (fun j hj => ?_)
  have hj := List.mem_range.mp hj
  rw [← List.filterMap_eq_map]
  refine List.filterMap_congr (fun row hrow => ?_)
  have hlength : j < row.length := by rwa [hg row hrow]
  simp [List.getElem?_eq_getElem hlength]

theorem Grid.columns_of_width_eq_one {α : Type} {g : Grid α} (hg : g.IsRectangular)
    (h : g.width = 1) : g.columns = [g.entries] := by
  have rows : ∀ rows : List (List α), (∀ row ∈ rows, row.length = 1) →
      rows.filterMap (fun row => row[0]?) = rows.flatten := by
    intro rows hrows
    induction rows with
    | nil => rfl
    | cons row rows ih =>
        obtain ⟨x, rfl⟩ := List.length_eq_one_iff.mp (hrows row (by simp))
        simp [ih (fun row hrow => hrows row (by simp [hrow]))]
  have single := rows g.rows (fun row hrow => (hg row hrow).trans h)
  simp only [Grid.columns, h, List.range_one, List.map_cons, List.map_nil, single]
  rfl

/-! ## Derivatives -/

section

variable {R : Type*} [CommRing R] [Algebra ℚ R] (ρ : Symbol → R)

theorem innerProduct_spec {xs ys : List (Expression Rat)} (hxs : ∀ e ∈ xs, e.IsPolynomial)
    (hys : ∀ e ∈ ys, e.IsPolynomial) :
    (innerProduct xs ys).IsPolynomial ∧
      (innerProduct xs ys).eval ρ =
        innerValue (xs.map (Expression.eval ρ)) (ys.map (Expression.eval ρ)) := by
  have products : (∀ e ∈ List.zipWith (· * ·) xs ys, e.IsPolynomial) ∧
      (List.zipWith (· * ·) xs ys).map (Expression.eval ρ) =
        List.zipWith (· * ·) (xs.map (Expression.eval ρ)) (ys.map (Expression.eval ρ)) := by
    induction xs generalizing ys with
    | nil => simp
    | cons x xs ih =>
        cases ys with
        | nil => simp
        | cons y ys =>
            have hx := hxs x (by simp)
            have hy := hys y (by simp)
            have others : ∀ e ∈ ys, e.IsPolynomial := fun e he => hys e (by simp [he])
            obtain ⟨tail, values⟩ := ih (fun e he => hxs e (by simp [he])) others
            simp only [List.zipWith_cons_cons, List.mem_cons, forall_eq_or_imp, List.map_cons,
              values, Expression.eval_mul ρ hx hy, and_true]
            exact ⟨Expression.isPolynomial_mul hx hy, tail⟩
  refine ⟨Expression.isPolynomial_sum products.1, ?_⟩
  rw [innerProduct, Expression.eval_sum, products.2]
  rfl

/-- The derivatives in some symbols at a point. -/
def Differentiates (D : Symbol → Derivation ℚ R R) (symbols : List Symbol) : Prop :=
  ∀ s ∈ symbols, ∀ t, D s (ρ t) = if s = t then 1 else 0

def alongVelocity (D : Symbol → Derivation ℚ R R) (states : List Symbol) (velocity : List R)
    (v : R) : R := innerValue (states.map (fun s => D s v)) velocity

variable {ρ} {D : Symbol → Derivation ℚ R R} {v : Expression Rat} {states : List Symbol}

theorem derivatives_spec (hD : Differentiates ρ D states) (hv : v.IsPolynomial) :
    (∀ e ∈ states.map (fun s => v.derivative s), e.IsPolynomial) ∧
      (states.map (fun s => v.derivative s)).map (Expression.eval ρ) =
        states.map (fun s => D s (v.eval ρ)) := by
  constructor
  · intro e he
    obtain ⟨s, -, rfl⟩ := List.mem_map.mp he
    exact Expression.isPolynomial_derivative s hv
  · rw [List.map_map]
    exact List.map_congr_left (fun s hs => (Expression.derivative_spec ρ (D s) (hD s hs) v hv).2)

theorem mem_entries_of_columns {α : Type} {g : Grid α} {column : List α} {x : α}
    (hcolumn : column ∈ g.columns) (hx : x ∈ column) : x ∈ g.entries := by
  obtain ⟨j, -, rfl⟩ := List.mem_map.mp hcolumn
  obtain ⟨row, hrow, hentry⟩ := List.mem_filterMap.mp hx
  exact List.mem_flatten.mpr ⟨row, hrow, List.mem_of_getElem? hentry⟩

theorem lieDerivatives_spec (hD : Differentiates ρ D states) (hv : v.IsPolynomial)
    {field : Grid (Expression Rat)} (hfield : ∀ e ∈ field.entries, e.IsPolynomial)
    (hheight : field.height = states.length) :
    ∃ ds, lieDerivatives v states field = .ok ds ∧ (∀ e ∈ ds, e.IsPolynomial) ∧
      ds.length = field.width ∧ ds.map (Expression.eval ρ) = field.columns.map (fun column =>
        alongVelocity D states (column.map (Expression.eval ρ)) (v.eval ρ)) := by
  obtain ⟨polynomial, values⟩ := derivatives_spec hD hv
  have product (column : List (Expression Rat)) (hcolumn : column ∈ field.columns) :=
    innerProduct_spec ρ polynomial
      (fun e he => hfield e (mem_entries_of_columns hcolumn he) : ∀ e ∈ column, e.IsPolynomial)
  refine ⟨field.columns.map (fun column =>
    (innerProduct (states.map (fun s => v.derivative s)) column).expand), ?_, ?_, ?_, ?_⟩
  · simp [lieDerivatives, rowTimes, hheight]
  · intro e he
    obtain ⟨column, hcolumn, rfl⟩ := List.mem_map.mp he
    exact Expression.isPolynomial_expand (product column hcolumn).1
  · simp [Grid.columns]
  · rw [List.map_map]
    refine List.map_congr_left (fun column hcolumn => ?_)
    obtain ⟨hproduct, value⟩ := product column hcolumn
    simp only [Function.comp_apply, Expression.eval_expand ρ hproduct, value, values]
    rfl

theorem width_of_timeLieDerivative {v e : Expression Rat} {time : Symbol} {states : List Symbol}
    {field : Grid (Expression Rat)} (h : timeLieDerivative v time states field = .ok e) :
    field.width = 1 := by
  rw [timeLieDerivative, lieDerivative, lieDerivatives, rowTimes] at h
  split at h
  · obtain ⟨derivative, hderivative, h⟩ := bind_eq_ok.mp h
    rw [ok_bind] at hderivative
    split at hderivative
    · next single =>
        have length := congrArg List.length single
        simpa [Grid.columns] using length
    · obtain rfl := Except.ok.inj hderivative
      simp at h
  · simp at h

theorem timeLieDerivative_spec {time : Symbol} (hD : Differentiates ρ D (time :: states))
    (hv : v.IsPolynomial) {field : Grid (Expression Rat)}
    (hfield : ∀ e ∈ field.entries, e.IsPolynomial) (hshape : field.IsRectangular)
    (hwidth : field.width = 1) (hheight : field.height = states.length) :
    ∃ e, timeLieDerivative v time states field = .ok e ∧ e.IsCanonical ∧
      e.eval ρ = D time (v.eval ρ) +
        alongVelocity D states (field.entries.map (Expression.eval ρ)) (v.eval ρ) := by
  have hstates : Differentiates ρ D states := fun s hs => hD s (by simp [hs])
  obtain ⟨ds, hds, polynomial, hlength, values⟩ := lieDerivatives_spec hstates hv hfield hheight
  obtain ⟨d, rfl⟩ := List.length_eq_one_iff.mp (hlength.trans hwidth)
  rw [Grid.columns_of_width_eq_one hshape hwidth] at values
  obtain ⟨change, hchange⟩ := Expression.derivative_spec ρ (D time) (hD time (by simp)) v hv
  have total := Expression.isPolynomial_add change (polynomial d (by simp))
  refine ⟨(v.derivative time + d).expand, ?_, Expression.isCanonical_expand total, ?_⟩
  · rw [timeLieDerivative, lieDerivative, hds]
    rfl
  · rw [Expression.eval_expand ρ total, Expression.eval_add, hchange]
    simpa using values

end

theorem differentiates_X (symbols : List Symbol) :
    Differentiates (MvPolynomial.X : Symbol → MvPolynomial Symbol ℚ)
      (fun s => MvPolynomial.pderiv s) symbols := by
  classical
  intro s _ t
  rw [MvPolynomial.pderiv_X, Pi.single_apply]
  exact if_congr eq_comm rfl rfl

end HybridRelaxation
