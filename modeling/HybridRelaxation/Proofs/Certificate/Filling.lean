import HybridRelaxation.Certificate.Residual
import HybridRelaxation.Proofs.Outcome

/-!
# Filling records

A record is filled from the solved statements at its own positions.  The records of a list are filled
one after the other, each from where the statements of those before it stop, until one of them fails.
-/

namespace HybridRelaxation

variable {K : Type} [Scalar K] {sol : Solution K}

/-! ## One record -/

variable {solved : SolvedStatements K} {start : ℤ} {r r' : ConstraintRecord K}

theorem withResidual_eq_ok : withResidual solved sol start r = .ok r' ↔ ∃ residual norms,
    residualAt solved sol start r = .ok residual ∧
      coefficientNorms residual r.scope = .ok norms ∧
      { r with residualMax := norms.max, residualSum := norms.sum } = r' := by
  simp only [withResidual, bind_eq_ok, Except.ok.injEq]
  exact ⟨fun ⟨residual, found, norms, h⟩ => ⟨residual, norms, found, h⟩,
    fun ⟨residual, norms, found, h⟩ => ⟨residual, found, norms, h⟩⟩

theorem withSubresiduals_eq_ok : withSubresiduals solved start r = .ok r' ↔
    -1 ≤ r.multiplierCount ∧ ∃ sizes,
      (positionsFrom start r).mapM (subresidualAt solved r.scope) = .ok sizes ∧
      { r with
        subresidualMax := sizes
        minEigenvalues := slice solved.minEigenvalues start (start + r.multiplierCount + 1) } =
          r' := by
  unfold withSubresiduals
  split
  · next few => simp [not_le.mpr few]
  · next enough => simp [not_lt.mp enough, bind_eq_ok]

theorem fillRecord_eq_ok : fillRecord solved sol start r = (r', .ok ()) ↔
    ∃ residual norms sizes, residualAt solved sol start r = .ok residual ∧
      coefficientNorms residual r.scope = .ok norms ∧ -1 ≤ r.multiplierCount ∧
      (positionsFrom start r).mapM (subresidualAt solved r.scope) = .ok sizes ∧
      { r with
        residualMax := norms.max
        residualSum := norms.sum
        subresidualMax := sizes
        minEigenvalues := slice solved.minEigenvalues start (start + r.multiplierCount + 1) } =
          r' := by
  constructor
  · intro h
    unfold fillRecord at h
    split at h
    · simp at h
    · next hresidual =>
        split at h
        · simp at h
        · next hsubresiduals =>
            obtain ⟨rfl, -⟩ := Prod.mk.inj h
            obtain ⟨residual, norms, found, hnorms, rfl⟩ := withResidual_eq_ok.mp hresidual
            obtain ⟨count, sizes, hsizes, rfl⟩ := withSubresiduals_eq_ok.mp hsubresiduals
            exact ⟨residual, norms, sizes, found, hnorms, count, hsizes, rfl⟩
  · rintro ⟨residual, norms, sizes, found, hnorms, count, hsizes, rfl⟩
    have hresidual := withResidual_eq_ok.mpr ⟨residual, norms, found, hnorms, rfl⟩
    have hsubresiduals : withSubresiduals solved start
        { r with residualMax := norms.max, residualSum := norms.sum } = .ok _ :=
      withSubresiduals_eq_ok.mpr ⟨count, sizes, hsizes, rfl⟩
    simp only [fillRecord, hresidual, hsubresiduals]

theorem multiplierCount_of_fillRecord (h : fillRecord solved sol start r = (r', .ok ())) :
    r'.multiplierCount = r.multiplierCount := by
  obtain ⟨-, -, -, -, -, -, -, rfl⟩ := fillRecord_eq_ok.mp h
  rfl

/-! ## Lists of records -/

theorem fillRecords_cons_eq_ok {records filled : List (ConstraintRecord K)} :
    fillRecords solved sol start (r :: records) = (filled, .ok ()) ↔
      ∃ r' others, fillRecord solved sol start r = (r', .ok ()) ∧
        fillRecords solved sol (start + r.multiplierCount + 1) records = (others, .ok ()) ∧
        r' :: others = filled := by
  constructor
  · intro h
    unfold fillRecords at h
    split at h
    · simp at h
    · next r' u hfirst =>
        obtain ⟨rfl, hothers⟩ := Prod.mk.inj h
        rw [multiplierCount_of_fillRecord hfirst] at hothers ⊢
        exact ⟨r', _, hfirst, Prod.ext rfl hothers, rfl⟩
  · rintro ⟨r', others, hfirst, hothers, rfl⟩
    rw [fillRecords, hfirst]
    simp only [multiplierCount_of_fillRecord hfirst, hothers]

theorem fillRecords_cons_eq_error {records : List (ConstraintRecord K)} {f : Failure} :
    (fillRecords solved sol start (r :: records)).2 = .error f ↔
      (fillRecord solved sol start r).2 = .error f ∨
      ∃ r', fillRecord solved sol start r = (r', .ok ()) ∧
        (fillRecords solved sol (start + r.multiplierCount + 1) records).2 = .error f := by
  rw [fillRecords]
  split
  · next r' f' hfirst => simp [hfirst]
  · next r' u hfirst => simp [hfirst, multiplierCount_of_fillRecord hfirst]

/-- Where the statements of a record of a list are looked for. -/
def runningOffset (records : List (ConstraintRecord K)) (i : ℕ) : ℤ :=
  ((records.take i).map (fun r => r.multiplierCount + 1)).sum

omit [Scalar K] in
theorem runningOffset_cons_succ (r : ConstraintRecord K) (records : List (ConstraintRecord K))
    (i : ℕ) :
    runningOffset (r :: records) (i + 1) = r.multiplierCount + 1 + runningOffset records i := by
  simp [runningOffset]

theorem fillRecords_at {records filled : List (ConstraintRecord K)}
    (h : fillRecords solved sol start records = (filled, .ok ())) :
    filled.length = records.length ∧ ∀ (i : ℕ) (r : ConstraintRecord K), records[i]? = some r →
      ∃ r', filled[i]? = some r' ∧
        fillRecord solved sol (start + runningOffset records i) r = (r', .ok ()) := by
  induction records generalizing start filled with
  | nil =>
      obtain ⟨rfl, -⟩ := Prod.mk.inj h
      simp
  | cons first records ih =>
      obtain ⟨first', others, hfirst, hothers, rfl⟩ := fillRecords_cons_eq_ok.mp h
      obtain ⟨length, all⟩ := ih hothers
      refine ⟨by simp [length], fun i r hr => ?_⟩
      cases i with
      | zero =>
          obtain rfl : first = r := by simpa using hr
          exact ⟨first', rfl, by simpa [runningOffset] using hfirst⟩
      | succ i =>
          obtain ⟨r', hr', filled⟩ := all i r (by simpa using hr)
          refine ⟨r', hr', ?_⟩
          rwa [runningOffset_cons_succ, ← add_assoc, ← add_assoc]

theorem fillRecords_of_append {records others filled : List (ConstraintRecord K)}
    (h : fillRecords solved sol start (records ++ others) = (filled, .ok ())) :
    ∃ filled', fillRecords solved sol start records = (filled', .ok ()) := by
  induction records generalizing start filled with
  | nil => exact ⟨[], rfl⟩
  | cons first records ih =>
      obtain ⟨first', rest, hfirst, hothers, -⟩ := fillRecords_cons_eq_ok.mp h
      obtain ⟨filled', hfilled⟩ := ih hothers
      exact ⟨first' :: filled', fillRecords_cons_eq_ok.mpr ⟨first', filled', hfirst, hfilled, rfl⟩⟩

end HybridRelaxation
