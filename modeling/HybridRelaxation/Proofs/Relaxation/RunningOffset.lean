import Mathlib
import HybridRelaxation.Certificate.GramMatrix
import HybridRelaxation.Proofs.Certificate.Filling
import HybridRelaxation.Proofs.Relaxation.Residuals

/-!
# Running offsets

Residuals are computed for a list of records.  The offsets that the records hold are not read: the
statements of a record are looked for where those of the records before it in the list stop.  A
record is filled from the statements and the Gram matrices at these positions and from no others.
So it is filled from its own statements exactly if the list begins like that of a whole run, on a
program without earlier statements.
-/

namespace HybridRelaxation

variable {K : Type} [Scalar K]

/-! ## Parts of lists -/

section

omit [Scalar K]

variable {α β : Type} (xs : List α) {start stop : ℕ}

theorem slice_natCast : slice xs start stop = (xs.take stop).drop start := by
  have bound (k : ℕ) : boundAt xs.length k = min k xs.length := by
    simp [boundAt, Int.not_lt.mpr (Int.natCast_nonneg k), Nat.min_comm]
  refine List.ext_getElem? (fun i => ?_)
  rw [slice, bound, bound, List.getElem?_drop, List.getElem?_drop, List.getElem?_take,
    List.getElem?_take]
  grind

theorem getElem?_slice {k : ℕ} (hk : start + k < stop) :
    (slice xs start stop)[k]? = xs[start + k]? := by
  rw [slice_natCast, List.getElem?_drop, List.getElem?_take_of_lt hk]

theorem entryAt_slice {k : ℕ} (hk : start + k < stop) :
    entryAt (slice xs start stop) k = entryAt xs ((start + k : ℕ) : ℤ) := by
  rw [entryAt, entryAt, entryAt?_natCast, entryAt?_natCast, getElem?_slice xs hk]

theorem slice_slice {k : ℕ} (hk : start + k ≤ stop) :
    slice (slice xs start stop) (0 : ℕ) k = slice xs start ((start + k : ℕ) : ℤ) := by
  rw [slice_natCast, slice_natCast, slice_natCast, List.drop_zero, List.take_drop, List.take_take,
    Nat.min_eq_left hk]

theorem slice_map (f : α → β) : slice (xs.map f) start stop = (slice xs start stop).map f := by
  rw [slice_natCast, slice_natCast, List.map_drop, List.map_take]

theorem slice_zip (ys : List β) :
    (slice xs start stop).zip (slice ys start stop) = slice (xs.zip ys) start stop := by
  simp only [slice_natCast, List.zip, List.drop_zipWith, List.take_zipWith]

end

theorem mapM_congr {ε α β : Type} {f g : α → Except ε β} {xs : List α} (h : ∀ x ∈ xs, f x = g x) :
    xs.mapM f = xs.mapM g := by
  induction xs with
  | nil => rfl
  | cons x xs ih =>
      rw [List.mapM_cons, List.mapM_cons, h x (by simp), ih (fun x' hx' => h x' (by simp [hx']))]

/-! ## Parts of programs -/

def SquareProgram.part (p : SquareProgram K) (start stop : ℤ) : SquareProgram K :=
  { p with statements := slice p.statements start stop }

def Solution.part (sol : Solution K) (start stop : ℤ) : Solution K :=
  { sol with grams := slice sol.grams start stop }

@[simp] theorem Solution.evaluate_part (sol : Solution K) (start stop : ℤ) (e : Expression K) :
    (sol.part start stop).evaluate e = sol.evaluate e := rfl

def SolvedStatements.part (solved : SolvedStatements K) (start stop : ℤ) : SolvedStatements K :=
  ⟨slice solved.polynomials start stop, slice solved.forms start stop,
    slice solved.minEigenvalues start stop⟩

variable {p : SquareProgram K} {sol : Solution K} {forms : List (Expression K)}

theorem approximations_part (h : approximations p sol = .ok forms) (start stop : ℕ) :
    approximations (p.part start stop) (sol.part start stop) = .ok (slice forms start stop) := by
  rw [approximations, mapM_eq_ok] at h ⊢
  change List.Forall₂ _ ((slice _ _ _).zip (slice _ _ _)) _
  rw [slice_zip, slice_natCast, slice_natCast]
  exact List.forall₂_drop start (List.forall₂_take stop h)

theorem solvedPolynomials_part (start stop : ℕ) :
    solvedPolynomials (p.part start stop) (sol.part start stop) =
      slice (solvedPolynomials p sol) start stop :=
  (slice_map _ _).symm

/-! ## One record -/

section

variable (solved : SolvedStatements K) {r : ConstraintRecord K} {n : ℕ}
  (hn : r.multiplierCount = n) (start : ℕ)

include hn

theorem residualAt_part : residualAt (solved.part start (start + (n + 1) : ℕ))
    (sol.part start (start + (n + 1) : ℕ)) 0 r = residualAt solved sol start r := by
  have entry := entryAt_slice solved.polynomials (show start + n < start + (n + 1) by omega)
  have weights := slice_slice solved.polynomials (show start + n ≤ start + (n + 1) by omega)
  push_cast at entry weights
  simp only [residualAt, SolvedStatements.part, hn, zero_add, Solution.evaluate_part]
  push_cast
  rw [entry, weights]

theorem subresidualAt_part : (positionsFrom 0 r).mapM
    (subresidualAt (solved.part start (start + (n + 1) : ℕ)) r.scope) =
      (positionsFrom start r).mapM (subresidualAt solved r.scope) := by
  have count : (r.multiplierCount + 1).toNat = n + 1 := by omega
  rw [positionsFrom, positionsFrom, count, List.mapM_map, List.mapM_map]
  refine mapM_congr (fun j hj => ?_)
  have bound : start + j < start + (n + 1) := by
    have := List.mem_range.mp hj
    omega
  have polynomial := entryAt_slice solved.polynomials bound
  have form := entryAt_slice solved.forms bound
  push_cast at polynomial form
  simp only [Function.comp_apply, zero_add, subresidualAt, SolvedStatements.part]
  push_cast
  rw [polynomial, form]

theorem fillRecord_part {filled : ConstraintRecord K}
    (h : fillRecord solved sol start r = (filled, .ok ())) :
    fillRecord (solved.part start (start + r.multiplierCount + 1))
      (sol.part start (start + r.multiplierCount + 1)) 0 r = (filled, .ok ()) := by
  have stop : (start : ℤ) + r.multiplierCount + 1 = ((start + (n + 1) : ℕ) : ℤ) := by
    rw [hn]
    push_cast
    ring
  obtain ⟨residual, norms, sizes, hresidual, hnorms, hcount, hsizes, rfl⟩ := fillRecord_eq_ok.mp h
  have eigenvalues := slice_slice solved.minEigenvalues (le_refl (start + (n + 1)))
  refine fillRecord_eq_ok.mpr ⟨residual, norms, sizes, ?_, hnorms, hcount, ?_, ?_⟩
  · rw [stop, residualAt_part solved hn, hresidual]
  · rw [stop, subresidualAt_part solved hn, hsizes]
  · rw [stop, hn, SolvedStatements.part]
    push_cast at eigenvalues ⊢
    rw [zero_add, eigenvalues]

end

/-! ## Diagnosed records -/

/--
A record as it is filled from the statements and Gram matrices that start at a position, and nothing
else: a program and a solution that have only these fill it in the same way.
-/
structure ConstraintRecord.IsFilledFrom (r : ConstraintRecord K) (p : SquareProgram K)
    (sol : Solution K) (eigenvalues : List K) (start : ℤ) (filled : ConstraintRecord K) :
    Prop where
  /-- The base stands after as many multipliers as the record counts. -/
  residual : ∃ base norms, entryAt p.statements (start + r.multiplierCount) = .ok base ∧
    coefficientNorms (sol.evaluate r.polynomial - reconstruction (sol.evaluate base.polynomial)
      ((slice p.statements start (start + r.multiplierCount)).map
        (fun t => sol.evaluate t.polynomial)) r.constraints) r.scope = .ok norms ∧
    filled.residualMax = norms.max ∧ filled.residualSum = norms.sum
  subresiduals : ∀ j : ℕ, j ≤ r.multiplierCount → ∃ t gram form norms,
    entryAt p.statements (start + j) = .ok t ∧ entryAt sol.grams (start + j) = .ok gram ∧
      t.gramForm gram = .ok form ∧
      coefficientNorms (sol.evaluate t.polynomial - form) r.scope = .ok norms ∧
      filled.subresidualMax[j]? = some norms.max
  smallest : ∀ j : ℕ, j ≤ r.multiplierCount →
    filled.minEigenvalues[j]? = entryAt? eigenvalues (start + j)
  /-- Eigenvalues that were worked out from the Gram matrices are those of the same positions. -/
  measured : GramMatrix.minEigenvalues sol.grams = .ok eigenvalues → ∀ j : ℕ,
    j ≤ r.multiplierCount → ∃ gram c, entryAt sol.grams (start + j) = .ok gram ∧
      GramMatrix.minEigenvalue gram = .ok c ∧ filled.minEigenvalues[j]? = some c
  counts : filled.subresidualMax.length = r.multiplierCount + 1 ∧
    filled.minEigenvalues.length ≤ r.multiplierCount + 1
  /-- The rest of the record stays as it is. -/
  kept : { r with
    residualMax := filled.residualMax
    residualSum := filled.residualSum
    subresidualMax := filled.subresidualMax
    minEigenvalues := filled.minEigenvalues } = filled
  alone : computeResiduals [r] (p.part start (start + r.multiplierCount + 1))
    (sol.part start (start + r.multiplierCount + 1))
    (slice eigenvalues start (start + r.multiplierCount + 1)) = ([filled], .ok ())

section

variable {eigenvalues : List K} {r filled : ConstraintRecord K} {n : ℕ}
  (hn : r.multiplierCount = n) {start : ℕ} (hforms : approximations p sol = .ok forms)
  (h : fillRecord ⟨solvedPolynomials p sol, forms, eigenvalues⟩ sol start r = (filled, .ok ()))

include hforms

theorem exists_gramForm_at {k : ℕ} {form : Expression K} (hform : forms[k]? = some form) :
    ∃ t gram, p.statements[k]? = some t ∧ sol.grams[k]? = some gram ∧
      t.gramForm gram = .ok form := by
  obtain ⟨⟨t, gram⟩, hpair, result⟩ := exists_right_at (mapM_eq_ok.mp hforms).flip hform
  obtain ⟨ht, hgram⟩ := List.getElem?_zip_eq_some.mp hpair
  exact ⟨t, gram, ht, hgram, result⟩

include hn h

theorem subresidual_of_fillRecord {j : ℕ} (hj : j ≤ n) : ∃ t gram form norms,
    p.statements[start + j]? = some t ∧ sol.grams[start + j]? = some gram ∧
      t.gramForm gram = .ok form ∧
      coefficientNorms (sol.evaluate t.polynomial - form) r.scope = .ok norms ∧
      filled.subresidualMax[j]? = some norms.max := by
  obtain ⟨-, -, sizes, -, -, -, hsizes, rfl⟩ := fillRecord_eq_ok.mp h
  have position : (positionsFrom start r)[j]? = some ((start + j : ℕ) : ℤ) := by
    have bound : j < (r.multiplierCount + 1).toNat := by omega
    simp [positionsFrom, bound]
  obtain ⟨size, hsize, found⟩ := exists_right_at (mapM_eq_ok.mp hsizes) position
  obtain ⟨polynomial, hpolynomial, found⟩ := bind_eq_ok.mp found
  obtain ⟨form, hform, found⟩ := bind_eq_ok.mp found
  obtain ⟨norms, hnorms, rfl⟩ := map_eq_ok.mp found
  obtain ⟨t, gram, ht, hgram, result⟩ := exists_gramForm_at hforms (entryAt_eq_ok.mp hform)
  have solved := entryAt_eq_ok.mp hpolynomial
  rw [solvedPolynomials, List.getElem?_map, ht] at solved
  obtain rfl := Option.some.inj solved
  exact ⟨t, gram, form, norms, ht, hgram, result, hnorms, hsize⟩

omit hforms in
theorem residual_of_fillRecord : ∃ base norms, p.statements[start + n]? = some base ∧
    coefficientNorms (sol.evaluate r.polynomial - reconstruction (sol.evaluate base.polynomial)
      ((slice p.statements start ((start + n : ℕ) : ℤ)).map
        (fun t => sol.evaluate t.polynomial)) r.constraints) r.scope = .ok norms ∧
    filled.residualMax = norms.max ∧ filled.residualSum = norms.sum := by
  obtain ⟨residual, norms, -, hresidual, hnorms, -, -, rfl⟩ := fillRecord_eq_ok.mp h
  obtain ⟨base, hbase, hresidual⟩ := bind_eq_ok.mp hresidual
  obtain rfl := Except.ok.inj hresidual
  have stop : (start : ℤ) + r.multiplierCount = ((start + n : ℕ) : ℤ) := by
    rw [hn]
    push_cast
    rfl
  rw [stop, entryAt_eq_ok, solvedPolynomials, List.getElem?_map, Option.map_eq_some_iff] at hbase
  obtain ⟨t, ht, rfl⟩ := hbase
  rw [stop, solvedPolynomials, slice_map] at hnorms
  exact ⟨t, norms, ht, hnorms, rfl, rfl⟩

theorem isFilledFrom_of_fillRecord : r.IsFilledFrom p sol eigenvalues start filled := by
  have position (k : ℕ) : (start : ℤ) + k = ((start + k : ℕ) : ℤ) := (Nat.cast_add start k).symm
  have stop : (start : ℤ) + r.multiplierCount + 1 = ((start + (n + 1) : ℕ) : ℤ) := by
    rw [hn]
    push_cast
    ring
  have smallest (j : ℕ) (hj : j ≤ n) : filled.minEigenvalues[j]? = eigenvalues[start + j]? := by
    obtain ⟨-, -, -, -, -, -, -, rfl⟩ := fillRecord_eq_ok.mp h
    rw [stop]
    exact getElem?_slice _ (by omega)
  refine ⟨?_, fun j hj => ?_, fun j hj => ?_, fun heigenvalues j hj => ?_, ?_, ?_, ?_⟩
  · obtain ⟨base, norms, hbase, found⟩ := residual_of_fillRecord hn h
    exact ⟨base, norms, by rw [hn, position, entryAt_eq_ok, hbase], by rwa [hn, position]⟩
  · obtain ⟨t, gram, form, norms, ht, hgram, found⟩ :=
      subresidual_of_fillRecord hn hforms h (j := j) (by omega)
    exact ⟨t, gram, form, norms, by rw [position, entryAt_eq_ok, ht],
      by rw [position, entryAt_eq_ok, hgram], found⟩
  · rw [position, entryAt?_natCast, smallest j (by omega)]
  · obtain ⟨t, gram, form, norms, -, hgram, -⟩ :=
      subresidual_of_fillRecord hn hforms h (j := j) (by omega)
    obtain ⟨c, hc, value⟩ := exists_right_at (mapM_eq_ok.mp heigenvalues) hgram
    exact ⟨gram, c, by rw [position, entryAt_eq_ok, hgram], value,
      by rw [smallest j (by omega), hc]⟩
  · obtain ⟨-, -, sizes, -, -, -, hsizes, rfl⟩ := fillRecord_eq_ok.mp h
    have length := (mapM_eq_ok.mp hsizes).length_eq
    rw [positionsFrom, List.length_map, List.length_range] at length
    constructor
    · change (sizes.length : ℤ) = _
      omega
    · change ((slice eigenvalues start (start + r.multiplierCount + 1)).length : ℤ) ≤ _
      rw [stop, slice_natCast, List.length_drop, List.length_take]
      omega
  · obtain ⟨-, -, -, -, -, -, -, rfl⟩ := fillRecord_eq_ok.mp h
    rfl
  · have part := fillRecord_part ⟨solvedPolynomials p sol, forms, eigenvalues⟩ hn start h
    rw [stop] at part ⊢
    rw [computeResiduals, approximations_part hforms]
    simp only [residualsFrom, solvedPolynomials_part, fillRecords]
    rw [SolvedStatements.part] at part
    rw [part]

end

/-! ## Records of a run -/

theorem Assembly.isPlain_of_takeAll {a b : Assembly K} {degree : ℤ} {steps : List (AssemblyStep K)}
    (h : a.takeAll degree steps = (b, .ok ())) : ∀ step ∈ steps, IsPlain step := by
  induction steps generalizing a with
  | nil => simp
  | cons step steps ih =>
      obtain ⟨a', hstep, hothers⟩ := takeAll_cons_eq_ok.mp h
      refine List.forall_mem_cons.mpr ⟨?_, ih hothers⟩
      cases step with
      | certify q => trivial
      | addToObjective e => trivial
      | abandon q f =>
          -- What follows the multipliers fails.
          obtain ⟨-, failed⟩ := Prod.mk.inj hstep
          cases hmultipliers : (a.program.registerMultipliers q.polynomial q.scope degree
            q.place.name 0 q.constraints).2 <;> simp [hmultipliers, Except.bind] at failed
      | refuse f => simp [take] at hstep

theorem offset_recordsFrom {degree : ℤ} {offset i : ℕ} {qs : List (Inequality K)}
    {r : ConstraintRecord K} (h : (recordsFrom degree offset qs)[i]? = some r) :
    r.offset = offset + runningOffset (recordsFrom degree offset qs) i := by
  induction qs generalizing offset i with
  | nil => simp [recordsFrom] at h
  | cons q qs ih =>
      cases i with
      | zero =>
          obtain rfl : Assembly.recordOf q degree offset = r := by simpa [recordsFrom] using h
          simp [runningOffset, Assembly.recordOf]
      | succ i =>
          have next := ih (by simpa [recordsFrom] using h)
          rw [recordsFrom, runningOffset_cons_succ, next]
          simp only [Assembly.recordOf]
          push_cast
          ring

theorem records_of_assemble {p : SquareProgram K} {s : HybridSystem K}
    {templates : List (ValueTemplate K)} {degree : ℤ} {T : K} {freeFinalTime : Bool}
    {a : Assembly K} (h : assemble p s templates degree T freeFinalTime = (a, .ok ())) :
    a.records = recordsFrom degree p.statements.length
      (certifiedBy (assemblySteps s templates T freeFinalTime)) := by
  obtain ⟨-, -, -, records, -⟩ := Assembly.takeAll_inversion (Assembly.isPlain_of_takeAll h) h
  exact records

omit [Scalar K] in
theorem runningOffset_of_isPrefix {records passed : List (ConstraintRecord K)}
    (h : passed <+: records) {i : ℕ} (hi : i ≤ passed.length) :
    runningOffset passed i = runningOffset records i := by
  obtain ⟨others, rfl⟩ := h
  rw [runningOffset, runningOffset, List.take_append_of_le_length hi]

omit [Scalar K] in
theorem exists_runningOffset_eq {records : List (ConstraintRecord K)}
    (h : ∀ r ∈ records, 0 ≤ r.multiplierCount) (i : ℕ) :
    ∃ k : ℕ, runningOffset records i = k := by
  refine Int.eq_ofNat_of_zero_le (List.sum_nonneg (fun x hx => ?_))
  obtain ⟨r, hr, rfl⟩ := List.mem_map.mp hx
  have := h r (List.mem_of_mem_take hr)
  omega

theorem isFilledFrom_of_computeResiduals {records filled : List (ConstraintRecord K)}
    (hcount : ∀ r ∈ records, 0 ≤ r.multiplierCount) {eigenvalues : List K}
    (h : computeResiduals records p sol eigenvalues = (filled, .ok ())) :
    filled.length = records.length ∧ ∀ (i : ℕ) (r : ConstraintRecord K), records[i]? = some r →
      ∃ r', filled[i]? = some r' ∧
        r.IsFilledFrom p sol eigenvalues (runningOffset records i) r' := by
  cases hforms : approximations p sol with
  | error f => simp [computeResiduals, residualsFrom, hforms] at h
  | ok forms =>
      rw [computeResiduals, hforms] at h
      obtain ⟨length, all⟩ := fillRecords_at h
      refine ⟨length, fun i r hr => ?_⟩
      obtain ⟨r', hr', found⟩ := all i r hr
      obtain ⟨start, hstart⟩ := exists_runningOffset_eq hcount i
      obtain ⟨n, hn⟩ := Int.eq_ofNat_of_zero_le (hcount r (List.mem_of_getElem? hr))
      rw [zero_add, hstart] at found
      exact ⟨r', hr', hstart ▸ isFilledFrom_of_fillRecord hn hforms found⟩

theorem multiplierCount_nonneg {degree : ℤ} {offset : ℕ} {qs : List (Inequality K)}
    {r : ConstraintRecord K} (h : r ∈ recordsFrom degree offset qs) : 0 ≤ r.multiplierCount := by
  obtain ⟨q, -, k, rfl⟩ := mem_recordsFrom h
  exact Int.natCast_nonneg _

theorem runningOffset_eq_offset {degree : ℤ} {qs : List (Inequality K)}
    {passed : List (ConstraintRecord K)} (h : passed <+: recordsFrom degree 0 qs) {i : ℕ}
    {r : ConstraintRecord K} (hr : passed[i]? = some r) : runningOffset passed i = r.offset := by
  have bound : i < passed.length := (List.getElem?_eq_some_iff.mp hr).1
  have listed : (recordsFrom degree 0 qs)[i]? = some r := by
    obtain ⟨others, hothers⟩ := id h
    rw [← hothers, List.getElem?_append_left bound, hr]
  rw [runningOffset_of_isPrefix h bound.le, offset_recordsFrom listed, Nat.cast_zero, zero_add]

/--
Records of a run are filled at running offsets.  Whatever records of a run are passed, and in whatever
order, each of them is filled from where the statements of those passed before it stop, and from
nothing else.  That is where its own statements are if an initial part of the records is passed, and
the program had no statements before the run.  For a built relaxation of polynomials such parts can
always be filled, at all values and for all Gram matrices of the right sizes.
-/
theorem filled_at_runningOffset :
    (∀ {K : Type} [Scalar K] (p : SquareProgram K) (s : HybridSystem K)
      (templates : List (ValueTemplate K)) (degree : ℤ) (T : K) (freeFinalTime : Bool)
      (a : Assembly K), assemble p s templates degree T freeFinalTime = (a, .ok ()) →
      ∀ passed : List (ConstraintRecord K), passed.Subperm a.records →
        (∀ (sol : Solution K) (eigenvalues : List K) (filled : List (ConstraintRecord K)),
          computeResiduals passed a.program sol eigenvalues = (filled, .ok ()) →
            filled.length = passed.length ∧
            ∀ (i : ℕ) (r : ConstraintRecord K), passed[i]? = some r → ∃ r', filled[i]? = some r' ∧
              r.IsFilledFrom a.program sol eigenvalues (runningOffset passed i) r') ∧
        (p.statements = [] → passed <+: a.records → ∀ (i : ℕ) (r : ConstraintRecord K),
          passed[i]? = some r → runningOffset passed i = r.offset)) ∧
    ∀ (s : HybridSystem Rat) (degree : Datum) (settings : Settings) (p : Problem Rat)
      (r : Relaxation Rat), s.IsPolynomial → Problem.pose s degree settings = .ok p →
      p.build = .ok r → ∀ (values : List Rat) (sol : Solution Rat) (eigenvalues : List Rat),
        values.length = r.program.size → sol.values = Solution.valuesOf r.program values →
        List.Forall₂ SquareSum.FitsGram r.program.statements sol.grams →
        ∀ passed : List (ConstraintRecord Rat), passed <+: r.records → ∃ filled,
          computeResiduals passed r.program sol eigenvalues = (filled, .ok ()) ∧
            filled.length = passed.length ∧
            ∀ (i : ℕ) (c : ConstraintRecord Rat), passed[i]? = some c → ∃ c', filled[i]? = some c' ∧
              c.IsFilledFrom r.program sol eigenvalues c.offset c' := by
  constructor
  · intro K _ p s templates degree T freeFinalTime a h passed hpassed
    have records := records_of_assemble h
    refine ⟨fun sol eigenvalues filled hfilled => isFilledFrom_of_computeResiduals
      (fun r hr => multiplierCount_nonneg (records ▸ hpassed.subset hr)) hfilled,
      fun hp hprefix i r hr => ?_⟩
    rw [hp] at records
    exact runningOffset_eq_offset (records ▸ hprefix) hr
  · intro s degree settings p r hs hpose hbuild values sol eigenvalues hvalues hsol hgrams passed
      hpassed
    obtain ⟨wellPosed, -⟩ := Problem.isWellPosed_of_pose hs hpose
    obtain ⟨records, -⟩ := Problem.records_of_build wellPosed hbuild
    obtain ⟨forms, all, hforms, hall, -⟩ :=
      Problem.exists_fillRecords_of_build hs hpose hbuild hvalues hsol hgrams eigenvalues
    obtain ⟨others, hothers⟩ := id hpassed
    rw [← hothers] at hall
    obtain ⟨filled, hfilled⟩ := fillRecords_of_append hall
    have computed : computeResiduals passed r.program sol eigenvalues = (filled, .ok ()) := by
      rw [computeResiduals, hforms]
      exact hfilled
    obtain ⟨length, each⟩ := isFilledFrom_of_computeResiduals
      (fun c hc => multiplierCount_nonneg (records ▸ hpassed.subset hc)) computed
    refine ⟨filled, computed, length, fun i c hc => ?_⟩
    rw [← runningOffset_eq_offset (records ▸ hpassed) hc]
    exact each i c hc

/-! ## Records without those before them -/

def steppedSolution (p : SquareProgram Rat) (zeros : ℕ) : Solution Rat where
  status := "optimal"
  value := 0
  free := List.replicate p.size 0
  grams := p.statements.zipIdx.map (fun (t, i) =>
    let entry (j k : ℕ) : Rat := if zeros ≤ i ∧ j = k then 1 else 0
    ⟨t.gramSize, (List.range t.gramSize).map (fun j => (List.range t.gramSize).map (entry j))⟩)
  duals := []
  dualBasis := []
  values := Solution.valuesOf p (List.replicate p.size 0)

/-- What is reported for a record that is passed alone, and what stands at its own offset. -/
def firstEigenvalues (p : SquareProgram Rat) (zeros : ℕ) (r : ConstraintRecord Rat) :
    Except Failure (ℤ × Option Rat × Option Rat) := do
  let eigenvalues ← GramMatrix.minEigenvalues (steppedSolution p zeros).grams
  let report := computeResiduals [r] p (steppedSolution p zeros) eigenvalues
  report.2
  .ok (r.multiplierCount, report.1.head?.bind (fun c => c.minEigenvalues[0]?),
    entryAt? eigenvalues r.offset)

theorem firstEigenvalues_inversion {p : SquareProgram Rat} {zeros : ℕ} {r : ConstraintRecord Rat}
    {n : ℕ} {a b : Rat} (h : firstEigenvalues p zeros r = .ok (n, some a, some b)) :
    ∃ eigenvalues filled,
      GramMatrix.minEigenvalues (steppedSolution p zeros).grams = .ok eigenvalues ∧
        computeResiduals [r] p (steppedSolution p zeros) eigenvalues = ([filled], .ok ()) ∧
        r.multiplierCount = n ∧ filled.minEigenvalues[0]? = some a ∧
        entryAt? eigenvalues r.offset = some b := by
  obtain ⟨eigenvalues, heigenvalues, h⟩ := bind_eq_ok.mp h
  generalize hreport : computeResiduals [r] p (steppedSolution p zeros) eigenvalues = report at h
  obtain ⟨hresult, h⟩ := bind_check_eq_ok.mp h
  obtain ⟨count, found⟩ := Prod.mk.inj (Except.ok.inj h)
  obtain ⟨reported, own⟩ := Prod.mk.inj found
  have nonneg : ∀ c ∈ [r], 0 ≤ c.multiplierCount := by simp [count]
  have computed : computeResiduals [r] p (steppedSolution p zeros) eigenvalues =
      (report.1, .ok ()) := hreport.trans (Prod.ext rfl hresult)
  obtain ⟨length, -⟩ := isFilledFrom_of_computeResiduals nonneg computed
  obtain ⟨filled, hfilled⟩ := List.length_eq_one_iff.mp length
  rw [hfilled] at computed reported
  exact ⟨eigenvalues, filled, heigenvalues, computed, count, reported, own⟩

theorem exists_second_parkingSystem : ∃ p r c,
    Problem.pose parkingSystem (.integer 2) Settings.defaults = .ok p ∧ p.build = .ok r ∧
      r.records[1]? = some c ∧ firstEigenvalues r.program 4 c = .ok ((2 : ℕ), some 0, some 1) := by
  have checked : (do
      let p ← Problem.pose parkingSystem (.integer 2) Settings.defaults
      let r ← p.build
      let c ← entryAt r.records 1
      firstEigenvalues r.program 4 c) = .ok ((2 : ℕ), some 0, some 1) := by
    decide +kernel
  obtain ⟨p, posed, checked⟩ := bind_eq_ok.mp checked
  obtain ⟨r, built, checked⟩ := bind_eq_ok.mp checked
  obtain ⟨c, hc, found⟩ := bind_eq_ok.mp checked
  exact ⟨p, r, c, posed, built, entryAt_eq_ok.mp hc, found⟩

theorem exists_first_statedZero : ∃ p templates a c,
    registerModes (.named "t") 2 1 statedZero 0 [drivingMode, parkedMode] = (p, .ok templates) ∧
      assemble p parkingSystem templates 2 1 false = (a, .ok ()) ∧ a.records[0]? = some c ∧
        firstEigenvalues a.program 1 c = .ok ((3 : ℕ), some 0, some 1) := by
  have checked : (do
      let templates ← (registerModes (.named "t") 2 1 statedZero 0 [drivingMode, parkedMode]).2
      let run := assemble (registerModes (.named "t") 2 1 statedZero 0 [drivingMode, parkedMode]).1
        parkingSystem templates 2 1 false
      run.2
      let c ← entryAt run.1.records 0
      firstEigenvalues run.1.program 1 c) = .ok ((3 : ℕ), some 0, some 1) := by
    decide +kernel
  obtain ⟨templates, registered, checked⟩ := bind_eq_ok.mp checked
  obtain ⟨assembled, checked⟩ := bind_check_eq_ok.mp checked
  obtain ⟨c, hc, found⟩ := bind_eq_ok.mp checked
  exact ⟨_, templates, _, c, Prod.ext rfl registered, Prod.ext rfl assembled,
    entryAt_eq_ok.mp hc, found⟩

theorem filled_at_runningOffset_parkingSystem :
    (∃ p templates a c sol eigenvalues filled,
      registerModes (.named "t") 2 1 statedZero 0 [drivingMode, parkedMode] = (p, .ok templates) ∧
        assemble p parkingSystem templates 2 1 false = (a, .ok ()) ∧ a.records[0]? = some c ∧
          computeResiduals [c] a.program sol eigenvalues = ([filled], .ok ()) ∧
            c.IsFilledFrom a.program sol eigenvalues 0 filled) ∧
      ∃ p r sol filled c c', Problem.pose parkingSystem (.integer 2) Settings.defaults = .ok p ∧
        p.build = .ok r ∧ computeResiduals r.records r.program sol [] = (filled, .ok ()) ∧
          r.records[1]? = some c ∧ filled[1]? = some c' ∧
            c.IsFilledFrom r.program sol [] c.offset c' := by
  constructor
  · obtain ⟨p, templates, a, c, registered, assembled, hc, found⟩ := exists_first_statedZero
    obtain ⟨eigenvalues, filled, -, computed, -⟩ := firstEigenvalues_inversion found
    obtain ⟨-, each⟩ := (filled_at_runningOffset.1 p parkingSystem templates 2 1 false a assembled
      [c] (List.singleton_subperm_iff.mpr (List.mem_of_getElem? hc))).1 _ _ _ computed
    obtain ⟨filled', hfilled, isFilled⟩ := each 0 c rfl
    obtain rfl := Option.some.inj hfilled
    exact ⟨p, templates, a, c, _, eigenvalues, filled, registered, assembled, hc, computed,
      isFilled⟩
  · obtain ⟨p, r, c, posed, built, hc, -⟩ := exists_second_parkingSystem
    obtain ⟨filled, computed, -, each⟩ := filled_at_runningOffset.2 parkingSystem _ _ p r
      isPolynomial_parkingSystem posed built _ r.program.unitSolution [] List.length_replicate rfl
      r.program.fitsGram_unitSolution r.records (List.prefix_refl _)
    obtain ⟨c', hc', isFilled⟩ := each 1 c hc
    exact ⟨p, r, r.program.unitSolution, filled, c, c', posed, built, computed, hc, hc', isFilled⟩

def ConstraintRecord.IsMistaken (r : ConstraintRecord Rat) (p : SquareProgram Rat) : Prop :=
  ∃ sol eigenvalues filled, GramMatrix.minEigenvalues sol.grams = .ok eigenvalues ∧
    computeResiduals [r] p sol eigenvalues = ([filled], .ok ()) ∧
      ¬ r.IsFilledFrom p sol eigenvalues r.offset filled

theorem isMistaken_of_firstEigenvalues {p : SquareProgram Rat} {zeros : ℕ}
    {r : ConstraintRecord Rat} {n : ℕ} {a b : Rat}
    (h : firstEigenvalues p zeros r = .ok (n, some a, some b)) (hab : a ≠ b) : r.IsMistaken p := by
  obtain ⟨eigenvalues, filled, heigenvalues, computed, count, reported, own⟩ :=
    firstEigenvalues_inversion h
  refine ⟨_, eigenvalues, filled, heigenvalues, computed, fun same => hab ?_⟩
  have expected := same.smallest 0 (by simp [count])
  rw [Nat.cast_zero, add_zero, own] at expected
  exact Option.some.inj (reported.symm.trans expected)

/--
A record can be filled from statements that are not its own: the second record of a relaxation if it
is passed without the first one, and the first record of a run on a program with a statement.
-/
theorem not_filled_at_offset :
    (∃ p r c, Problem.pose parkingSystem (.integer 2) Settings.defaults = .ok p ∧
      p.build = .ok r ∧ r.records[1]? = some c ∧ c.IsMistaken r.program) ∧
    ∃ p templates a c, registerModes (.named "t") 2 1 statedZero 0 [drivingMode, parkedMode] =
        (p, .ok templates) ∧
      assemble p parkingSystem templates 2 1 false = (a, .ok ()) ∧ a.records[0]? = some c ∧
        c.IsMistaken a.program := by
  constructor
  · obtain ⟨p, r, c, posed, built, hc, found⟩ := exists_second_parkingSystem
    exact ⟨p, r, c, posed, built, hc, isMistaken_of_firstEigenvalues found zero_ne_one⟩
  · obtain ⟨p, templates, a, c, registered, assembled, hc, found⟩ := exists_first_statedZero
    exact ⟨p, templates, a, c, registered, assembled, hc,
      isMistaken_of_firstEigenvalues found zero_ne_one⟩

end HybridRelaxation
