import Mathlib
import HybridRelaxation.Proofs.Relaxation.DistinctSymbols
import HybridRelaxation.Proofs.Relaxation.RunningOffset
import HybridRelaxation.Proofs.Relaxation.Translation
import HybridRelaxation.Proofs.SquareSum.MatchingRows
import HybridRelaxation.Results.Basic

/-!
# Moments of the flow constraints

The multipliers of the equations of the base of a flow constraint are the moments of the occupation
measure of its mode.  They are found by the position that the assembly noted for the mode: the
statement there is the base of the flow constraint, its equations are those of all monomials of the
time, the states and the controls up to the degree of the base, and the multipliers are a part of
the vector of all multipliers, after those of the statements before the base.
-/

namespace HybridRelaxation

variable {K : Type} [Scalar K]

def SquareSum.half (s : SquareSum K) : ℤ := SquareProgram.halfDegree s.coefficients.totalDegree

/-! ## Flow constraints of an assembly -/

section Flow

variable {s : HybridSystem K} {templates : List (ValueTemplate K)} {T : K} {freeFinalTime : Bool}

theorem flow_modeSteps (i : ℕ) (m : Mode K) (template : ValueTemplate K) :
    (certifiedBy (modeSteps s templates T freeFinalTime i m template)).filter
      (fun q => q.place.kind = .liouville) = [liouvilleInequality s.time T i m template] := by
  have first : (liouvilleInequality s.time T i m template).place.kind = .liouville := rfl
  rw [modeSteps, certifiedBy, List.filterMap_cons, List.filter_cons, first]
  simp only [decide_true, if_true, List.cons.injEq, true_and, List.filter_eq_nil_iff]
  intro q hq
  rcases cases_of_mem_steps (mem_certifiedBy.mp hq) with
    final | ⟨j, next, guard, reset, jump⟩ | ⟨f, refused⟩ | ⟨e, added⟩
  · obtain rfl := AssemblyStep.certify.inj final
    simp [terminalInequality]
  · obtain rfl := AssemblyStep.certify.inj jump
    simp [transitionInequality]
  · simp at refused
  · simp at added

theorem flow_assemblySteps : (certifiedBy (assemblySteps s templates T freeFinalTime)).filter
      (fun q => q.place.kind = .liouville) =
    (s.modes.zip templates).zipIdx.map
      (fun ((m, template), i) => liouvilleInequality s.time T i m template) := by
  rw [assemblySteps, certifiedBy, List.filterMap_flatMap, List.filter_flatMap, List.map_eq_flatMap]
  exact List.flatMap_congr (fun entry _ => flow_modeSteps entry.2 entry.1.1 entry.1.2)

theorem flowBases_at {qs : List (Inequality K)} {i : ℕ} {q : Inequality K}
    (hq : (qs.filter (fun q => q.place.kind = .liouville))[i]? = some q) (degree : ℤ)
    (offset : ℕ) : ∃ k, Assembly.recordOf q degree k ∈ recordsFrom degree offset qs ∧
      (flowBases (recordsFrom degree offset qs))[i]? =
        some (k + q.constraints.length) := by
  have kinds : List.Forall₂ (fun q r => ∃ k : ℕ, r = Assembly.recordOf q degree k)
      (qs.filter (fun q => q.place.kind = .liouville))
      ((recordsFrom degree offset qs).filter (fun r => r.place.kind = .liouville)) := by
    refine List.rel_filter ?_ (forall₂_recordsFrom degree offset qs)
    rintro q _ ⟨k, rfl⟩
    rfl
  obtain ⟨_, hr, k, rfl⟩ := exists_right_at kinds hq
  refine ⟨k, List.mem_of_mem_filter (List.mem_of_getElem? hr), ?_⟩
  rw [flowBases, List.getElem?_map, hr]
  rfl

end Flow

theorem ConstraintRecord.exists_base {q : Inequality K} {degree : ℤ} {offset : ℕ}
    {ss : List (SquareSum K)}
    (h : (Assembly.recordOf q degree offset).Owns (slice ss (Assembly.recordOf q degree offset).offset
      (Assembly.recordOf q degree offset).stop)) :
    ∃ multipliers base, ss[offset + q.constraints.length]? = some base ∧
      (Assembly.recordOf q degree offset).IsStatedBy multipliers base := by
  obtain ⟨multipliers, base, part, stated⟩ := h
  have count : multipliers.length = q.constraints.length := stated.weights.length_eq
  have start : (Assembly.recordOf q degree offset).offset = (offset : ℤ) := rfl
  rw [start, stop_recordOf] at part
  have inside : offset + q.constraints.length < offset + (q.constraints.length + 1) := by omega
  refine ⟨multipliers, base, ?_, stated⟩
  rw [← getElem?_slice ss inside, part, ← count, List.getElem?_concat_length]

/-- The flow constraint of a mode, with the position that is noted for its base. -/
structure Relaxation.HasFlowBase (r : Relaxation K) (i : ℕ) (scope : List Symbol)
    (base : SquareSum K) (position : ℕ) : Prop where
  noted : r.liouvilleBases[i]? = some position
  statement : r.program.statements[position]? = some base
  scope_eq : base.scope = scope
  basis : base.basis = exponents scope.length base.half 0
  /-- The base is that of the record of the flow constraint. -/
  record : ∃ c ∈ r.records, c.place = ⟨.liouville, i, none⟩ ∧ c.baseIndex = position ∧
    ∃ multipliers, c.IsStatedBy multipliers base

theorem Problem.exists_hasFlowBase {p : Problem K} {r : Relaxation K} (h : p.build = .ok r) {i : ℕ}
    {m : Mode K} (hm : p.system.modes[i]? = some m) : ∃ base position,
      r.HasFlowBase i (p.system.time :: m.states ++ m.controls) base position := by
  obtain ⟨q, b, hregister, hassemble, hr⟩ := exists_assemble_of_build h
  obtain ⟨sss, owns, statements, records, bases, -⟩ :=
    Assembly.takeAll_inversion (Assembly.isPlain_of_takeAll hassemble) hassemble
  simp only [Assembly.start, List.nil_append] at owns statements records bases
  have program : r.program = b.program := congrArg Relaxation.program hr
  have listed : r.records = b.records := congrArg Relaxation.records hr
  have noted : r.liouvilleBases = b.liouvilleBases := congrArg Relaxation.liouvilleBases hr
  obtain ⟨template, htemplate, -⟩ := exists_right_at (isOver_of_registerModes hregister).2 hm
  have flow : ((certifiedBy (assemblySteps p.system r.templates horizon
      p.settings.freeFinalTime)).filter (fun q => q.place.kind = .liouville))[i]? =
        some (liouvilleInequality p.system.time horizon i m template) := by
    have zipped : (p.system.modes.zip r.templates)[i]? = some (m, template) :=
      List.getElem?_zip_eq_some.mpr ⟨hm, htemplate⟩
    rw [flow_assemblySteps, List.getElem?_map, List.getElem?_zipIdx, zipped]
    simp
  obtain ⟨k, hmem, hposition⟩ := flowBases_at flow p.degree.value q.statements.length
  have tiles := tiles_recordsFrom (owns.imp (fun _ _ h => h.length))
  have found : ConstraintRecord.Owns _ (slice (q.statements ++ sss.flatten ++ []) _ _) :=
    owns_slice owns tiles hmem
  rw [List.append_nil, ← statements, ← program] at found
  rw [← records, ← listed] at hmem
  rw [← bases, ← noted] at hposition
  obtain ⟨multipliers, base, hbase, stated⟩ := ConstraintRecord.exists_base found
  exact ⟨base, _, hposition, hbase, stated.base_scope, stated.base_basis, _, hmem, rfl,
    by simp [ConstraintRecord.baseIndex, Assembly.recordOf], multipliers, stated⟩

/-! ## Monomials of the equations -/

structure ListsMonomials (scope : List Symbol) (degree : ℤ) (es : List (Expression K)) : Prop where
  vectors : ∃ vs : List Exponents, es = vs.map (monomial scope) ∧
    (∀ v, v ∈ vs ↔ v.IsNatural scope.length ∧ totalDegreeOf v ≤ degree) ∧
    vs.Pairwise (fun v w => gradedOrder v w = .lt)
  nodup : es.Nodup
  first : es.head? = some (.number 1)

theorem listsMonomials_exponents [Scalar.HasUnits K] {scope : List Symbol} (hscope : scope.Nodup)
    {degree : ℤ} (hdegree : 0 ≤ degree) :
    ListsMonomials scope degree ((exponents scope.length degree 0).map (monomial (K := K) scope)) where
  vectors := by
    refine ⟨_, rfl, fun v => ?_, Exponents.pairwise_exponents _ _ _⟩
    rw [Exponents.mem_exponents]
    exact ⟨fun h => ⟨h.1, h.2.2⟩, fun h => ⟨h.1, h.1.totalDegreeOf_nonneg, h.2⟩⟩
  nodup := (Exponents.nodup_exponents _ _ _).map_on (fun v hv w hw => monomial_injective hscope
    (Exponents.mem_exponents.mp hv).1 (Exponents.mem_exponents.mp hw).1)
  first := by
    rw [List.head?_map, Exponents.head?_exponents _ hdegree, Option.map_some,
      monomial_replicate hscope]

/-! ## Parts of the multipliers -/

def rowsBefore (matchings : List (Matching K)) (position : ℕ) : ℕ :=
  ((matchings.take position).map (fun m => m.rows.length)).sum

structure Solution.HasMultipliers (sol : Solution K) (statements : List (SquareSum K))
    (matchings : List (Matching K)) : Prop where
  monomials : sol.dualBasis = List.zipWith Solution.dualMonomials statements matchings
  duals : List.Forall₂ (fun m ys => ys.length = m.rows.length) matchings sol.duals

omit [Scalar K] in
theorem take_drop_flatten {matchings : List (Matching K)} {duals : List (List K)}
    (h : List.Forall₂ (fun m ys => ys.length = m.rows.length) matchings duals) {position : ℕ}
    {ys : List K} (hys : duals[position]? = some ys) :
    (duals.flatten.drop (rowsBefore matchings position)).take ys.length = ys := by
  induction h generalizing position with
  | nil => simp at hys
  | @cons m first matchings duals length _ ih =>
      cases position with
      | zero =>
          obtain rfl : first = ys := by simpa using hys
          rw [rowsBefore, List.take_zero, List.map_nil, List.sum_nil, List.drop_zero,
            List.flatten_cons, List.take_left]
      | succ position =>
          have before : rowsBefore (m :: matchings) (position + 1) =
              first.length + rowsBefore matchings position := by
            simp [rowsBefore, length]
          rw [before, List.flatten_cons, ← List.drop_drop, List.drop_left]
          exact ih (by simpa using hys)

/-! ## Solutions and results -/

theorem ConicProblem.matchings_of_ofProgram {p : SquareProgram K} {e : Expression K}
    {c : ConicProblem K} (h : ofProgram p e = .ok c) :
    List.Forall₂ (fun s m => s.matching p.index p.size = .ok m) p.statements c.matchings := by
  obtain ⟨-, matchings, form, hmatchings, -, rfl⟩ := ofProgram_eq_ok.mp h
  exact mapM_eq_ok.mp hmatchings

theorem ConicProblem.hasMultipliers_of_solution {c : ConicProblem K} {p : SquareProgram K}
    {numbers : Prescription K} {sol : Solution K}
    (h : c.solution p (.finished numbers) = .ok sol) :
    sol.HasMultipliers p.statements c.matchings := by
  obtain ⟨-, free, -, h⟩ := solution_eq_ok.mp h
  obtain ⟨values, grams, duals, -, -, hduals, rfl⟩ := Prescription.solution_eq_ok.mp h
  have counted := (mapM_eq_ok.mp hduals).imp (S := fun (entry : Matching K × ℕ) ys =>
    ys.length = entry.1.rows.length) (fun entry ys hys => by
      simpa using (mapM_eq_ok.mp hys).length_eq.symm)
  have matchings : c.matchings.zipIdx.map Prod.fst = c.matchings := List.zipIdx_map_fst ..
  refine ⟨rfl, ?_⟩
  rw [← matchings, List.forall₂_map_left_iff]
  exact counted

theorem ConicProblem.exists_solution (c : ConicProblem K) (p : SquareProgram K)
    {numbers : Prescription K} (hstatus : numbers.status ∈ successStatuses)
    (hfree : numbers.free ≠ []) (hdiagonal : numbers.diagonal ≠ [])
    (hoffDiagonal : numbers.offDiagonal ≠ []) (hdual : numbers.dual ≠ []) :
    ∃ sol, c.solution p (.finished numbers) = .ok sol := by
  have cyclic {xs : List K} (hxs : xs ≠ []) (k : ℕ) : ∃ x, Prescription.cyclic xs k = .ok x := by
    rw [Prescription.cyclic,
      List.getElem?_eq_getElem (Nat.mod_lt k (List.length_pos_of_ne_nil hxs))]
    exact ⟨_, rfl⟩
  have free (count : ℕ) : ∃ xs, numbers.freeValues count = .ok xs :=
    exists_mapM_eq_ok (fun k _ => cyclic hfree k)
  have gram (k size : ℕ) : ∃ g, numbers.gram k size = .ok g := by
    obtain ⟨rows, hrows⟩ : ∃ rows, (List.range size).mapM (fun i => (List.range size).mapM (fun j =>
        if i = j then Prescription.cyclic numbers.diagonal (k + i)
        else Prescription.cyclic numbers.offDiagonal (i + j + k))) = .ok rows :=
      exists_mapM_eq_ok (fun i _ => exists_mapM_eq_ok (fun j _ => by
        split
        · exact cyclic hdiagonal _
        · exact cyclic hoffDiagonal _))
    rw [Prescription.gram, hrows]
    exact ⟨_, rfl⟩
  obtain ⟨first, hfirst⟩ := free c.columns
  obtain ⟨values, hvalues⟩ := free p.size
  obtain ⟨grams, hgrams⟩ : ∃ grams, numbers.grams (p.statements.map SquareSum.gramSize) =
      .ok grams := exists_mapM_eq_ok (fun entry _ => gram entry.2 entry.1)
  obtain ⟨duals, hduals⟩ : ∃ duals, c.matchings.zipIdx.mapM
      (fun entry => numbers.duals entry.2 entry.1.rows.length) = .ok duals :=
    exists_mapM_eq_ok (fun entry _ => exists_mapM_eq_ok (fun k _ => cyclic hdual _))
  exact ⟨_, solution_eq_ok.mpr ⟨hstatus, first, hfirst, Prescription.solution_eq_ok.mpr
    ⟨values, grams, duals, hvalues, hgrams, hduals, rfl⟩⟩⟩

theorem GramMatrix.exists_minEigenvalue {n : ℕ} (hn : n ≠ 0) (G : Matrix (Fin n) (Fin n) Rat) :
    ∃ c, minEigenvalue (gridOf G) = .ok c := by
  have square : (gridOf G).height = (gridOf G).width := List.length_ofFn
  have count : (List.zipWith (List.zipWith mean) (gridOf G).rows (gridOf G).columns).length = n := by
    simp [gridOf, Grid.columns]
  rw [minEigenvalue, symmetricPart, if_pos square, ok_bind]
  split
  · next heq =>
      rw [heq] at count
      exact absurd count.symm hn
  · exact ⟨_, rfl⟩

theorem Problem.exists_results {s : HybridSystem Rat} {degree : Datum} {settings : Settings}
    {p : Problem Rat} {r : Relaxation Rat} (hs : s.IsPolynomial)
    (hpose : pose s degree settings = .ok p) (hbuild : p.build = .ok r) {values : List Rat}
    (hvalues : values.length = r.program.size) {sol : Solution Rat}
    (hsol : sol.values = Solution.valuesOf r.program values)
    (hgrams : List.Forall₂ SquareSum.FitsGram r.program.statements sol.grams) (seconds : Rat) :
    ∃ results, Results.ofSolution p r sol seconds = .ok results := by
  obtain ⟨wellPosed, -⟩ := isWellPosed_of_pose hs hpose
  obtain ⟨cs, relaxed⟩ := isRelaxedBy_of_build wellPosed hbuild
  obtain ⟨eigenvalues, heigenvalues⟩ : ∃ eigenvalues, GramMatrix.minEigenvalues sol.grams =
      .ok eigenvalues := by
    refine exists_mapM_eq_ok (fun gram hgram => ?_)
    obtain ⟨t, ht, G, rfl⟩ := exists_left_of_mem hgrams hgram
    exact GramMatrix.exists_minEigenvalue
      (fun hn => relaxed.basis_ne_nil t ht (List.length_eq_zero_iff.mp hn)) G
  obtain ⟨forms, filled, hforms, hfilled, -⟩ :=
    exists_fillRecords_of_build hs hpose hbuild hvalues hsol hgrams eigenvalues
  obtain ⟨bound, hbound, -⟩ := boundOf_eq wellPosed relaxed hvalues hsol
  have computed : computeResiduals r.records r.program sol eigenvalues = (filled, .ok ()) := by
    rw [computeResiduals, hforms]
    exact hfilled
  rw [Results.ofSolution, heigenvalues, ok_bind, computed]
  simp only [hbound, ok_bind]
  exact ⟨_, rfl⟩

/-! ## Moments of a mode -/

/--
The monomials and moments of a mode belong to the base of its flow constraint: the monomials are
those of its variables up to the degree of the base, and the moments are the part of all multipliers
after those of the statements before.
-/
structure SynthesisData.HasMoments (d : SynthesisData K) (scope : List Symbol) (i : ℕ)
    (matchings : List (Matching K)) (base : SquareSum K) (position : ℕ)
    (monomials : List (Expression K)) (moments : List K) : Prop where
  noted : d.liouvilleBases[i]? = some (position : ℤ)
  read : d.liouvilleMoments i = .ok (monomials, moments)
  listed : ListsMonomials scope (2 * base.half) monomials
  length_eq : moments.length = monomials.length
  part : moments = (d.dualVector.drop (rowsBefore matchings position)).take monomials.length

namespace Relaxation

variable {r : Relaxation K} {i : ℕ} {scope : List Symbol} {base : SquareSum K} {position : ℕ}

theorem HasFlowBase.dualMonomials_eq [Scalar.HasUnits K]
    (h : r.HasFlowBase i scope base position) (faithful : base.IsFaithful)
    {index : Symbol → Option ℤ} {columns : ℤ} {m : Matching K}
    (hm : base.matching index columns = .ok m) :
    Solution.dualMonomials base m = (exponents scope.length (2 * base.half) 0).map (monomial scope)
    := by
  have complete : m.IsComplete scope.length base.half :=
    base.isComplete_of_halfDegree (h.scope_eq ▸ faithful.collects.natural) h.basis hm
  rw [← complete.rows, List.map_map, ← h.scope_eq]
  rfl

end Relaxation

theorem SquareSum.IsFaithful.half_nonneg {s : SquareSum K} (h : s.IsFaithful) : 0 ≤ s.half := by
  have degree := CoefficientMap.totalDegree_nonneg h.collects.natural
  rw [SquareSum.half, SquareProgram.halfDegree]
  omega

theorem Relaxation.HasFlowBase.hasMoments [Scalar.HasUnits K] {p : Problem K} {r : Relaxation K}
    {i : ℕ} {scope : List Symbol} {base : SquareSum K} {position : ℕ}
    (h : r.HasFlowBase i scope base position) (faithful : base.IsFaithful)
    {matchings : List (Matching K)} (hmatchings : List.Forall₂ (fun s m =>
      s.matching r.program.index r.program.size = .ok m) r.program.statements matchings)
    {sol : Solution K} (hsol : sol.HasMultipliers r.program.statements matchings) :
    ∃ monomials moments, (SynthesisData.ofSolution p r sol).HasMoments scope i matchings base
      position monomials moments := by
  obtain ⟨m, hm, matched⟩ := exists_right_at hmatchings h.statement
  obtain ⟨moments, hmoments, count⟩ := exists_right_at hsol.duals hm
  have noted : (SynthesisData.ofSolution p r sol).liouvilleBases[i]? = some (position : ℤ) := by
    rw [SynthesisData.ofSolution, List.getElem?_map, h.noted]
    rfl
  have listed : (SynthesisData.ofSolution p r sol).dualBasis[position]? =
      some (Solution.dualMonomials base m) := by
    rw [SynthesisData.ofSolution, hsol.monomials, List.getElem?_zipWith, h.statement, hm]
  have there : (SynthesisData.ofSolution p r sol).duals[position]? = some moments := hmoments
  have length : moments.length = (Solution.dualMonomials base m).length := by
    rw [count, Solution.dualMonomials, List.length_map]
  refine ⟨_, moments, noted, ?_, ?_, length, ?_⟩
  · rw [SynthesisData.liouvilleMoments, entryAt_eq_ok.mpr noted, ok_bind,
      entryAt_eq_ok.mpr listed, ok_bind, entryAt_eq_ok.mpr there, ok_bind]
  · rw [h.dualMonomials_eq faithful matched]
    exact listsMonomials_exponents (h.scope_eq ▸ faithful.scope)
      (mul_nonneg (by decide) faithful.half_nonneg)
  · rw [← length]
    exact (take_drop_flatten hsol.duals hmoments).symm

/--
The moments of all modes line up.  Over distinct variables, whatever is built and translated for a
system, and whatever the multipliers of a solution are, one for each equation: the position noted for
a mode is that of the base of its flow constraint, the monomials read there are those of the time,
the states and the controls of the mode up to the degree of the base, and the moments are as many
and stand together in the vector of all multipliers.  Backends report such multipliers, and results
for the synthesis of controls hold them.  With rational data the relaxation is built and translated,
and a solution with matrices of the right sizes has results.
-/
theorem hasMoments_of_build :
    (∀ {K : Type} [Scalar K] [Scalar.HasUnits K] (s : HybridSystem K) (degree : Datum)
        (settings : Settings) (p : Problem K) (r : Relaxation K) (c : ConicProblem K),
        s.HasDistinctSymbols → Problem.pose s degree settings = .ok p → p.build = .ok r →
        ConicProblem.ofProgram r.program (-r.objective) = .ok c →
        (∀ sol : Solution K, sol.HasMultipliers r.program.statements c.matchings →
          ∀ (i : ℕ) (m : Mode K), s.modes[i]? = some m → ∃ base position monomials moments,
            r.HasFlowBase i (s.time :: m.states ++ m.controls) base position ∧
              (SynthesisData.ofSolution p r sol).HasMoments (s.time :: m.states ++ m.controls) i
                c.matchings base position monomials moments) ∧
        (∀ (numbers : Prescription K) (sol : Solution K),
          c.solution r.program (.finished numbers) = .ok sol →
            sol.HasMultipliers r.program.statements c.matchings) ∧
        ∀ (sol : Solution K) (seconds : K) (results : Results K), settings.withInputs = true →
          Results.ofSolution p r sol seconds = .ok results →
            results.synthesis = some (.ofSolution p r sol)) ∧
      ∀ (s : HybridSystem Rat) (degree : Datum) (settings : Settings) (p : Problem Rat),
        s.IsPolynomial → (∀ m ∈ s.modes, m.drift.width = 1) →
        Problem.pose s degree settings = .ok p →
          ∃ r c, p.build = .ok r ∧ ConicProblem.ofProgram r.program (-r.objective) = .ok c ∧
            ∀ (values : List Rat) (sol : Solution Rat) (seconds : Rat),
              values.length = r.program.size → sol.values = Solution.valuesOf r.program values →
              List.Forall₂ SquareSum.FitsGram r.program.statements sol.grams →
                ∃ results, Results.ofSolution p r sol seconds = .ok results := by
  constructor
  · intro K _ _ s degree settings p r c hdistinct hpose hbuild hc
    obtain ⟨-, -, n, -, rfl⟩ := Problem.pose_eq_ok.mp hpose
    refine ⟨fun sol hsol i m hm => ?_, fun numbers sol => ConicProblem.hasMultipliers_of_solution,
      fun sol seconds results hinputs hresults => ?_⟩
    · obtain ⟨base, position, flow⟩ := Problem.exists_hasFlowBase hbuild hm
      have faithful := (Problem.isFaithful_of_build hbuild hdistinct).statements base
        (List.mem_of_getElem? flow.statement)
      obtain ⟨monomials, moments, has⟩ := flow.hasMoments faithful
        (ConicProblem.matchings_of_ofProgram hc) hsol
      exact ⟨base, position, monomials, moments, flow, has⟩
    · rw [(Results.ofSolution_inversion hresults).2.2, if_pos hinputs]
  · intro s degree settings p hs hwidth hpose
    obtain ⟨wellPosed, same, hdegree⟩ := Problem.isWellPosed_of_pose hs hpose
    obtain ⟨r, cs, built, relaxed⟩ := Problem.exists_build wellPosed (same ▸ hwidth)
    obtain ⟨c, hc⟩ := Problem.exists_conicProblem wellPosed relaxed
      (RelaxationDegree.pos_of_ofDatum hdegree).le
    exact ⟨r, c, built, hc, fun values sol seconds hvalues hsol hgrams =>
      Problem.exists_results hs hpose built hvalues hsol hgrams seconds⟩

theorem hasMoments_of_build_parkingSystem : ∃ p r c sol results d base position monomials moments,
    Problem.pose parkingSystem (.integer 2) { Settings.defaults with withInputs := true } = .ok p ∧
      p.build = .ok r ∧ ConicProblem.ofProgram r.program (-r.objective) = .ok c ∧
      Results.ofSolution p r sol 0 = .ok results ∧ results.synthesis = some d ∧
      r.HasFlowBase 0 [.named "t", .named "x", .named "u"] base position ∧
      d.HasMoments [.named "t", .named "x", .named "u"] 0 c.matchings base position monomials moments ∧
      ∃ reported, c.solution r.program (.finished ⟨[1], [1], [0], [1], "optimal"⟩) = .ok reported ∧
        reported.HasMultipliers r.program.statements c.matchings := by
  have posed : Problem.pose parkingSystem (.integer 2)
      { Settings.defaults with withInputs := true } =
        .ok ⟨parkingSystem, .ofPositive 2, { Settings.defaults with withInputs := true }⟩ :=
    Problem.pose_eq_ok.mpr ⟨validate_parkingSystem, by simp [Settings.defaults], _, rfl, rfl⟩
  obtain ⟨r, c, built, hc, exists_results⟩ := hasMoments_of_build.2 parkingSystem _ _ _
    isPolynomial_parkingSystem width_drift_parkingSystem posed
  obtain ⟨aligned, reports, synthesis⟩ := hasMoments_of_build.1 parkingSystem _ _ _ r c
    hasDistinctSymbols_parkingSystem posed built hc
  let sol : Solution Rat := { r.program.unitSolution with
    duals := c.matchings.map (fun m => List.replicate m.rows.length 1)
    dualBasis := List.zipWith Solution.dualMonomials r.program.statements c.matchings }
  have multipliers : sol.HasMultipliers r.program.statements c.matchings :=
    ⟨rfl, List.forall₂_map_right_iff.mpr (List.forall₂_same.mpr (fun m _ => by simp))⟩
  obtain ⟨results, hresults⟩ := exists_results _ sol 0 List.length_replicate rfl
    r.program.fitsGram_unitSolution
  obtain ⟨base, position, monomials, moments, flow, has⟩ := aligned sol multipliers 0 drivingMode rfl
  obtain ⟨reported, hreported⟩ : ∃ reported,
      c.solution r.program (.finished ⟨[1], [1], [0], [1], "optimal"⟩) = .ok reported :=
    c.exists_solution r.program (by simp [successStatuses]) (by simp) (by simp) (by simp) (by simp)
  exact ⟨_, r, c, sol, results, _, base, position, monomials, moments, posed, built, hc, hresults,
    synthesis sol 0 results rfl hresults, flow, has, reported, hreported, reports _ _ hreported⟩

end HybridRelaxation
