import Mathlib
import HybridRelaxation.Conic.Solution
import HybridRelaxation.Proofs.Relaxation.CertifiedValues
import HybridRelaxation.Proofs.SquareSum.Evaluation
import HybridRelaxation.Proofs.System.Subsolution

/-!
# Soundness of relaxations

At an exact feasible point of a built relaxation, the solved value functions are a subsolution of
the system at every real point.
-/

namespace HybridRelaxation

open MvPolynomial (C X pderiv)

/-! ## Steps of a mode -/

section

variable {s : HybridSystem Rat} {templates : List (ValueTemplate Rat)} {freeFinalTime : Bool}
  {i : ℕ} {m : Mode Rat} {template : ValueTemplate Rat} (hm : s.modes[i]? = some m)
  (ht : templates[i]? = some template)

include hm ht

theorem mem_assemblySteps {step : AssemblyStep Rat}
    (h : step ∈ modeSteps s templates horizon freeFinalTime i m template) :
    step ∈ assemblySteps s templates horizon freeFinalTime := by
  refine List.mem_flatMap.mpr ⟨((m, template), i), ?_, h⟩
  exact List.mem_zipIdx_iff_getElem?.mpr (List.getElem?_zip_eq_some.mpr ⟨hm, ht⟩)

theorem liouville_mem : liouvilleInequality s.time horizon i m template ∈
    certifiedBy (assemblySteps s templates horizon freeFinalTime) :=
  mem_certifiedBy.mpr (mem_assemblySteps hm ht (List.mem_cons_self ..))

theorem terminal_mem (hfixed : freeFinalTime = false) (htarget : m.targetSet ≠ []) :
    terminalInequality i m template ∈
      certifiedBy (assemblySteps s templates horizon freeFinalTime) := by
  refine mem_certifiedBy.mpr (mem_assemblySteps hm ht (List.mem_cons_of_mem _
    (List.mem_append_left _ (List.mem_append_left _ ?_))))
  simp [terminalSteps, htarget, hfixed]

theorem transition_mem {q : Inequality Rat} {j : ℕ} (hj : j < s.modeCount)
    (h : transitionSteps s templates horizon i m template j = [.certify q]) :
    q ∈ certifiedBy (assemblySteps s templates horizon freeFinalTime) := by
  refine mem_certifiedBy.mpr (mem_assemblySteps hm ht (List.mem_cons_of_mem _
    (List.mem_append_left _ (List.mem_append_right _ ?_))))
  exact List.mem_flatMap.mpr ⟨j, List.mem_range.mpr hj, by simp [h]⟩

end

/-! ## Values at feasible points -/

namespace FeasiblePoint

variable {p : SquareProgram Rat} (point : FeasiblePoint p)

noncomputable def valueFunction (templates : List (ValueTemplate Rat)) (i : ℕ) :
    MvPolynomial Symbol ℝ :=
  match templates[i]? with
  | some template => point.solved template.value
  | none => 0

theorem valueFunction_of_getElem? {templates : List (ValueTemplate Rat)} {i : ℕ}
    {template : ValueTemplate Rat} (h : templates[i]? = some template) :
    point.valueFunction templates i = point.solved template.value := by
  rw [valueFunction, h]

variable {time : Symbol} {degree : ℤ} {m : Mode Rat} {template : ValueTemplate Rat}

theorem eval_flowDerivative (hm : m.IsPolynomial time) (hc : m.IsConsistent time)
    (ht : template.Fits time degree p.decisions m) (x : Symbol → ℝ) :
    template.flowDerivative.eval (decided point.values x) =
      m.valueRate time (point.solved template.value) x := by
  have velocity : (m.velocity X).map (MvPolynomial.aeval x : MvPolynomial Symbol ℝ →ₐ[ℝ] ℝ) =
      m.velocity x := by
    have mapped := m.map_velocity
      ((MvPolynomial.aeval x : MvPolynomial Symbol ℝ →ₐ[ℝ] ℝ).restrictScalars ℚ) X
    refine Eq.trans mapped (ModeData.velocity_congr hc (fun s _ => ?_) (fun s _ => ?_))
    · exact MvPolynomial.aeval_X x s
    · exact MvPolynomial.aeval_X x s
  have states := map_innerValue (MvPolynomial.aeval x : MvPolynomial Symbol ℝ →ₐ[ℝ] ℝ).toRingHom
    (m.states.map (fun s => pderiv s (point.solved template.value))) (m.velocity X)
  have solved := ht.solvedAt_flow point.values hm hc
  have value := aeval_solvedAt point.values template.flowDerivative x
  refine Eq.trans value.symm ?_
  rw [solved, ModeData.flowPolynomial, map_add]
  refine congrArg₂ (· + ·) rfl (Eq.trans states ?_)
  rw [List.map_map]
  exact congrArg _ velocity

/-- An inequality that is secured holds where its constraints do. -/
theorem nonneg_of_secures (hp : p.IsRegular) {q : Inequality Rat}
    (h : ∃ c, p.Secures degree q c)
    {x : Symbol → ℝ} (hx : ∀ g ∈ q.constraints, 0 ≤ g.eval (decided point.values x)) :
    0 ≤ q.polynomial.eval (decided point.values x) := by
  obtain ⟨c, certificate⟩ := h
  exact point.nonneg_of_certifies hp certificate x hx

theorem timeWindow_nonneg (hnamed : time.isNamed = true) {x : Symbol → ℝ} (h₀ : 0 ≤ x time)
    (h₁ : x time ≤ 1) : 0 ≤ (timeWindow time horizon).eval (decided point.values x) := by
  rw [eval_timeWindow, decided_of_isNamed hnamed]
  exact mul_nonneg h₀ (sub_nonneg.mpr h₁)

end FeasiblePoint

/-! ## Soundness -/

namespace Problem

variable {p : Problem Rat} (hp : p.IsWellPosed) {r : Relaxation Rat}
  {cs : List SquareProgram.Certificate} (hr : p.IsRelaxedBy r cs)
  (point : FeasiblePoint r.program) {i : ℕ} {m : Mode Rat} (hm : p.system.modes[i]? = some m)
  {template : ValueTemplate Rat} (ht : r.templates[i]? = some template)

include hp hr hm ht

theorem flow_nonneg {x : Symbol → ℝ} (h₀ : 0 ≤ x p.system.time) (h₁ : x p.system.time ≤ 1)
    (hdomain : AllHold x m.domain) (hcontrol : AllHold x m.controlSet) :
    0 ≤ m.valueRate p.system.time (point.solved template.value) x + m.runningCost.eval x := by
  have hmem := List.mem_of_getElem? hm
  have polynomial := hp.polynomial.modes m hmem
  have consistent := hp.consistent.modes m hmem
  have fits := related_at hr.templates hm ht
  have nonneg := point.nonneg_of_secures hr.regular (hr.exists_certificate (liouville_mem hm ht)) (x := x)
    (fun g hg => ?_)
  · change 0 ≤ (template.flowDerivative + m.runningCost).eval (decided point.values x) at nonneg
    rwa [Expression.eval_add, point.eval_flowDerivative polynomial consistent fits,
      consistent.runningCost.eval_decided polynomial.named] at nonneg
  · have states : ∀ s ∈ m.states, s.isNamed = true := fun s hs => polynomial.named s (by simp [hs])
    have controls : ∀ s ∈ m.controls, s.isNamed = true :=
      fun s hs => polynomial.named s (by simp [hs])
    rcases List.mem_append.mp hg with hg | hg
    · rcases List.mem_cons.mp hg with rfl | hg
      · exact point.timeWindow_nonneg (polynomial.named _ (by simp)) h₀ h₁
      · rw [(consistent.domain g hg).eval_decided states]
        exact hdomain g hg
    · rw [(consistent.controlSet g hg).eval_decided controls]
      exact hcontrol g hg

theorem final_le (htarget : m.targetSet ≠ []) {x : Symbol → ℝ} (hx : x p.system.time = 1)
    (hall : AllHold x m.targetSet) :
    template.value.eval (decided point.values x) ≤ m.terminalCost.eval x := by
  have hmem := List.mem_of_getElem? hm
  have polynomial := hp.polynomial.modes m hmem
  have consistent := hp.consistent.modes m hmem
  have fits := related_at hr.templates hm ht
  have named : ∀ s ∈ p.system.time :: m.states, s.isNamed = true :=
    fun s hs => polynomial.named s (List.mem_append_left _ hs)
  have states : ∀ s ∈ m.states, s.isNamed = true := fun s hs => named s (by simp [hs])
  have fixed : p.settings.freeFinalTime = false := by
    by_contra h
    exact htarget (hp.final (by simpa using h) m hmem)
  have nonneg := point.nonneg_of_secures hr.regular
    (hr.exists_certificate (terminal_mem hm ht fixed htarget)) (x := x) (fun g hg => ?_)
  · change 0 ≤ (m.terminalCost - template.final).eval (decided point.values x) at nonneg
    have value := fits.eval_replaced_decided (isReplacement_final _ _)
      (fun _ h => hr.regular.isNamed_of_mem h) named states point.values (x := x) (y := x)
      (fun pair hpair => by rw [List.mem_singleton.mp hpair]; simp [hx]) (fun _ _ _ => rfl)
    rw [Expression.eval_sub, consistent.terminalCost.eval_decided states, fits.final,
      ValueTemplate.finalAt, value] at nonneg
    linarith
  · rw [(consistent.targetSet g hg).eval_decided states]
    exact hall g hg

omit hm ht in
theorem jump_le {t : Transition Rat} (htransition : t ∈ p.system.transitions)
    (hguard : t.guard ≠ []) {i j : ℕ} {source target : Mode Rat}
    (fits : t.Fits p.system.modes i j source target) {here next : ValueTemplate Rat}
    (hhere : r.templates[i]? = some here) (hnext : r.templates[j]? = some next)
    {x y : Symbol → ℝ} (h₀ : 0 ≤ x p.system.time) (h₁ : x p.system.time ≤ 1)
    (hall : AllHold x t.guard) (lands : t.Lands p.system.time source target x y) :
    here.value.eval (decided point.values x) ≤ next.value.eval (decided point.values y) := by
  have hsource := hp.polynomial.modes source (List.mem_of_getElem? fits.sourceMode)
  have htarget := hp.polynomial.modes target (List.mem_of_getElem? fits.targetMode)
  have transition := hp.polynomial.transitions t htransition
  have hfits := related_at hr.templates fits.targetMode hnext
  obtain ⟨reset, entries, steps⟩ :=
    transitionSteps_of_fits hp.consistent htransition hguard fits here hnext
  have bound : j < p.system.modeCount := (List.getElem?_eq_some_iff.mp fits.targetMode).1
  have states : ∀ s ∈ source.states, s.isNamed = true := fun s hs => hsource.named s (by simp [hs])
  have places : ∀ s ∈ p.system.time :: target.states, s.isNamed = true :=
    fun s hs => htarget.named s (List.mem_append_left _ hs)
  have nonneg := point.nonneg_of_secures hr.regular
    (hr.exists_certificate (transition_mem fits.sourceMode hhere bound steps)) (x := x) (fun g hg => ?_)
  · change 0 ≤ (valueAfter next reset - here.value).eval (decided point.values x) at nonneg
    have value := hfits.eval_replaced_decided (isReplacement_reset hp.polynomial htransition fits)
      (fun _ h => hr.regular.isNamed_of_mem h) places
      (fun s hs => hsource.named s (List.mem_append_left _ hs)) point.values (x := x) (y := y)
      (fun pair hpair => (List.forall₂_iff_zip.mp lands.states).2 hpair) (fun s hs hkey => ?_)
    · rw [Expression.eval_sub, valueAfter, hfits.states, entries, value] at nonneg
      linarith
    · rw [List.map_fst_zip (fits.length_resetEntries transition).ge] at hkey
      rw [(List.mem_cons.mp hs).resolve_right hkey, lands.time_eq]
  · rcases List.mem_cons.mp hg with rfl | hg
    · exact point.timeWindow_nonneg (places _ (by simp)) h₀ h₁
    · rw [(fits.guard g hg).eval_decided states]
      exact hall g hg

omit hm ht in
theorem isSubsolution_valueFunction :
    p.system.IsSubsolution (point.valueFunction r.templates) := by
  have solved {i : ℕ} {m : Mode Rat} (hm : p.system.modes[i]? = some m) :
      ∃ template, r.templates[i]? = some template ∧
        template.Fits p.system.time p.degree.value r.program.decisions m :=
    exists_right_at hr.templates hm
  refine ⟨fun i m hm x h₀ h₁ hdomain hcontrol => ?_, fun i m hm htarget x hx hall => ?_,
    fun t ht hguard i j source target connects x y h₀ h₁ hall lands => ?_,
    fun i m hm x y hxy => ?_⟩
  · obtain ⟨template, ht, -⟩ := solved hm
    rw [point.valueFunction_of_getElem? ht]
    exact flow_nonneg hp hr point hm ht h₀ h₁ hdomain hcontrol
  · obtain ⟨template, ht, -⟩ := solved hm
    rw [point.valueFunction_of_getElem? ht, point.eval_solved]
    exact final_le hp hr point hm ht htarget hx hall
  · have fits := connects.fits hp.consistent ht
    obtain ⟨here, hhere, -⟩ := solved fits.sourceMode
    obtain ⟨next, hnext, -⟩ := solved fits.targetMode
    rw [point.valueFunction_of_getElem? hhere, point.valueFunction_of_getElem? hnext,
      point.eval_solved, point.eval_solved]
    exact jump_le hp hr point ht hguard fits hhere hnext h₀ h₁ hall lands
  · obtain ⟨template, ht, fits⟩ := solved hm
    have named : ∀ s ∈ p.system.time :: m.states, s.isNamed = true := fun s hs =>
      (hp.polynomial.modes m (List.mem_of_getElem? hm)).named s (List.mem_append_left _ hs)
    rw [point.valueFunction_of_getElem? ht, point.eval_solved, point.eval_solved]
    refine fits.eval_congr (fun s hs => ?_) (fun s hs => ?_)
    · have unnamed := hr.regular.isNamed_of_mem hs
      cases s with
      | named name => simp [Symbol.isNamed] at unnamed
      | decision k label => rfl
    · rw [decided_of_isNamed (named s hs), decided_of_isNamed (named s hs), hxy s hs]

end Problem

/-! ## Evaluated expressions -/

section

variable {p : SquareProgram Rat} (hp : p.IsRegular) {values : List Rat}
  (hvalues : values.length = p.size)

include hp in
theorem nodup_decisions : p.decisions.Nodup := by
  rw [List.nodup_iff_getElem?_ne_getElem?]
  intro k l hkl hl heq
  have found := List.getElem?_eq_getElem hl
  obtain ⟨label, hlabel⟩ := hp.decisions l _ found
  obtain ⟨label', hlabel'⟩ := hp.decisions k _ (heq.trans found)
  have := (Symbol.decision.inj (hlabel.symm.trans hlabel')).1
  omega

include hp hvalues

theorem eval_evaluate_decided {e : Expression Rat} (he : e.IsPolynomial) {scope : List Symbol}
    (haffine : e.eval X ∈ affineSpan scope p.decisions)
    (hscope : ∀ s ∈ scope, s.isNamed = true) {R : Type*} [CommRing R] [Algebra ℚ R]
    (x : Symbol → R) : (evaluate e (Solution.valuesOf p values)).eval x =
      e.eval (decided (fun k => algebraMap ℚ R (values.getD k 0)) x) := by
  have keys : (Solution.valuesOf p values).map Prod.fst = p.decisions := List.map_fst_zip hvalues.ge
  refine eval_evaluate he (by rw [keys]; exact nodup_decisions hp) (fun s hs hmem => ?_)
    (by rwa [keys]) (fun s hs => decided_of_isNamed (hscope s hs) _ _) (fun entry hentry => ?_)
  · rw [keys] at hs
    exact hp.notMem_decisions (hscope s hmem) hs
  · obtain ⟨k, hk⟩ := List.mem_iff_getElem?.mp hentry
    obtain ⟨hdecision, hvalue⟩ := List.getElem?_zip_eq_some.mp hk
    obtain ⟨label, hlabel⟩ := hp.decisions k _ hdecision
    rw [hlabel, decided, List.getD_eq_getElem?_getD, hvalue]
    rfl

theorem eval_evaluate_values {e : Expression Rat} (he : e.IsPolynomial) {scope : List Symbol}
    (haffine : e.eval X ∈ affineSpan scope p.decisions)
    (hscope : ∀ s ∈ scope, s.isNamed = true) (x : Symbol → ℝ) :
    (evaluate e (Solution.valuesOf p values)).eval x =
      e.eval (decided (fun k => (values.getD k 0 : ℝ)) x) :=
  eval_evaluate_decided hp hvalues he haffine hscope x

end

/-! ## Relaxations of accepted systems -/

section

variable {s : HybridSystem Rat} {degree : Datum} {settings : Settings} {p : Problem Rat}
  {r : Relaxation Rat}

theorem Problem.eval_evaluate_value (hp : p.IsWellPosed) {cs : List SquareProgram.Certificate}
    (hr : p.IsRelaxedBy r cs) (point : FeasiblePoint r.program) {values : List Rat}
    (hlength : values.length = r.program.size)
    (hvalues : ∀ k, point.values k = (values.getD k 0 : ℝ)) {i : ℕ} {template : ValueTemplate Rat}
    (htemplate : r.templates[i]? = some template) (x : Symbol → ℝ) :
    (evaluate template.value (Solution.valuesOf r.program values)).eval x =
      MvPolynomial.eval x (point.valueFunction r.templates i) := by
  obtain ⟨m, hm, fits⟩ := exists_left_of_mem hr.templates (List.mem_of_getElem? htemplate)
  have affine : template.value.eval X ∈
      affineSpan (p.system.time :: m.states) r.program.decisions :=
    fits.mem_affineSpan (fun _ _ => rfl) (fun t ht => X_mem_scopePolynomials ht)
  rw [eval_evaluate_values hr.regular hlength fits.isPolynomial affine
    (named_places hp.polynomial hm), point.valueFunction_of_getElem? htemplate, point.eval_solved]
  congr 2
  exact funext (fun k => (hvalues k).symm)

/--
Certificate soundness.  Every exact feasible point of the relaxation that is built from an accepted
system solves the value functions of all modes to a subsolution, and these are the polynomials that
the templates are evaluated to.
-/
theorem isSubsolution_of_feasiblePoint (hs : s.IsPolynomial)
    (hpose : Problem.pose s degree settings = .ok p) (hbuild : p.build = .ok r)
    (point : FeasiblePoint r.program) :
    r.templates.length = s.modes.length ∧ s.IsSubsolution (point.valueFunction r.templates) ∧
      ∀ values : List Rat, values.length = r.program.size →
        (∀ k, point.values k = (values.getD k 0 : ℝ)) →
          ∀ i template, r.templates[i]? = some template → ∀ x : Symbol → ℝ,
            (evaluate template.value (Solution.valuesOf r.program values)).eval x =
              MvPolynomial.eval x (point.valueFunction r.templates i) := by
  obtain ⟨wellPosed, rfl, -⟩ := Problem.isWellPosed_of_pose hs hpose
  obtain ⟨cs, relaxed⟩ := Problem.isRelaxedBy_of_build wellPosed hbuild
  refine ⟨relaxed.templates.length_eq.symm,
    Problem.isSubsolution_valueFunction wellPosed relaxed point, ?_⟩
  intro values hlength hvalues i template htemplate x
  exact Problem.eval_evaluate_value wellPosed relaxed point hlength hvalues htemplate x

theorem isSubsolution_parkingSystem : ∃ p r,
    Problem.pose parkingSystem (.integer 2) Settings.defaults = .ok p ∧ p.build = .ok r ∧
      ∃ point : FeasiblePoint r.program, r.templates.length = 2 ∧
        parkingSystem.IsSubsolution (point.valueFunction r.templates) := by
  obtain ⟨p, r, posed, built, ⟨point⟩⟩ := exists_relaxation_parkingSystem (n := 2) (by decide)
  obtain ⟨count, subsolution, -⟩ :=
    isSubsolution_of_feasiblePoint isPolynomial_parkingSystem posed built point
  exact ⟨p, r, posed, built, point, count, subsolution⟩

end

end HybridRelaxation
