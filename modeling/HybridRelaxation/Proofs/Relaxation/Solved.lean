import Mathlib
import HybridRelaxation.Proofs.Rearrangement
import HybridRelaxation.Proofs.Relaxation.Assembly

/-!
# Solved inequalities

With values for the decisions, the polynomials of all inequalities are functions of the solved
templates alone.  So relaxations of a system whose templates are solved by the same polynomials,
whatever their degrees are, ask for the same inequalities and have the same objective.
-/

namespace HybridRelaxation

open MvPolynomial (C X pderiv)

section

variable {A : Type} [CommRing A] [Algebra ℚ A] (φ : ℕ → A)

/-! ## Data -/

theorem Expression.IsWithin.eval_decided {R : Type*} [CommRing R] [Algebra ℚ R]
    {e : Expression Rat} {scope : List Symbol} (he : e.IsWithin scope)
    (hscope : ∀ s ∈ scope, s.isNamed = true) (ψ : ℕ → R) (x : Symbol → R) :
    e.eval (decided ψ x) = e.eval x :=
  Expression.eval_congr e (fun s hs => decided_of_isNamed (hscope s (he s hs)) ψ x)

theorem Expression.IsWithin.solvedAt {e : Expression Rat} {scope : List Symbol}
    (he : e.IsWithin scope) (hscope : ∀ s ∈ scope, s.isNamed = true) :
    solvedAt φ e = e.eval X := he.eval_decided hscope _ _

/-! ## Templates -/

noncomputable def partials (A : Type) [CommRing A] [Algebra ℚ A] (s : Symbol) :
    Derivation ℚ (MvPolynomial Symbol A) (MvPolynomial Symbol A) :=
  (pderiv s : Derivation A (MvPolynomial Symbol A) _).restrictScalars ℚ

theorem differentiates_decided {symbols : List Symbol} (h : ∀ s ∈ symbols, s.isNamed = true) :
    Differentiates (decided (fun k => C (φ k)) X) (partials A) symbols := by
  classical
  intro s hs t
  have named := h s hs
  cases t with
  | named name =>
      change pderiv s (X (Symbol.named name)) = _
      rw [MvPolynomial.pderiv_X, Pi.single_apply]
      exact if_congr eq_comm rfl rfl
  | decision k label =>
      have differ : s ≠ .decision k label := by
        rintro rfl
        simp [Symbol.isNamed] at named
      rw [if_neg differ]
      exact MvPolynomial.pderiv_C

/-- The rate of change along the flow, as a polynomial. -/
noncomputable def ModeData.flowPolynomial (time : Symbol) (m : Mode Rat)
    (v : MvPolynomial Symbol A) : MvPolynomial Symbol A :=
  pderiv time v + alongVelocity (partials A) m.states (m.velocity X) v

namespace ValueTemplate.Fits

variable {time : Symbol} {degree : ℤ} {decisions : List Symbol} {m : Mode Rat}
  {template : ValueTemplate Rat}

theorem solvedAt_flow (h : template.Fits time degree decisions m) (hm : m.IsPolynomial time)
    (hc : m.IsConsistent time) :
    solvedAt φ template.flowDerivative = m.flowPolynomial time (solvedAt φ template.value) := by
  have velocity : m.velocity (decided (fun k => C (φ k)) X) =
      m.velocity (X : Symbol → MvPolynomial Symbol A) :=
    ModeData.velocity_congr hc
      (fun s hs => decided_of_isNamed (hm.named s (by simp [hs])) _ _)
      (fun s hs => decided_of_isNamed (hm.named s (by simp [hs])) _ _)
  have flow := h.flow _ _ (differentiates_decided φ
    (fun s hs => hm.named s (List.mem_append_left _ hs)))
  rw [velocity] at flow
  exact flow

variable {scope : List Symbol} {pairs : List (Symbol × Expression Rat)}

theorem eval_replaced_decided {R : Type*} [CommRing R] [Algebra ℚ R]
    (h : template.Fits time degree decisions m)
    (hpairs : IsReplacement (time :: m.states) scope pairs)
    (hdecisions : ∀ s ∈ decisions, s.isNamed = false)
    (hplaces : ∀ s ∈ time :: m.states, s.isNamed = true) (hscope : ∀ s ∈ scope, s.isNamed = true)
    (ψ : ℕ → R) {x y : Symbol → R} (hy : ∀ pair ∈ pairs, y pair.1 = pair.2.eval x)
    (hkept : ∀ s ∈ time :: m.states, s ∉ pairs.map Prod.fst → y s = x s) :
    (template.value.substitute (replacements pairs)).expand.eval (decided ψ x) =
      template.value.eval (decided ψ y) := by
  refine h.eval_replaced hpairs (fun pair hpair => ?_) (fun s hs hkey => ?_)
    (fun s hs => hpairs.notMem_keys hplaces (hdecisions s hs)) (fun s hs => ?_)
  · rw [decided_of_isNamed (hplaces _ (hpairs.keys pair hpair)), hy pair hpair,
      (hpairs.within pair hpair).eval_decided hscope]
  · rw [decided_of_isNamed (hplaces s hs), decided_of_isNamed (hplaces s hs), hkept s hs hkey]
  · have unnamed := hdecisions s hs
    cases s with
    | named name => simp [Symbol.isNamed] at unnamed
    | decision k label => rfl

/-- Replacing symbols before solving is replacing them afterwards. -/
theorem solvedAt_replaced (h : template.Fits time degree decisions m)
    (hpairs : IsReplacement (time :: m.states) scope pairs)
    (hdecisions : ∀ s ∈ decisions, s.isNamed = false)
    (hplaces : ∀ s ∈ time :: m.states, s.isNamed = true)
    (hscope : ∀ s ∈ scope, s.isNamed = true) :
    solvedAt φ (template.value.substitute (replacements pairs)).expand =
      MvPolynomial.aeval (pointAfter (X : Symbol → MvPolynomial Symbol A) (replacements pairs))
        (solvedAt φ template.value) := by
  rw [aeval_solvedAt]
  refine h.eval_replaced_decided hpairs hdecisions hplaces hscope _ (fun pair hpair => ?_)
    (fun s _ hkey => ?_)
  · rw [pointAfter, replacements_of_mem hpairs.distinct hpair]
  · rw [pointAfter, replacements_of_notMem hkey]

end ValueTemplate.Fits

end

/-! ## Inequalities -/

section

variable {A : Type} [CommRing A] [Algebra ℚ A] (φ : ℕ → A) {s : HybridSystem Rat}
  (hs : s.IsPolynomial) (hc : s.IsConsistent) {decisions : List Symbol}
  (hdecisions : ∀ t ∈ decisions, t.isNamed = false) {degree : ℤ}

theorem solvedAt_add (e f : Expression Rat) : solvedAt φ (e + f) = solvedAt φ e + solvedAt φ f :=
  Expression.eval_add _ e f

theorem solvedAt_sub (e f : Expression Rat) : solvedAt φ (e - f) = solvedAt φ e - solvedAt φ f :=
  Expression.eval_sub _ e f

include hs

theorem named_places {m : Mode Rat} (hm : m ∈ s.modes) :
    ∀ t ∈ s.time :: m.states, t.isNamed = true :=
  fun t ht => (hs.modes m hm).named t (List.mem_append_left _ ht)

section

variable {m : Mode Rat} (hm : m ∈ s.modes) {template : ValueTemplate Rat}
  (ht : template.Fits s.time degree decisions m)

include hm ht

include hc in
theorem solvedAt_liouville (i : ℕ) :
    solvedAt φ (liouvilleInequality s.time horizon i m template).polynomial =
      m.flowPolynomial s.time (solvedAt φ template.value) + m.runningCost.eval X := by
  rw [liouvilleInequality, solvedAt_add, ht.solvedAt_flow φ (hs.modes m hm) (hc.modes m hm),
    (hc.modes m hm).runningCost.solvedAt φ (hs.modes m hm).named]

include hdecisions

include hc in
theorem solvedAt_terminal (i : ℕ) :
    solvedAt φ (terminalInequality i m template).polynomial = m.terminalCost.eval X -
      MvPolynomial.aeval (pointAfter X (replacements [(s.time, (.number 1 : Expression Rat))]))
        (solvedAt φ template.value) := by
  have states : ∀ t ∈ m.states, t.isNamed = true :=
    fun t ht => named_places hs hm t (List.mem_cons_of_mem _ ht)
  rw [terminalInequality, solvedAt_sub, (hc.modes m hm).terminalCost.solvedAt φ states, ht.final,
    ValueTemplate.finalAt, ht.solvedAt_replaced φ (isReplacement_final s.time m.states) hdecisions
      (named_places hs hm) states]

include hc in
theorem solvedAt_initialValue {state : List Rat} (hstate : m.initialState = some state) :
    solvedAt φ (initialValue s.time m template state) =
      MvPolynomial.aeval (pointAfter X (replacements ((s.time, .zero) ::
        m.states.zip (state.map (fun c => (Expression.number c : Expression Rat))))))
          (solvedAt φ template.value) :=
  ht.solvedAt_replaced φ (isReplacement_initial (hs.modes m hm) (hc.modes m hm) hstate) hdecisions
    (named_places hs hm) (by simp)

end

include hdecisions in
theorem solvedAt_transition {t : Transition Rat} (htransition : t ∈ s.transitions) {i j : ℕ}
    {source target : Mode Rat} (fits : t.Fits s.modes i j source target)
    {here next : ValueTemplate Rat} (hnext : next.Fits s.time degree decisions target)
    {reset : Grid (Expression Rat)} (hreset : reset.entries = t.resetEntries source) (k l : ℕ) :
    solvedAt φ
        (transitionInequality s.time horizon k l source here next t.guard reset).polynomial =
      MvPolynomial.aeval
        (pointAfter X (replacements (target.states.zip (t.resetEntries source))))
          (solvedAt φ next.value) - solvedAt φ here.value := by
  rw [transitionInequality, solvedAt_sub, valueAfter, hnext.states, hreset,
    hnext.solvedAt_replaced φ (isReplacement_reset hs htransition fits) hdecisions
      (named_places hs (List.mem_of_getElem? fits.targetMode))
      (named_places hs (List.mem_of_getElem? fits.sourceMode))]

end

/-! ## Agreement -/

section

variable {A : Type} [CommRing A] [Algebra ℚ A] (φ ψ : ℕ → A)

/-- Two inequalities on the same set whose solved polynomials are the same. -/
structure Inequality.Agrees (q q' : Inequality Rat) : Prop where
  scope : q'.scope = q.scope
  constraints : q'.constraints = q.constraints
  polynomial : solvedAt ψ q'.polynomial = solvedAt φ q.polynomial

def AreSolvedAlike (τ : Equiv.Perm ℕ) (templates templates' : List (ValueTemplate Rat)) : Prop :=
  Rearranges τ (fun t t' => solvedAt ψ t'.value = solvedAt φ t.value) templates templates'

inductive AssemblyStep.Agrees : AssemblyStep Rat → AssemblyStep Rat → Prop
  | certify {q q' : Inequality Rat} (h : q.Agrees φ ψ q') : Agrees (.certify q) (.certify q')
  | addToObjective {e e' : Expression Rat} (h : solvedAt ψ e' = solvedAt φ e) :
      Agrees (.addToObjective e) (.addToObjective e')

variable {φ ψ}

theorem agrees_certifiedBy {steps steps' : List (AssemblyStep Rat)}
    (h : List.Forall₂ (AssemblyStep.Agrees φ ψ) steps steps') :
    List.Forall₂ (Inequality.Agrees φ ψ) (certifiedBy steps) (certifiedBy steps') := by
  induction h with
  | nil => exact .nil
  | @cons step step' steps steps' head _ ih =>
      cases head with
      | certify head => exact .cons head ih
      | addToObjective _ => exact ih

theorem solvedAt_foldl_addedBy {steps steps' : List (AssemblyStep Rat)}
    (h : List.Forall₂ (AssemblyStep.Agrees φ ψ) steps steps') {e e' : Expression Rat}
    (he : solvedAt ψ e' = solvedAt φ e) :
    solvedAt ψ ((addedBy steps').foldl (· + ·) e') =
      solvedAt φ ((addedBy steps).foldl (· + ·) e) := by
  induction h generalizing e e' with
  | nil => exact he
  | @cons step step' steps steps' head _ ih =>
      cases head with
      | certify _ => exact ih he
      | addToObjective head =>
          refine ih ?_
          rw [solvedAt_add, solvedAt_add, he, head]

section

variable {s : HybridSystem Rat} (hs : s.IsPolynomial) (hc : s.IsConsistent)
  {decisions decisions' : List Symbol} (hdecisions : ∀ t ∈ decisions, t.isNamed = false)
  (hdecisions' : ∀ t ∈ decisions', t.isNamed = false) {degree degree' : ℤ}

include hs hc hdecisions hdecisions'

section

variable {m : Mode Rat} (hm : m ∈ s.modes) {template template' : ValueTemplate Rat}
  (ht : template.Fits s.time degree decisions m) (ht' : template'.Fits s.time degree' decisions' m)
  (hsolved : solvedAt ψ template'.value = solvedAt φ template.value)

include hm ht ht' hsolved

omit hdecisions hdecisions' in
theorem agrees_liouville (i i' : ℕ) :
    (liouvilleInequality s.time horizon i m template).Agrees φ ψ
      (liouvilleInequality s.time horizon i' m template') :=
  ⟨rfl, rfl, by
    rw [solvedAt_liouville φ hs hc hm ht, solvedAt_liouville ψ hs hc hm ht', hsolved]⟩

theorem agrees_terminal (i i' : ℕ) :
    (terminalInequality i m template).Agrees φ ψ (terminalInequality i' m template') :=
  ⟨rfl, rfl, by
    rw [solvedAt_terminal φ hs hc hdecisions hm ht, solvedAt_terminal ψ hs hc hdecisions' hm ht',
      hsolved]⟩

theorem agrees_objectiveSteps :
    List.Forall₂ (AssemblyStep.Agrees φ ψ) (objectiveSteps s.time m template)
      (objectiveSteps s.time m template') := by
  unfold objectiveSteps
  cases hstate : m.initialState with
  | none => exact .nil
  | some state =>
      refine .cons (.addToObjective ?_) .nil
      rw [solvedAt_initialValue φ hs hc hdecisions hm ht hstate,
        solvedAt_initialValue ψ hs hc hdecisions' hm ht' hstate, hsolved]

theorem agrees_terminalSteps {freeFinalTime : Bool}
    (hfinal : freeFinalTime = true → ∀ m ∈ s.modes, m.targetSet = []) (i : ℕ) :
    List.Forall₂ (AssemblyStep.Agrees φ ψ) (terminalSteps freeFinalTime i m template)
      (terminalSteps freeFinalTime i m template') := by
  rw [terminalSteps_of_supported (fun hfree => hfinal hfree m hm),
    terminalSteps_of_supported (fun hfree => hfinal hfree m hm)]
  by_cases hempty : m.targetSet = []
  · simp [hempty]
  · rw [if_neg hempty, if_neg hempty]
    exact .cons (.certify (agrees_terminal hs hc hdecisions hdecisions' hm ht ht' hsolved i i)) .nil

end

omit hc in
theorem agrees_transition {t : Transition Rat} (htransition : t ∈ s.transitions) {i j : ℕ}
    {source target : Mode Rat} (fits : t.Fits s.modes i j source target)
    {here here' next next' : ValueTemplate Rat} (hnext : next.Fits s.time degree decisions target)
    (hnext' : next'.Fits s.time degree' decisions' target)
    (hvalue : solvedAt ψ here'.value = solvedAt φ here.value)
    (hvalue' : solvedAt ψ next'.value = solvedAt φ next.value)
    {reset reset' : Grid (Expression Rat)} (hreset : reset.entries = t.resetEntries source)
    (hreset' : reset'.entries = t.resetEntries source) (k l : ℕ) :
    (transitionInequality s.time horizon i j source here next t.guard reset).Agrees φ ψ
      (transitionInequality s.time horizon k l source here' next' t.guard reset') :=
  ⟨rfl, rfl, by
    rw [solvedAt_transition φ hs hdecisions htransition fits hnext hreset,
      solvedAt_transition ψ hs hdecisions' htransition fits hnext' hreset', hvalue, hvalue']⟩

variable {templates templates' : List (ValueTemplate Rat)}
  (ht : List.Forall₂ (ValueTemplate.Fits s.time degree decisions) s.modes templates)
  (ht' : List.Forall₂ (ValueTemplate.Fits s.time degree' decisions') s.modes templates')
  (hsolved : List.Forall₂ (fun t t' => solvedAt ψ t'.value = solvedAt φ t.value) templates
    templates')

include ht ht' hsolved

theorem agrees_transitionSteps {i : ℕ} {m : Mode Rat} (hm : s.modes[i]? = some m)
    {here here' : ValueTemplate Rat}
    (hvalue : solvedAt ψ here'.value = solvedAt φ here.value) (j : ℕ) :
    List.Forall₂ (AssemblyStep.Agrees φ ψ) (transitionSteps s templates horizon i m here j)
      (transitionSteps s templates' horizon i m here' j) := by
  cases found : s.transition? (.integer i) (.integer j) with
  | none => simp [transitionSteps, SystemData.guard, found]
  | some t =>
      obtain ⟨htransition, source, target, fits⟩ := fits_of_transition? hc found
      obtain rfl : source = m := Option.some.inj (fits.sourceMode.symm.trans hm)
      by_cases hguard : t.guard = []
      · simp [transitionSteps, guard_of_transition? found, hguard]
      · obtain ⟨next, hnext, hfits⟩ := exists_right_at ht fits.targetMode
        obtain ⟨next', hnext', hfits'⟩ := exists_right_at ht' fits.targetMode
        have hnexts := related_at hsolved hnext hnext'
        obtain ⟨reset, entries, steps⟩ :=
          transitionSteps_of_fits hc htransition hguard fits here hnext
        obtain ⟨reset', entries', steps'⟩ :=
          transitionSteps_of_fits hc htransition hguard fits here' hnext'
        rw [steps, steps']
        exact .cons (.certify (agrees_transition hs hdecisions hdecisions' htransition fits hfits
          hfits' hvalue hnexts entries entries' i j)) .nil

/-- Templates that are solved by the same polynomials ask for the same inequalities. -/
theorem agrees_assemblySteps {freeFinalTime : Bool}
    (hfinal : freeFinalTime = true → ∀ m ∈ s.modes, m.targetSet = []) :
    List.Forall₂ (AssemblyStep.Agrees φ ψ) (assemblySteps s templates horizon freeFinalTime)
      (assemblySteps s templates' horizon freeFinalTime) := by
  refine forall₂_assemblySteps rfl ht.length_eq.symm ht'.length_eq.symm
    (fun i m _ here here' hm hsame hhere hhere' => ?_)
  obtain rfl := Option.some.inj (hm.symm.trans hsame)
  have fits := related_at ht hm hhere
  have fits' := related_at ht' hm hhere'
  have hvalue := related_at hsolved hhere hhere'
  have hmem := List.mem_of_getElem? hm
  exact forall₂_modeSteps rfl (.certify (agrees_liouville hs hc hmem fits fits' hvalue i i))
    (agrees_terminalSteps hs hc hdecisions hdecisions' hmem fits fits' hvalue hfinal i)
    (agrees_transitionSteps hs hc hdecisions hdecisions' ht ht' hsolved hm hvalue)
    (agrees_objectiveSteps hs hc hdecisions hdecisions' hmem fits fits' hvalue)

end

end

end HybridRelaxation
