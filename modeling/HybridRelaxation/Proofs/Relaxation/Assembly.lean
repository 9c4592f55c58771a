import Mathlib
import HybridRelaxation.Proofs.Relaxation.ValueTemplate
import HybridRelaxation.Proofs.SquareSum.Nonnegativity
import HybridRelaxation.Relaxation.Problem

/-!
# Assemblies over polynomial systems

Every inequality of a consistent polynomial system is a polynomial in its scope, affine in the
decisions.  So no step of its assembly fails, and in the end each inequality that was asked for has
a certificate in the program.
-/

namespace HybridRelaxation

open MvPolynomial (X)

/-! ## Steps -/

/-- A polynomial over its scope, affine in decisions, on a set of polynomials in the scope. -/
structure Inequality.IsRegular (decisions : List Symbol) (q : Inequality Rat) : Prop where
  distinct : q.scope.Nodup
  named : ∀ t ∈ q.scope, t.isNamed = true
  polynomial : q.polynomial.IsPolynomial
  affine : q.polynomial.eval X ∈ affineSpan q.scope decisions
  constraints : ∀ g ∈ q.constraints, g.IsPolynomial
  within : ∀ g ∈ q.constraints, g.eval X ∈ scopePolynomials q.scope

def SquareProgram.Secures (p : SquareProgram Rat) (degree : ℤ) (q : Inequality Rat)
    (c : SquareProgram.Certificate) : Prop :=
  p.Certifies q.polynomial q.scope q.constraints degree c

def AssemblyStep.IsRegular (decisions : List Symbol) : AssemblyStep Rat → Prop
  | .certify q => q.IsRegular decisions
  | .addToObjective _ => True
  | .abandon _ _ => False
  | .refuse _ => False

def certifiedBy {K : Type} (steps : List (AssemblyStep K)) : List (Inequality K) :=
  steps.filterMap fun
    | .certify q => some q
    | _ => none

def addedBy (steps : List (AssemblyStep Rat)) : List (Expression Rat) :=
  steps.filterMap fun
    | .addToObjective e => some e
    | _ => none

theorem mem_certifiedBy {K : Type} {steps : List (AssemblyStep K)} {q : Inequality K} :
    q ∈ certifiedBy steps ↔ .certify q ∈ steps := by
  simp only [certifiedBy, List.mem_filterMap]
  constructor
  · rintro ⟨step, hstep, h⟩
    cases step <;> simp_all
  · intro h
    exact ⟨_, h, rfl⟩

section

variable {K : Type} [Scalar K] {s : HybridSystem K} {templates : List (ValueTemplate K)} {T : K}
  {freeFinalTime : Bool} {step : AssemblyStep K}

theorem mem_assemblySteps_iff : step ∈ assemblySteps s templates T freeFinalTime ↔
    ∃ i m template, s.modes[i]? = some m ∧ templates[i]? = some template ∧
      step ∈ modeSteps s templates T freeFinalTime i m template := by
  rw [assemblySteps, List.mem_flatMap]
  constructor
  · rintro ⟨⟨⟨m, template⟩, i⟩, hmem, hstep⟩
    obtain ⟨hm, ht⟩ := List.getElem?_zip_eq_some.mp (List.mem_zipIdx_iff_getElem?.mp hmem)
    exact ⟨i, m, template, hm, ht, hstep⟩
  · rintro ⟨i, m, template, hm, ht, hstep⟩
    exact ⟨((m, template), i),
      List.mem_zipIdx_iff_getElem?.mpr (List.getElem?_zip_eq_some.mpr ⟨hm, ht⟩), hstep⟩

variable {i : ℕ} {m : Mode K} {template : ValueTemplate K}

theorem mem_objectiveSteps {time : Symbol} : step ∈ objectiveSteps time m template ↔
    ∃ state, m.initialState = some state ∧
      step = .addToObjective (initialValue time m template state) := by
  unfold objectiveSteps
  cases m.initialState <;> simp

theorem mem_modeSteps : step ∈ modeSteps s templates T freeFinalTime i m template ↔
    step = .certify (liouvilleInequality s.time T i m template) ∨
      step ∈ terminalSteps freeFinalTime i m template ∨
      (∃ j < s.modeCount, step ∈ transitionSteps s templates T i m template j) ∨
      ∃ state, m.initialState = some state ∧
        step = .addToObjective (initialValue s.time m template state) := by
  simp only [modeSteps, List.mem_cons, List.mem_append, List.mem_flatMap, List.mem_range,
    mem_objectiveSteps, or_assoc]

end

theorem Inequality.IsRegular.extend {decisions more : List Symbol} {q : Inequality Rat}
    (h : q.IsRegular decisions) (hmore : ∀ s ∈ decisions, s ∈ more) : q.IsRegular more :=
  ⟨h.distinct, h.named, h.polynomial, affineSpan_mono hmore h.affine, h.constraints, h.within⟩

theorem AssemblyStep.IsRegular.extend {decisions more : List Symbol} {step : AssemblyStep Rat}
    (h : step.IsRegular decisions) (hmore : ∀ s ∈ decisions, s ∈ more) : step.IsRegular more := by
  cases step with
  | certify q => exact Inequality.IsRegular.extend h hmore
  | addToObjective e => trivial
  | abandon q f => exact h
  | refuse f => exact h

/-- The polynomials have the degrees of the multipliers of an inequality. -/
def AreShares {A : Type} [CommRing A] (degree : ℤ) (q : Inequality Rat)
    (shares : List (MvPolynomial Symbol A)) : Prop :=
  List.Forall₂ (SquareProgram.IsShare q.scope degree) q.constraints shares

def HasShares {A : Type} [CommRing A] [Algebra ℚ A] (ψ : ℕ → A) (c : SquareProgram.Certificate)
    (shares : List (MvPolynomial Symbol A)) : Prop :=
  List.Forall₂ (fun s share => solvedAt ψ s.polynomial = share) c.multipliers shares

theorem HasShares.congr {A : Type} [CommRing A] [Algebra ℚ A] {φ ψ : ℕ → A}
    {c : SquareProgram.Certificate} {shares : List (MvPolynomial Symbol A)}
    (h : HasShares φ c shares) {p : SquareProgram Rat} (hp : p.IsRegular) {degree : ℤ}
    {q : Inequality Rat} (hc : p.Secures degree q c) (hagree : ∀ k < p.size, ψ k = φ k) :
    HasShares ψ c shares := by
  refine forall₂_imp_of_mem h (fun s hs share hshare => ?_)
  obtain ⟨g, -, multiplier⟩ := exists_right_of_mem hc.weights hs
  rw [hp.solvedAt_statement hagree multiplier.mem, hshare]

namespace Assembly

section

variable {K : Type} [Scalar K] {a b : Assembly K} {degree : ℤ} {step : AssemblyStep K}
  {steps : List (AssemblyStep K)}

theorem takeAll_cons_eq_ok : a.takeAll degree (step :: steps) = (b, .ok ()) ↔
    ∃ a', a.take degree step = (a', .ok ()) ∧ a'.takeAll degree steps = (b, .ok ()) := by
  rw [takeAll]
  split <;> simp_all

theorem takeAll_cons_eq_error {f : Failure} :
    a.takeAll degree (step :: steps) = (b, .error f) ↔ a.take degree step = (b, .error f) ∨
      ∃ a', a.take degree step = (a', .ok ()) ∧ a'.takeAll degree steps = (b, .error f) := by
  rw [takeAll]
  split <;> simp_all

end

/-- What taking steps adds: certificates, and nothing else, with free choice of multipliers. -/
structure Proceeds (a b : Assembly Rat) (degree : ℤ) (qs : List (Inequality Rat))
    (cs : List SquareProgram.Certificate) : Prop where
  growth : a.program.Extends b.program
  regular : b.program.IsRegular
  statements : b.program.statements =
    a.program.statements ++ cs.flatMap SquareProgram.Certificate.statements
  secured : List.Forall₂ (b.program.Secures degree) qs cs
  assigns : ∀ {A : Type} [CommRing A] [Algebra ℚ A] (ψ : ℕ → A)
    (shares : List (List (MvPolynomial Symbol A))), List.Forall₂ (AreShares degree) qs shares →
      ∃ ψ' : ℕ → A, (∀ k < a.program.size, ψ' k = ψ k) ∧ List.Forall₂ (HasShares ψ') cs shares

theorem Proceeds.refl {a : Assembly Rat} (ha : a.program.IsRegular) (degree : ℤ) :
    a.Proceeds a degree [] [] := by
  refine ⟨.refl _, ha, by simp, .nil, fun ψ shares hshares => ?_⟩
  obtain rfl := List.forall₂_nil_left_iff.mp hshares
  exact ⟨ψ, fun _ _ => rfl, .nil⟩

theorem Proceeds.cons {a b c : Assembly Rat} {degree : ℤ} {q : Inequality Rat}
    {qs : List (Inequality Rat)} {d : SquareProgram.Certificate}
    {cs : List SquareProgram.Certificate} (first : a.Proceeds b degree [q] [d])
    (others : b.Proceeds c degree qs cs) : a.Proceeds c degree (q :: qs) (d :: cs) := by
  have secured := (List.forall₂_cons.mp first.secured).1
  refine ⟨first.growth.trans others.growth, others.regular, ?_,
    .cons (secured.extend others.growth) others.secured, fun ψ shares hshares => ?_⟩
  · simp [others.statements, first.statements]
  · cases hshares with
    | @cons _ share _ shares hshare hshares =>
        obtain ⟨ψ₁, agree, values⟩ := first.assigns ψ [share] (.cons hshare .nil)
        obtain ⟨ψ₂, agree', values'⟩ := others.assigns ψ₁ shares hshares
        refine ⟨ψ₂, fun k hk => ?_, .cons ?_ values'⟩
        · rw [agree' k (hk.trans_le first.growth.decisions.length_le), agree k hk]
        · exact ((List.forall₂_cons.mp values).1).congr first.regular secured agree'

variable {a : Assembly Rat} (ha : a.program.IsRegular) (degree : ℤ)

include ha

theorem certify_spec {q : Inequality Rat} (hq : q.IsRegular a.program.decisions) :
    ∃ b c, a.certify degree q = (b, .ok ()) ∧ a.Proceeds b degree [q] [c] ∧
      b.objective = a.objective := by
  obtain ⟨program, c, hresult, growth, regular, statements, certificate, assigns⟩ :=
    SquareProgram.nonnegativeOn_spec hq.distinct hq.named hq.constraints hq.within degree
      q.place.name ha hq.polynomial hq.affine
  have outcome : (a.certify degree q).1.program = program ∧
      (a.certify degree q).1.objective = a.objective ∧ (a.certify degree q).2 = .ok () := by
    simp only [certify, hresult, and_self]
  obtain ⟨rfl, objective, success⟩ := outcome
  refine ⟨_, c, Prod.ext rfl success, ⟨growth, regular, by simpa using statements,
    .cons certificate .nil, fun ψ shares hshares => ?_⟩, objective⟩
  obtain ⟨share, rfl⟩ := List.length_eq_one_iff.mp hshares.length_eq.symm
  obtain ⟨ψ', agree, values⟩ := assigns ψ share (List.forall₂_cons.mp hshares).1
  exact ⟨ψ', agree, .cons values .nil⟩

/-- Regular steps are all taken, and each inequality is secured in the end. -/
theorem takeAll_spec {steps : List (AssemblyStep Rat)}
    (hsteps : ∀ step ∈ steps, step.IsRegular a.program.decisions) :
    ∃ b cs, a.takeAll degree steps = (b, .ok ()) ∧
      a.Proceeds b degree (certifiedBy steps) cs ∧
      b.objective = (addedBy steps).foldl (· + ·) a.objective := by
  induction steps generalizing a with
  | nil => exact ⟨a, [], rfl, .refl ha degree, rfl⟩
  | cons step steps ih =>
      have head := hsteps step (by simp)
      have tail : ∀ next ∈ steps, next.IsRegular a.program.decisions :=
        fun next hnext => hsteps next (by simp [hnext])
      cases step with
      | certify q =>
          obtain ⟨b, c, hb, first, objective⟩ := certify_spec ha degree head
          obtain ⟨d, cs, hd, others, objective'⟩ := ih first.regular
            (fun next hnext => (tail next hnext).extend first.growth.decisions.subset)
          refine ⟨d, c :: cs, ?_, first.cons others, ?_⟩
          · exact takeAll_cons_eq_ok.mpr ⟨b, hb, hd⟩
          · rw [objective', objective]
            rfl
      | addToObjective e =>
          obtain ⟨d, cs, hd, others, objective⟩ :=
            ih (a := { a with objective := a.objective + e }) ha tail
          exact ⟨d, cs, hd, ⟨others.growth, others.regular, others.statements, others.secured,
            others.assigns⟩, objective⟩
      | abandon q f => exact head.elim
      | refuse f => exact head.elim

end Assembly

/-! ## Inequalities of a mode -/

theorem isPolynomial_timeWindow (time : Symbol) {T : Rat} : (timeWindow time T).IsPolynomial :=
  Expression.isPolynomial_mul (Expression.isPolynomial_ofSymbol time)
    (Expression.isPolynomial_sub (Expression.isPolynomial_number _)
      (Expression.isPolynomial_ofSymbol time))

theorem eval_timeWindow {R : Type*} [CommRing R] [Algebra ℚ R] (ρ : Symbol → R) (time : Symbol) :
    (timeWindow time horizon).eval ρ = ρ time * (1 - ρ time) := by
  rw [timeWindow, Expression.eval_mul ρ (Expression.isPolynomial_ofSymbol time)
    (Expression.isPolynomial_sub (Expression.isPolynomial_number _)
      (Expression.isPolynomial_ofSymbol time))]
  simp [horizon_rat]

theorem timeWindow_mem {time : Symbol} {scope : List Symbol} (h : time ∈ scope) :
    (timeWindow time horizon).eval X ∈ scopePolynomials scope := by
  rw [eval_timeWindow]
  have hX := X_mem_scopePolynomials h
  exact mul_mem hX (sub_mem (one_mem _) hX)

theorem Expression.IsWithin.eval_mem {e : Expression Rat} {small large : List Symbol}
    (he : e.IsWithin small) (h : ∀ s ∈ small, s ∈ large) : e.eval X ∈ scopePolynomials large :=
  Expression.eval_mem_scopePolynomials (fun s hs => h s (he s hs))

theorem innerValue_mem_affineSpan {scope decisions : List Symbol}
    {ds ws : List (MvPolynomial Symbol ℚ)} (hds : ∀ d ∈ ds, d ∈ affineSpan scope decisions)
    (hws : ∀ w ∈ ws, w ∈ scopePolynomials scope) : innerValue ds ws ∈ affineSpan scope decisions := by
  induction ds generalizing ws with
  | nil => simp
  | cons d ds ih =>
      cases ws with
      | nil => simp
      | cons w ws =>
          rw [innerValue_cons, mul_comm]
          exact add_mem (mul_mem_affineSpan (hws w (by simp)) (hds d (by simp)))
            (ih (fun e he => hds e (by simp [he])) (fun e he => hws e (by simp [he])))

theorem innerValue_mem {scope : List Symbol} {ds ws : List (MvPolynomial Symbol ℚ)}
    (hds : ∀ d ∈ ds, d ∈ scopePolynomials scope) (hws : ∀ w ∈ ws, w ∈ scopePolynomials scope) :
    innerValue ds ws ∈ scopePolynomials scope := by
  induction ds generalizing ws with
  | nil => simp
  | cons d ds ih =>
      cases ws with
      | nil => simp
      | cons w ws =>
          rw [innerValue_cons]
          exact add_mem (mul_mem (hds d (by simp)) (hws w (by simp)))
            (ih (fun e he => hds e (by simp [he])) (fun e he => hws e (by simp [he])))

section

variable {time : Symbol} {m : Mode Rat} (hm : m.IsPolynomial time) (hc : m.IsConsistent time)
  {decisions : List Symbol} (hdecisions : ∀ s ∈ decisions, s.isNamed = false) {degree : ℤ}
  {template : ValueTemplate Rat} (ht : template.Fits time degree decisions m)

theorem not_isNamed_of_mem {decisions : List Symbol}
    (hdecisions : ∀ s ∈ decisions, s.isNamed = false) {s : Symbol} (hs : s.isNamed = true) :
    s ∉ decisions := by
  intro hmem
  rw [hdecisions s hmem] at hs
  simp at hs

include hc

theorem velocity_mem : ∀ w ∈ m.velocity (X : Symbol → MvPolynomial Symbol ℚ),
    w ∈ scopePolynomials (time :: m.states ++ m.controls) := by
  have states : ∀ s ∈ m.states, s ∈ time :: m.states ++ m.controls := by
    intro s hs
    simp [hs]
  intro w hw
  obtain ⟨k, hk, rfl⟩ := List.mem_iff_getElem.mp hw
  simp only [ModeData.velocity, List.getElem_zipWith, List.getElem_map]
  refine add_mem ((hc.drift _ (List.getElem_mem _)).eval_mem states)
    (innerValue_mem (fun d hd => ?_) (fun d hd => ?_))
  · obtain ⟨e, he, rfl⟩ := List.mem_map.mp hd
    exact (hc.input e (List.mem_flatten.mpr ⟨_, List.getElem_mem _, he⟩)).eval_mem states
  · obtain ⟨u, hu, rfl⟩ := List.mem_map.mp hd
    exact X_mem_scopePolynomials (by simp [hu])

include hm hdecisions ht

theorem ValueTemplate.Fits.flow_mem_affineSpan :
    template.flowDerivative.eval X ∈ affineSpan (time :: m.states ++ m.controls) decisions := by
  have scope : ∀ s ∈ time :: m.states, s ∈ time :: m.states ++ m.controls :=
    fun s hs => List.mem_append_left _ hs
  have value : template.value.eval X ∈ affineSpan (time :: m.states ++ m.controls) decisions :=
    ht.mem_affineSpan (fun _ _ => rfl) (fun s hs => X_mem_scopePolynomials (scope s hs))
  have change {s : Symbol} (hs : s ∈ time :: m.states) := pderiv_mem_affineSpan
    (not_isNamed_of_mem hdecisions (hm.named s (scope s hs))) value
  rw [ht.flow X (fun s => MvPolynomial.pderiv s) (differentiates_X _)]
  refine add_mem (change (by simp)) (innerValue_mem_affineSpan ?_ (velocity_mem hc))
  intro d hd
  obtain ⟨s, hs, rfl⟩ := List.mem_map.mp hd
  exact change (by simp [hs])

theorem isRegular_liouville (i : ℕ) :
    (liouvilleInequality time horizon i m template).IsRegular decisions := by
  have constraints : ∀ g ∈ timeWindow time horizon :: m.domain ++ m.controlSet, g.IsPolynomial ∧
      g.eval X ∈ scopePolynomials (time :: m.states ++ m.controls) := by
    intro g hg
    rcases List.mem_append.mp hg with hg | hg
    · rcases List.mem_cons.mp hg with rfl | hg
      · exact ⟨isPolynomial_timeWindow time, timeWindow_mem (by simp)⟩
      · exact ⟨hm.domain g hg, (hc.domain g hg).eval_mem (fun s hs => by simp [hs])⟩
    · exact ⟨hm.controlSet g hg, (hc.controlSet g hg).eval_mem (fun s hs => by simp [hs])⟩
  refine ⟨hm.distinct, hm.named, Expression.isPolynomial_add ht.isPolynomial_flow hm.runningCost,
    ?_, fun g hg => (constraints g hg).1, fun g hg => (constraints g hg).2⟩
  change (template.flowDerivative + m.runningCost).eval X ∈ _
  rw [Expression.eval_add]
  exact add_mem (ht.flow_mem_affineSpan hm hc hdecisions)
    (mem_affineSpan_of_mem (hc.runningCost.eval_mem (fun _ hs => hs)))

theorem isRegular_terminal (i : ℕ) : (terminalInequality i m template).IsRegular decisions := by
  have distinct := (List.nodup_append.mp hm.distinct).1
  have named : ∀ s ∈ m.states, s.isNamed = true := fun s hs => hm.named s (by simp [hs])
  have places : ∀ s ∈ time :: m.states, s.isNamed = true :=
    fun s hs => hm.named s (List.mem_append_left _ hs)
  have replacement := isReplacement_final time m.states
  have final : template.final.IsPolynomial ∧
      template.final.eval X ∈ affineSpan m.states decisions := by
    rw [ht.final]
    exact ⟨ht.isPolynomial_replaced replacement, ht.replaced_mem_affineSpan replacement
      (fun s hs => replacement.notMem_keys places (hdecisions s hs))⟩
  refine ⟨distinct.of_cons, named, Expression.isPolynomial_sub hm.terminalCost final.1, ?_,
    hm.targetSet, fun g hg => (hc.targetSet g hg).eval_mem (fun _ hs => hs)⟩
  change (m.terminalCost - template.final).eval X ∈ affineSpan m.states decisions
  rw [Expression.eval_sub]
  exact sub_mem (mem_affineSpan_of_mem (hc.terminalCost.eval_mem (fun _ hs => hs))) final.2

end

/-! ## Inequalities of a transition -/

section

variable {s : HybridSystem Rat} (hs : s.IsPolynomial) (hc : s.IsConsistent)
  {decisions : List Symbol} (hdecisions : ∀ t ∈ decisions, t.isNamed = false) {degree : ℤ}
  {templates : List (ValueTemplate Rat)}
  (ht : List.Forall₂ (ValueTemplate.Fits s.time degree decisions) s.modes templates)

include hs hdecisions in
theorem isRegular_transition {t : Transition Rat} (htransition : t ∈ s.transitions) {i j : ℕ}
    {source target : Mode Rat} (fits : t.Fits s.modes i j source target)
    {here next : ValueTemplate Rat} (hhere : here.Fits s.time degree decisions source)
    (hnext : next.Fits s.time degree decisions target) {reset : Grid (Expression Rat)}
    (hreset : reset.entries = t.resetEntries source) :
    (transitionInequality s.time horizon i j source here next t.guard reset).IsRegular
      decisions := by
  have hsource := hs.modes source (List.mem_of_getElem? fits.sourceMode)
  have htarget := hs.modes target (List.mem_of_getElem? fits.targetMode)
  have transition := hs.transitions t htransition
  have replacement := isReplacement_reset hs htransition fits
  have after : (valueAfter next reset).IsPolynomial ∧
      (valueAfter next reset).eval X ∈ affineSpan (s.time :: source.states) decisions := by
    rw [valueAfter, hnext.states, hreset]
    exact ⟨hnext.isPolynomial_replaced replacement, hnext.replaced_mem_affineSpan replacement
      (fun u hu => replacement.notMem_keys
        (fun v hv => htarget.named v (List.mem_append_left _ hv)) (hdecisions u hu))⟩
  have value : here.value.eval X ∈ affineSpan (s.time :: source.states) decisions :=
    hhere.mem_affineSpan (fun _ _ => rfl) (fun u hu => X_mem_scopePolynomials hu)
  refine ⟨(List.nodup_append.mp hsource.distinct).1,
    fun u hu => hsource.named u (List.mem_append_left _ hu),
    Expression.isPolynomial_sub after.1 hhere.isPolynomial, ?_,
    List.forall_mem_cons.mpr ⟨isPolynomial_timeWindow _, transition.guard⟩,
    List.forall_mem_cons.mpr ⟨timeWindow_mem (by simp [transitionInequality]),
      fun g hg => (fits.guard g hg).eval_mem (fun u hu => by simp [transitionInequality, hu])⟩⟩
  change (valueAfter next reset - here.value).eval X ∈ affineSpan (s.time :: source.states) decisions
  rw [Expression.eval_sub]
  exact sub_mem after.2 value

/-! ## All steps -/

theorem terminalSteps_of_supported {freeFinalTime : Bool} {m : Mode Rat}
    (h : freeFinalTime = true → m.targetSet = []) (i : ℕ) (template : ValueTemplate Rat) :
    terminalSteps freeFinalTime i m template =
      if m.targetSet = [] then [] else [.certify (terminalInequality i m template)] := by
  unfold terminalSteps
  by_cases hempty : m.targetSet = []
  · simp [hempty]
  · have fixed : freeFinalTime = false := by
      by_contra hfree
      exact hempty (h (by simpa using hfree))
    simp [hempty, fixed]

theorem transitionSteps_of_fits (hc : s.IsConsistent) {t : Transition Rat}
    (htransition : t ∈ s.transitions) (hguard : t.guard ≠ []) {i j : ℕ} {source target : Mode Rat}
    (fits : t.Fits s.modes i j source target) (here : ValueTemplate Rat)
    {next : ValueTemplate Rat} (hnext : templates[j]? = some next) :
    ∃ reset, reset.entries = t.resetEntries source ∧
      transitionSteps s templates horizon i source here j =
        [.certify (transitionInequality s.time horizon i j source here next t.guard reset)] := by
  have found := transition?_eq_some hc htransition fits
  obtain ⟨reset, hreset, entries⟩ := exists_reset found fits.sourceMode
  refine ⟨reset, entries, ?_⟩
  simp [transitionSteps, guard_of_transition? found, hguard, hnext, hreset]

include hc ht

theorem transitionSteps_inversion {i j : ℕ} {m : Mode Rat} (hm : s.modes[i]? = some m)
    (here : ValueTemplate Rat) {step : AssemblyStep Rat}
    (h : step ∈ transitionSteps s templates horizon i m here j) :
    ∃ t ∈ s.transitions, t.guard ≠ [] ∧ ∃ target, t.Fits s.modes i j m target ∧ ∃ next,
      templates[j]? = some next ∧ next.Fits s.time degree decisions target ∧
      ∃ reset : Grid (Expression Rat), reset.entries = t.resetEntries m ∧
        step = .certify (transitionInequality s.time horizon i j m here next t.guard reset) := by
  cases found : s.transition? (.integer i) (.integer j) with
  | none => simp [transitionSteps, SystemData.guard, found] at h
  | some t =>
      obtain ⟨htransition, source, target, fits⟩ := fits_of_transition? hc found
      obtain rfl : source = m := Option.some.inj (fits.sourceMode.symm.trans hm)
      by_cases hguard : t.guard = []
      · simp [transitionSteps, guard_of_transition? found, hguard] at h
      · obtain ⟨next, hnext, hnextFits⟩ := exists_right_at ht fits.targetMode
        obtain ⟨reset, entries, steps⟩ :=
          transitionSteps_of_fits hc htransition hguard fits here hnext
        rw [steps] at h
        exact ⟨t, htransition, hguard, target, fits, next, hnext, hnextFits, reset, entries,
          List.mem_singleton.mp h⟩

/--
The steps of an assembly one by one: a property of all flow, final and jump inequalities and of all
initial values, each at the positions of its modes, is a property of every step.
-/
theorem forall_assemblySteps_at {freeFinalTime : Bool}
    (hfinal : freeFinalTime = true → ∀ m ∈ s.modes, m.targetSet = [])
    {P : AssemblyStep Rat → Prop}
    (flow : ∀ (i : ℕ) (m : Mode Rat) (template : ValueTemplate Rat), s.modes[i]? = some m →
      templates[i]? = some template → template.Fits s.time degree decisions m →
        P (.certify (liouvilleInequality s.time horizon i m template)))
    (final : ∀ (i : ℕ) (m : Mode Rat) (template : ValueTemplate Rat), s.modes[i]? = some m →
      templates[i]? = some template → template.Fits s.time degree decisions m →
        m.targetSet ≠ [] → P (.certify (terminalInequality i m template)))
    (jump : ∀ t ∈ s.transitions, t.guard ≠ [] → ∀ (i j : ℕ) (source target : Mode Rat),
      t.Fits s.modes i j source target → ∀ here next : ValueTemplate Rat,
        templates[i]? = some here → templates[j]? = some next →
          here.Fits s.time degree decisions source → next.Fits s.time degree decisions target →
          ∀ reset : Grid (Expression Rat), reset.entries = t.resetEntries source →
            P (.certify (transitionInequality s.time horizon i j source here next t.guard reset)))
    (initial : ∀ (i : ℕ) (m : Mode Rat) (template : ValueTemplate Rat), s.modes[i]? = some m →
      templates[i]? = some template → template.Fits s.time degree decisions m →
        ∀ state, m.initialState = some state →
          P (.addToObjective (initialValue s.time m template state))) :
    ∀ step ∈ assemblySteps s templates horizon freeFinalTime, P step := by
  intro step hstep
  obtain ⟨i, m, here, hm, hhere, hstep⟩ := mem_assemblySteps_iff.mp hstep
  have hfits := related_at ht hm hhere
  rcases mem_modeSteps.mp hstep with rfl | hstep | ⟨j, -, hstep⟩ | ⟨state, hstate, rfl⟩
  · exact flow i m here hm hhere hfits
  · rw [terminalSteps_of_supported (fun hfree => hfinal hfree m (List.mem_of_getElem? hm))] at hstep
    by_cases hempty : m.targetSet = []
    · simp [hempty] at hstep
    · rw [if_neg hempty, List.mem_singleton] at hstep
      rw [hstep]
      exact final i m here hm hhere hfits hempty
  · obtain ⟨t, htransition, hguard, target, fits, next, hnext, hnextFits, reset, entries, rfl⟩ :=
      transitionSteps_inversion hc ht hm here hstep
    exact jump t htransition hguard i j m target fits here next hhere hnext hfits hnextFits reset
      entries
  · exact initial i m here hm hhere hfits state hstate

theorem forall_assemblySteps {freeFinalTime : Bool}
    (hfinal : freeFinalTime = true → ∀ m ∈ s.modes, m.targetSet = [])
    {P : AssemblyStep Rat → Prop}
    (flow : ∀ (i : ℕ), ∀ m ∈ s.modes, ∀ template ∈ templates,
      template.Fits s.time degree decisions m →
        P (.certify (liouvilleInequality s.time horizon i m template)))
    (final : ∀ (i : ℕ), ∀ m ∈ s.modes, ∀ template ∈ templates,
      template.Fits s.time degree decisions m → P (.certify (terminalInequality i m template)))
    (jump : ∀ t ∈ s.transitions, ∀ (i j : ℕ) (source target : Mode Rat),
      t.Fits s.modes i j source target → ∀ here ∈ templates, ∀ next ∈ templates,
        here.Fits s.time degree decisions source → next.Fits s.time degree decisions target →
          ∀ reset : Grid (Expression Rat), reset.entries = t.resetEntries source →
            P (.certify (transitionInequality s.time horizon i j source here next t.guard reset)))
    (initial : ∀ m ∈ s.modes, ∀ template ∈ templates, template.Fits s.time degree decisions m →
      ∀ state, m.initialState = some state →
        P (.addToObjective (initialValue s.time m template state))) :
    ∀ step ∈ assemblySteps s templates horizon freeFinalTime, P step :=
  forall_assemblySteps_at hc ht hfinal
    (fun i m template hm htemplate =>
      flow i m (List.mem_of_getElem? hm) template (List.mem_of_getElem? htemplate))
    (fun i m template hm htemplate fits _ =>
      final i m (List.mem_of_getElem? hm) template (List.mem_of_getElem? htemplate) fits)
    (fun t htransition _ i j source target fits here next hhere hnext =>
      jump t htransition i j source target fits here (List.mem_of_getElem? hhere) next
        (List.mem_of_getElem? hnext))
    (fun _ m template hm htemplate =>
      initial m (List.mem_of_getElem? hm) template (List.mem_of_getElem? htemplate))

include hs hdecisions

theorem isRegular_assemblySteps {freeFinalTime : Bool}
    (hfinal : freeFinalTime = true → ∀ m ∈ s.modes, m.targetSet = []) :
    ∀ step ∈ assemblySteps s templates horizon freeFinalTime, step.IsRegular decisions := by
  refine forall_assemblySteps hc ht hfinal (fun i m hm template _ fits => ?_)
    (fun i m hm template _ fits => ?_)
    (fun t htransition i j source target fits here _ next _ hhere hnext reset entries => ?_)
    (fun _ _ _ _ _ _ _ => trivial)
  · exact isRegular_liouville (hs.modes m hm) (hc.modes m hm) hdecisions fits i
  · exact isRegular_terminal (hs.modes m hm) (hc.modes m hm) hdecisions fits i
  · exact isRegular_transition hs hdecisions htransition fits hhere hnext entries

end

/-! ## Steps of two systems -/

section

variable {R : AssemblyStep Rat → AssemblyStep Rat → Prop} {s s' : HybridSystem Rat}
  {templates templates' : List (ValueTemplate Rat)} {freeFinalTime : Bool}
  (hmodes : s'.modes.length = s.modes.length)

include hmodes

theorem forall₂_modeSteps {i : ℕ} {m m' : Mode Rat} {template template' : ValueTemplate Rat}
    (flow : R (.certify (liouvilleInequality s.time horizon i m template))
      (.certify (liouvilleInequality s'.time horizon i m' template')))
    (final : List.Forall₂ R (terminalSteps freeFinalTime i m template)
      (terminalSteps freeFinalTime i m' template'))
    (jump : ∀ j, List.Forall₂ R (transitionSteps s templates horizon i m template j)
      (transitionSteps s' templates' horizon i m' template' j))
    (initial : List.Forall₂ R (objectiveSteps s.time m template)
      (objectiveSteps s'.time m' template')) :
    List.Forall₂ R (modeSteps s templates horizon freeFinalTime i m template)
      (modeSteps s' templates' horizon freeFinalTime i m' template') := by
  refine .cons flow (List.rel_append (List.rel_append final ?_) initial)
  rw [SystemData.modeCount, SystemData.modeCount, hmodes]
  refine List.rel_flatMap (List.forall₂_same.mpr (fun _ _ => rfl) : List.Forall₂ Eq _ _) ?_
  rintro j _ rfl
  exact jump j

theorem forall₂_assemblySteps (htemplates : templates.length = s.modes.length)
    (htemplates' : templates'.length = s.modes.length)
    (h : ∀ (i : ℕ) (m m' : Mode Rat) (template template' : ValueTemplate Rat),
      s.modes[i]? = some m → s'.modes[i]? = some m' → templates[i]? = some template →
        templates'[i]? = some template' →
          List.Forall₂ R (modeSteps s templates horizon freeFinalTime i m template)
            (modeSteps s' templates' horizon freeFinalTime i m' template')) :
    List.Forall₂ R (assemblySteps s templates horizon freeFinalTime)
      (assemblySteps s' templates' horizon freeFinalTime) := by
  have places : List.Forall₂ (fun (x y : (Mode Rat × ValueTemplate Rat) × ℕ) =>
      x.2 = y.2 ∧ s.modes[x.2]? = some x.1.1 ∧ s'.modes[x.2]? = some y.1.1 ∧
        templates[x.2]? = some x.1.2 ∧ templates'[x.2]? = some y.1.2)
      (s.modes.zip templates).zipIdx (s'.modes.zip templates').zipIdx := by
    refine List.forall₂_iff_get.mpr ⟨by simp [htemplates, htemplates', hmodes], fun i _ _ => ?_⟩
    simp only [List.get_eq_getElem, List.getElem_zipIdx, List.getElem_zip, zero_add]
    exact ⟨trivial, List.getElem?_eq_getElem _, List.getElem?_eq_getElem _,
      List.getElem?_eq_getElem _, List.getElem?_eq_getElem _⟩
  refine List.rel_flatMap places ?_
  rintro ⟨⟨m, template⟩, i⟩ ⟨⟨m', template'⟩, _⟩ ⟨rfl, hm, hm', ht, ht'⟩
  exact h i m m' template template' hm hm' ht ht'

end

/-! ## Built relaxations -/

/-- The parts of a relaxation, with the certificates of its inequalities. -/
structure Problem.IsRelaxedBy (p : Problem Rat) (r : Relaxation Rat)
    (cs : List SquareProgram.Certificate) : Prop where
  regular : r.program.IsRegular
  templates : List.Forall₂ (ValueTemplate.Fits p.system.time p.degree.value r.program.decisions)
    p.system.modes r.templates
  statements : r.program.statements = cs.flatMap SquareProgram.Certificate.statements
  secured : List.Forall₂ (r.program.Secures p.degree.value)
    (certifiedBy (assemblySteps p.system r.templates horizon p.settings.freeFinalTime)) cs
  assigns : ∀ {A : Type} [CommRing A] [Algebra ℚ A] (values : List (MvPolynomial Symbol A))
    (shares : List (List (MvPolynomial Symbol A))),
      List.Forall₂ (fun m v => IsOfDegree (p.system.time :: m.states) p.degree.value v)
        p.system.modes values →
      List.Forall₂ (AreShares p.degree.value) (certifiedBy
        (assemblySteps p.system r.templates horizon p.settings.freeFinalTime)) shares →
      ∃ ψ : ℕ → A, List.Forall₂ (fun template v => solvedAt ψ template.value = v) r.templates
        values ∧ List.Forall₂ (HasShares ψ) cs shares
  objective : r.objective = (addedBy
    (assemblySteps p.system r.templates horizon p.settings.freeFinalTime)).foldl (· + ·) .zero

/-- The system of the problem is consistent and polynomial, and its settings are supported. -/
structure Problem.IsWellPosed (p : Problem Rat) : Prop where
  polynomial : p.system.IsPolynomial
  consistent : p.system.IsConsistent
  final : p.settings.freeFinalTime = true → ∀ m ∈ p.system.modes, m.targetSet = []

namespace Problem

variable {p : Problem Rat}

theorem checkSupported_eq_ok {K : Type} {s : HybridSystem K} {settings : Settings} :
    ProblemData.checkSupported s settings = .ok () ↔
      (settings.freeFinalTime = true → ∀ m ∈ s.modes, m.targetSet = []) := by
  have targets : s.modes.any (fun m => !m.targetSet.isEmpty) = false ↔
      ∀ m ∈ s.modes, m.targetSet = [] := by
    simp
  rw [← targets, ProblemData.checkSupported]
  cases settings.freeFinalTime <;> cases s.modes.any (fun m => !m.targetSet.isEmpty) <;> simp

theorem pose_eq_ok {K : Type} [Scalar K] {s : HybridSystem K} {p : Problem K} {degree : Datum}
    {settings : Settings} :
    pose s degree settings = .ok p ↔ HybridSystem.validate s = .ok () ∧
      (settings.freeFinalTime = true → ∀ m ∈ s.modes, m.targetSet = []) ∧
        ∃ d, RelaxationDegree.ofDatum degree = .ok d ∧ p = ⟨s, d, settings⟩ := by
  rw [← checkSupported_eq_ok, pose, ProblemData.pose, bind_check_eq_ok, bind_eq_ok]
  refine and_congr_right (fun _ => ⟨?_, ?_⟩)
  · rintro ⟨d, hd, h⟩
    obtain ⟨supported, h⟩ := bind_check_eq_ok.mp h
    exact ⟨supported, d, hd, (Except.ok.inj h).symm⟩
  · rintro ⟨supported, d, hd, rfl⟩
    exact ⟨d, hd, bind_check_eq_ok.mpr ⟨supported, rfl⟩⟩

theorem isWellPosed_of_pose {s : HybridSystem Rat} (hs : s.IsPolynomial) {degree : Datum}
    {settings : Settings} (h : pose s degree settings = .ok p) :
    p.IsWellPosed ∧ p.system = s ∧ RelaxationDegree.ofDatum degree = .ok p.degree := by
  obtain ⟨valid, final, d, hd, rfl⟩ := pose_eq_ok.mp h
  exact ⟨⟨hs, (validate_eq_ok hs).mp valid, final⟩, rfl, hd⟩

theorem pose_of_valid {s s' : HybridSystem Rat} {degree : Datum} {settings : Settings}
    (h : pose s degree settings = .ok p) (hvalid : HybridSystem.validate s' = .ok ())
    (htargets : ∀ m' ∈ s'.modes, m'.targetSet ≠ [] → ∃ m ∈ s.modes, m.targetSet ≠ []) :
    pose s' degree settings = .ok { p with system := s' } := by
  obtain ⟨-, final, d, hd, rfl⟩ := pose_eq_ok.mp h
  refine pose_eq_ok.mpr ⟨hvalid, fun hfree m' hm' => ?_, d, hd, rfl⟩
  by_contra htarget'
  obtain ⟨m, hm, htarget⟩ := htargets m' hm' htarget'
  exact htarget (final hfree m hm)

theorem build_eq_ok {q : SquareProgram Rat} {templates : List (ValueTemplate Rat)}
    (hregister : p.templates = (q, .ok templates)) {b : Assembly Rat}
    (hb : assemble q p.system templates p.degree.value horizon p.settings.freeFinalTime =
      (b, .ok ())) :
    p.build = .ok ⟨b.program, templates, b.records, b.objective, b.liouvilleBases⟩ := by
  rw [build, attempt, hregister]
  simp only [hb]
  rfl

theorem exists_assemble_of_build {K : Type} [Scalar K] {p : Problem K} {r : Relaxation K}
    (h : p.build = .ok r) : ∃ q b, p.templates = (q, .ok r.templates) ∧
      assemble q p.system r.templates p.degree.value horizon p.settings.freeFinalTime =
        (b, .ok ()) ∧
      r = ⟨b.program, r.templates, b.records, b.objective, b.liouvilleBases⟩ := by
  rw [build, attempt] at h
  cases hregister : p.templates with
  | mk q outcome =>
      cases outcome with
      | error f => simp [hregister] at h
      | ok templates =>
          simp only [hregister] at h
          obtain ⟨u, hu, rfl⟩ := map_eq_ok.mp h
          exact ⟨q, _, rfl, Prod.ext rfl hu, rfl⟩

theorem build_inversion {K : Type} [Scalar K] {p : Problem K} {r : Relaxation K}
    (h : p.build = .ok r) : ∃ q b, p.templates = (q, .ok r.templates) ∧
      assemble q p.system r.templates p.degree.value horizon p.settings.freeFinalTime =
        (b, .ok ()) ∧
      r.program = b.program ∧ r.records = b.records := by
  obtain ⟨q, b, hregister, hassemble, hr⟩ := exists_assemble_of_build h
  exact ⟨q, b, hregister, hassemble, congrArg Relaxation.program hr,
    congrArg Relaxation.records hr⟩

theorem exists_build (hp : p.IsWellPosed) (hwidth : ∀ m ∈ p.system.modes, m.drift.width = 1) :
    ∃ r cs, p.build = .ok r ∧ p.IsRelaxedBy r cs := by
  have start : p.initialProgram.IsRegular :=
    SquareProgram.isRegular_empty.withIndeterminates [p.system.time]
  obtain ⟨q, templates, hregister, -, regular, statements, fits, values⟩ :=
    registerModes_spec hp.polynomial.modes hp.consistent.modes hwidth p.degree.value 0 start
  obtain ⟨b, cs, hb, proceeds, objective⟩ := Assembly.takeAll_spec
    (a := Assembly.start q) regular p.degree.value
    (isRegular_assemblySteps hp.polynomial hp.consistent (fun _ h => regular.isNamed_of_mem h)
      fits hp.final)
  refine ⟨_, cs, build_eq_ok hregister hb,
    proceeds.regular, fits.imp (fun _ _ h => h.extend proceeds.growth.decisions.subset), ?_,
    proceeds.secured, fun vs shares hvs hshares => ?_, objective⟩
  · rw [proceeds.statements]
    simp [Assembly.start, statements, initialProgram, SquareProgram.withIndeterminates,
      SquareProgram.empty]
  · obtain ⟨ψ₁, -, solved⟩ := values (fun _ => 0) vs hvs
    obtain ⟨ψ₂, agree, all⟩ := proceeds.assigns ψ₁ shares hshares
    refine ⟨ψ₂, forall₂_imp_of_mem solved (fun template htemplate v hv => ?_), all⟩
    obtain ⟨m, hm, hfits⟩ := exists_left_of_mem fits htemplate
    rw [← hv]
    exact regular.solvedAt_congr agree
      (hfits.mem_affineSpan (fun _ _ => rfl) (fun s hs => X_mem_scopePolynomials hs))
      (fun s hs => (hp.polynomial.modes m hm).named s (List.mem_append_left _ hs))

theorem width_of_build {r : Relaxation Rat} (h : p.build = .ok r) :
    ∀ m ∈ p.system.modes, m.drift.width = 1 := by
  obtain ⟨q, b, hregister, -⟩ := build_inversion h
  exact width_of_registerModes hregister

theorem isRelaxedBy_of_build (hp : p.IsWellPosed) {r : Relaxation Rat} (h : p.build = .ok r) :
    ∃ cs, p.IsRelaxedBy r cs := by
  obtain ⟨built, cs, hbuilt, relaxed⟩ := exists_build hp (width_of_build h)
  obtain rfl := Except.ok.inj (h.symm.trans hbuilt)
  exact ⟨cs, relaxed⟩

theorem IsRelaxedBy.exists_certificate {r : Relaxation Rat}
    {cs : List SquareProgram.Certificate} (h : p.IsRelaxedBy r cs) {q : Inequality Rat}
    (hq : q ∈ certifiedBy
      (assemblySteps p.system r.templates horizon p.settings.freeFinalTime)) :
    ∃ c, r.program.Secures p.degree.value q c := by
  obtain ⟨c, -, secured⟩ := exists_right_of_mem h.secured hq
  exact ⟨c, secured⟩

end Problem

end HybridRelaxation
