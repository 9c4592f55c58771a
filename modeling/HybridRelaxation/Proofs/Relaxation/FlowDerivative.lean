import Mathlib
import HybridRelaxation.Number.Mixed
import HybridRelaxation.Proofs.Flow.FirstOrder
import HybridRelaxation.Proofs.Relaxation.ValueTemplate

/-!
# Derivatives of templates along the controlled flow

A mode whose states move along polynomial fields has a template for every degree.  What the template
calls its derivative along the flow is the first-order change of its value when time and the states
move on: the linear coefficient of the value on the line through a point at the velocity that the
drift and the controls give there.
-/

namespace HybridRelaxation

open MvPolynomial (X aeval pderiv)

/-! ## Modes with polynomial fields -/

namespace ModeData

/-- The states move along polynomial fields in the states; what else the mode says is left open. -/
structure HasPolynomialFields (time : Symbol) (m : Mode Rat) : Prop where
  nonempty : m.stateCount ≠ 0
  distinct : (time :: m.states ++ m.controls).Nodup
  named : ∀ s ∈ time :: m.states ++ m.controls, s.isNamed = true
  drift : ∀ e ∈ m.drift.entries, e.IsPolynomial ∧ e.IsWithin m.states
  input : ∀ e ∈ m.input.entries, e.IsPolynomial ∧ e.IsWithin m.states
  driftShape : m.drift.IsRectangular
  driftHeight : m.drift.height = m.stateCount
  driftWidth : m.drift.width = 1
  inputShape : m.input.IsRectangular
  inputHeight : m.input.height = m.stateCount
  inputWidth : m.input.width = m.controlCount

def bare (m : Mode Rat) : Mode Rat :=
  { m with
    domain := []
    controlSet := []
    targetSet := []
    runningCost := .zero
    terminalCost := .zero
    initialState := none }

variable {time : Symbol} {m : Mode Rat}

theorem HasPolynomialFields.isPolynomial_bare (hm : m.HasPolynomialFields time) :
    m.bare.IsPolynomial time :=
  ⟨hm.distinct, hm.named, fun e he => (hm.drift e he).1, fun e he => (hm.input e he).1,
    hm.driftShape, hm.inputShape, by simp [bare], by simp [bare], by simp [bare], by simp [bare],
    by simp [bare]⟩

theorem HasPolynomialFields.isConsistent_bare (hm : m.HasPolynomialFields time) :
    m.bare.IsConsistent time :=
  ⟨hm.nonempty, hm.driftHeight, hm.inputHeight, hm.inputWidth, by simp [bare],
    fun e he => (hm.drift e he).2, fun e he => (hm.input e he).2, by simp [bare], by simp [bare],
    by simp [bare], by simp [bare, Expression.IsWithin, Expression.symbols],
    by simp [bare, Expression.IsWithin, Expression.symbols]⟩

end ModeData

/-! ## First-order change -/

namespace Expression

variable {R : Type*} [CommRing R] [Algebra ℚ R]

/-- The first-order change of a value at a point, per unit of time, at a velocity of the states. -/
noncomputable def changeAt (v : Expression Rat) (time : Symbol) (states : List Symbol)
    (ρ : Symbol → R) (velocity : List R) : R :=
  (v.eval (lineThrough ρ (rateOf time states velocity))).coeff 1

theorem aeval_comp_eval (ρ : Symbol → R) :
    (aeval ρ : MvPolynomial Symbol ℚ → R) ∘ Expression.eval X = Expression.eval ρ :=
  funext (fun e => (eval_eq_aeval ρ e).symm)

theorem eval_eq_changeAt {e v : Expression Rat} {time : Symbol} {states : List Symbol}
    (hdistinct : (time :: states).Nodup) {velocity : List (MvPolynomial Symbol ℚ)}
    (hlength : velocity.length = states.length)
    (h : e.eval X = pderiv time (v.eval X) +
      alongVelocity (fun s => pderiv s) states velocity (v.eval X)) (ρ : Symbol → R) :
    e.eval ρ = v.changeAt time states ρ (velocity.map (aeval ρ)) := by
  have along : aeval ρ (alongVelocity (fun s => pderiv s) states velocity (v.eval X)) =
      innerValue (states.map (fun s => aeval ρ (pderiv s (v.eval X : MvPolynomial Symbol ℚ))))
        (velocity.map (aeval ρ)) := by
    have mapped := map_innerValue (aeval ρ : MvPolynomial Symbol ℚ →ₐ[ℚ] R).toRingHom
      (states.map (fun s => pderiv s (v.eval X : MvPolynomial Symbol ℚ))) velocity
    rw [List.map_map] at mapped
    exact mapped
  rw [changeAt, coeff_one_lineThrough_rateOf ρ hdistinct (by rw [List.length_map, hlength]),
    eval_eq_aeval, h, map_add, along]

end Expression

/-! ## Templates -/

def pointWith {R : Type*} (ρ : Symbol → R) (s : Symbol) (r : R) (t : Symbol) : R :=
  if t = s then r else ρ t

def uncontrolled {R : Type*} [Zero R] (controls : List Symbol) (ρ : Symbol → R) (s : Symbol) : R :=
  if s ∈ controls then 0 else ρ s

/-- The derivatives of a template are those of its value along the flow of a mode. -/
structure ValueTemplate.FollowsFlow (time : Symbol) (m : Mode Rat)
    (template : ValueTemplate Rat) : Prop where
  flow : ∀ {R : Type} [CommRing R] [Algebra ℚ R] (ρ : Symbol → R), template.flowDerivative.eval ρ =
    template.value.changeAt time m.states ρ (m.velocity ρ)
  drift : ∀ {R : Type} [CommRing R] [Algebra ℚ R] (ρ : Symbol → R),
    template.driftDerivative.eval ρ =
      template.value.changeAt time m.states ρ (m.velocity (uncontrolled m.controls ρ))
  /-- The derivatives along the inputs are a row with one entry for each control. -/
  input : ∃ ds, template.inputDerivative = .row ds ∧ ds.length = m.controls.length ∧
    ∀ {R : Type} [CommRing R] [Algebra ℚ R] (ρ : Symbol → R), template.flowDerivative.eval ρ =
      template.driftDerivative.eval ρ + innerValue (ds.map (Expression.eval ρ)) (m.controls.map ρ)
  final : ∀ {R : Type} [CommRing R] [Algebra ℚ R] (ρ : Symbol → R), template.final.eval ρ =
    template.value.eval (pointWith ρ time 1)
  timeless : time ∉ template.final.symbols

section

variable {time : Symbol} {m : Mode Rat} (hm : m.HasPolynomialFields time)

include hm

theorem ModeData.HasPolynomialFields.length_velocity {R : Type*} [CommRing R] [Algebra ℚ R]
    (ρ : Symbol → R) : (m.velocity ρ).length = m.states.length := by
  rw [velocity, List.length_zipWith, List.length_map, List.length_map,
    Grid.length_entries hm.driftShape, hm.driftWidth, hm.driftHeight, mul_one]
  have height : m.input.rows.length = m.states.length := hm.inputHeight
  rw [height]
  exact min_self _

theorem ModeData.HasPolynomialFields.velocity_uncontrolled {R : Type*} [CommRing R] [Algebra ℚ R]
    (ρ : Symbol → R) :
    m.velocity (uncontrolled m.controls ρ) = m.drift.entries.map (Expression.eval ρ) := by
  have disjoint : ∀ s ∈ m.states, s ∉ m.controls := fun s hs hcontrol =>
    (List.nodup_append.mp hm.distinct).2.2 s (List.mem_cons_of_mem _ hs) s hcontrol rfl
  have drift : m.drift.entries.map (Expression.eval (uncontrolled m.controls ρ)) =
      m.drift.entries.map (Expression.eval ρ) :=
    List.map_congr_left (fun e he => Expression.eval_congr e (fun s hs =>
      if_neg (disjoint s ((hm.drift e he).2 s hs))))
  have still (xs : List R) : innerValue xs (m.controls.map (uncontrolled m.controls ρ)) = 0 := by
    have zeros : m.controls.map (uncontrolled m.controls ρ) = m.controls.map (fun _ => 0) :=
      List.map_congr_left (fun s hs => if_pos hs)
    rw [zeros, innerValue_eq_sum (.inl le_rfl)]
    refine Finset.sum_eq_zero (fun k _ => ?_)
    rw [List.getD_eq_getElem?_getD (l := m.controls.map _), List.getElem?_map]
    cases m.controls[k]? <;> simp
  have lengths := hm.length_velocity (uncontrolled m.controls ρ)
  rw [velocity, drift] at lengths ⊢
  simp only [still] at lengths ⊢
  refine List.ext_getElem ?_ (fun k hk hk' => ?_)
  · rw [lengths, List.length_map, Grid.length_entries hm.driftShape, hm.driftWidth,
      hm.driftHeight, mul_one]
    rfl
  · simp

theorem ModeData.HasPolynomialFields.exists_derivatives {v : Expression Rat} (hv : v.IsPolynomial) :
    ∃ drift ds flow, timeLieDerivative v time m.states m.drift = .ok drift ∧
      ValueTemplate.inputDerivativeOf v m = .ok (.row ds) ∧
      ValueTemplate.flowDerivativeOf drift (.row ds) m = .ok flow ∧
      ds.length = m.controls.length ∧
      ∀ {R : Type} [CommRing R] [Algebra ℚ R] (ρ : Symbol → R),
        flow.eval ρ = v.changeAt time m.states ρ (m.velocity ρ) ∧
        drift.eval ρ = v.changeAt time m.states ρ (m.drift.entries.map (Expression.eval ρ)) ∧
        flow.eval ρ = drift.eval ρ +
          innerValue (ds.map (Expression.eval ρ)) (m.controls.map ρ) := by
  have places : (time :: m.states).Nodup := (List.nodup_append.mp hm.distinct).1
  have hD := differentiates_X (time :: m.states)
  obtain ⟨drift, hdrift, -, driftValue⟩ := timeLieDerivative_spec hD hv
    (fun e he => (hm.drift e he).1) hm.driftShape hm.driftWidth hm.driftHeight
  obtain ⟨ds, hds, -, hlength, inputValue⟩ := inputDerivative_spec hm.isPolynomial_bare
    hm.isConsistent_bare hv (fun s hs => hD s (List.mem_cons_of_mem _ hs))
  obtain ⟨drift', input', flow, hdrift', hinput', hflow, -, flowValue⟩ :=
    flowDerivative_spec hm.isPolynomial_bare hm.isConsistent_bare hv hm.driftWidth hD
  obtain rfl := Except.ok.inj (hdrift.symm.trans hdrift')
  obtain rfl := Except.ok.inj (hds.symm.trans hinput')
  have split : flow.eval (X : Symbol → MvPolynomial Symbol ℚ) = drift.eval X +
      innerValue (ds.map (Expression.eval X)) (m.controls.map X) := by
    rw [flowValue, alongVelocity_velocity hm.isPolynomial_bare hm.isConsistent_bare hm.driftWidth,
      ← add_assoc]
    exact congrArg₂ (· + ·) driftValue.symm inputValue.symm
  refine ⟨drift, ds, flow, hdrift, hds, hflow, hlength, fun ρ => ⟨?_, ?_, ?_⟩⟩
  · have change := Expression.eval_eq_changeAt places (hm.length_velocity X) flowValue ρ
    have velocity := m.map_velocity (aeval ρ) X
    simp only [MvPolynomial.aeval_X] at velocity
    rwa [velocity] at change
  · have length : (m.drift.entries.map (Expression.eval
        (X : Symbol → MvPolynomial Symbol ℚ))).length = m.states.length := by
      rw [List.length_map, Grid.length_entries hm.driftShape, hm.driftWidth, hm.driftHeight,
        mul_one]
      rfl
    have change := Expression.eval_eq_changeAt places length driftValue ρ
    rwa [List.map_map, Expression.aeval_comp_eval] at change
  · have mapped := congrArg (aeval ρ) split
    rw [map_add, ← Expression.eval_eq_aeval, ← Expression.eval_eq_aeval] at mapped
    refine mapped.trans (congrArg _ ?_)
    refine (map_innerValue (aeval ρ : MvPolynomial Symbol ℚ →ₐ[ℚ] _).toRingHom _ _).trans ?_
    rw [List.map_map, List.map_map]
    exact congrArg₂ innerValue (congrArg (List.map · ds) (Expression.aeval_comp_eval ρ))
      (List.map_congr_left (fun s _ => MvPolynomial.aeval_X ρ s))

theorem ValueTemplate.Fits.followsFlow {degree : ℤ} {decisions : List Symbol}
    {template : ValueTemplate Rat} (fits : template.Fits time degree decisions m.bare)
    (unnamed : ∀ s ∈ decisions, s.isNamed = false) {free : FreePolynomial Rat}
    {basis : List (Expression Rat)} {index : ℤ}
    (h : ValueTemplate.ofFree free basis time m index horizon = .ok template) :
    template.FollowsFlow time m := by
  obtain ⟨drift, hdrift, h⟩ := bind_eq_ok.mp h
  obtain ⟨input, hinput, h⟩ := bind_eq_ok.mp h
  obtain ⟨flow, hflow, h⟩ := bind_eq_ok.mp h
  obtain rfl := Except.ok.inj h
  obtain ⟨drift', ds, flow', hdrift', hds, hflow', hlength, values⟩ :=
    hm.exists_derivatives fits.isPolynomial
  obtain rfl := Except.ok.inj (hdrift.symm.trans hdrift')
  obtain rfl := Except.ok.inj (hinput.symm.trans hds)
  obtain rfl := Except.ok.inj (hflow.symm.trans hflow')
  have replacement := isReplacement_final time m.states
  have differs : ∀ s ∈ decisions, s ≠ time := fun s hs heq => by
    have named := hm.named time (List.mem_append_left _ (List.mem_cons_self ..))
    rw [← heq, unnamed s hs] at named
    simp at named
  have keys : ∀ s ∈ decisions,
      s ∉ [(time, (Expression.number 1 : Expression Rat))].map Prod.fst := fun s hs => by
    simpa using differs s hs
  refine ⟨fun ρ => (values ρ).1, fun ρ => ?_, ⟨ds, rfl, hlength, fun ρ => (values ρ).2.2⟩,
    fun ρ => ?_, fun htime => ?_⟩
  · rw [hm.velocity_uncontrolled]
    exact (values ρ).2.1
  · refine fits.eval_replaced replacement (fun pair hpair => ?_) (fun s hs hkey => ?_) keys
      (fun s hs => if_neg (differs s hs))
    · rw [List.mem_singleton.mp hpair, pointWith, if_pos rfl, Expression.eval_number, map_one]
    · exact if_neg (by simpa using hkey)
  · rcases List.mem_append.mp (fits.symbols_replaced replacement keys time htime) with h | h
    · exact (List.nodup_cons.mp (List.nodup_append.mp hm.distinct).1).1 h
    · exact differs time h rfl

/--
Setting up a mode with polynomial fields succeeds in every program and for every degree; the value
is the general polynomial of that degree in time and the states.  Whatever values its coefficients
have, its derivative along the flow is the first-order change of the value at the controlled
velocity, its derivative along the drift is that without controls, and the two differ by the
derivatives along the inputs times the controls.  The value at the final time is the value at time
one, and the time does not occur in it.
-/
theorem exists_register_followsFlow (p : SquareProgram Rat) (index degree : ℤ) :
    ∃ q template, ValueTemplate.register p time m index degree horizon = (q, .ok template) ∧
      template.value =
        SquareProgram.combination template.decisions (monomials (time :: m.states) degree 0) ∧
      template.FollowsFlow time m := by
  obtain ⟨template, htemplate, fits, -⟩ := ValueTemplate.exists_ofFree hm.isPolynomial_bare
    hm.isConsistent_bare hm.driftWidth index degree (monomials (time :: m.states) degree 0)
    (ValueTemplate.label index) p.size
  exact ⟨_, template, Prod.ext rfl htemplate, fits.value,
    fits.followsFlow hm (fun _ hs => SquareProgram.isNamed_of_mem_freshDecisions hs) htemplate⟩

end

def pushedMode : Mode Rat where
  states := [.named "x"]
  controls := [.named "u", .named "w"]
  drift := ⟨1, [[.ofSymbol (.named "x") * .ofSymbol (.named "x")]]⟩
  input := ⟨2, [[.ofSymbol (.named "x"), .number 1]]⟩
  domain := []
  controlSet := []
  targetSet := []
  runningCost := .zero
  terminalCost := .zero
  initialState := none
  name := none

theorem hasPolynomialFields_pushedMode : pushedMode.HasPolynomialFields (.named "t") := by
  have square : ((.ofSymbol (.named "x") * .ofSymbol (.named "x") : Expression Rat)).IsWithin
      [.named "x"] := by
    unfold Expression.IsWithin
    decide +kernel
  constructor <;>
    simp [pushedMode, Grid.entries, Grid.IsRectangular, Grid.height, ModeData.stateCount,
      ModeData.controlCount, Symbol.isNamed, Expression.isPolynomial_mul, square,
      isWithin_number, Expression.isWithin_ofSymbol]

theorem exists_register_followsFlow_pushedMode : ∃ q template,
    ValueTemplate.register SquareProgram.empty (.named "t") pushedMode 0 2 horizon =
      (q, .ok template) ∧ template.FollowsFlow (.named "t") pushedMode ∧
      template.flowDerivative.eval (fun _ => (2 : ℚ)) = 154 := by
  obtain ⟨q, template, registered, -, follows⟩ :=
    exists_register_followsFlow hasPolynomialFields_pushedMode SquareProgram.empty 0 2
  have value :
      (ValueTemplate.register SquareProgram.empty (.named "t") pushedMode 0 2 horizon).2.map
        (fun template => template.flowDerivative.eval (fun _ => (2 : ℚ))) = .ok 154 := by
    decide +kernel
  rw [registered] at value
  exact ⟨q, template, registered, follows, Except.ok.inj value⟩

/-! ## Rounded derivatives -/

/-- A drift in which the coefficient of the state is one, as the difference of two large numbers. -/
def roundedDrift : Expression Number :=
  let x : Expression Number := .ofSymbol (.named "x")
  let float (n : ℤ) : Expression Number := .number (.float (.ofInt n))
  .product [.sum [float (10 ^ 8 + 1), .product [float (-10 ^ 8), x]],
    .sum [float (10 ^ 8 + 2), .product [float (10 ^ 8 + 1), x]]]

def roundedMode : Mode Number where
  states := [.named "x"]
  controls := []
  drift := ⟨1, [[roundedDrift]]⟩
  input := ⟨0, [[]]⟩
  domain := []
  controlSet := []
  targetSet := []
  runningCost := .zero
  terminalCost := .zero
  initialState := none
  name := none

/--
In floating-point arithmetic the derivative along the flow is not the change of the value.  The two
products that make up the coefficient of the state are rounded to the same number and cancel.
-/
theorem not_followsFlow_roundedMode : ∃ q template,
    ValueTemplate.register SquareProgram.empty (.named "t") roundedMode 0 1 horizon =
      (q, .ok template) ∧ ∃ ρ : Symbol → ℚ,
        template.flowDerivative.exactly.eval ρ ≠
          template.value.exactly.changeAt (.named "t") roundedMode.states ρ
            (roundedMode.drift.entries.map (fun e => e.exactly.eval ρ)) := by
  let c (k : ℕ) : Base Rat := .symbol (.decision k ("v0_" ++ toString k))
  let t : Base Rat := .symbol (.named "t")
  let x : Base Rat := .symbol (.named "x")
  have computed : (ValueTemplate.register SquareProgram.empty (.named "t") roundedMode 0 1
      horizon).2.map (fun template => (template.flowDerivative.exactly.eval (fun _ => (1 : ℚ)),
        template.value.exactly)) = .ok (200000003,
          .plus 1 (.times t (.integer 1) (.times (c 1) (.integer 1) .one))
            (.plus 1 (.times x (.integer 1) (.times (c 2) (.integer 1) .one))
              (.plus 1 (.times (c 0) (.integer 1) .one) .zero))) := by
    decide +kernel
  have velocity : roundedMode.drift.entries.map
      (fun e => e.exactly.eval (fun _ => (1 : ℚ))) = [200000003] := by
    decide +kernel
  obtain ⟨template, htemplate, values⟩ := map_eq_ok.mp computed
  obtain ⟨flow, value⟩ := Prod.mk.inj values
  refine ⟨_, template, Prod.ext rfl htemplate, fun _ => 1, ?_⟩
  rw [velocity, flow, value, Expression.changeAt]
  simp [c, t, x, roundedMode, rateOf, Polynomial.mul_coeff_one, coeff_one_lineThrough,
    coeff_zero_lineThrough]

end HybridRelaxation
