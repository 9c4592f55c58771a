import Mathlib
import HybridRelaxation.Proofs.Flow.VectorField
import HybridRelaxation.Proofs.SquareSum.Decisions
import HybridRelaxation.Proofs.System.Subsolution
import HybridRelaxation.Relaxation.Problem

/-!
# Templates of polynomial modes

The template of a mode is a polynomial in time and the states with fresh decisions as coefficients.
Its derivative along the controlled flow is the derivative in time and along the velocity that the
drift and the controls give the states.
-/

namespace HybridRelaxation

open MvPolynomial (X)

/-! ## Registered templates -/

section

variable {K : Type} [Scalar K]

/--
The template of a mode that is registered in a program: a free polynomial over the decisions that the
mode adds, with its derivatives and its value at the horizon.
-/
structure ValueTemplate.IsRegistered (p q : SquareProgram K) (time : Symbol) (m : Mode K)
    (index degree : ℤ) (T : K) (template : ValueTemplate K) : Prop where
  program : q = (((p.withIndeterminates m.states).withIndeterminates m.controls).newFreePolynomial
    (monomials (time :: m.states) degree 0) (label index)).1
  states : template.states = m.states
  decisions : template.decisions = SquareProgram.freshDecisions (label index) p.size
    (monomials (K := K) (time :: m.states) degree 0).length
  basis : template.basis = monomials (time :: m.states) degree 0
  value : template.value = SquareProgram.combination template.decisions template.basis
  final : template.final = finalAt template.value time (.number T)
  drift : timeLieDerivative template.value time m.states m.drift = .ok template.driftDerivative
  input : inputDerivativeOf template.value m = .ok template.inputDerivative
  flow : flowDerivativeOf template.driftDerivative template.inputDerivative m =
    .ok template.flowDerivative

variable {p q : SquareProgram K} {time : Symbol} {m : Mode K} {degree : ℤ} {T : K}

theorem ValueTemplate.isRegistered_of_register {index : ℤ} {template : ValueTemplate K}
    (h : register p time m index degree T = (q, .ok template)) :
    template.IsRegistered p q time m index degree T := by
  unfold register at h
  rcases hfree : ((p.withIndeterminates m.states).withIndeterminates m.controls).newFreePolynomial
    (monomials (time :: m.states) degree 0) (label index) with ⟨q', free⟩
  obtain ⟨program_eq, free_eq⟩ := Prod.mk.inj hfree
  simp only [hfree] at h
  obtain ⟨rfl, result⟩ := Prod.mk.inj h
  obtain ⟨drift, hdrift, result⟩ := bind_eq_ok.mp result
  obtain ⟨input, hinput, result⟩ := bind_eq_ok.mp result
  obtain ⟨flow, hflow, result⟩ := bind_eq_ok.mp result
  obtain rfl := Except.ok.inj result
  have value : free.polynomial =
      SquareProgram.combination free.decisions (monomials (time :: m.states) degree 0) := by
    subst free_eq
    rfl
  exact ⟨program_eq.symm, rfl, congrArg (·.decisions) free_eq.symm, rfl, value,
    rfl, hdrift, hinput, hflow⟩

namespace ValueTemplate.IsRegistered

variable {index : ℤ} {template : ValueTemplate K}
  (h : template.IsRegistered p q time m index degree T)

include h

theorem statements : q.statements = p.statements := by
  rw [h.program]
  rfl

theorem programDecisions : q.decisions = p.decisions ++ template.decisions := by
  rw [h.program, h.decisions]
  rfl

end ValueTemplate.IsRegistered

theorem registerModes_cons_eq_ok {index : ℕ} {modes : List (Mode K)}
    {templates : List (ValueTemplate K)} :
    registerModes time degree T p index (m :: modes) = (q, .ok templates) ↔
      ∃ p' template others, ValueTemplate.register p time m index degree T = (p', .ok template) ∧
        registerModes time degree T p' (index + 1) modes = (q, .ok others) ∧
        template :: others = templates := by
  constructor
  · intro h
    rw [registerModes] at h
    split at h
    · simp at h
    · next p' template hregister =>
        obtain ⟨hq, houtcome⟩ := Prod.mk.inj h
        obtain ⟨others, hothers, rfl⟩ := map_eq_ok.mp houtcome
        exact ⟨p', template, others, hregister, Prod.ext hq hothers, rfl⟩
  · rintro ⟨p', template, others, hregister, hothers, rfl⟩
    rw [registerModes, hregister]
    simp only [hothers]
    rfl

end

/-! ## Velocities -/

section

variable {R : Type*} [CommRing R] [Algebra ℚ R]

variable {time : Symbol} {m : Mode Rat} (hm : m.IsPolynomial time) (hc : m.IsConsistent time)
  {D : Symbol → Derivation ℚ R R} {ρ : Symbol → R}

include hm hc

theorem alongVelocity_velocity (hwidth : m.drift.width = 1) (v : R) :
    alongVelocity D m.states (m.velocity ρ) v =
      alongVelocity D m.states (m.drift.entries.map (Expression.eval ρ)) v +
        alongVelocity D m.states (m.input.rows.map (fun row =>
          innerValue (row.map (Expression.eval ρ)) (m.controls.map ρ))) v := by
  refine innerValue_add _ ?_
  have hheight := hc.driftHeight.trans hc.inputHeight.symm
  simp only [List.length_map, Grid.length_entries hm.driftShape, hwidth, mul_one, hheight]
  rfl

theorem inputDerivative_spec {v : Expression Rat} (hv : v.IsPolynomial)
    (hD : Differentiates ρ D m.states) :
    ∃ ds, ValueTemplate.inputDerivativeOf v m = .ok (.row ds) ∧ (∀ e ∈ ds, e.IsPolynomial) ∧
      ds.length = m.controls.length ∧
      innerValue (ds.map (Expression.eval ρ)) (m.controls.map ρ) =
        alongVelocity D m.states (m.input.rows.map (fun row =>
          innerValue (row.map (Expression.eval ρ)) (m.controls.map ρ))) (v.eval ρ) := by
  obtain ⟨ds, hds, polynomial, hlength, values⟩ :=
    lieDerivatives_spec hD hv hm.input hc.inputHeight
  have hlength : ds.length = m.controls.length := hlength.trans hc.inputWidth
  refine ⟨ds, ?_, polynomial, hlength, ?_⟩
  · unfold ValueTemplate.inputDerivativeOf
    match hcontrols : m.controls with
    | [] =>
        rw [hcontrols] at hlength
        rw [List.length_eq_zero_iff.mp hlength]
    | [u] => simp only [hds, ok_bind]
    | u :: w :: us =>
        rw [hcontrols] at hlength
        match ds, hlength with
        | d :: d' :: ds, _ => simp only [lieDerivative, hds, ok_bind]
  · have rows : ∀ row ∈ m.input.rows.map (List.map (Expression.eval ρ)),
        row.length = (m.controls.map ρ).length := by
      intro row hrow
      obtain ⟨entries, hentries, rfl⟩ := List.mem_map.mp hrow
      rw [List.length_map, List.length_map, hm.inputShape entries hentries]
      exact hc.inputWidth
    have exchanged := innerValue_columns rows (m.states.map (fun s => D s (v.eval ρ)))
    rw [List.map_map] at exchanged
    refine Eq.trans ?_ exchanged
    have width : m.input.width = (m.controls.map ρ).length := by
      rw [List.length_map]
      exact hc.inputWidth
    rw [values, Grid.columns_of_isRectangular hm.inputShape Expression.zero, width, List.map_map]
    congr 1
    refine List.map_congr_left (fun j _ => ?_)
    simp only [Function.comp_apply, alongVelocity, List.map_map]
    congr 1
    refine List.map_congr_left (fun row _ => ?_)
    simp only [Function.comp_apply, List.getD_eq_getElem?_getD, List.getElem?_map]
    cases row[j]? <;> simp

theorem flowDerivative_spec {v : Expression Rat} (hv : v.IsPolynomial)
    (hwidth : m.drift.width = 1) (hD : Differentiates ρ D (time :: m.states)) :
    ∃ drift input flow, timeLieDerivative v time m.states m.drift = .ok drift ∧
      ValueTemplate.inputDerivativeOf v m = .ok input ∧
      ValueTemplate.flowDerivativeOf drift input m = .ok flow ∧ flow.IsCanonical ∧
      flow.eval ρ =
        D time (v.eval ρ) + alongVelocity D m.states (m.velocity ρ) (v.eval ρ) := by
  obtain ⟨drift, hdrift, canonical, hvalue⟩ :=
    timeLieDerivative_spec hD hv hm.drift hm.driftShape hwidth hc.driftHeight
  obtain ⟨ds, hds, polynomial, hlength, hsum⟩ :=
    inputDerivative_spec hm hc hv (fun s hs => hD s (by simp [hs]))
  have symbols : ∀ e ∈ m.controls.map Expression.ofSymbol, (e : Expression Rat).IsPolynomial := by
    intro e he
    obtain ⟨u, -, rfl⟩ := List.mem_map.mp he
    exact Expression.isPolynomial_ofSymbol u
  obtain ⟨hproduct, hinner⟩ := innerProduct_spec ρ polynomial symbols
  have total := Expression.isPolynomial_add canonical.isPolynomial hproduct
  have controls : (m.controls.map (Expression.ofSymbol : Symbol → Expression Rat)).map
      (Expression.eval ρ) = m.controls.map ρ := by
    rw [List.map_map]
    exact List.map_congr_left (fun u _ => Expression.eval_ofSymbol ρ u)
  rw [alongVelocity_velocity hm hc hwidth, ← add_assoc, ← hvalue, ← hsum]
  unfold ValueTemplate.flowDerivativeOf
  match hcontrols : m.controls with
  | [] =>
      rw [hcontrols, List.length_nil] at hlength
      exact ⟨drift, .row ds, drift, hdrift, hds, rfl, canonical, by simp⟩
  | u :: us =>
      refine ⟨drift, .row ds, _, hdrift, hds, ?_, Expression.isCanonical_expand total, ?_⟩
      · simp only [ValueTemplate.controlTerm, ← hcontrols, hlength, if_true, ok_bind]
      · rw [Expression.eval_expand ρ total, Expression.eval_add, hinner, controls, hcontrols]

end

/-! ## Replacements -/

/-- Some places are replaced by polynomials in a scope, which has the places that stay. -/
structure IsReplacement (places scope : List Symbol) (pairs : List (Symbol × Expression Rat)) :
    Prop where
  polynomial : ∀ pair ∈ pairs, pair.2.IsPolynomial
  within : ∀ pair ∈ pairs, pair.2.IsWithin scope
  keys : ∀ pair ∈ pairs, pair.1 ∈ places
  distinct : (pairs.map Prod.fst).Nodup
  kept : ∀ s ∈ places, s ∉ pairs.map Prod.fst → s ∈ scope

theorem IsReplacement.notMem_keys {places scope : List Symbol}
    {pairs : List (Symbol × Expression Rat)} (h : IsReplacement places scope pairs)
    (hplaces : ∀ s ∈ places, s.isNamed = true) {s : Symbol} (hs : s.isNamed = false) :
    s ∉ pairs.map Prod.fst := by
  intro hkey
  obtain ⟨pair, hpair, rfl⟩ := List.mem_map.mp hkey
  rw [hplaces _ (h.keys pair hpair)] at hs
  simp at hs

theorem isWithin_number (scope : List Symbol) (c : Rat) :
    (Expression.number c).IsWithin scope := by
  have symbols : (Expression.number c).symbols = [] := by
    by_cases hc : c = 0 <;> simp [Expression.number, hc, Expression.symbols, Product.symbols]
  intro s hs
  simp [symbols] at hs

theorem isReplacement_final (time : Symbol) (states : List Symbol) :
    IsReplacement (time :: states) states [(time, (.number 1 : Expression Rat))] := by
  refine ⟨by simp, fun pair hpair => ?_, by simp, by simp, fun s hs hkey => ?_⟩
  · rw [List.mem_singleton.mp hpair]
    exact isWithin_number _ 1
  · exact (List.mem_cons.mp hs).resolve_left (by simpa using hkey)

theorem isReplacement_initial {time : Symbol} {m : Mode Rat} (hm : m.IsPolynomial time)
    (hc : m.IsConsistent time) {state : List Rat} (hstate : m.initialState = some state) :
    IsReplacement (time :: m.states) []
      ((time, .zero) :: m.states.zip (state.map (fun c => Expression.number c))) := by
  have keys : (m.states.zip (state.map (fun c => (Expression.number c : Expression Rat)))).map
      Prod.fst = m.states := by
    refine List.map_fst_zip ?_
    rw [List.length_map, hc.initialState state hstate]
    exact le_rfl
  have images : ∀ pair ∈ (time, Expression.zero) ::
      m.states.zip (state.map (fun c => (Expression.number c : Expression Rat))),
        ∃ c, pair.2 = .number c := by
    intro pair hpair
    rcases List.mem_cons.mp hpair with rfl | hpair
    · exact ⟨0, by simp [Expression.number]⟩
    · obtain ⟨c, -, hc⟩ := List.mem_map.mp (List.of_mem_zip hpair).2
      exact ⟨c, hc.symm⟩
  refine ⟨fun pair hpair => ?_, fun pair hpair => ?_, fun pair hpair => ?_, ?_,
    fun s hs hkey => ?_⟩
  · obtain ⟨c, h⟩ := images pair hpair
    rw [h]
    exact Expression.isPolynomial_number c
  · obtain ⟨c, h⟩ := images pair hpair
    rw [h]
    exact isWithin_number _ c
  · rcases List.mem_cons.mp hpair with rfl | hpair
    · simp
    · exact List.mem_cons_of_mem _ (List.of_mem_zip hpair).1
  · rw [List.map_cons, keys]
    exact (List.nodup_append.mp hm.distinct).1
  · rw [List.map_cons, keys] at hkey
    exact absurd hs hkey

theorem TransitionData.Fits.isReplacement {s : HybridSystem Rat} {t : Transition Rat} {i j : ℕ}
    {source target : Mode Rat} (fits : t.Fits s.modes i j source target) (ht : t.IsPolynomial)
    {time : Symbol} (hdistinct : (time :: target.states).Nodup) :
    IsReplacement (time :: target.states) (time :: source.states)
      (target.states.zip (t.resetEntries source)) := by
  have keys : (target.states.zip (t.resetEntries source)).map Prod.fst = target.states :=
    List.map_fst_zip (fits.length_resetEntries ht).ge
  have images : ∀ pair ∈ target.states.zip (t.resetEntries source), pair.2.IsPolynomial ∧
      pair.2.IsWithin source.states := fun pair hpair =>
    fits.resetEntries ht pair.2 (List.of_mem_zip hpair).2
  refine ⟨fun pair hpair => (images pair hpair).1,
    fun pair hpair v hv => List.mem_cons_of_mem _ ((images pair hpair).2 v hv),
    fun pair hpair => List.mem_cons_of_mem _ (List.of_mem_zip hpair).1, ?_, fun v hv hkey => ?_⟩
  · rw [keys]
    exact hdistinct.of_cons
  · rw [keys] at hkey
    rw [(List.mem_cons.mp hv).resolve_right hkey]
    exact List.mem_cons_self ..

theorem isReplacement_reset {s : HybridSystem Rat} (hs : s.IsPolynomial) {t : Transition Rat}
    (ht : t ∈ s.transitions) {i j : ℕ} {source target : Mode Rat}
    (fits : t.Fits s.modes i j source target) :
    IsReplacement (s.time :: target.states) (s.time :: source.states)
      (target.states.zip (t.resetEntries source)) :=
  fits.isReplacement (hs.transitions t ht) (List.nodup_append.mp
    (hs.modes target (List.mem_of_getElem? fits.targetMode)).distinct).1

/-! ## Free polynomials at other points -/

namespace SquareProgram

variable {places symbols : List Symbol} (degree : ℤ)

theorem eval_combination_congr {R : Type*} [CommRing R] [Algebra ℚ R] {ρ τ : Symbol → R}
    (hsymbols : ∀ s ∈ symbols, ρ s = τ s) (hplaces : ∀ s ∈ places, ρ s = τ s) :
    (combination symbols (monomials places degree 0)).eval ρ =
      (combination symbols (monomials places degree 0)).eval τ := by
  rw [Expression.eval_eq_aeval ρ, Expression.eval_eq_aeval τ]
  exact aeval_congr_of_mem_affineSpan (combination_mem_affineSpan (fun _ hs => ⟨hs, rfl⟩)
    (fun s hs => X_mem_scopePolynomials hs) degree) hplaces hsymbols

variable {scope : List Symbol} {pairs : List (Symbol × Expression Rat)}
  (hpairs : IsReplacement places scope pairs)

include hpairs

theorem isCanonical_replaced_combination :
    ((combination symbols (monomials places degree 0)).substitute
      (replacements pairs)).expand.IsCanonical :=
  Expression.isCanonical_expand (Expression.isPolynomial_substitute
    (combination_monomials_spec (fun _ => (0 : ℚ)) _ _ _).1
    (fun _ _ hf => hpairs.polynomial _ (mem_of_replacements hf)))

theorem eval_replaced_combination {R : Type*} [CommRing R] [Algebra ℚ R] {ρ τ : Symbol → R}
    (hτ : ∀ pair ∈ pairs, τ pair.1 = pair.2.eval ρ)
    (hkept : ∀ s ∈ places, s ∉ pairs.map Prod.fst → τ s = ρ s)
    (hkeys : ∀ s ∈ symbols, s ∉ pairs.map Prod.fst) (hsymbols : ∀ s ∈ symbols, τ s = ρ s) :
    ((combination symbols (monomials places degree 0)).substitute
      (replacements pairs)).expand.eval ρ =
        (combination symbols (monomials places degree 0)).eval τ := by
  have general := (combination_monomials_spec (fun _ => (0 : ℚ)) places degree symbols).1
  have polynomial : ∀ s f, replacements pairs s = some f → f.IsPolynomial :=
    fun s f hf => hpairs.polynomial _ (mem_of_replacements hf)
  rw [Expression.eval_expand ρ (Expression.isPolynomial_substitute general polynomial),
    Expression.eval_substitute ρ general polynomial]
  refine eval_combination_congr degree (fun s hs => ?_) (fun s hs => ?_)
  · rw [pointAfter, replacements_of_notMem (hkeys s hs), hsymbols s hs]
  · by_cases hkey : s ∈ pairs.map Prod.fst
    · obtain ⟨pair, hpair, rfl⟩ := List.mem_map.mp hkey
      rw [pointAfter, replacements_of_mem hpairs.distinct hpair, hτ pair hpair]
    · rw [pointAfter, replacements_of_notMem hkey, hkept s hs hkey]

variable {decisions : List Symbol} (hdecisions : ∀ s ∈ symbols, s ∈ decisions)
  (hkeys : ∀ s ∈ symbols, s ∉ pairs.map Prod.fst)

include hdecisions hkeys

theorem replaced_combination_mem_affineSpan :
    ((combination symbols (monomials places degree 0)).substitute
      (replacements pairs)).expand.eval X ∈ affineSpan scope decisions := by
  let τ := pointAfter (X : Symbol → MvPolynomial Symbol ℚ) (replacements pairs)
  have images : ∀ pair ∈ pairs, τ pair.1 = pair.2.eval X := fun pair hpair => by
    simp only [τ, pointAfter, replacements_of_mem hpairs.distinct hpair]
  have others : ∀ s, s ∉ pairs.map Prod.fst → τ s = X s := fun s hs => by
    simp only [τ, pointAfter, replacements_of_notMem hs]
  rw [eval_replaced_combination degree hpairs images (fun s _ hs => others s hs) hkeys
    (fun s hs => others s (hkeys s hs))]
  refine combination_mem_affineSpan (fun s hs => ⟨hdecisions s hs, others s (hkeys s hs)⟩)
    (fun s hs => ?_) degree
  by_cases hkey : s ∈ pairs.map Prod.fst
  · obtain ⟨pair, hpair, rfl⟩ := List.mem_map.mp hkey
    rw [images pair hpair]
    exact Expression.eval_mem_scopePolynomials (hpairs.within pair hpair)
  · rw [others s hkey]
    exact X_mem_scopePolynomials (hpairs.kept s hs hkey)

theorem symbols_replaced_combination :
    ∀ s ∈ ((combination symbols (monomials places degree 0)).substitute
      (replacements pairs)).expand.symbols, s ∈ scope ++ decisions :=
  (isCanonical_replaced_combination degree hpairs).isWithin (mem_scopePolynomials_of_mem_affineSpan
    (replaced_combination_mem_affineSpan degree hpairs hdecisions hkeys))

end SquareProgram

/-! ## Templates -/

theorem horizon_rat : (horizon : Rat) = 1 := rfl

/-- What a template says of the mode it belongs to, over the decisions of a program. -/
structure ValueTemplate.Fits (time : Symbol) (degree : ℤ) (decisions : List Symbol) (m : Mode Rat)
    (template : ValueTemplate Rat) : Prop where
  states : template.states = m.states
  value : template.value =
    SquareProgram.combination template.decisions (monomials (time :: m.states) degree 0)
  known : ∀ s ∈ template.decisions, s ∈ decisions
  final : template.final = ValueTemplate.finalAt template.value time (.number 1)
  isPolynomial_flow : template.flowDerivative.IsPolynomial
  flow : ∀ {R : Type} [CommRing R] [Algebra ℚ R] (ρ : Symbol → R) (D : Symbol → Derivation ℚ R R),
    Differentiates ρ D (time :: m.states) → template.flowDerivative.eval ρ =
      D time (template.value.eval ρ) +
        alongVelocity D m.states (m.velocity ρ) (template.value.eval ρ)

namespace ValueTemplate

variable {time : Symbol} {degree : ℤ} {decisions : List Symbol} {m : Mode Rat}
  {template : ValueTemplate Rat}

theorem Fits.isPolynomial (h : template.Fits time degree decisions m) :
    template.value.IsPolynomial := by
  rw [h.value]
  exact (SquareProgram.combination_monomials_spec (fun _ => (0 : ℚ)) _ _ _).1

theorem Fits.eval {R : Type*} [CommRing R] [Algebra ℚ R] (ρ : Symbol → R)
    (h : template.Fits time degree decisions m) : template.value.eval ρ =
      (List.zipWith (fun s e => ρ s * monomialValue ρ (time :: m.states) e) template.decisions
        (exponents (time :: m.states).length degree 0)).sum := by
  rw [h.value, (SquareProgram.combination_monomials_spec ρ _ _ _).2]

theorem Fits.extend {more : List Symbol} (h : template.Fits time degree decisions m)
    (hmore : ∀ s ∈ decisions, s ∈ more) : template.Fits time degree more m :=
  ⟨h.states, h.value, fun s hs => hmore s (h.known s hs), h.final, h.isPolynomial_flow,
    h.flow⟩

theorem Fits.own (h : template.Fits time degree decisions m) :
    template.Fits time degree template.decisions m :=
  ⟨h.states, h.value, fun _ hs => hs, h.final, h.isPolynomial_flow, h.flow⟩

/-! ### Values at other points -/

theorem Fits.mem_affineSpan (h : template.Fits time degree decisions m) {scope : List Symbol}
    {ρ : Symbol → MvPolynomial Symbol ℚ} (hdecisions : ∀ s ∈ decisions, ρ s = X s)
    (hplaces : ∀ s ∈ time :: m.states, ρ s ∈ scopePolynomials scope) :
    template.value.eval ρ ∈ affineSpan scope decisions := by
  rw [h.value]
  exact SquareProgram.combination_mem_affineSpan
    (fun s hs => ⟨h.known s hs, hdecisions s (h.known s hs)⟩) hplaces degree

theorem Fits.eval_congr (h : template.Fits time degree decisions m) {R : Type*} [CommRing R]
    [Algebra ℚ R] {ρ τ : Symbol → R} (hdecisions : ∀ s ∈ decisions, ρ s = τ s)
    (hplaces : ∀ s ∈ time :: m.states, ρ s = τ s) :
    template.value.eval ρ = template.value.eval τ := by
  rw [h.value]
  exact SquareProgram.eval_combination_congr degree (fun s hs => hdecisions s (h.known s hs))
    hplaces

variable {scope : List Symbol} {pairs : List (Symbol × Expression Rat)}

theorem Fits.isPolynomial_replaced (h : template.Fits time degree decisions m)
    (hpairs : IsReplacement (time :: m.states) scope pairs) :
    (template.value.substitute (replacements pairs)).expand.IsPolynomial := by
  rw [h.value]
  exact (SquareProgram.isCanonical_replaced_combination degree hpairs).isPolynomial

theorem Fits.eval_replaced (h : template.Fits time degree decisions m)
    (hpairs : IsReplacement (time :: m.states) scope pairs) {R : Type*} [CommRing R]
    [Algebra ℚ R] {ρ τ : Symbol → R} (hτ : ∀ pair ∈ pairs, τ pair.1 = pair.2.eval ρ)
    (hkept : ∀ s ∈ time :: m.states, s ∉ pairs.map Prod.fst → τ s = ρ s)
    (hkeys : ∀ s ∈ decisions, s ∉ pairs.map Prod.fst) (hdecisions : ∀ s ∈ decisions, τ s = ρ s) :
    (template.value.substitute (replacements pairs)).expand.eval ρ = template.value.eval τ := by
  rw [h.value]
  exact SquareProgram.eval_replaced_combination degree hpairs hτ hkept
    (fun s hs => hkeys s (h.known s hs)) (fun s hs => hdecisions s (h.known s hs))

theorem Fits.replaced_mem_affineSpan (h : template.Fits time degree decisions m)
    (hpairs : IsReplacement (time :: m.states) scope pairs)
    (hkeys : ∀ s ∈ decisions, s ∉ pairs.map Prod.fst) :
    (template.value.substitute (replacements pairs)).expand.eval X ∈
      affineSpan scope decisions := by
  rw [h.value]
  exact SquareProgram.replaced_combination_mem_affineSpan degree hpairs h.known
    (fun s hs => hkeys s (h.known s hs))

theorem Fits.symbols_replaced (h : template.Fits time degree decisions m)
    (hpairs : IsReplacement (time :: m.states) scope pairs)
    (hkeys : ∀ s ∈ decisions, s ∉ pairs.map Prod.fst) :
    ∀ s ∈ (template.value.substitute (replacements pairs)).expand.symbols,
      s ∈ scope ++ decisions := by
  rw [h.value]
  exact SquareProgram.symbols_replaced_combination degree hpairs h.known
    (fun s hs => hkeys s (h.known s hs))

/-! ### Registration -/

namespace IsRegistered

variable {p q : SquareProgram Rat} {index : ℤ} {T : Rat}
  (h : template.IsRegistered p q time m index degree T)

include h

theorem isPolynomial_value : template.value.IsPolynomial := by
  rw [h.value, h.basis, h.decisions]
  exact (SquareProgram.combination_monomials_spec (fun _ => (0 : ℚ)) _ _ _).1

theorem isCanonical_flow (hm : m.IsPolynomial time) (hc : m.IsConsistent time) :
    template.flowDerivative.IsCanonical := by
  obtain ⟨drift, input, flow, hdrift, hinput, hflow, canonical, -⟩ :=
    flowDerivative_spec hm hc h.isPolynomial_value (width_of_timeLieDerivative h.drift)
      (differentiates_X (time :: m.states))
  obtain rfl := Except.ok.inj (h.drift.symm.trans hdrift)
  obtain rfl := Except.ok.inj (h.input.symm.trans hinput)
  obtain rfl := Except.ok.inj (h.flow.symm.trans hflow)
  exact canonical

end IsRegistered

theorem exists_ofFree (hm : m.IsPolynomial time) (hc : m.IsConsistent time)
    (hwidth : m.drift.width = 1) (index : ℤ) (degree : ℤ) (basis : List (Expression Rat))
    (name : String) (start : ℕ) :
    let fresh := SquareProgram.freshDecisions name start
      (monomials (K := Rat) (time :: m.states) degree 0).length
    ∃ template, ofFree ⟨SquareProgram.combination fresh (monomials (time :: m.states) degree 0),
        fresh⟩ basis time m index horizon = .ok template ∧
      template.Fits time degree fresh m ∧ template.decisions = fresh := by
  intro fresh
  obtain ⟨v, hv⟩ : ∃ v : Expression Rat,
    v = SquareProgram.combination fresh (monomials (time :: m.states) degree 0) := ⟨_, rfl⟩
  have hpoly : v.IsPolynomial := by
    rw [hv]
    exact (SquareProgram.combination_monomials_spec (fun _ => (0 : ℚ)) _ _ _).1
  rw [← hv]
  obtain ⟨drift, input, flow, hdrift, hinput, hflow, canonical, -⟩ :=
    flowDerivative_spec hm hc hpoly hwidth (differentiates_X (time :: m.states))
  refine ⟨⟨index, m.states, m.controls, v, fresh, basis, finalAt v time (.number horizon),
    v.derivative time, gradient v m.states, drift, input, flow⟩, ?_, ⟨rfl, hv, fun _ hs => hs,
    by rw [horizon_rat], canonical.isPolynomial, fun ρ D hD => ?_⟩, rfl⟩
  · simp only [ofFree, hdrift, hinput, hflow, ok_bind]
  obtain ⟨drift', input', flow', hdrift', hinput', hflow', -, value⟩ :=
    flowDerivative_spec hm hc hpoly hwidth hD
  obtain rfl := Except.ok.inj (hdrift.symm.trans hdrift')
  obtain rfl := Except.ok.inj (hinput.symm.trans hinput')
  obtain rfl := Except.ok.inj (hflow.symm.trans hflow')
  exact value

theorem register_spec (hm : m.IsPolynomial time) (hc : m.IsConsistent time)
    (hwidth : m.drift.width = 1) (index degree : ℤ) {p : SquareProgram Rat} (hp : p.IsRegular) :
    ∃ q template, register p time m index degree horizon = (q, .ok template) ∧ p.Extends q ∧
      q.IsRegular ∧ q.statements = p.statements ∧ template.Fits time degree q.decisions m ∧
      ∀ {A : Type} [CommRing A] [Algebra ℚ A] (ψ : ℕ → A) (v : MvPolynomial Symbol A),
        IsOfDegree (time :: m.states) degree v →
          ∃ ψ' : ℕ → A, (∀ k < p.size, ψ' k = ψ k) ∧ solvedAt ψ' template.value = v := by
  obtain ⟨template, htemplate, fits, decisions⟩ := exists_ofFree hm hc hwidth index degree
    (monomials (time :: m.states) degree 0) (label index) p.size
  refine ⟨_, template, Prod.ext rfl htemplate, ⟨List.prefix_append _ _, List.prefix_rfl⟩,
    ((hp.withIndeterminates _).withIndeterminates _).newFreePolynomial _ _, rfl,
    fits.extend (fun s hs => List.mem_append_right _ hs), fun ψ v hv => ?_⟩
  rw [fits.value, decisions]
  exact exists_values (fun s hs => hm.named s (List.mem_append_left _ hs))
    (List.nodup_append.mp hm.distinct).1 hv ψ _ p.size

end ValueTemplate

/-! ## All modes -/

section

variable {time : Symbol} {modes : List (Mode Rat)}

theorem registerModes_spec (hmodes : ∀ m ∈ modes, m.IsPolynomial time)
    (hconsistent : ∀ m ∈ modes, m.IsConsistent time) (hwidth : ∀ m ∈ modes, m.drift.width = 1)
    (degree : ℤ) (index : ℕ) {p : SquareProgram Rat} (hp : p.IsRegular) :
    ∃ q templates, registerModes time degree horizon p index modes = (q, .ok templates) ∧
      p.Extends q ∧ q.IsRegular ∧ q.statements = p.statements ∧
      List.Forall₂ (ValueTemplate.Fits time degree q.decisions) modes templates ∧
      ∀ {A : Type} [CommRing A] [Algebra ℚ A] (ψ : ℕ → A) (values : List (MvPolynomial Symbol A)),
        List.Forall₂ (fun m v => IsOfDegree (time :: m.states) degree v) modes values →
          ∃ ψ' : ℕ → A, (∀ k < p.size, ψ' k = ψ k) ∧
            List.Forall₂ (fun template v => solvedAt ψ' template.value = v) templates values := by
  induction modes generalizing p index with
  | nil =>
      refine ⟨p, [], rfl, .refl p, hp, rfl, .nil, fun ψ values hvalues => ?_⟩
      obtain rfl := List.forall₂_nil_left_iff.mp hvalues
      exact ⟨ψ, fun _ _ => rfl, .nil⟩
  | cons m modes ih =>
      have hm := hmodes m (by simp)
      obtain ⟨p', template, hregister, growth, regular, statements, fits, assigns⟩ :=
        ValueTemplate.register_spec hm (hconsistent m (by simp)) (hwidth m (by simp)) index degree
          hp
      obtain ⟨q, templates, hrest, growth', regular', statements', all, assigns'⟩ :=
        ih (fun n hn => hmodes n (by simp [hn])) (fun n hn => hconsistent n (by simp [hn]))
          (fun n hn => hwidth n (by simp [hn])) (index + 1) regular
      refine ⟨q, template :: templates, ?_, growth.trans growth', regular',
        statements'.trans statements,
        .cons (fits.extend (fun s hs => growth'.decisions.subset hs)) all,
        fun ψ values hvalues => ?_⟩
      · exact registerModes_cons_eq_ok.mpr ⟨p', template, templates, hregister, hrest, rfl⟩
      · cases hvalues with
        | @cons _ v _ values hv hvalues =>
            obtain ⟨ψ₁, agree, value⟩ := assigns ψ v hv
            obtain ⟨ψ₂, agree', rest⟩ := assigns' ψ₁ values hvalues
            refine ⟨ψ₂, fun k hk => ?_, .cons ?_ rest⟩
            · rw [agree' k (hk.trans_le growth.decisions.length_le), agree k hk]
            · rw [← value]
              exact regular.solvedAt_congr agree'
                (fits.mem_affineSpan (fun _ _ => rfl) (fun s hs => X_mem_scopePolynomials hs))
                (fun s hs => hm.named s (List.mem_append_left _ hs))

theorem width_of_registerModes {degree : ℤ} {index : ℕ} {p q : SquareProgram Rat}
    {templates : List (ValueTemplate Rat)}
    (h : registerModes time degree horizon p index modes = (q, .ok templates)) :
    ∀ m ∈ modes, m.drift.width = 1 := by
  induction modes generalizing p q index templates with
  | nil => simp
  | cons m modes ih =>
      obtain ⟨p', template, others, hregister, hothers, -⟩ := registerModes_cons_eq_ok.mp h
      have registered := ValueTemplate.isRegistered_of_register hregister
      exact List.forall_mem_cons.mpr ⟨width_of_timeLieDerivative registered.drift, ih hothers⟩

end

end HybridRelaxation
