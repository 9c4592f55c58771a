import Mathlib
import HybridRelaxation.Proofs.Certificate.Subresidual
import HybridRelaxation.Proofs.Relaxation.FlowDerivative
import HybridRelaxation.Proofs.Relaxation.Layout
import HybridRelaxation.Proofs.Relaxation.Settling

/-!
# Transitions and their resets

The constraint of a transition compares the value of the target, taken where the reset leads, with
the value of the source.  The value of the target is read as a function of its own states, in their
order, so the states of both modes may share symbols.  All of them are replaced at once.
-/

namespace HybridRelaxation

/-! ## Values of states in order -/

section

variable {R : Type*} [Zero R]

def pointAtStates (states : List Symbol) (xs : List R) (ρ : Symbol → R) (s : Symbol) : R :=
  if s ∈ states then xs.getD (states.idxOf s) 0 else ρ s

theorem map_pointAtStates {states : List Symbol} (hdistinct : states.Nodup) {xs : List R}
    (h : xs.length = states.length) (ρ : Symbol → R) :
    states.map (pointAtStates states xs ρ) = xs := by
  refine List.ext_getElem (by rw [List.length_map, h]) (fun k hk hk' => ?_)
  rw [List.length_map] at hk
  rw [List.getElem_map, pointAtStates, if_pos (List.getElem_mem hk), hdistinct.idxOf_getElem k hk,
    List.getD_eq_getElem _ _ hk']

end

/-! ## Templates of registered modes -/

structure ValueTemplate.IsGeneral (time : Symbol) (degree : ℤ) (m : Mode Rat)
    (template : ValueTemplate Rat) : Prop where
  states : template.states = m.states
  value : template.value =
    SquareProgram.combination template.decisions (monomials (time :: m.states) degree 0)
  unnamed : ∀ s ∈ template.decisions, s.isNamed = false

theorem ValueTemplate.isGeneral_of_register {p q : SquareProgram Rat} {time : Symbol}
    {m : Mode Rat} {index degree : ℤ} {T : Rat} {template : ValueTemplate Rat}
    (h : register p time m index degree T = (q, .ok template)) :
    template.IsGeneral time degree m := by
  have registered := isRegistered_of_register h
  refine ⟨registered.states, registered.basis ▸ registered.value, fun s hs => ?_⟩
  rw [registered.decisions] at hs
  exact SquareProgram.isNamed_of_mem_freshDecisions hs

theorem isGeneral_of_registerModes {time : Symbol} {degree : ℤ} {T : Rat} {modes : List (Mode Rat)}
    {p q : SquareProgram Rat} {index : ℕ} {templates : List (ValueTemplate Rat)}
    (h : registerModes time degree T p index modes = (q, .ok templates)) :
    List.Forall₂ (ValueTemplate.IsGeneral time degree) modes templates := by
  induction modes generalizing p index templates with
  | nil =>
      obtain rfl := Except.ok.inj (Prod.mk.inj h).2
      exact .nil
  | cons m modes ih =>
      obtain ⟨p', template, others, hregister, hothers, rfl⟩ := registerModes_cons_eq_ok.mp h
      exact .cons (ValueTemplate.isGeneral_of_register hregister) (ih hothers)

/-! ## Polynomial resets -/

namespace TransitionData

/-- The reset, where one was given, is a column of polynomials. -/
structure HasPolynomialReset (t : Transition Rat) : Prop where
  entries : ∀ grid, t.reset = some grid → ∀ e ∈ grid.entries, e.IsPolynomial
  shape : ∀ grid, t.reset = some grid → grid.IsColumn

def unguarded (t : Transition Rat) : Transition Rat := { t with guard := [] }

variable {t : Transition Rat}

theorem HasPolynomialReset.isPolynomial_unguarded (ht : t.HasPolynomialReset) :
    t.unguarded.IsPolynomial :=
  ⟨by simp [unguarded], ht.entries, ht.shape⟩

theorem HasPolynomialReset.fits_unguarded (ht : t.HasPolynomialReset) {modes : List (Mode Rat)}
    {i j : ℕ} (h : PartCheck.Accepts polynomialCheck modes t (i, j)) {source target : Mode Rat}
    (hsource : modes[i]? = some source) (htarget : modes[j]? = some target) :
    t.unguarded.Fits modes i j source target := by
  obtain ⟨⟨sourceLabel, targetLabel⟩, source', target', hsource', htarget', -, reset⟩ := h
  obtain rfl := Option.some.inj (hsource'.symm.trans hsource)
  obtain rfl := Option.some.inj (htarget'.symm.trans htarget)
  exact ⟨⟨sourceLabel, targetLabel, hsource, htarget⟩, by simp [unguarded],
    (reset_eq_ok ht.isPolynomial_unguarded).mp reset⟩

end TransitionData

theorem accepts_of_validate {s : HybridSystem Rat} (h : s.validate = .ok ()) {t : Transition Rat}
    (ht : t ∈ s.transitions) : ∃ pair, PartCheck.Accepts polynomialCheck s.modes t pair := by
  unfold HybridSystem.validate PartCheck.system at h
  simp only [bind_check_eq_ok] at h
  obtain ⟨pairs, -, all⟩ := PartCheck.transitions_iff.mp h.2.2
  obtain ⟨pair, -, accepted⟩ := exists_right_of_mem all ht
  exact ⟨pair, accepted⟩

/-! ## The constraint of a transition -/

/--
The polynomial is the value of the target where the reset leads less the value of the source, and
mentions time, the states of the source and the coefficients of both values at most.
-/
structure Expression.ComposesWithReset (time : Symbol) (source : Mode Rat)
    (reset : List (Expression Rat)) (here next : ValueTemplate Rat) (e : Expression Rat) :
    Prop where
  value : ∀ {R : Type} [CommRing R] [Algebra ℚ R] (ρ : Symbol → R), e.eval ρ =
    next.value.eval (pointAtStates next.states (reset.map (Expression.eval ρ)) ρ) -
      here.value.eval ρ
  symbols : ∀ s ∈ e.symbols, s ∈ time :: source.states ++ here.decisions ++ next.decisions

theorem composesWithReset_transitionInequality {s : HybridSystem Rat} {t : Transition Rat}
    {i j : ℕ} {source target : Mode Rat} (fits : t.Fits s.modes i j source target)
    (ht : t.IsPolynomial) {time : Symbol} (hdistinct : (time :: target.states).Nodup)
    (hnamed : ∀ v ∈ time :: target.states, v.isNamed = true) {degree : ℤ}
    {here next : ValueTemplate Rat} (hhere : here.IsGeneral time degree source)
    (hnext : next.IsGeneral time degree target) {grid : Grid (Expression Rat)}
    (hgrid : grid.entries = t.resetEntries source) :
    (valueAfter next grid - here.value).ComposesWithReset time source (t.resetEntries source) here
      next := by
  have replacement := fits.isReplacement ht hdistinct
  have states : ∀ v ∈ next.decisions, v ∉ target.states := fun v hv hstate => by
    have named := hnamed v (List.mem_cons_of_mem _ hstate)
    rw [hnext.unnamed v hv] at named
    simp at named
  have keys : (target.states.zip (t.resetEntries source)).map Prod.fst = target.states :=
    List.map_fst_zip (fits.length_resetEntries ht).ge
  have kept : ∀ v ∈ next.decisions, v ∉ (target.states.zip (t.resetEntries source)).map Prod.fst :=
    fun v hv => keys.symm ▸ states v hv
  have after : valueAfter next grid = ((SquareProgram.combination next.decisions
      (monomials (time :: target.states) degree 0)).substitute
        (replacements (target.states.zip (t.resetEntries source)))).expand := by
    rw [valueAfter, hnext.value, hnext.states, hgrid]
  refine ⟨fun {R} _ _ ρ => ?_, fun v hv => ?_⟩
  · -- Each state of the target is where the entry at its position leads.
    let images := (t.resetEntries source).map (Expression.eval ρ)
    have moved : target.states.map (pointAtStates target.states images ρ) = images :=
      map_pointAtStates hdistinct.of_cons (by
        rw [List.length_map, fits.length_resetEntries ht]) ρ
    have same : List.Forall₂ (· = ·) (target.states.map (pointAtStates target.states images ρ))
        ((t.resetEntries source).map (Expression.eval ρ)) := List.forall₂_eq_eq_eq ▸ moved
    have pointwise : List.Forall₂ (fun v e => pointAtStates target.states images ρ v = e.eval ρ)
        target.states (t.resetEntries source) :=
      List.forall₂_map_right_iff.mp (List.forall₂_map_left_iff.mp same)
    rw [Expression.eval_sub, after, hnext.states, SquareProgram.eval_replaced_combination degree
      replacement (fun pair hpair => (List.forall₂_iff_zip.mp pointwise).2 hpair)
      (fun v _ hkey => if_neg (keys ▸ hkey)) kept (fun v hv => if_neg (states v hv)), hnext.value]
  · have mentioned (small : List Symbol) (h : v ∈ time :: source.states ++ small)
        (hsmall : ∀ u ∈ small, u ∈ here.decisions ++ next.decisions) :
        v ∈ time :: source.states ++ here.decisions ++ next.decisions := by
      rw [List.append_assoc]
      exact List.mem_append.mpr ((List.mem_append.mp h).imp_right (hsmall v))
    rcases Expression.symbols_sub hv with h | h
    · rw [after] at h
      exact mentioned next.decisions (SquareProgram.symbols_replaced_combination degree replacement
        (fun _ hu => hu) kept v h)
        (fun u hu => List.mem_append_right _ hu)
    · rw [hhere.value] at h
      exact mentioned here.decisions (SquareProgram.symbols_combination h)
        (fun u hu => List.mem_append_left _ hu)

/-! ## Records of transitions -/

section

variable {s : HybridSystem Rat} {templates : List (ValueTemplate Rat)} {T : Rat}

theorem assemblySteps_of_supported {freeFinalTime : Bool}
    (hfinal : freeFinalTime = true → ∀ m ∈ s.modes, m.targetSet = []) :
    assemblySteps s templates T freeFinalTime = assemblySteps s templates T false := by
  unfold assemblySteps
  refine List.flatMap_congr (fun entry hentry => ?_)
  have hm : entry.1.1 ∈ s.modes :=
    (List.of_mem_zip (List.mem_of_getElem? (List.mem_zipIdx_iff_getElem?.mp hentry))).1
  have unsupported : false = true → entry.1.1.targetSet = [] := nofun
  simp only [modeSteps, terminalSteps_of_supported (fun hfree => hfinal hfree _ hm),
    terminalSteps_of_supported unsupported]

variable (hs : s.IsJoined) (hguards : ∀ t ∈ s.transitions, t.guard ≠ [])
  (hlength : templates.length = s.modeCount)

include hs hguards hlength

theorem exists_transitionInequality {q : Inequality Rat}
    (hq : q ∈ certifiedBy (assemblySteps s templates T false)) {t : Transition Rat} {i j : ℕ}
    (ht : t ∈ s.transitions) (joins : t.JoinsAt s.modeCount (i, j))
    (hplace : q.place = ⟨.transition, i, some (j : ℤ)⟩) :
    ∃ m here next grid, s.modes[i]? = some m ∧ templates[i]? = some here ∧
      templates[j]? = some next ∧ grid.entries = t.resetEntries m ∧
        q = transitionInequality s.time T i j m here next t.guard grid := by
  obtain ⟨i', m, here, hm, hhere, hstep⟩ := mem_assemblySteps_iff.mp (mem_certifiedBy.mp hq)
  rcases modeSteps_cases hs hguards hlength hm hstep with
    flow | ⟨-, final⟩ | ⟨j', t', ht', joins', next, reset, hnext, hreset, jump⟩ | ⟨e, heq⟩
  · obtain rfl := AssemblyStep.certify.inj flow
    simp [liouvilleInequality] at hplace
  · obtain rfl := AssemblyStep.certify.inj final
    simp [terminalInequality] at hplace
  · obtain rfl := AssemblyStep.certify.inj jump
    obtain ⟨rfl, rfl⟩ : i' = i ∧ j' = j := by simpa [transitionInequality] using hplace
    have found := hs.transition?_eq_some.mpr ⟨ht, joins⟩
    obtain rfl := Option.some.inj ((hs.transition?_eq_some.mpr ⟨ht', joins'⟩).symm.trans found)
    obtain ⟨grid, hgrid, entries⟩ := exists_reset found hm
    obtain rfl := Except.ok.inj (hreset.symm.trans hgrid)
    exact ⟨m, here, next, reset, hm, hhere, hnext, entries, rfl⟩
  · simp at heq

end

/--
After every completed assembly over an accepted system each transition has a record, and the
polynomial of every record of it composes with the reset: whatever the degree and the values of the
coefficients, it is the value of the target at the image of the state, less the value of the source.
Time and the states of each mode are distinct; between modes symbols may be shared.  For systems of
polynomials every assembly on registered templates is completed.
-/
theorem composesWithReset_of_assemble (time : Symbol) (modes : List (Mode Rat))
    (transitions : List (Transition Rat))
    (valid : HybridSystem.validate (.ofParts time modes transitions) = .ok ())
    (distinct : ∀ m ∈ modes, (time :: m.states).Nodup)
    (named : ∀ m ∈ modes, ∀ v ∈ time :: m.states, v.isNamed = true)
    (degree : ℤ) (T : Rat) (p₀ q : SquareProgram Rat) (templates : List (ValueTemplate Rat))
    (registered : registerModes time degree T p₀ 0 modes = (q, .ok templates))
    (freeFinalTime : Bool) (supported : freeFinalTime = true → ∀ m ∈ modes, m.targetSet = [])
    (p : SquareProgram Rat) (degree' : ℤ) (T' : Rat) :
    (∀ a, assemble p (.ofParts time modes transitions) templates degree' T' freeFinalTime =
        (a, .ok ()) →
      ∀ t ∈ transitions, t.guard ≠ [] → t.HasPolynomialReset →
        ∃ i j source here next, t.JoinsAt modes.length (i, j) ∧ modes[i]? = some source ∧
          templates[i]? = some here ∧ templates[j]? = some next ∧
          (∃ r ∈ a.records, r.place = ⟨.transition, i, some (j : ℤ)⟩) ∧
          ∀ r ∈ a.records, r.place = ⟨.transition, i, some (j : ℤ)⟩ →
            r.polynomial.ComposesWithReset time source (t.resetEntries source) here next) ∧
    (SystemData.IsPolynomial (.ofParts time modes transitions) →
      ∃ a, assemble p (.ofParts time modes transitions) templates degree' T' freeFinalTime =
        (a, .ok ())) := by
  have joined := isJoined_of_validate valid
  have guards : ∀ t ∈ (SystemData.ofParts time modes transitions).transitions, t.guard ≠ [] :=
    fun t ht => (SystemData.mem_transitions_ofParts.mp ht).2
  have general := isGeneral_of_registerModes registered
  have steps : assemblySteps (.ofParts time modes transitions) templates T' freeFinalTime =
      assemblySteps (.ofParts time modes transitions) templates T' false :=
    assemblySteps_of_supported supported
  simp only [assemble, steps]
  refine ⟨fun a assembled t ht hguard reset => ?_, fun polynomial => ?_⟩
  · have listed : t ∈ (SystemData.ofParts time modes transitions).transitions :=
      SystemData.mem_transitions_ofParts.mpr ⟨ht, hguard⟩
    obtain ⟨⟨i, j⟩, accepted⟩ := accepts_of_validate valid listed
    have joins := accepted.joins
    obtain ⟨source, target, hsource, htarget, -⟩ := accepted.parts
    have hhere := List.getElem?_eq_getElem (general.length_eq ▸ lt_of_modePosition? joins.1)
    have hnext := List.getElem?_eq_getElem (general.length_eq ▸ lt_of_modePosition? joins.2)
    obtain ⟨-, -, -, records, -⟩ := Assembly.takeAll_inversion
      (isPlain_assemblySteps joined guards general.length_eq.symm) assembled
    refine ⟨i, j, source, _, _, joins, hsource, hhere, hnext, ?_, fun r hr hplace => ?_⟩
    · obtain ⟨q, hq, hplace⟩ := exists_mem_of_asksFor joined guards general.length_eq.symm
        (.transition (T := T') listed joins hsource)
      have place : q.place ∈ a.records.map ConstraintRecord.place := by
        rw [records, Assembly.start, List.nil_append, map_place_recordsFrom]
        exact List.mem_map_of_mem hq
      obtain ⟨r, hr, hrecord⟩ := List.mem_map.mp place
      exact ⟨r, hr, hrecord.trans hplace⟩
    · rw [records, Assembly.start, List.nil_append] at hr
      obtain ⟨q, hq, k, rfl⟩ := mem_recordsFrom hr
      obtain ⟨m, here, next, grid, hm, hhere', hnext', entries, rfl⟩ :=
        exists_transitionInequality joined guards general.length_eq.symm hq listed joins hplace
      obtain rfl := Option.some.inj (hm.symm.trans hsource)
      obtain rfl := Option.some.inj (hhere'.symm.trans hhere)
      obtain rfl := Option.some.inj (hnext'.symm.trans hnext)
      have listed := List.mem_of_getElem? htarget
      exact composesWithReset_transitionInequality (s := .ofParts time modes transitions)
        (reset.fits_unguarded accepted hsource htarget) reset.isPolynomial_unguarded
        (distinct target listed) (named target listed) (related_at general hsource hhere)
        (related_at general htarget hnext) entries
  · exact exists_assemble polynomial ((validate_eq_ok polynomial).mp valid) guards registered p
      degree' T'

def mixingMode : Mode Rat where
  states := [.named "x", .named "y"]
  controls := []
  drift := ⟨1, [[.zero], [.zero]]⟩
  input := ⟨0, [[], []]⟩
  domain := []
  controlSet := []
  targetSet := []
  runningCost := .zero
  terminalCost := .zero
  initialState := none
  name := none

def mixingLoop : Transition Rat :=
  ⟨.integer 0, .integer 0, [.number 1], some (.ofColumn [.ofSymbol (.named "y"),
    .ofSymbol (.named "x") + .ofSymbol (.named "y")])⟩

theorem composesWithReset_of_assemble_mixingLoop : ∃ q templates a r here next,
    registerModes (.named "t") 2 1 .empty 0 [mixingMode] = (q, .ok templates) ∧
      assemble q (.ofParts (.named "t") [mixingMode] [mixingLoop]) templates 2 1 false =
        (a, .ok ()) ∧ r ∈ a.records ∧
      r.polynomial.ComposesWithReset (.named "t") mixingMode (mixingLoop.resetEntries mixingMode)
        here next ∧ r.polynomial.eval (fun _ => (2 : ℚ)) = 44 := by
  have valid : HybridSystem.validate (.ofParts (.named "t") [mixingMode] [mixingLoop]) =
      .ok () := by
    decide +kernel
  have reset : mixingLoop.HasPolynomialReset := by
    have symbol (name : String) :
        (Expression.ofSymbol (.named name) : Expression Rat).IsPolynomial :=
      Expression.isPolynomial_ofSymbol _
    constructor <;>
      simp [mixingLoop, Grid.ofColumn, Grid.entries, Grid.IsColumn, symbol,
        Expression.isPolynomial_add, or_imp, forall_and]
  have checked : (do
      let templates ← (registerModes (.named "t") 2 1 .empty 0 [mixingMode]).2
      let run := assemble (registerModes (.named "t") 2 1 .empty 0 [mixingMode]).1
        (.ofParts (.named "t") [mixingMode] [mixingLoop]) templates 2 1 false
      run.2
      .ok (run.1.records.all (fun r : ConstraintRecord Rat =>
        r.place.kind = ConstraintKind.transition →
          r.polynomial.eval (fun _ => (2 : ℚ)) = 44))) = .ok true := by
    decide +kernel
  obtain ⟨templates, registered, checked⟩ := bind_eq_ok.mp checked
  obtain ⟨assembled, values⟩ := bind_check_eq_ok.mp checked
  obtain ⟨i, j, source, here, next, joins, hsource, -, -, ⟨r, hr, hplace⟩, composes⟩ :=
    (composesWithReset_of_assemble (.named "t") [mixingMode] [mixingLoop] valid
      (fun m hm => by rw [List.mem_singleton.mp hm]; decide)
      (fun m hm => by rw [List.mem_singleton.mp hm]; decide) 2 1 .empty _ templates
      (Prod.ext rfl registered) false (fun hfree => absurd hfree (by simp)) _ 2 1).1 _
      (Prod.ext rfl assembled) mixingLoop (by simp) (by simp [mixingLoop]) reset
  obtain rfl : mixingMode = source := List.mem_singleton.mp (List.mem_of_getElem? hsource) ▸ rfl
  refine ⟨_, templates, _, r, here, next, Prod.ext rfl registered, Prod.ext rfl assembled, hr,
    composes r hr hplace, ?_⟩
  exact of_decide_eq_true (List.all_eq_true.mp (Except.ok.inj values) r hr) (by rw [hplace])

/-! ## Rounded resets -/

def roundedLoop : Transition Number :=
  ⟨.integer 0, .integer 0, [.number 1], some (.ofColumn [roundedDrift])⟩

def roundedLoopSystem : HybridSystem Number :=
  .ofParts (.named "t") [{ roundedMode with drift := ⟨1, [[.zero]]⟩ }] [roundedLoop]

/--
In floating-point arithmetic the constraint of a transition does not compose with the reset.  The
coefficient of the state in the reset is one, but its two summands are rounded to the same size.
-/
theorem not_composesWithReset_roundedLoop : roundedLoopSystem.validate = .ok () ∧
    ∃ q templates a template r,
      registerModes (.named "t") 1 horizon .empty 0 roundedLoopSystem.modes =
        (q, .ok templates) ∧ templates = [template] ∧
      assemble q roundedLoopSystem templates 1 horizon false = (a, .ok ()) ∧ r ∈ a.records ∧
        r.place = ⟨.transition, 0, some 0⟩ ∧ ∃ ρ : Symbol → ℚ, r.polynomial.exactly.eval ρ ≠
          template.value.exactly.eval
            (pointAtStates template.states [roundedDrift.exactly.eval ρ] ρ) -
              template.value.exactly.eval ρ := by
  refine ⟨by decide +kernel, ?_⟩
  have checked : (do
      let registered := registerModes (.named "t") 1 horizon .empty 0 roundedLoopSystem.modes
      let templates ← registered.2
      let template ← entryAt templates 0
      let run := assemble registered.1 roundedLoopSystem templates 1 horizon false
      run.2
      let r ← entryAt run.1.records 1
      let ρ : Symbol → ℚ := fun _ => 1
      .ok (templates.length, r.place, r.polynomial.exactly.eval ρ,
        template.value.exactly.eval (pointAtStates template.states [roundedDrift.exactly.eval ρ] ρ),
        template.value.exactly.eval ρ)) =
      .ok ((1 : ℕ), ⟨.transition, 0, some 0⟩, (200000001 : ℚ), (200000005 : ℚ), (3 : ℚ)) := by
    decide +kernel
  obtain ⟨templates, registered, checked⟩ := bind_eq_ok.mp checked
  obtain ⟨template, htemplate, checked⟩ := bind_eq_ok.mp checked
  obtain ⟨assembled, checked⟩ := bind_check_eq_ok.mp checked
  obtain ⟨r, hr, checked⟩ := bind_eq_ok.mp checked
  simp only [Except.ok.injEq, Prod.mk.injEq] at checked
  obtain ⟨count, place, value, after, before⟩ := checked
  obtain ⟨single, rfl⟩ := List.length_eq_one_iff.mp count
  obtain rfl := Option.some.inj (entryAt_eq_ok.mp htemplate)
  refine ⟨_, [single], _, single, r, Prod.ext rfl registered, rfl, Prod.ext rfl assembled,
    List.mem_of_getElem? (entryAt_eq_ok.mp hr), place, fun _ => 1, ?_⟩
  rw [value, after, before]
  norm_num

end HybridRelaxation
