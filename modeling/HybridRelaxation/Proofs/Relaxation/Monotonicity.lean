import Mathlib
import HybridRelaxation.Proofs.Relaxation.Objective
import HybridRelaxation.Proofs.Relaxation.Transfer

/-!
# Bounds of systems that ask for more

A further transition is a further inequality between the values, so it never raises the bound.  A
further inequality in a domain, a control set, a target set or a guard makes the set smaller, so it
never lowers the bound.  Both say that one system covers another: for each inequality of the second
relaxation the first has one on at least as large a set, and feasible points carry over.
-/

namespace HybridRelaxation

open MvPolynomial (X)

/-! ## Smaller sets -/

structure ExtendsSet (scope : List Symbol) (gs gs' : List (Expression Rat)) : Prop where
  sublist : gs.Sublist gs'
  added : ∀ g ∈ gs', g ∈ gs ∨ g.IsPolynomial ∧ g.IsWithin scope

theorem ExtendsSet.refl (scope : List Symbol) (gs : List (Expression Rat)) :
    ExtendsSet scope gs gs :=
  ⟨List.Sublist.refl gs, fun _ hg => .inl hg⟩

theorem ExtendsSet.isPolynomial {scope : List Symbol} {gs gs' : List (Expression Rat)}
    (h : ExtendsSet scope gs gs') (hgs : ∀ g ∈ gs, g.IsPolynomial) : ∀ g ∈ gs', g.IsPolynomial :=
  fun g hg => (h.added g hg).elim (hgs g) And.left

theorem ExtendsSet.isWithin {scope : List Symbol} {gs gs' : List (Expression Rat)}
    (h : ExtendsSet scope gs gs') (hgs : ∀ g ∈ gs, g.IsWithin scope) :
    ∀ g ∈ gs', g.IsWithin scope :=
  fun g hg => (h.added g hg).elim (hgs g) And.right

/-- The second mode is the first with further inequalities in its sets, and with the same targets. -/
structure ModeData.Tightens (m m' : Mode Rat) : Prop where
  states : m'.states = m.states
  controls : m'.controls = m.controls
  drift : m'.drift = m.drift
  input : m'.input = m.input
  runningCost : m'.runningCost = m.runningCost
  terminalCost : m'.terminalCost = m.terminalCost
  initialState : m'.initialState = m.initialState
  domain : ExtendsSet m.states m.domain m'.domain
  controlSet : ExtendsSet m.controls m.controlSet m'.controlSet
  targetSet : ExtendsSet m.states m.targetSet m'.targetSet
  targeted : m.targetSet = [] → m'.targetSet = []

structure TransitionData.Tightens (modes : List (Mode Rat)) (t t' : Transition Rat) : Prop where
  source : t'.source = t.source
  target : t'.target = t.target
  reset : t'.reset = t.reset
  guard : ∃ i m, PartCheck.modePosition? modes.length t.source = some i ∧ modes[i]? = some m ∧
    ExtendsSet m.states t.guard t'.guard
  guarded : t.guard = [] → t'.guard = []

structure SystemData.Tightens (s s' : HybridSystem Rat) : Prop where
  time : s'.time = s.time
  modes : List.Forall₂ ModeData.Tightens s.modes s'.modes
  transitions : List.Forall₂ (TransitionData.Tightens s.modes) s.transitions s'.transitions

/-- Each transition of the second system is one of the first, and its sets are no larger. -/
structure SystemData.Covers (s s' : HybridSystem Rat) : Prop where
  time : s'.time = s.time
  modes : List.Forall₂ ModeData.Tightens s.modes s'.modes
  transitions : ∀ t' ∈ s'.transitions, ∃ t ∈ s.transitions, t.Tightens s.modes t'

theorem SystemData.Tightens.covers {s s' : HybridSystem Rat} (h : s.Tightens s') : s.Covers s' :=
  ⟨h.time, h.modes, fun _ ht' => exists_left_of_mem h.transitions ht'⟩

namespace ModeData.Tightens

variable {m m' : Mode Rat} (h : m.Tightens m') {time : Symbol}

theorem refl (m : Mode Rat) : m.Tightens m :=
  ⟨rfl, rfl, rfl, rfl, rfl, rfl, rfl, .refl _ _, .refl _ _, .refl _ _, id⟩

include h

theorem flowPolynomial_eq (v : MvPolynomial Symbol ℝ) :
    m'.flowPolynomial time v = m.flowPolynomial time v := by
  rw [flowPolynomial, flowPolynomial, velocity, velocity, h.states, h.controls, h.drift, h.input]

theorem isPolynomial (hm : m.IsPolynomial time) : m'.IsPolynomial time where
  distinct := by rw [h.states, h.controls]; exact hm.distinct
  named := by rw [h.states, h.controls]; exact hm.named
  drift := by rw [h.drift]; exact hm.drift
  input := by rw [h.input]; exact hm.input
  driftShape := by rw [h.drift]; exact hm.driftShape
  inputShape := by rw [h.input]; exact hm.inputShape
  domain := h.domain.isPolynomial hm.domain
  controlSet := h.controlSet.isPolynomial hm.controlSet
  targetSet := h.targetSet.isPolynomial hm.targetSet
  runningCost := by rw [h.runningCost]; exact hm.runningCost
  terminalCost := by rw [h.terminalCost]; exact hm.terminalCost

theorem isConsistent (hm : m.IsConsistent time) : m'.IsConsistent time where
  nonempty := by rw [stateCount, h.states]; exact hm.nonempty
  driftHeight := by rw [stateCount, h.states, h.drift]; exact hm.driftHeight
  inputHeight := by rw [stateCount, h.states, h.input]; exact hm.inputHeight
  inputWidth := by rw [controlCount, h.controls, h.input]; exact hm.inputWidth
  initialState := by rw [stateCount, h.states, h.initialState]; exact hm.initialState
  drift := by rw [h.states, h.drift]; exact hm.drift
  input := by rw [h.states, h.input]; exact hm.input
  domain := by rw [h.states]; exact h.domain.isWithin hm.domain
  controlSet := by rw [h.controls]; exact h.controlSet.isWithin hm.controlSet
  targetSet := by rw [h.states]; exact h.targetSet.isWithin hm.targetSet
  runningCost := by rw [h.states, h.controls, h.runningCost]; exact hm.runningCost
  terminalCost := by rw [h.states, h.terminalCost]; exact hm.terminalCost

end ModeData.Tightens

namespace TransitionData

variable {modes modes' : List (Mode Rat)} {t t' : Transition Rat} {i j : ℕ}
  {source target source' target' : Mode Rat}

theorem Fits.tightens_refl (h : t.Fits modes i j source target) : t.Tightens modes t :=
  ⟨rfl, rfl, rfl, ⟨i, source, h.sourceLabel, h.sourceMode, .refl _ _⟩, id⟩

namespace Tightens

variable (h : t.Tightens modes t')

include h

theorem sublist_guard : t.guard.Sublist t'.guard := by
  obtain ⟨_, _, -, -, extended⟩ := h.guard
  exact extended.sublist

theorem isPolynomial (ht : t.IsPolynomial) : t'.IsPolynomial := by
  obtain ⟨_, _, -, -, extended⟩ := h.guard
  exact ⟨extended.isPolynomial ht.guard, by rw [h.reset]; exact ht.reset,
    by rw [h.reset]; exact ht.resetShape⟩

theorem resetEntries_eq (hsource : source'.states = source.states) :
    t'.resetEntries source' = t.resetEntries source := by
  rw [resetEntries, resetEntries, h.reset, hsource]

theorem exists_fits (hmodes : List.Forall₂ ModeData.Tightens modes modes')
    (fits : t.Fits modes i j source target) :
    ∃ source' target', t'.Fits modes' i j source' target' := by
  obtain ⟨source', hsource', sources⟩ := exists_right_at hmodes fits.sourceMode
  obtain ⟨target', htarget', targets⟩ := exists_right_at hmodes fits.targetMode
  obtain ⟨k, m, label, hm, extended⟩ := h.guard
  obtain rfl : k = i := Option.some.inj (label.symm.trans fits.sourceLabel)
  obtain rfl : m = source := Option.some.inj (hm.symm.trans fits.sourceMode)
  refine ⟨source', target', ⟨?_, ?_, hsource', htarget'⟩, ?_, ?_⟩
  · rw [h.source, ← hmodes.length_eq]
    exact fits.sourceLabel
  · rw [h.target, ← hmodes.length_eq]
    exact fits.targetLabel
  · rw [sources.states]
    exact extended.isWithin fits.guard
  · have reset := fits.reset
    unfold ResetFits at reset ⊢
    rwa [h.reset, ModeData.stateCount, ModeData.stateCount, sources.states, targets.states]

end Tightens

end TransitionData

namespace SystemData.Tightens

variable {s s' : HybridSystem Rat} (h : s.Tightens s')

include h

theorem isPolynomial (hs : s.IsPolynomial) : s'.IsPolynomial := by
  refine ⟨fun m' hm' => ?_, fun t' ht' => ?_⟩
  · obtain ⟨m, hm, tightens⟩ := exists_left_of_mem h.modes hm'
    rw [h.time]
    exact tightens.isPolynomial (hs.modes m hm)
  · obtain ⟨t, ht, tightens⟩ := exists_left_of_mem h.transitions ht'
    exact tightens.isPolynomial (hs.transitions t ht)

theorem isConsistent (hs : s.IsConsistent) : s'.IsConsistent := by
  obtain ⟨pairs, distinct, fits⟩ := hs.transitions
  refine ⟨?_, fun m' hm' => ?_, pairs, distinct, ?_⟩
  · intro empty
    exact hs.nonempty (List.forall₂_nil_right_iff.mp (empty ▸ h.modes))
  · obtain ⟨m, hm, tightens⟩ := exists_left_of_mem h.modes hm'
    rw [h.time]
    exact tightens.isConsistent (hs.modes m hm)
  · refine List.forall₂_iff_get.mpr
      ⟨h.transitions.length_eq.symm.trans fits.length_eq, fun k hk' hk => ?_⟩
    obtain ⟨t, ht, tightens⟩ :=
      exists_right_at h.transitions.flip (List.getElem?_eq_getElem hk')
    obtain ⟨pair, hpair, source, target, fits⟩ := exists_right_at fits ht
    obtain rfl : pairs[k] = pair :=
      Option.some.inj ((List.getElem?_eq_getElem hk).symm.trans hpair)
    exact tightens.exists_fits h.modes fits

end SystemData.Tightens

theorem SystemData.IsConsistent.covers_of_sublist {s s' : HybridSystem Rat} (hs' : s'.IsConsistent)
    (htime : s.time = s'.time) (hmodes : s.modes = s'.modes)
    (h : s.transitions.Sublist s'.transitions) : s'.Covers s := by
  refine ⟨htime, ?_, fun t ht => ?_⟩
  · rw [hmodes]
    exact List.forall₂_same.mpr (fun m _ => .refl m)
  · obtain ⟨pairs, -, fits⟩ := hs'.transitions
    obtain ⟨pair, -, source, target, fits⟩ := exists_right_of_mem fits (h.mem ht)
    exact ⟨t, h.mem ht, fits.tightens_refl⟩

/-! ## Inequalities of a covered system -/

namespace Problem

variable {p p' : Problem Rat} {r r' : Relaxation Rat} {cs cs' : List SquareProgram.Certificate}
  (hp : p.IsWellPosed) (hr : p.IsRelaxedBy r cs) (hp' : p'.IsWellPosed)
  (hr' : p'.IsRelaxedBy r' cs') (h : p.system.Covers p'.system)

include hp hr hp' hr' h

section

variable {φ ψ : ℕ → ℝ} (hsolved : List.Forall₂
  (fun t t' => solvedAt ψ t'.value = solvedAt φ t.value) r.templates r'.templates)

include hsolved

omit hp hp' hr' in
theorem exists_counterpart {i : ℕ} {m' : Mode Rat} {t' : ValueTemplate Rat}
    (hm' : p'.system.modes[i]? = some m') (ht' : r'.templates[i]? = some t') :
    ∃ m t, p.system.modes[i]? = some m ∧ m.Tightens m' ∧ r.templates[i]? = some t ∧
      t.Fits p.system.time p.degree.value r.program.decisions m ∧
        solvedAt ψ t'.value = solvedAt φ t.value := by
  obtain ⟨m, hm, tightens⟩ := exists_right_at h.modes.flip hm'
  obtain ⟨t, ht, fits⟩ := exists_right_at hr.templates hm
  exact ⟨m, t, hm, tightens, ht, fits, related_at hsolved ht ht'⟩

section

variable {i : ℕ} {m' : Mode Rat} (hm' : p'.system.modes[i]? = some m') {t' : ValueTemplate Rat}
  (ht' : r'.templates[i]? = some t')

include hm' ht'

theorem exists_refines_liouville : ∃ q ∈ certifiedBy
    (assemblySteps p.system r.templates horizon p.settings.freeFinalTime),
      q.Refines φ ψ (liouvilleInequality p'.system.time horizon i m' t') := by
  obtain ⟨m, t, hm, tightens, ht, fits, solved⟩ := exists_counterpart hr h hsolved hm' ht'
  refine ⟨_, liouville_mem hm ht, ⟨?_, ?_, ?_⟩⟩
  · rw [liouvilleInequality, liouvilleInequality, tightens.states, tightens.controls, h.time]
  · rw [liouvilleInequality, liouvilleInequality, h.time]
    exact (tightens.domain.sublist.cons_cons _).append tightens.controlSet.sublist
  · rw [solvedAt_liouville φ hp.polynomial hp.consistent (List.mem_of_getElem? hm) fits,
      solvedAt_liouville ψ hp'.polynomial hp'.consistent (List.mem_of_getElem? hm')
        (related_at hr'.templates hm' ht'), h.time,
      tightens.flowPolynomial_eq, tightens.runningCost, solved]

theorem exists_refines_terminal (htarget' : m'.targetSet ≠ []) : ∃ q ∈ certifiedBy
    (assemblySteps p.system r.templates horizon p.settings.freeFinalTime),
      q.Refines φ ψ (terminalInequality i m' t') := by
  obtain ⟨m, t, hm, tightens, ht, fits, solved⟩ := exists_counterpart hr h hsolved hm' ht'
  have hmem := List.mem_of_getElem? hm
  have htarget : m.targetSet ≠ [] := fun empty => htarget' (tightens.targeted empty)
  have fixed : p.settings.freeFinalTime = false := by
    by_contra hfree
    exact htarget (hp.final (by simpa using hfree) m hmem)
  refine ⟨_, terminal_mem hm ht fixed htarget, ⟨tightens.states, tightens.targetSet.sublist, ?_⟩⟩
  rw [solvedAt_terminal φ hp.polynomial hp.consistent
      (fun _ hd => hr.regular.isNamed_of_mem hd) hmem fits,
    solvedAt_terminal ψ hp'.polynomial hp'.consistent
      (fun _ hd => hr'.regular.isNamed_of_mem hd) (List.mem_of_getElem? hm')
      (related_at hr'.templates hm' ht'), h.time, tightens.terminalCost, solved]

end

theorem exists_refines_transition {d' : Transition Rat} (hd' : d' ∈ p'.system.transitions)
    (hguard' : d'.guard ≠ []) {i j : ℕ} {source' target' : Mode Rat}
    (hfits' : d'.Fits p'.system.modes i j source' target') {here' next' : ValueTemplate Rat}
    (hhere' : r'.templates[i]? = some here') (hnext' : r'.templates[j]? = some next')
    {reset' : Grid (Expression Rat)} (entries' : reset'.entries = d'.resetEntries source') :
    ∃ q ∈ certifiedBy (assemblySteps p.system r.templates horizon p.settings.freeFinalTime),
      q.Refines φ ψ (transitionInequality p'.system.time horizon i j source' here' next' d'.guard
        reset') := by
  obtain ⟨d, hd, tightens⟩ := h.transitions d' hd'
  obtain ⟨source, here, hsource, sources, hhere, -, solved⟩ :=
    exists_counterpart hr h hsolved hfits'.sourceMode hhere'
  obtain ⟨target, next, htarget, targets, hnext, nextFits, solvedNext⟩ :=
    exists_counterpart hr h hsolved hfits'.targetMode hnext'
  have connects : d.Connects p.system.modes i j source target := by
    refine ⟨?_, ?_, hsource, htarget⟩
    · rw [h.modes.length_eq, ← tightens.source]
      exact hfits'.sourceLabel
    · rw [h.modes.length_eq, ← tightens.target]
      exact hfits'.targetLabel
  have hfits := connects.fits hp.consistent hd
  have hguard : d.guard ≠ [] := fun empty => hguard' (tightens.guarded empty)
  obtain ⟨reset, entries, steps⟩ :=
    transitionSteps_of_fits hp.consistent hd hguard hfits here hnext
  have bound : j < p.system.modeCount := (List.getElem?_eq_some_iff.mp htarget).1
  refine ⟨_, transition_mem hsource hhere bound steps, ⟨?_, ?_, ?_⟩⟩
  · rw [transitionInequality, transitionInequality, sources.states, h.time]
  · rw [transitionInequality, transitionInequality, h.time]
    exact tightens.sublist_guard.cons_cons _
  · rw [solvedAt_transition φ hp.polynomial (fun _ hs => hr.regular.isNamed_of_mem hs) hd hfits
        nextFits entries,
      solvedAt_transition ψ hp'.polynomial (fun _ hs => hr'.regular.isNamed_of_mem hs) hd' hfits'
        (related_at hr'.templates hfits'.targetMode hnext') entries', targets.states,
      tightens.resetEntries_eq sources.states, solved, solvedNext]

theorem exists_refines_of_covers :
    ∀ q' ∈ certifiedBy
        (assemblySteps p'.system r'.templates horizon p'.settings.freeFinalTime),
      ∃ q ∈ certifiedBy (assemblySteps p.system r.templates horizon p.settings.freeFinalTime),
        q.Refines φ ψ q' := by
  suffices ∀ step ∈ assemblySteps p'.system r'.templates horizon p'.settings.freeFinalTime,
      ∀ q', step = .certify q' → ∃ q ∈ certifiedBy
        (assemblySteps p.system r.templates horizon p.settings.freeFinalTime),
          q.Refines φ ψ q' from fun q' hq' => this _ (mem_certifiedBy.mp hq') q' rfl
  refine forall_assemblySteps_at hp'.consistent hr'.templates hp'.final
    (fun i m' t' hm' ht' _ => ?_) (fun i m' t' hm' ht' _ htarget' => ?_)
    (fun d' hd' hguard' i j source' target' hfits' here' next' hhere' hnext' _ _ reset'
      entries' => ?_) (fun _ _ _ _ _ _ _ _ _ hq' => by simp at hq')
  · rintro q' ⟨⟩
    exact exists_refines_liouville hp hr hp' hr' h hsolved hm' ht'
  · rintro q' ⟨⟩
    exact exists_refines_terminal hp hr hp' hr' h hsolved hm' ht' htarget'
  · rintro q' ⟨⟩
    exact exists_refines_transition hp hr hp' hr' h hsolved hd' hguard' hfits' hhere' hnext' entries'

end

theorem carriesOverTo_of_covers (hdegree : p'.degree = p.degree) : r.CarriesOverTo r' := by
  intro point
  have scopes : List.Forall₂ (fun (m m' : Mode Rat) =>
      p'.system.time :: m'.states = p.system.time :: m.states) p.system.modes p'.system.modes :=
    h.modes.imp (fun _ _ tightens => by rw [h.time, tightens.states])
  obtain ⟨point', templates⟩ := IsRelaxedBy.exists_transfer hp hr hp' hr' (by rw [hdegree]) scopes
    point (fun ψ solved => exists_refines_of_covers hp hr hp' hr' h solved)
  exact ⟨point', FeasiblePoint.valueFunction_congr (.of_forall₂ templates),
    solvedAt_objective_congr hp hr hp' hr' h.time (.of_forall₂
      (h.modes.imp (fun _ _ tightens => ⟨tightens.states, tightens.initialState⟩)))
        (.of_forall₂ templates)⟩

end Problem

/-! ## Posed problems -/

section

variable {s s' : HybridSystem Rat} {degree : Datum} {settings : Settings} {p : Problem Rat}

theorem Problem.exists_relaxation_of_tightens (hs' : s'.IsPolynomial)
    (hpose : Problem.pose s degree settings = .ok p) {r : Relaxation Rat} (hbuild : p.build = .ok r)
    (hvalid : HybridSystem.validate s' = .ok ())
    (hmodes : List.Forall₂ ModeData.Tightens s.modes s'.modes) :
    ∃ p' r' cs', Problem.pose s' degree settings = .ok p' ∧ p'.build = .ok r' ∧
      p'.IsWellPosed ∧ p'.IsRelaxedBy r' cs' ∧ p'.system = s' ∧ p'.degree = p.degree := by
  have posed := Problem.pose_of_valid hpose hvalid (fun m' hm' htarget' => by
    obtain ⟨m, hm, tightens⟩ := exists_left_of_mem hmodes hm'
    exact ⟨m, hm, fun empty => htarget' (tightens.targeted empty)⟩)
  obtain ⟨wellPosed, -⟩ := Problem.isWellPosed_of_pose hs' posed
  obtain ⟨-, -, d, -, rfl⟩ := Problem.pose_eq_ok.mp hpose
  obtain ⟨r', cs', built, relaxed⟩ := Problem.exists_build wellPosed (fun m' hm' => by
    obtain ⟨m, hm, tightens⟩ := exists_left_of_mem hmodes hm'
    rw [tightens.drift]
    exact Problem.width_of_build hbuild m hm)
  exact ⟨_, r', cs', posed, built, wellPosed, relaxed, rfl, rfl⟩

/-! ## Monotonicity -/

/--
The bound is monotone in the data.  Whenever further transitions leave a system acceptable, its new
relaxation exists, all feasible points of that carry over to the old one, and the bound does not
rise.  With further inequalities in its sets a system stays acceptable, all feasible points of the
old relaxation carry over to the new one, and the bound does not fall.
-/
theorem optimalBound_monotone (hs : s.IsPolynomial)
    (hpose : Problem.pose s degree settings = .ok p) {r : Relaxation Rat}
    (hbuild : p.build = .ok r) :
    (∀ transitions : List (Transition Rat), s.transitions.Sublist transitions →
      (∀ t ∈ transitions, t.IsPolynomial) →
      HybridSystem.validate { s with transitions := transitions } = .ok () →
        ∃ p' r', Problem.pose { s with transitions := transitions } degree settings = .ok p' ∧
          p'.build = .ok r' ∧ r'.CarriesOverTo r ∧ r'.optimalBound ≤ r.optimalBound) ∧
      ∀ s', s.Tightens s' → ∃ p' r', Problem.pose s' degree settings = .ok p' ∧
        p'.build = .ok r' ∧ r.CarriesOverTo r' ∧ r.optimalBound ≤ r'.optimalBound := by
  obtain ⟨wellPosed, rfl, -⟩ := Problem.isWellPosed_of_pose hs hpose
  obtain ⟨cs, relaxed⟩ := Problem.isRelaxedBy_of_build wellPosed hbuild
  refine ⟨fun transitions hsublist htransitions hvalid => ?_, fun s' htightens => ?_⟩
  · have polynomial : SystemData.IsPolynomial { p.system with transitions := transitions } :=
      ⟨hs.modes, htransitions⟩
    obtain ⟨p', r', cs', posed, built, wellPosed', relaxed', hsystem, hdegree⟩ :=
      Problem.exists_relaxation_of_tightens polynomial hpose hbuild hvalid
        (List.forall₂_same.mpr (fun m _ => .refl m))
    have covers : p'.system.Covers p.system := wellPosed'.consistent.covers_of_sublist
      (by rw [hsystem]) (by rw [hsystem]) (by rw [hsystem]; exact hsublist)
    have carries := Problem.carriesOverTo_of_covers wellPosed' relaxed' wellPosed relaxed covers
      hdegree.symm
    exact ⟨p', r', posed, built, carries, carries.optimalBound_le⟩
  · have polynomial := htightens.isPolynomial hs
    have valid := (validate_eq_ok polynomial).mpr (htightens.isConsistent wellPosed.consistent)
    obtain ⟨p', r', cs', posed, built, wellPosed', relaxed', hsystem, hdegree⟩ :=
      Problem.exists_relaxation_of_tightens polynomial hpose hbuild valid htightens.modes
    have carries := Problem.carriesOverTo_of_covers wellPosed relaxed wellPosed' relaxed'
      (hsystem ▸ htightens.covers) hdegree
    exact ⟨p', r', posed, built, carries, carries.optimalBound_le⟩

end

def drivingSystem : HybridSystem Rat := ⟨.named "t", [drivingMode, parkedMode], []⟩

def boundedMode : Mode Rat :=
  { drivingMode with
    domain := [.ofSymbol (.named "x"), .number 1 - .ofSymbol (.named "x")] }

theorem tightens_boundedMode : drivingMode.Tightens boundedMode := by
  have domain : ExtendsSet drivingMode.states drivingMode.domain boundedMode.domain := by
    refine ⟨by simp [drivingMode, boundedMode], fun g hg => ?_⟩
    rcases List.mem_pair.mp hg with rfl | rfl
    · exact .inl (by simp [drivingMode])
    · exact .inr ⟨Expression.isPolynomial_sub (Expression.isPolynomial_number 1)
        (Expression.isPolynomial_ofSymbol _), by unfold Expression.IsWithin; decide +kernel⟩
  exact ⟨rfl, rfl, rfl, rfl, rfl, rfl, rfl, domain, .refl _ _, .refl _ _, id⟩

theorem optimalBound_monotone_drivingSystem :
    (∃ p r p' r', Problem.pose drivingSystem (.integer 2) Settings.defaults = .ok p ∧
      p.build = .ok r ∧ Problem.pose parkingSystem (.integer 2) Settings.defaults = .ok p' ∧
        p'.build = .ok r' ∧ r'.CarriesOverTo r ∧ r'.optimalBound ≤ r.optimalBound) ∧
      ∃ p r p' r', Problem.pose drivingSystem (.integer 2) Settings.defaults = .ok p ∧
        p.build = .ok r ∧ Problem.pose { drivingSystem with modes := [boundedMode, parkedMode] } (.integer 2)
          Settings.defaults = .ok p' ∧ p'.build = .ok r' ∧ r.CarriesOverTo r' ∧
            r.optimalBound ≤ r'.optimalBound := by
  have polynomial : drivingSystem.IsPolynomial :=
    ⟨isPolynomial_parkingSystem.modes, by simp [drivingSystem]⟩
  obtain ⟨p₀, r₀, posed₀, built₀, -⟩ := exists_relaxation_parkingSystem (n := 2) (by decide)
  obtain ⟨p, r, -, posed, built, -⟩ := Problem.exists_relaxation_of_tightens polynomial posed₀
    built₀ (by decide +kernel)
    (List.forall₂_same.mpr (fun m _ => .refl m))
  obtain ⟨more, tighter⟩ := optimalBound_monotone polynomial posed built
  refine ⟨?_, ?_⟩
  · obtain ⟨p', r', posed', built', carries, bound⟩ := more [parkingJump] (by simp [drivingSystem])
      isPolynomial_parkingSystem.transitions
      validate_parkingSystem
    exact ⟨p, r, p', r', posed, built, posed', built', carries, bound⟩
  · obtain ⟨p', r', posed', built', carries, bound⟩ :=
      tighter { drivingSystem with modes := [boundedMode, parkedMode] }
        ⟨rfl, .cons tightens_boundedMode (.cons (.refl _) .nil), .nil⟩
    exact ⟨p, r, p', r', posed, built, posed', built', carries, bound⟩

end HybridRelaxation
