import Mathlib
import HybridRelaxation.Proofs.Relaxation.Assembly
import HybridRelaxation.Proofs.SquareSum.Renaming
import HybridRelaxation.Proofs.System.Renaming

/-!
# Inequalities of renamed systems

The templates of a system and of the system under new names have the same decisions.  Each mode asks
for the same inequalities under its new names.  For a jump this needs that the value after it is
read under the names of the target and written under those of the source, all at once: the modes
may share or exchange names.
-/

namespace HybridRelaxation

open MvPolynomial (X pderiv)

/-! ## Templates -/

theorem decisions_of_registerModes {time : Symbol} {degree : ℤ} {T : Rat}
    {modes modes' : List (Mode Rat)}
    (hmodes : List.Forall₂ (fun m m' => m'.states.length = m.states.length) modes modes')
    {index : ℕ} {p p' q q' : SquareProgram Rat} {templates templates' : List (ValueTemplate Rat)}
    (hp : p'.decisions = p.decisions)
    (h : registerModes time degree T p index modes = (q, .ok templates))
    (h' : registerModes time degree T p' index modes' = (q', .ok templates')) :
    q'.decisions = q.decisions ∧
      List.Forall₂ (fun t t' => t'.decisions = t.decisions) templates templates' := by
  induction hmodes generalizing index p p' q q' templates templates' with
  | nil =>
      obtain ⟨rfl, result⟩ := Prod.mk.inj h
      obtain ⟨rfl, result'⟩ := Prod.mk.inj h'
      obtain rfl := Except.ok.inj result
      obtain rfl := Except.ok.inj result'
      exact ⟨hp, .nil⟩
  | @cons m m' modes modes' head tail ih =>
      obtain ⟨r, template, others, hregister, hothers, rfl⟩ := registerModes_cons_eq_ok.mp h
      obtain ⟨r', template', others', hregister', hothers', rfl⟩ := registerModes_cons_eq_ok.mp h'
      have registered := ValueTemplate.isRegistered_of_register hregister
      have registered' := ValueTemplate.isRegistered_of_register hregister'
      have same : template'.decisions = template.decisions := by
        rw [registered.decisions, registered'.decisions, SquareProgram.size, SquareProgram.size, hp]
        simp only [monomials, List.length_map, List.length_cons, head]
      obtain ⟨decisions, all⟩ := ih
        (by rw [registered.programDecisions, registered'.programDecisions, hp, same])
        hothers hothers'
      exact ⟨decisions, .cons same all⟩

/-! ## The point of the new names -/

/--
The indeterminates under their new names. Away from the given names and the decision unknowns the
new names need not be distinct, so these places are zero.
-/
noncomputable def renamedPoint (f : String → String) (names : List Symbol) (s : Symbol) :
    MvPolynomial Symbol ℚ :=
  if s ∈ names ∨ s.isNamed = false then X (s.rename f) else 0

section

variable {f : String → String} {names symbols : List Symbol} {s : Symbol}

theorem renamedPoint_of_mem (hs : s ∈ names) : renamedPoint f names s = X (s.rename f) :=
  if_pos (.inl hs)

theorem renamedPoint_of_unnamed (hs : s.isNamed = false) :
    renamedPoint f names s = X (s.rename f) :=
  if_pos (.inr hs)

theorem differentiates_renamedPoint (distinct : (names.map (Symbol.rename f)).Nodup)
    (named : ∀ s ∈ names, s.isNamed = true) (known : ∀ s ∈ symbols, s ∈ names) :
    Differentiates (renamedPoint f names) (fun s => pderiv (s.rename f)) symbols := by
  intro s hs t
  have hs := known s hs
  by_cases hst : s = t
  · subst hst
    rw [renamedPoint_of_mem hs, if_pos rfl]
    exact MvPolynomial.pderiv_X_self _
  rw [if_neg hst]
  by_cases hfree : t ∈ names ∨ t.isNamed = false
  · have differ : t.rename f ≠ s.rename f := by
      intro heq
      rcases hfree with hmem | hdecision
      · exact hst (List.inj_on_of_nodup_map distinct hs hmem heq.symm)
      · have hnamed := named s hs
        rw [← Symbol.isNamed_rename f, ← heq, Symbol.isNamed_rename, hdecision] at hnamed
        simp at hnamed
    rw [renamedPoint, if_pos hfree]
    exact MvPolynomial.pderiv_X_of_ne differ
  · rw [renamedPoint, if_neg hfree, map_zero]

end

/-! ## Inequalities under new names -/

structure Inequality.IsRenamed (f : String → String) (q q' : Inequality Rat) : Prop where
  place : q'.place = q.place
  scope : q'.scope = q.scope.map (Symbol.rename f)
  polynomial : q.polynomial.IsRenamed f q'.polynomial
  constraints : List.Forall₂ (Expression.IsRenamed f) q.constraints q'.constraints

theorem isRenamed_number (f : String → String) (c : Rat) :
    (Expression.number c).IsRenamed f (.number c) := by
  refine ⟨Expression.isPolynomial_number c, Expression.isPolynomial_number c, ?_⟩
  rw [Expression.eval_number, Expression.eval_number]

theorem isRenamed_timeWindow {f : String → String} {time : Symbol}
    (htime : time.rename f = time) :
    (timeWindow time horizon).IsRenamed f (timeWindow time (horizon : Rat)) := by
  refine ⟨isPolynomial_timeWindow time, isPolynomial_timeWindow time, ?_⟩
  rw [eval_timeWindow, eval_timeWindow, htime]

theorem ModeData.velocity_rename {R : Type*} [CommRing R] [Algebra ℚ R] (f : String → String)
    (m : Mode Rat) (τ : Symbol → R) :
    (m.rename f).velocity τ = m.velocity (fun s => τ (s.rename f)) := by
  have values : ∀ es : List (Expression Rat), (es.map (Expression.rename f)).map
      (Expression.eval τ) = es.map (Expression.eval (fun s => τ (s.rename f))) := by
    intro es
    rw [List.map_map]
    exact List.map_congr_left (fun e _ => Expression.eval_rename τ f e)
  simp only [velocity, ModeData.rename, Grid.entries_map, values]
  congr 1
  rw [Grid.map, List.map_map]
  refine List.map_congr_left (fun row _ => ?_)
  rw [Function.comp_apply, values, List.map_map]
  rfl

section

variable {f : String → String} {time : Symbol} {degree : ℤ} {decisions : List Symbol}
  {m : Mode Rat} {template template' : ValueTemplate Rat} (htime : time.rename f = time)
  (hdecisions : ∀ s ∈ decisions, s.isNamed = false) (ht : template.Fits time degree decisions m)
  (ht' : template'.Fits time degree decisions (m.rename f))
  (same : template'.decisions = template.decisions)

include htime hdecisions ht ht' same

theorem ValueTemplate.Fits.isRenamed : template.value.IsRenamed f template'.value := by
  have scope : time :: (m.rename f).states = (time :: m.states).map (Symbol.rename f) := by
    simp [ModeData.rename, htime]
  rw [ht.value, ht'.value, same, scope]
  exact SquareProgram.isRenamed_combination f (fun s hs => hdecisions s (ht.known s hs)) _ degree

variable (hm : m.IsPolynomial time) (hc : m.IsConsistent time)
  (hdistinct : ((time :: m.states ++ m.controls).map (Symbol.rename f)).Nodup)

include hm hc hdistinct

theorem isRenamed_liouville (i : ℕ) :
    (liouvilleInequality time horizon i m template).IsRenamed f
      (liouvilleInequality time horizon i (m.rename f) template') := by
  have hm' := hm.rename htime hdistinct
  have regular := isRegular_liouville hm hc hdecisions ht i
  have regular' := isRegular_liouville hm' (hc.rename htime) hdecisions ht' i
  refine ⟨rfl, ModeData.scope_rename htime, ⟨regular.polynomial, regular'.polynomial, ?_⟩,
    List.rel_append (.cons (isRenamed_timeWindow htime) (forall₂_isRenamed f hm.domain))
      (forall₂_isRenamed f hm.controlSet)⟩
  let τ := renamedPoint f (time :: m.states ++ m.controls)
  have places : ∀ s ∈ time :: m.states ++ m.controls, τ s = X (s.rename f) :=
    fun s hs => renamedPoint_of_mem hs
  have unknowns : ∀ s ∈ decisions, τ s = X (s.rename f) :=
    fun s hs => renamedPoint_of_unnamed (hdecisions s hs)
  have derivatives : Differentiates τ (fun s => pderiv (s.rename f)) (time :: m.states) :=
    differentiates_renamedPoint hdistinct hm.named
      (fun s hs => List.mem_append_left m.controls hs)
  have value : template'.value.eval X = template.value.eval τ := by
    rw [(ht.isRenamed htime hdecisions ht' same).value]
    exact (ht.eval_congr unknowns (fun s hs => places s (List.mem_append_left _ hs))).symm
  have velocity : (m.rename f).velocity X = m.velocity τ := by
    rw [ModeData.velocity_rename]
    exact (ModeData.velocity_congr hc (fun s hs => places s (by simp [hs]))
      (fun s hs => places s (by simp [hs]))).symm
  have cost : (m.rename f).runningCost.eval X = m.runningCost.eval τ := by
    rw [ModeData.rename, Expression.eval_rename]
    exact Expression.eval_congr _ (fun s hs => (places s (hc.runningCost s hs)).symm)
  have onScope : (liouvilleInequality time horizon i m template).polynomial.eval
        (fun s => (X (s.rename f) : MvPolynomial Symbol ℚ)) =
      (liouvilleInequality time horizon i m template).polynomial.eval τ := by
    rw [Expression.eval_eq_aeval, Expression.eval_eq_aeval τ]
    exact aeval_congr_of_mem_affineSpan regular.affine (fun s hs => (places s hs).symm)
      (fun s hs => (unknowns s hs).symm)
  rw [onScope]
  change (template'.flowDerivative + (m.rename f).runningCost).eval X =
    (template.flowDerivative + m.runningCost).eval τ
  rw [Expression.eval_add, Expression.eval_add, ht.flow τ _ derivatives,
    ht'.flow X (fun s => pderiv s) (differentiates_X _), value, velocity, cost, htime,
    alongVelocity, alongVelocity, ModeData.rename, List.map_map]
  rfl

end

/-! ### Replaced values -/

section

variable {f g : String → String} {time : Symbol} {degree : ℤ} {decisions : List Symbol}
  {m m' : Mode Rat} {template template' : ValueTemplate Rat} {scope scope' : List Symbol}
  {pairs pairs' : List (Symbol × Expression Rat)}

/--
A value keeps its meaning when its indeterminates, under the names of one mode, are replaced by
expressions under the names of another one.
-/
theorem ValueTemplate.Fits.isRenamed_replaced (hdecisions : ∀ s ∈ decisions, s.isNamed = false)
    (ht : template.Fits time degree decisions m) (ht' : template'.Fits time degree decisions m')
    (hvalue : template.value.IsRenamed g template'.value)
    (hnamed : ∀ s ∈ time :: m.states, s.isNamed = true)
    (hnamed' : ∀ s ∈ time :: m'.states, s.isNamed = true)
    (hpairs : IsReplacement (time :: m.states) scope pairs)
    (hpairs' : IsReplacement (time :: m'.states) scope' pairs')
    (images : List.Forall₂ (fun pair pair' => pair'.1 = pair.1.rename g ∧
      pair.2.IsRenamed f pair'.2) pairs pairs')
    (kept : ∀ s ∈ time :: m.states, s ∉ pairs.map Prod.fst →
      s.rename g ∉ pairs'.map Prod.fst ∧ s.rename g = s.rename f) :
    (template.value.substitute (replacements pairs)).expand.IsRenamed f
      (template'.value.substitute (replacements pairs')).expand := by
  let τ := pointAfter (X : Symbol → MvPolynomial Symbol ℚ) (replacements pairs')
  have replaced : ∀ pair ∈ pairs', τ pair.1 = pair.2.eval X := fun pair hpair => by
    simp only [τ, pointAfter, replacements_of_mem hpairs'.distinct hpair]
  have others : ∀ s, s ∉ pairs'.map Prod.fst → τ s = X s := fun s hs => by
    simp only [τ, pointAfter, replacements_of_notMem hs]
  have keys : ∀ s ∈ decisions, s ∉ pairs.map Prod.fst :=
    fun s hs => hpairs.notMem_keys hnamed (hdecisions s hs)
  have keys' : ∀ s ∈ decisions, s ∉ pairs'.map Prod.fst :=
    fun s hs => hpairs'.notMem_keys hnamed' (hdecisions s hs)
  refine ⟨ht.isPolynomial_replaced hpairs, ht'.isPolynomial_replaced hpairs', ?_⟩
  rw [ht'.eval_replaced hpairs' replaced (fun s _ hs => others s hs) keys'
    (fun s hs => others s (keys' s hs)), hvalue.eval,
    ht.eval_replaced hpairs (τ := fun s => τ (s.rename g)) (fun pair hpair => ?_)
      (fun s hs hkey => ?_) keys (fun s hs => ?_)]
  · obtain ⟨pair', hpair', hkey, himage⟩ := exists_right_of_mem images hpair
    rw [← hkey, replaced pair' hpair', himage.value]
  · obtain ⟨absent, hsame⟩ := kept s hs hkey
    exact (others _ absent).trans (congrArg X hsame)
  · have unnamed := hdecisions s hs
    simp only [Symbol.rename_of_not_isNamed _ unnamed]
    exact others s (keys' s hs)

end

section

variable {f : String → String} {time : Symbol} {degree : ℤ} {decisions : List Symbol}
  {m : Mode Rat} {template template' : ValueTemplate Rat} (htime : time.rename f = time)
  (hdecisions : ∀ s ∈ decisions, s.isNamed = false) (ht : template.Fits time degree decisions m)
  (ht' : template'.Fits time degree decisions (m.rename f))
  (same : template'.decisions = template.decisions) (hm : m.IsPolynomial time)
  (hdistinct : ((time :: m.states ++ m.controls).map (Symbol.rename f)).Nodup)

include htime hdecisions ht ht' same hm hdistinct

theorem isRenamed_terminal (i : ℕ) :
    (terminalInequality i m template).IsRenamed f
      (terminalInequality i (m.rename f) template') := by
  have hm' := hm.rename htime hdistinct
  have final : template.final.IsRenamed f template'.final := by
    rw [ht.final, ht'.final]
    refine ValueTemplate.Fits.isRenamed_replaced hdecisions ht ht'
      (ht.isRenamed htime hdecisions ht' same) (fun s hs => hm.named s (List.mem_append_left _ hs))
      (fun s hs => hm'.named s (List.mem_append_left _ hs)) (isReplacement_final time m.states)
      (isReplacement_final time _) (.cons ⟨htime.symm, isRenamed_number f 1⟩ .nil)
      (fun s hs hkey => ⟨?_, rfl⟩)
    have hne : s ≠ time := by simpa using hkey
    intro hmem
    have heq : s.rename f = time.rename f := by simpa [htime] using hmem
    exact hne (List.inj_on_of_nodup_map hdistinct (List.mem_append_left _ hs) (by simp) heq)
  exact ⟨rfl, rfl, (Expression.IsRenamed.rename hm.terminalCost).sub final,
    forall₂_isRenamed f hm.targetSet⟩

theorem isRenamed_initialValue (hc : m.IsConsistent time) {state : List Rat}
    (hstate : m.initialState = some state) :
    (initialValue time m template state).IsRenamed id
      (initialValue time (m.rename f) template' state) := by
  have hm' := hm.rename htime hdistinct
  have values : List.Forall₂ (Expression.IsRenamed id)
      (state.map (fun c => (Expression.number c : Expression Rat)))
      (state.map (fun c => Expression.number c)) := by
    rw [List.forall₂_map_left_iff, List.forall₂_map_right_iff, List.forall₂_same]
    exact fun c _ => isRenamed_number id c
  refine ValueTemplate.Fits.isRenamed_replaced hdecisions ht ht'
    (ht.isRenamed htime hdecisions ht' same) (fun s hs => hm.named s (List.mem_append_left _ hs))
    (fun s hs => hm'.named s (List.mem_append_left _ hs)) (isReplacement_initial hm hc hstate)
    (isReplacement_initial hm' (hc.rename htime) hstate)
    (.cons ⟨htime.symm, ⟨by simp, by simp, by simp⟩⟩ (related_zip (m.forall₂_states_rename f) values))
    (fun s hs hkey => absurd ?_ hkey)
  have keys : (m.states.zip (state.map (fun c => (Expression.number c : Expression Rat)))).map
      Prod.fst = m.states := by
    refine List.map_fst_zip ?_
    rw [List.length_map, hc.initialState state hstate]
    exact le_rfl
  simp only [List.map_cons, Scalar.toMeasured_rat, keys]
  exact hs

end

section

variable {f : ℕ → String → String} {s : HybridSystem Rat} (hs : s.IsPolynomial)
  (hf : HybridSystem.IsRenaming f s) {degree : ℤ} {decisions : List Symbol}
  (hdecisions : ∀ u ∈ decisions, u.isNamed = false) {t : Transition Rat}
  (htransition : t ∈ s.transitions) {i j : ℕ} {source target : Mode Rat}
  (fits : t.Fits s.modes i j source target) {here here' next next' : ValueTemplate Rat}
  (hhere : here.Fits s.time degree decisions source)
  (hhere' : here'.Fits s.time degree decisions (source.rename (f i)))
  (hnext : next.Fits s.time degree decisions target)
  (hnext' : next'.Fits s.time degree decisions (target.rename (f j)))
  (same : here'.decisions = here.decisions) (same' : next'.decisions = next.decisions)

include hs hf hdecisions htransition fits hhere hhere' hnext hnext' same same'

/--
The value after a jump is read under the names of the target and written under those of the source,
where names may be shared or exchanged.
-/
theorem isRenamed_transition {reset reset' : Grid (Expression Rat)}
    (hreset : reset.entries = t.resetEntries source)
    (hreset' : reset'.entries = (t.rename (f i)).resetEntries (source.rename (f i))) :
    (transitionInequality s.time horizon i j source here next t.guard reset).IsRenamed (f i)
      (transitionInequality s.time horizon i j (source.rename (f i)) here' next'
        (t.rename (f i)).guard reset') := by
  have htarget := hs.modes target (List.mem_of_getElem? fits.targetMode)
  have htime := hf.time i source fits.sourceMode
  have htime' := hf.time j target fits.targetMode
  have hdistinct := hf.distinct j target fits.targetMode
  have htargetNew := htarget.rename htime' hdistinct
  have transition := hs.transitions t htransition
  have replacement := isReplacement_reset hs htransition fits
  have replacement' : IsReplacement (s.time :: (target.rename (f j)).states)
      (s.time :: (source.rename (f i)).states) ((target.rename (f j)).states.zip
        ((t.rename (f i)).resetEntries (source.rename (f i)))) :=
    isReplacement_reset (HybridSystem.isPolynomial_rename hs hf)
      (HybridSystem.mem_transitions_rename htransition fits) (HybridSystem.fits_rename fits)
  have after : (valueAfter next reset).IsRenamed (f i) (valueAfter next' reset') := by
    rw [valueAfter, valueAfter, hnext.states, hnext'.states, hreset, hreset']
    refine ValueTemplate.Fits.isRenamed_replaced hdecisions hnext hnext'
      (hnext.isRenamed htime' hdecisions hnext' same')
      (fun u hu => htarget.named u (List.mem_append_left _ hu))
      (fun u hu => htargetNew.named u (List.mem_append_left _ hu)) replacement replacement'
      (related_zip (target.forall₂_states_rename (f j)) (transition.forall₂_resetEntries source))
      (fun u hu hkey => ?_)
    -- Only the time is left, and no mode gives its name away.
    have keys : (target.states.zip (t.resetEntries source)).map Prod.fst = target.states :=
      List.map_fst_zip (fits.length_resetEntries transition).ge
    rw [keys] at hkey
    obtain rfl : u = s.time := (List.mem_cons.mp hu).resolve_right hkey
    refine ⟨fun hmem => ?_, htime'.trans htime.symm⟩
    obtain ⟨pair, hpair, heq⟩ := List.mem_map.mp hmem
    have hstate := (List.of_mem_zip hpair).1
    rw [heq, htime'] at hstate
    have fresh := (List.nodup_append.mp htargetNew.distinct).1
    exact (List.nodup_cons.mp fresh).1 hstate
  refine ⟨rfl, ?_, after.sub (hhere.isRenamed htime hdecisions hhere' same),
    .cons (isRenamed_timeWindow htime) (forall₂_isRenamed (f i) transition.guard)⟩
  simp [transitionInequality, ModeData.rename, htime]

end

end HybridRelaxation
