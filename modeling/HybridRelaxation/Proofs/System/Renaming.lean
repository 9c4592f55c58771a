import Mathlib
import HybridRelaxation.Proofs.Polynomial.Renaming
import HybridRelaxation.Proofs.System.Consistency

/-!
# Systems under new names

Each mode may get its own new names for its states and controls; the time keeps its name.  The data
of a mode take the names of the mode, the guard and the reset of a transition those of the mode it
leaves.  A renamed polynomial system is polynomial again, and consistent if the original is.
-/

namespace HybridRelaxation

/-! ## Renaming -/

section

variable {K : Type} [Scalar K]

def ModeData.rename (f : String → String) (m : Mode K) : Mode K where
  states := m.states.map (Symbol.rename f)
  controls := m.controls.map (Symbol.rename f)
  drift := m.drift.map (Expression.rename f)
  input := m.input.map (Expression.rename f)
  domain := m.domain.map (Expression.rename f)
  controlSet := m.controlSet.map (Expression.rename f)
  targetSet := m.targetSet.map (Expression.rename f)
  runningCost := m.runningCost.rename f
  terminalCost := m.terminalCost.rename f
  initialState := m.initialState
  name := m.name

def TransitionData.rename (f : String → String) (t : Transition K) : Transition K where
  source := t.source
  target := t.target
  guard := t.guard.map (Expression.rename f)
  reset := t.reset.map (Grid.map (Expression.rename f))

def TransitionData.sourcePosition {E : Type} (modeCount : ℕ) (t : TransitionData E) : ℕ :=
  (PartCheck.modePosition? modeCount t.source).getD 0

/-- The system with new names for the indeterminates of each mode, by its position. -/
def HybridSystem.rename (f : ℕ → String → String) (s : HybridSystem K) : HybridSystem K where
  time := s.time
  modes := s.modes.mapIdx (fun i m => m.rename (f i))
  transitions := s.transitions.map (fun t => t.rename (f (t.sourcePosition s.modes.length)))

/-- In each mode the time keeps its name, and the new names are distinct. -/
structure HybridSystem.IsRenaming (f : ℕ → String → String) (s : HybridSystem K) : Prop where
  time : ∀ (i : ℕ) (m : Mode K), s.modes[i]? = some m → s.time.rename (f i) = s.time
  distinct : ∀ (i : ℕ) (m : Mode K), s.modes[i]? = some m →
    ((s.time :: m.states ++ m.controls).map (Symbol.rename (f i))).Nodup

end

/-! ## Parts -/

theorem Grid.entries_map {α β : Type} (f : α → β) (g : Grid α) :
    (g.map f).entries = g.entries.map f := by
  rw [Grid.entries, Grid.entries, List.map_flatten]
  rfl

theorem Grid.IsRectangular.map {α β : Type} {g : Grid α} (h : g.IsRectangular) (f : α → β) :
    (g.map f).IsRectangular := by
  intro row hrow
  obtain ⟨entries, hentries, rfl⟩ := List.mem_map.mp hrow
  rw [List.length_map]
  exact h entries hentries

theorem Expression.IsWithin.rename {scope : List Symbol} {e : Expression Rat}
    (h : e.IsWithin scope) (f : String → String) :
    (e.rename f).IsWithin (scope.map (Symbol.rename f)) := by
  intro s hs
  obtain ⟨t, ht, rfl⟩ := List.mem_map.mp (Expression.symbols_rename f e hs)
  exact List.mem_map_of_mem (h t ht)

theorem forall_mem_map_rename {P Q : Expression Rat → Prop} {es : List (Expression Rat)}
    (f : String → String) (h : ∀ e ∈ es, P e) (hrename : ∀ e, P e → Q (e.rename f)) :
    ∀ e ∈ es.map (Expression.rename f), Q e := by
  intro e he
  obtain ⟨d, hd, rfl⟩ := List.mem_map.mp he
  exact hrename d (h d hd)

theorem forall₂_isRenamed {es : List (Expression Rat)} (f : String → String)
    (h : ∀ e ∈ es, e.IsPolynomial) :
    List.Forall₂ (Expression.IsRenamed f) es (es.map (Expression.rename f)) := by
  rw [List.forall₂_map_right_iff, List.forall₂_same]
  exact fun e he => .rename (h e he)

/-! ## Modes -/

section

variable {f : String → String} {time : Symbol} {m : Mode Rat}

theorem ModeData.scope_rename (htime : time.rename f = time) :
    time :: (m.rename f).states ++ (m.rename f).controls =
      (time :: m.states ++ m.controls).map (Symbol.rename f) := by
  simp [ModeData.rename, htime]

theorem ModeData.forall₂_states_rename (f : String → String) (m : Mode Rat) :
    List.Forall₂ (fun s s' => s' = Symbol.rename f s) m.states (m.rename f).states := by
  rw [ModeData.rename, List.forall₂_map_right_iff, List.forall₂_same]
  exact fun _ _ => rfl

theorem ModeData.IsPolynomial.rename (h : m.IsPolynomial time) (htime : time.rename f = time)
    (hdistinct : ((time :: m.states ++ m.controls).map (Symbol.rename f)).Nodup) :
    (m.rename f).IsPolynomial time := by
  have renamed {es : List (Expression Rat)} (hes : ∀ e ∈ es, e.IsPolynomial) :=
    forall_mem_map_rename f hes (fun e => Expression.isPolynomial_rename f e)
  refine ⟨?_, ?_, ?_, ?_, h.driftShape.map _, h.inputShape.map _, renamed h.domain,
    renamed h.controlSet, renamed h.targetSet, Expression.isPolynomial_rename f _ h.runningCost,
    Expression.isPolynomial_rename f _ h.terminalCost⟩
  · rwa [ModeData.scope_rename htime]
  · rw [ModeData.scope_rename htime]
    intro s hs
    obtain ⟨t, ht, rfl⟩ := List.mem_map.mp hs
    rw [Symbol.isNamed_rename]
    exact h.named t ht
  · rw [ModeData.rename, Grid.entries_map]
    exact renamed h.drift
  · rw [ModeData.rename, Grid.entries_map]
    exact renamed h.input

theorem ModeData.IsConsistent.rename (h : m.IsConsistent time) (htime : time.rename f = time) :
    (m.rename f).IsConsistent time := by
  have renamed {scope : List Symbol} {es : List (Expression Rat)}
      (hes : ∀ e ∈ es, e.IsWithin scope) :=
    forall_mem_map_rename (Q := Expression.IsWithin (scope.map (Symbol.rename f))) f hes
      (fun e he => he.rename f)
  have states : (m.rename f).stateCount = m.stateCount := List.length_map _
  have controls : (m.rename f).controlCount = m.controlCount := List.length_map _
  refine ⟨?_, ?_, ?_, ?_, ?_, ?_, ?_, renamed h.domain, renamed h.controlSet,
    renamed h.targetSet, ?_, h.terminalCost.rename f⟩
  · rw [states]
    exact h.nonempty
  · rw [states, ← h.driftHeight]
    exact Grid.height_map _ _
  · rw [states, ← h.inputHeight]
    exact Grid.height_map _ _
  · rw [controls, ← h.inputWidth]
    exact Grid.width_map _ _
  · rw [states]
    exact h.initialState
  · rw [ModeData.rename, Grid.entries_map]
    exact renamed h.drift
  · rw [ModeData.rename, Grid.entries_map]
    exact renamed h.input
  · rw [ModeData.scope_rename htime]
    exact h.runningCost.rename f

end

/-! ## Transitions -/

section

variable {f : String → String} {t : Transition Rat}

theorem TransitionData.IsPolynomial.rename (h : t.IsPolynomial) : (t.rename f).IsPolynomial := by
  have renamed {es : List (Expression Rat)} (hes : ∀ e ∈ es, e.IsPolynomial) :=
    forall_mem_map_rename f hes (fun e => Expression.isPolynomial_rename f e)
  refine ⟨renamed h.guard, fun grid hgrid => ?_, fun grid hgrid => ?_⟩
  · obtain ⟨original, horiginal, rfl⟩ := Option.map_eq_some_iff.mp hgrid
    rw [Grid.entries_map]
    exact renamed (h.reset original horiginal)
  · obtain ⟨original, horiginal, rfl⟩ := Option.map_eq_some_iff.mp hgrid
    intro row hrow
    obtain ⟨entries, hentries, rfl⟩ := List.mem_map.mp hrow
    rw [List.length_map]
    exact h.resetShape original horiginal entries hentries

theorem TransitionData.ResetFits.rename {source target : Mode Rat} (h : t.ResetFits source target)
    (g : String → String) : (t.rename f).ResetFits (source.rename f) (target.rename g) := by
  unfold TransitionData.ResetFits at h ⊢
  have states (m : Mode Rat) (f : String → String) : (m.rename f).stateCount = m.stateCount :=
    List.length_map _
  cases hreset : t.reset with
  | none => simpa [TransitionData.rename, hreset, states] using h
  | some grid =>
      rw [hreset] at h
      simp only [TransitionData.rename, hreset, Option.map_some, states, Grid.height_map]
      refine ⟨h.1, ?_⟩
      rw [Grid.entries_map]
      exact forall_mem_map_rename f h.2 (fun e he => he.rename f)

theorem TransitionData.IsPolynomial.forall₂_resetEntries (h : t.IsPolynomial)
    (source : Mode Rat) :
    List.Forall₂ (Expression.IsRenamed f) (t.resetEntries source)
      ((t.rename f).resetEntries (source.rename f)) := by
  unfold TransitionData.resetEntries
  cases hreset : t.reset with
  | none =>
      simp only [TransitionData.rename, hreset, Option.map_none, ModeData.rename, List.map_map]
      rw [List.forall₂_map_left_iff, List.forall₂_map_right_iff, List.forall₂_same]
      intro s _
      refine ⟨Expression.isPolynomial_ofSymbol _, Expression.isPolynomial_ofSymbol _, ?_⟩
      rw [Function.comp_apply, Expression.eval_ofSymbol, Expression.eval_ofSymbol]
  | some grid =>
      simp only [TransitionData.rename, hreset, Option.map_some, Grid.entries_map]
      exact forall₂_isRenamed f (h.reset grid hreset)

end

/-! ## Systems -/

namespace HybridSystem

variable {f : ℕ → String → String} {s : HybridSystem Rat}

theorem getElem?_modes_rename (i : ℕ) :
    (s.rename f).modes[i]? = (s.modes[i]?).map (fun m => m.rename (f i)) :=
  List.getElem?_mapIdx

theorem length_modes_rename : (s.rename f).modes.length = s.modes.length := List.length_mapIdx

theorem mem_modes_rename {m : Mode Rat} (h : m ∈ (s.rename f).modes) :
    ∃ (i : ℕ) (n : Mode Rat), s.modes[i]? = some n ∧ m = n.rename (f i) := by
  obtain ⟨i, hi⟩ := List.mem_iff_getElem?.mp h
  rw [getElem?_modes_rename, Option.map_eq_some_iff] at hi
  obtain ⟨n, hn, rfl⟩ := hi
  exact ⟨i, n, hn, rfl⟩

theorem isPolynomial_rename (hs : s.IsPolynomial) (hf : IsRenaming f s) :
    (s.rename f).IsPolynomial := by
  refine ⟨fun m hm => ?_, fun t ht => ?_⟩
  · obtain ⟨i, n, hn, rfl⟩ := mem_modes_rename hm
    exact (hs.modes n (List.mem_of_getElem? hn)).rename (hf.time i n hn) (hf.distinct i n hn)
  · obtain ⟨t, hmem, rfl⟩ := List.mem_map.mp ht
    exact (hs.transitions t hmem).rename

theorem rename_of_fits {t : Transition Rat} {i j : ℕ} {source target : Mode Rat}
    (fits : t.Fits s.modes i j source target) :
    t.rename (f (t.sourcePosition s.modes.length)) = t.rename (f i) := by
  rw [TransitionData.sourcePosition, fits.sourceLabel, Option.getD_some]

theorem mem_transitions_rename {t : Transition Rat} (ht : t ∈ s.transitions) {i j : ℕ}
    {source target : Mode Rat} (fits : t.Fits s.modes i j source target) :
    t.rename (f i) ∈ (s.rename f).transitions := by
  rw [← rename_of_fits (f := f) fits]
  exact List.mem_map_of_mem ht

theorem fits_rename {t : Transition Rat} {i j : ℕ} {source target : Mode Rat}
    (fits : t.Fits s.modes i j source target) :
    (t.rename (f i)).Fits (s.rename f).modes i j (source.rename (f i)) (target.rename (f j)) := by
  refine ⟨⟨?_, ?_, ?_, ?_⟩, ?_, fits.reset.rename (f j)⟩
  · rw [length_modes_rename]
    exact fits.sourceLabel
  · rw [length_modes_rename]
    exact fits.targetLabel
  · rw [getElem?_modes_rename, fits.sourceMode, Option.map_some]
  · rw [getElem?_modes_rename, fits.targetMode, Option.map_some]
  · exact forall_mem_map_rename (f i) fits.guard (fun e he => he.rename (f i))

theorem isConsistent_rename (hs : s.IsConsistent) (hf : IsRenaming f s) :
    (s.rename f).IsConsistent := by
  refine ⟨?_, fun m hm => ?_, ?_⟩
  · rw [← List.length_pos_iff_ne_nil, length_modes_rename, List.length_pos_iff_ne_nil]
    exact hs.nonempty
  · obtain ⟨i, n, hn, rfl⟩ := mem_modes_rename hm
    exact (hs.modes n (List.mem_of_getElem? hn)).rename (hf.time i n hn)
  · obtain ⟨pairs, hnodup, hall⟩ := hs.transitions
    refine ⟨pairs, hnodup, List.forall₂_map_left_iff.mpr (hall.imp ?_)⟩
    rintro t ⟨i, j⟩ ⟨source, target, fits⟩
    rw [rename_of_fits fits]
    exact ⟨_, _, fits_rename fits⟩

theorem transition?_rename (source target : Datum) :
    (s.rename f).transition? source target =
      (s.transition? source target).map
        (fun t => t.rename (f (t.sourcePosition s.modes.length))) := by
  rw [SystemData.transition?, SystemData.transition?, rename, List.find?_map]
  rfl

end HybridSystem

end HybridRelaxation
