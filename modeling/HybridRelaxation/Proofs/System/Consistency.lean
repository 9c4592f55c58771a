import Mathlib
import HybridRelaxation.Proofs.Polynomial.Coefficients
import HybridRelaxation.Proofs.System.Positions

/-!
# Consistent systems of polynomials

A system of polynomials has distinct indeterminates and polynomial expressions as its data.  Such a
system is accepted exactly if its sizes fit, each part depends only on the indeterminates of its
scope, and each transition joins two of the modes, no pair of them twice.
-/

namespace HybridRelaxation

/-! ## Polynomial data -/

def Grid.IsRectangular {α : Type} (g : Grid α) : Prop := ∀ row ∈ g.rows, row.length = g.width

def Grid.IsColumn {α : Type} (g : Grid α) : Prop := ∀ row ∈ g.rows, row.length = 1

theorem Grid.length_entries {α : Type} {g : Grid α} {n : ℕ} (hg : ∀ row ∈ g.rows, row.length = n) :
    g.entries.length = g.height * n := by
  rw [Grid.entries, List.length_flatten, List.map_congr_left hg, List.map_const']
  simp [Grid.height]

theorem Grid.entries_ofColumn {α : Type} (xs : List α) : (Grid.ofColumn xs).entries = xs := by
  have flat : ∀ xs : List α, (xs.map (fun x => [x])).flatten = xs := by
    intro xs
    induction xs with
    | nil => rfl
    | cons x xs ih => simp [ih]
  cases xs with
  | nil => rfl
  | cons x xs => exact flat (x :: xs)

def Expression.IsWithin (scope : List Symbol) (e : Expression Rat) : Prop :=
  ∀ s ∈ e.symbols, s ∈ scope

theorem Expression.isWithin_ofSymbol {scope : List Symbol} {s : Symbol} (hs : s ∈ scope) :
    (ofSymbol s : Expression Rat).IsWithin scope := by
  have symbols : (ofSymbol s : Expression Rat).symbols = [s] := rfl
  intro t ht
  rw [symbols] at ht
  rwa [List.mem_singleton.mp ht]

namespace ModeData

structure IsPolynomial (time : Symbol) (m : Mode Rat) : Prop where
  distinct : (time :: m.states ++ m.controls).Nodup
  named : ∀ s ∈ time :: m.states ++ m.controls, s.isNamed = true
  drift : ∀ e ∈ m.drift.entries, e.IsPolynomial
  input : ∀ e ∈ m.input.entries, e.IsPolynomial
  driftShape : m.drift.IsRectangular
  inputShape : m.input.IsRectangular
  domain : ∀ e ∈ m.domain, e.IsPolynomial
  controlSet : ∀ e ∈ m.controlSet, e.IsPolynomial
  targetSet : ∀ e ∈ m.targetSet, e.IsPolynomial
  runningCost : m.runningCost.IsPolynomial
  terminalCost : m.terminalCost.IsPolynomial

/-- Sizes that fit, and parts that depend on the indeterminates of their scopes only. -/
structure IsConsistent (time : Symbol) (m : Mode Rat) : Prop where
  nonempty : m.stateCount ≠ 0
  driftHeight : m.drift.height = m.stateCount
  inputHeight : m.input.height = m.stateCount
  inputWidth : m.input.width = m.controlCount
  initialState : ∀ state, m.initialState = some state → state.length = m.stateCount
  drift : ∀ e ∈ m.drift.entries, e.IsWithin m.states
  input : ∀ e ∈ m.input.entries, e.IsWithin m.states
  domain : ∀ e ∈ m.domain, e.IsWithin m.states
  controlSet : ∀ e ∈ m.controlSet, e.IsWithin m.controls
  targetSet : ∀ e ∈ m.targetSet, e.IsWithin m.states
  runningCost : m.runningCost.IsWithin (time :: m.states ++ m.controls)
  terminalCost : m.terminalCost.IsWithin m.states

end ModeData

namespace TransitionData

structure IsPolynomial (t : Transition Rat) : Prop where
  guard : ∀ e ∈ t.guard, e.IsPolynomial
  reset : ∀ grid, t.reset = some grid → ∀ e ∈ grid.entries, e.IsPolynomial
  resetShape : ∀ grid, t.reset = some grid → grid.IsColumn

def ResetFits (source target : Mode Rat) (t : Transition Rat) : Prop :=
  match t.reset with
  | none => source.stateCount = target.stateCount
  | some grid => grid.height = target.stateCount ∧ ∀ e ∈ grid.entries, e.IsWithin source.states

/-- The image of the state under the reset, which keeps the state where none was given. -/
def resetEntries (source : Mode Rat) (t : Transition Rat) : List (Expression Rat) :=
  match t.reset with
  | none => source.states.map Expression.ofSymbol
  | some grid => grid.entries

/-- The transition joins the modes at two positions. -/
structure Connects (modes : List (Mode Rat)) (t : Transition Rat) (i j : ℕ)
    (source target : Mode Rat) : Prop where
  sourceLabel : PartCheck.modePosition? modes.length t.source = some i
  targetLabel : PartCheck.modePosition? modes.length t.target = some j
  sourceMode : modes[i]? = some source
  targetMode : modes[j]? = some target

structure Fits (modes : List (Mode Rat)) (t : Transition Rat) (i j : ℕ)
    (source target : Mode Rat) : Prop extends t.Connects modes i j source target where
  guard : ∀ e ∈ t.guard, e.IsWithin source.states
  reset : t.ResetFits source target

end TransitionData

namespace SystemData

structure IsPolynomial (s : HybridSystem Rat) : Prop where
  modes : ∀ m ∈ s.modes, m.IsPolynomial s.time
  transitions : ∀ t ∈ s.transitions, t.IsPolynomial

structure IsConsistent (s : HybridSystem Rat) : Prop where
  nonempty : s.modes ≠ []
  modes : ∀ m ∈ s.modes, m.IsConsistent s.time
  transitions : ∃ pairs : List (ℕ × ℕ), pairs.Nodup ∧
    List.Forall₂ (fun t pair => ∃ source target, TransitionData.Fits s.modes t pair.1 pair.2
      source target) s.transitions pairs

end SystemData

/-! ## Checks of single parts -/

abbrev polynomialCheck : PartCheck Symbol (Expression Rat) := checkPolynomial (fun _ => none)

theorem foreignNames_eq_nil {symbols scope : List Symbol} :
    foreignNames symbols scope = [] ↔ ∀ s ∈ symbols, s ∈ scope := by
  rw [foreignNames, ← List.length_eq_zero_iff, List.length_mergeSort, List.length_map,
    List.length_eq_zero_iff, List.filter_eq_nil_iff]
  simp [List.mem_eraseDups]

theorem polynomialCheck_eq_ok {subject : String} {scope : List Symbol} {e : Expression Rat}
    (he : e.IsPolynomial) : polynomialCheck subject scope e = .ok () ↔ e.IsWithin scope := by
  have polynomial : isPolynomial e scope = true := by
    obtain ⟨m, hm, -⟩ := exists_coefficients.{0} he scope
    rw [isPolynomial, hm]
  simp only [polynomialCheck, checkPolynomial, bind_check_eq_ok, require_eq_ok, polynomial,
    and_true, List.isEmpty_iff, foreignNames_eq_nil]
  rfl

theorem all_eq_ok {subject : String} {scope : List Symbol} {es : List (Expression Rat)}
    (h : ∀ e ∈ es, e.IsPolynomial) :
    PartCheck.all polynomialCheck subject scope es = .ok () ↔ ∀ e ∈ es, e.IsWithin scope := by
  rw [PartCheck.all, forM_eq_ok]
  exact forall₂_congr (fun e he => polynomialCheck_eq_ok (h e he))

/-! ## Checks of modes -/

theorem sizes_eq_ok {i : ℕ} {m : Mode Rat} :
    PartCheck.sizes i m = .ok () ↔
      m.stateCount ≠ 0 ∧ (m.drift.height = m.stateCount ∧ m.input.height = m.stateCount) ∧
        m.input.width = m.controlCount ∧
        ∀ state, m.initialState = some state → state.length = m.stateCount := by
  simp only [PartCheck.sizes, bind_check_eq_ok, require_eq_ok, decide_eq_true_eq,
    Bool.and_eq_true]
  cases m.initialState with
  | none => simp
  | some state => simp

theorem drift_eq_ok {i : ℕ} {m : Mode Rat} (h : ∀ e ∈ m.drift.entries, e.IsPolynomial) :
    PartCheck.drift polynomialCheck i m = .ok () ↔
      ∀ e ∈ m.drift.entries, e.IsWithin m.states := by
  rw [PartCheck.drift, forM_eq_ok]
  constructor
  · intro hall e he
    obtain ⟨k, hk⟩ := List.mem_iff_getElem?.mp he
    have := hall (e, k) (List.mem_zipIdx_iff_getElem?.mpr hk)
    exact (polynomialCheck_eq_ok (h e he)).mp this
  · rintro hall ⟨e, k⟩ hek
    have he : e ∈ m.drift.entries :=
      List.mem_iff_getElem?.mpr ⟨k, List.mem_zipIdx_iff_getElem?.mp hek⟩
    exact (polynomialCheck_eq_ok (h e he)).mpr (hall e he)

theorem mode_eq_ok {time : Symbol} {i : ℕ} {m : Mode Rat} (hm : m.IsPolynomial time) :
    PartCheck.mode polynomialCheck time i m = .ok () ↔ m.IsConsistent time := by
  simp only [PartCheck.mode, bind_check_eq_ok, sizes_eq_ok, drift_eq_ok hm.drift,
    all_eq_ok hm.input, all_eq_ok hm.domain, all_eq_ok hm.controlSet, all_eq_ok hm.targetSet,
    polynomialCheck_eq_ok hm.runningCost, polynomialCheck_eq_ok hm.terminalCost]
  constructor
  · rintro ⟨⟨hn, ⟨hf, hg⟩, hw, hx⟩, h₁, h₂, h₃, h₄, h₅, h₆, h₇⟩
    exact ⟨hn, hf, hg, hw, hx, h₁, h₂, h₃, h₄, h₅, h₆, h₇⟩
  · rintro ⟨hn, hf, hg, hw, hx, h₁, h₂, h₃, h₄, h₅, h₆, h₇⟩
    exact ⟨⟨hn, ⟨hf, hg⟩, hw, hx⟩, h₁, h₂, h₃, h₄, h₅, h₆, h₇⟩

/-! ## Checks of transitions -/

theorem reset_eq_ok {source target : Mode Rat} {t : Transition Rat} (ht : t.IsPolynomial) :
    PartCheck.reset polynomialCheck source target t = .ok () ↔ t.ResetFits source target := by
  unfold PartCheck.reset TransitionData.ResetFits
  cases hreset : t.reset with
  | none => simp
  | some grid =>
      simp only [bind_check_eq_ok, require_eq_ok, decide_eq_true_eq,
        all_eq_ok (ht.reset grid hreset)]

theorem accepts_iff_exists_fits {modes : List (Mode Rat)} {t : Transition Rat}
    (ht : t.IsPolynomial) {pair : ℕ × ℕ} :
    PartCheck.Accepts polynomialCheck modes t pair ↔
      ∃ source target, t.Fits modes pair.1 pair.2 source target := by
  constructor
  · rintro ⟨⟨hi, hj⟩, source, target, hsource, htarget, guard, reset⟩
    exact ⟨source, target, ⟨hi, hj, hsource, htarget⟩, (all_eq_ok ht.guard).mp guard,
      (reset_eq_ok ht).mp reset⟩
  · rintro ⟨source, target, fits⟩
    exact ⟨⟨fits.sourceLabel, fits.targetLabel⟩, source, target, fits.sourceMode, fits.targetMode,
      (all_eq_ok ht.guard).mpr fits.guard, (reset_eq_ok ht).mpr fits.reset⟩

theorem transitions_eq_ok {modes : List (Mode Rat)} {ts : List (Transition Rat)}
    (hts : ∀ t ∈ ts, t.IsPolynomial) (seen : List (ℕ × ℕ)) :
    PartCheck.transitions polynomialCheck modes seen ts = .ok () ↔
      ∃ pairs : List (ℕ × ℕ), (pairs.Nodup ∧ ∀ pair ∈ pairs, pair ∉ seen) ∧
        List.Forall₂ (fun t pair => ∃ source target,
          TransitionData.Fits modes t pair.1 pair.2 source target) ts pairs := by
  rw [PartCheck.transitions_iff]
  refine exists_congr (fun pairs => and_congr_right (fun _ => ⟨fun all => ?_, fun all => ?_⟩))
  · exact forall₂_imp_of_mem all (fun t ht _ => (accepts_iff_exists_fits (hts t ht)).mp)
  · exact forall₂_imp_of_mem all (fun t ht _ => (accepts_iff_exists_fits (hts t ht)).mpr)

/-! ## Whole systems -/

/-- A system of polynomials is accepted exactly if it is consistent. -/
theorem validate_eq_ok {s : HybridSystem Rat} (hs : s.IsPolynomial) :
    HybridSystem.validate s = .ok () ↔ s.IsConsistent := by
  have modes : s.modes.zipIdx.forM (fun (m, i) => PartCheck.mode polynomialCheck s.time i m) =
      .ok () ↔ ∀ m ∈ s.modes, m.IsConsistent s.time := by
    rw [forM_eq_ok]
    constructor
    · intro hall m hm
      obtain ⟨i, hi⟩ := List.mem_iff_getElem?.mp hm
      exact (mode_eq_ok (hs.modes m hm)).mp (hall (m, i) (List.mem_zipIdx_iff_getElem?.mpr hi))
    · rintro hall ⟨m, i⟩ hmi
      have hm : m ∈ s.modes := List.mem_iff_getElem?.mpr ⟨i, List.mem_zipIdx_iff_getElem?.mp hmi⟩
      exact (mode_eq_ok (hs.modes m hm)).mpr (hall m hm)
  simp only [HybridSystem.validate, PartCheck.system, bind_check_eq_ok, require_eq_ok, modes,
    transitions_eq_ok hs.transitions]
  constructor
  · rintro ⟨hnonempty, hmodes, pairs, ⟨hnodup, -⟩, hall⟩
    exact ⟨by simpa using hnonempty, hmodes, pairs, hnodup, hall⟩
  · rintro ⟨hnonempty, hmodes, pairs, hnodup, hall⟩
    exact ⟨by simpa using hnonempty, hmodes, pairs, ⟨hnodup, by simp⟩, hall⟩

/-! ## Looking up transitions -/

theorem SystemData.IsConsistent.isJoined {s : HybridSystem Rat} (hs : s.IsConsistent) :
    s.IsJoined := by
  obtain ⟨pairs, distinct, all⟩ := hs.transitions
  refine ⟨pairs, distinct, all.imp ?_⟩
  rintro t pair ⟨source, target, fits⟩
  exact ⟨fits.sourceLabel, fits.targetLabel⟩

theorem transition?_eq_some {s : HybridSystem Rat} (hs : s.IsConsistent) {t : Transition Rat}
    (ht : t ∈ s.transitions) {i j : ℕ} {source target : Mode Rat}
    (fits : t.Fits s.modes i j source target) :
    s.transition? (.integer i) (.integer j) = some t :=
  hs.isJoined.transition?_eq_some.mpr ⟨ht, fits.sourceLabel, fits.targetLabel⟩

theorem fits_of_transition? {s : HybridSystem Rat} (hs : s.IsConsistent) {t : Transition Rat}
    {i j : ℕ} (h : s.transition? (.integer i) (.integer j) = some t) :
    t ∈ s.transitions ∧ ∃ source target, t.Fits s.modes i j source target := by
  obtain ⟨ht, joins⟩ := hs.isJoined.transition?_eq_some.mp h
  obtain ⟨pairs, -, all⟩ := hs.transitions
  obtain ⟨pair, -, source, target, fits⟩ := exists_right_of_mem all ht
  have own : t.JoinsAt s.modeCount pair := ⟨fits.sourceLabel, fits.targetLabel⟩
  obtain rfl := joins.unique own
  exact ⟨ht, source, target, fits⟩

section

variable {s : HybridSystem Rat} {t : Transition Rat} {i j : ℕ} {source target : Mode Rat}

theorem TransitionData.Connects.fits (h : t.Connects s.modes i j source target)
    (hs : s.IsConsistent) (ht : t ∈ s.transitions) : t.Fits s.modes i j source target := by
  obtain ⟨pairs, -, hall⟩ := hs.transitions
  obtain ⟨⟨k, l⟩, -, source', target', fits⟩ := exists_right_of_mem hall ht
  obtain rfl : k = i := Option.some.inj (fits.sourceLabel.symm.trans h.sourceLabel)
  obtain rfl : l = j := Option.some.inj (fits.targetLabel.symm.trans h.targetLabel)
  obtain rfl : source' = source := Option.some.inj (fits.sourceMode.symm.trans h.sourceMode)
  obtain rfl : target' = target := Option.some.inj (fits.targetMode.symm.trans h.targetMode)
  exact fits

theorem guard_of_transition? (h : s.transition? (.integer i) (.integer j) = some t) :
    s.guard (.integer i) (.integer j) = t.guard := by
  rw [SystemData.guard, h]

theorem exists_reset (h : s.transition? (.integer i) (.integer j) = some t)
    (hsource : s.modes[i]? = some source) :
    ∃ grid, s.reset (.integer i) (.integer j) = .ok grid ∧
      grid.entries = t.resetEntries source := by
  simp only [HybridSystem.reset, SystemData.resetWith, h, TransitionData.resetEntries]
  cases hreset : t.reset with
  | some grid => exact ⟨grid, rfl, rfl⟩
  | none =>
      have position : (Datum.integer i).position = .ok (i : ℤ) := rfl
      have entry : entryAt s.modes (i : ℤ) = .ok source := by
        rw [entryAt, entryAt?_natCast, hsource]
      refine ⟨.ofColumn (source.states.map Expression.ofSymbol), ?_, Grid.entries_ofColumn _⟩
      simp only [position, entry, ok_bind]

theorem TransitionData.Fits.length_resetEntries (h : t.Fits s.modes i j source target)
    (ht : t.IsPolynomial) : (t.resetEntries source).length = target.states.length := by
  have fits := h.reset
  unfold TransitionData.resetEntries
  unfold TransitionData.ResetFits at fits
  cases hreset : t.reset with
  | none =>
      rw [hreset] at fits
      exact (List.length_map _).trans fits
  | some grid =>
      rw [hreset] at fits
      rw [Grid.length_entries (ht.resetShape grid hreset), mul_one]
      exact fits.1

theorem TransitionData.Fits.resetEntries (h : t.Fits s.modes i j source target)
    (ht : t.IsPolynomial) :
    ∀ e ∈ t.resetEntries source, e.IsPolynomial ∧ e.IsWithin source.states := by
  intro e he
  have fits := h.reset
  unfold TransitionData.resetEntries at he
  unfold TransitionData.ResetFits at fits
  cases hreset : t.reset with
  | none =>
      rw [hreset] at he
      obtain ⟨u, hu, rfl⟩ := List.mem_map.mp he
      exact ⟨Expression.isPolynomial_ofSymbol u, Expression.isWithin_ofSymbol hu⟩
  | some grid =>
      rw [hreset] at he fits
      exact ⟨ht.reset grid hreset e he, fits.2 e he⟩

end

end HybridRelaxation
