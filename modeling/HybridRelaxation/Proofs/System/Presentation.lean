import Mathlib
import HybridRelaxation.Proofs.Expression.PowerProduct
import HybridRelaxation.Proofs.System.Consistency
import HybridRelaxation.System.Stated

/-!
# Presentations of a system

The same jumps can be listed in any order, under labels of different kinds, and with an identity
left out or written down.  A stated system that is accepted stays so, and its jumps resolve to the
same guards and resets between the same modes.
-/

namespace HybridRelaxation

/-! ## Order -/

section

variable {K S E : Type} {check : PartCheck S E}

theorem PartCheck.system_iff {s : SystemData K S E} :
    PartCheck.system check s = .ok () ↔
      (s.modes ≠ [] ∧
        s.modes.zipIdx.forM (fun (m, i) => check.mode s.time i m) = .ok ()) ∧
      ∃ pairs : List (ℕ × ℕ), pairs.Nodup ∧
        List.Forall₂ (check.Accepts s.modes) s.transitions pairs := by
  simp only [PartCheck.system, bind_check_eq_ok, require_eq_ok, PartCheck.transitions_iff,
    List.not_mem_nil, not_false_eq_true, implies_true, and_true, and_assoc]
  simp

theorem PartCheck.isJoined_of_system {s : SystemData K S E}
    (h : PartCheck.system check s = .ok ()) : s.IsJoined := by
  obtain ⟨-, pairs, nodup, accepted⟩ := PartCheck.system_iff.mp h
  exact ⟨pairs, nodup, accepted.imp (fun _ _ h => h.joins)⟩

theorem PartCheck.exists_accepts {s : SystemData K S E} (h : PartCheck.system check s = .ok ())
    {t : TransitionData E} (ht : t ∈ s.transitions) : ∃ pair, check.Accepts s.modes t pair := by
  obtain ⟨-, pairs, -, accepted⟩ := PartCheck.system_iff.mp h
  obtain ⟨pair, -, h⟩ := exists_right_of_mem accepted ht
  exact ⟨pair, h⟩

theorem PartCheck.states_ne_nil {s : SystemData K S E} (h : PartCheck.system check s = .ok ())
    {m : ModeData K S E} (hm : m ∈ s.modes) : m.states ≠ [] := by
  obtain ⟨⟨-, modesPass⟩, -⟩ := PartCheck.system_iff.mp h
  obtain ⟨i, hi⟩ := List.mem_iff_getElem?.mp hm
  have passes := forM_eq_ok.mp modesPass (m, i) (List.mem_zipIdx_iff_getElem?.mpr hi)
  simp only [PartCheck.mode, PartCheck.sizes, bind_check_eq_ok, require_eq_ok] at passes
  simpa [ModeData.stateCount] using passes.1.1

theorem PartCheck.height_ne_zero {s : SystemData K S E} (h : PartCheck.system check s = .ok ())
    {t : TransitionData E} (ht : t ∈ s.transitions) (column : Grid E)
    (hcolumn : t.reset = some column) : column.height ≠ 0 := by
  obtain ⟨pair, -, source, target, -, htarget, -, reset⟩ := PartCheck.exists_accepts h ht
  simp only [PartCheck.reset, hcolumn, bind_check_eq_ok, require_eq_ok, decide_eq_true_eq] at reset
  have nonempty := PartCheck.states_ne_nil h (List.mem_of_getElem? htarget)
  rw [reset.1, ModeData.stateCount]
  exact fun empty => nonempty (List.length_eq_zero_iff.mp empty)

variable {time : S} {modes : List (ModeData K S E)} {ts ts' : List (TransitionData E)}

/-- Whether a system is accepted does not depend on the order of its transitions. -/
theorem PartCheck.system_of_perm (h : ts.Perm ts')
    (hs : PartCheck.system check (.ofParts time modes ts) = .ok ()) :
    PartCheck.system check (.ofParts time modes ts') = .ok () := by
  obtain ⟨modesPass, pairs, nodup, accepted⟩ := PartCheck.system_iff.mp hs
  obtain ⟨pairs', accepted', perm⟩ :=
    List.perm_comp_forall₂ (h.symm.filter (fun t => !t.guard.isEmpty)) accepted
  exact PartCheck.system_iff.mpr ⟨modesPass, pairs', perm.nodup_iff.mpr nodup, accepted'⟩

theorem PartCheck.system_iff_of_perm (h : ts.Perm ts') :
    PartCheck.system check (.ofParts time modes ts) = .ok () ↔
      PartCheck.system check (.ofParts time modes ts') = .ok () :=
  ⟨system_of_perm h, system_of_perm h.symm⟩

theorem SystemData.transition?_of_perm (h : ts.Perm ts')
    (hs : (SystemData.ofParts time modes ts).IsJoined)
    (hs' : (SystemData.ofParts time modes ts').IsJoined) (i j : ℕ) :
    (SystemData.ofParts time modes ts').transition? (.integer i) (.integer j) =
      (SystemData.ofParts time modes ts).transition? (.integer i) (.integer j) := by
  refine Option.ext (fun t => ?_)
  rw [hs.transition?_eq_some, hs'.transition?_eq_some, mem_transitions_ofParts,
    mem_transitions_ofParts, h.mem_iff]
  rfl

end

/-! ## Entries that are expressions -/

section

variable {K : Type} [Scalar K]

namespace Entries

def ofSymbol (s : Symbol) : Entries K := .one (.ofSymbol s)

def known (e : Entries K) : Expression K := e.expression?.getD .zero

omit [Scalar K] in
theorem mapM_expressionOr {es : List (Entries K)} (h : ∀ e ∈ es, e.expression?.isSome = true)
    (f : Failure) : es.mapM (expressionOr f) = .ok (es.map known) := by
  refine mapM_eq_ok.mpr (List.forall₂_map_right_iff.mpr (List.forall₂_same.mpr (fun e he => ?_)))
  obtain ⟨x, hx⟩ := Option.isSome_iff_exists.mp (h e he)
  simp [expressionOr, known, hx]

omit [Scalar K] in
theorem mapM_grid {g : Grid (Entries K)} (h : ∀ e ∈ g.entries, e.expression?.isSome = true)
    (f : Failure) : g.mapM (expressionOr f) = .ok (g.map known) := by
  have rows : g.rows.mapM (fun row => row.mapM (expressionOr f)) =
      .ok (g.rows.map (List.map known)) := by
    refine mapM_eq_ok.mpr (List.forall₂_map_right_iff.mpr
      (List.forall₂_same.mpr (fun row hrow => mapM_expressionOr (fun e he => h e ?_) f)))
    exact List.mem_flatten.mpr ⟨row, hrow, he⟩
  rw [Grid.mapM, rows]
  rfl

end Entries

namespace TransitionData

structure IsKnown (t : StatedTransition K) : Prop where
  guard : ∀ e ∈ t.guard, e.expression?.isSome = true
  reset : ∀ grid, t.reset = some grid → ∀ e ∈ grid.entries, e.expression?.isSome = true

def known (t : StatedTransition K) : Transition K :=
  ⟨t.source, t.target, t.guard.map Entries.known, t.reset.map (Grid.map Entries.known)⟩

omit [Scalar K] in
theorem IsKnown.mapM_eq {t : StatedTransition K} (h : t.IsKnown) :
    t.mapM (Entries.expressionOr .wrongType) = .ok t.known := by
  rw [TransitionData.mapM, Entries.mapM_expressionOr h.guard, ok_bind, known]
  cases hreset : t.reset with
  | none => rfl
  | some grid =>
      simp only [Option.mapM_some, Entries.mapM_grid (h.reset grid hreset)]
      rfl

end TransitionData

namespace StatedSystem

theorem resolve_of_isKnown {s : StatedSystem K} (h : ∀ t ∈ s.transitions, t.IsKnown) :
    s.resolve = (do
      let time ← s.time.toSymbol
      let modes ← s.modes.mapM
        (ModeData.mapM Entries.toSymbol (Entries.expressionOr .wrongType))
      .ok ⟨time, modes, s.transitions.map TransitionData.known⟩) := by
  have transitions : s.transitions.mapM (TransitionData.mapM (Entries.expressionOr .wrongType)) =
      .ok (s.transitions.map TransitionData.known) :=
    mapM_eq_ok.mpr (List.forall₂_map_right_iff.mpr
      (List.forall₂_same.mpr (fun t ht => (h t ht).mapM_eq)))
  simp only [resolve, SystemData.mapM, transitions, ok_bind]

omit [Scalar K] in
theorem transition?_map_known (time : Symbol) (modes : List (Mode K))
    (ts : List (StatedTransition K)) (source target : Datum) :
    (⟨time, modes, ts.map TransitionData.known⟩ : HybridSystem K).transition? source target =
      (ts.find? (fun t => t.joins source target)).map TransitionData.known := by
  rw [SystemData.transition?, List.find?_map]
  rfl

end StatedSystem

end

/-! ## Checks of entries -/

namespace StatedSystem

theorem isSome_of_checkEntry {subject : String} {scope : List (Entries Number)}
    {e : Entries Number} (h : checkEntry subject scope e = .ok ()) :
    e.expression?.isSome = true := by
  cases e with
  | one e => rfl
  | absent => simp [checkEntry] at h
  | list items => simp [checkEntry] at h
  | grid g =>
      have blocked : checkGrid subject scope g = .ok () := h
      simp only [checkGrid, bind_check_eq_ok] at blocked
      obtain ⟨-, h⟩ := blocked
      split at h <;> simp [reject] at h

theorem checkEntry_congr {subject subject' : String} {scope : List (Entries Number)}
    {e : Entries Number} (h : checkEntry subject scope e = .ok ()) :
    checkEntry subject' scope e = .ok () := by
  obtain ⟨x, hx⟩ := Option.isSome_iff_exists.mp (isSome_of_checkEntry h)
  cases e with
  | one x =>
      simp only [checkEntry, checkExpression] at h ⊢
      split at h
      · simp at h
      · next flat =>
          rw [if_neg flat]
          simpa only [bind_check_eq_ok, require_eq_ok] using h
  | _ => simp [Entries.expression?] at hx

theorem all_checkEntry_congr {subject subject' : String} {scope es : List (Entries Number)}
    (h : PartCheck.all checkEntry subject scope es = .ok ()) :
    PartCheck.all checkEntry subject' scope es = .ok () :=
  forM_eq_ok.mpr (fun e he => checkEntry_congr (forM_eq_ok.mp h e he))

theorem isKnown_of_accepts {modes : List (StatedMode Number)} {t : StatedTransition Number}
    {pair : ℕ × ℕ} (h : PartCheck.Accepts checkEntry modes t pair) : t.IsKnown := by
  obtain ⟨source, target, -, -, guard, reset⟩ := h.parts
  refine ⟨fun e he => isSome_of_checkEntry (forM_eq_ok.mp guard e he), fun grid hgrid e he => ?_⟩
  simp only [PartCheck.reset, hgrid, bind_check_eq_ok] at reset
  exact isSome_of_checkEntry (forM_eq_ok.mp reset.2 e he)

theorem isKnown_of_validate {s : StatedSystem Number} (h : s.validate = .ok ()) :
    ∀ t ∈ s.transitions, t.IsKnown := by
  intro t ht
  obtain ⟨pair, accepted⟩ := PartCheck.exists_accepts h ht
  exact isKnown_of_accepts accepted

end StatedSystem

/-! ## A symbol is a polynomial -/

theorem isPolynomial_ofSymbol_number {s : Symbol} {scope : List Symbol} (hs : s ∈ scope) :
    isPolynomial (.ofSymbol s : Expression Number) scope = true := by
  have visible : Scalar.isZero (1 : Number) = false := by decide +kernel
  have natural : (Expression.ofInt 1 : Expression Number).natural? = some 1 := by decide +kernel
  obtain ⟨k, hk, -⟩ := exists_lastPosition? hs
  rw [isPolynomial, coefficients, Expression.expand_ofSymbol]
  simp [Expression.ofSymbol, collectTerms, visible, splitProduct, selectFactors, dependsOn,
    Base.symbols, Exponent.symbols, hs, Product.basePowers, addBasePower, exponentVector, hk,
    Exponent.toExpression, natural]

/-! ## Identities written down -/

/-- The same jump, where an absent reset may be written down as the column of the source states. -/
structure TransitionData.Restates {K : Type} [Scalar K] (source : StatedMode K)
    (t t' : StatedTransition K) : Prop where
  guard : t'.guard = t.guard
  reset : t'.reset = t.reset ∨ t.reset = none ∧ ∃ names : List Symbol,
    source.states = names.map Entries.ofSymbol ∧ t'.reset = some (.ofColumn source.states)

/-- The same modes, and the same jumps between any two of them. -/
structure StatedSystem.Restates {K : Type} [Scalar K] (s s' : StatedSystem K) : Prop where
  time : s'.time = s.time
  modes : s'.modes = s.modes
  jumps : ∀ i j : ℕ, Option.Rel
    (fun t t' => ∃ source, s.modes[i]? = some source ∧ t.Restates source t')
    (s.transition? (.integer i) (.integer j)) (s'.transition? (.integer i) (.integer j))

namespace StatedSystem

theorem checkEntry_ofSymbol {subject : String} {names : List Symbol} {x : Symbol}
    (hx : x ∈ names) :
    checkEntry subject (names.map Entries.ofSymbol) (.ofSymbol x) = .ok () := by
  have symbols : Entries.symbols (names.map Entries.ofSymbol : List (Entries Number)) = names := by
    simp [Entries.symbols, Entries.ofSymbol, Entries.expression?, List.filterMap_map,
      Function.comp_def]
  have flat : (names.map (Entries.ofSymbol (K := Number))).any Entries.isSequence = false := by
    simp [Entries.ofSymbol, Entries.isSequence]
  have known : (names.map (Entries.ofSymbol (K := Number))).all (fun s => s.expression?.isSome) =
      true := by
    simp [Entries.ofSymbol, Entries.expression?]
  have occurring : (Expression.ofSymbol x : Expression Number).symbols = [x] := rfl
  have foreign : foreignNames [x] names = [] := foreignNames_eq_nil.mpr (by simpa using hx)
  have polynomial := isPolynomial_ofSymbol_number hx
  simp only [Entries.ofSymbol] at symbols flat known ⊢
  simp [checkEntry, checkExpression, flat, symbols, occurring, foreign, known, polynomial,
    bind_check_eq_ok]

theorem accepts_of_restates {modes : List (StatedMode Number)} {t t' : StatedTransition Number}
    {pair : ℕ × ℕ} (h : PartCheck.Accepts checkEntry modes t pair) {source : StatedMode Number}
    (hsource : modes[pair.1]? = some source) (hjoins : t'.JoinsAt modes.length pair)
    (restates : t.Restates source t') : PartCheck.Accepts checkEntry modes t' pair := by
  obtain ⟨source', target, hsource', htarget, guard, reset⟩ := h.parts
  obtain rfl := Option.some.inj (hsource.symm.trans hsource')
  refine ⟨hjoins, source, target, hsource, htarget, ?_, ?_⟩
  · rw [restates.guard]
    exact all_checkEntry_congr guard
  · rcases restates.reset with same | ⟨absent, names, hnames, written⟩
    · cases hreset : t.reset with
      | none =>
          simp only [PartCheck.reset, same, hreset, require_eq_ok] at reset ⊢
          exact reset
      | some grid =>
          simp only [PartCheck.reset, same, hreset, bind_check_eq_ok, require_eq_ok] at reset ⊢
          exact ⟨reset.1, all_checkEntry_congr reset.2⟩
    · simp only [PartCheck.reset, absent, require_eq_ok] at reset
      simp only [PartCheck.reset, written, bind_check_eq_ok, require_eq_ok, Grid.height_ofColumn,
        Grid.entries_ofColumn]
      refine ⟨reset, forM_eq_ok.mpr (fun e he => ?_)⟩
      rw [hnames] at he ⊢
      obtain ⟨x, hx, rfl⟩ := List.mem_map.mp he
      exact checkEntry_ofSymbol hx

theorem validate_of_restates {s s' : StatedSystem Number} (hs : s.validate = .ok ())
    (h : s.Restates s') {pairs : List (ℕ × ℕ)} (nodup : pairs.Nodup)
    (all : List.Forall₂ (fun t' (pair : ℕ × ℕ) => t'.JoinsAt s.modeCount pair ∧
      ∃ t source, s.transition? (.integer pair.1) (.integer pair.2) = some t ∧
        s.modes[pair.1]? = some source ∧ t.Restates source t') s'.transitions pairs) :
    s'.validate = .ok () := by
  obtain ⟨modesPass, -⟩ := PartCheck.system_iff.mp hs
  refine PartCheck.system_iff.mpr ⟨?_, pairs, nodup, all.imp ?_⟩
  · rw [h.modes, h.time]
    exact modesPass
  · rintro t' pair ⟨joins', t, source, found, hsource, restates⟩
    obtain ⟨ht, joins⟩ := (PartCheck.isJoined_of_system hs).transition?_eq_some.mp found
    obtain ⟨other, accepted⟩ := PartCheck.exists_accepts hs ht
    obtain rfl := joins.unique accepted.joins
    rw [h.modes]
    exact accepts_of_restates accepted hsource joins' restates

end StatedSystem

end HybridRelaxation
