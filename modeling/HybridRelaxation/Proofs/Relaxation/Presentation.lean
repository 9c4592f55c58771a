import Mathlib
import HybridRelaxation.Proofs.System.Tables
import HybridRelaxation.Relaxation.Stated

/-!
# Relaxations of differently presented systems

A relaxation reads the transitions of its system by looking up guards and resets between modes.  So
the order of the transitions, the kind of their labels and the way an identity is stated leave no
trace in it: not in the program, the records, the templates or the objective.
-/

namespace HybridRelaxation

section

variable {K : Type} [Scalar K]

/-! ## What is looked up -/

/-- The same modes, and between any two of them the same guard and the same reset. -/
structure HybridSystem.SameJumps (s s' : HybridSystem K) : Prop where
  time : s'.time = s.time
  modes : s'.modes = s.modes
  guard : ∀ i j : ℕ,
    s'.guard (.integer i) (.integer j) = s.guard (.integer i) (.integer j)
  reset : ∀ i j : ℕ, s.guard (.integer i) (.integer j) ≠ [] →
    s'.reset (.integer i) (.integer j) = s.reset (.integer i) (.integer j)

/-- The same guard, and the same reset, where the states of the source may be written down. -/
structure TransitionData.Matches (modes : List (Mode K)) (i : ℕ) (t t' : Transition K) : Prop where
  guard : t'.guard = t.guard
  reset : t'.reset = t.reset ∨ t.reset = none ∧ ∃ m, modes[i]? = some m ∧
    t'.reset = some (.ofColumn (m.states.map Expression.ofSymbol))

theorem HybridSystem.sameJumps_of_matches {s s' : HybridSystem K} (htime : s'.time = s.time)
    (hmodes : s'.modes = s.modes) (h : ∀ i j : ℕ, Option.Rel (TransitionData.Matches s.modes i)
      (s.transition? (.integer i) (.integer j)) (s'.transition? (.integer i) (.integer j))) :
    s.SameJumps s' := by
  refine ⟨htime, hmodes, fun i j => ?_, fun i j guarded => ?_⟩
  · have jump := h i j
    cases found : s.transition? (.integer i) (.integer j) <;>
      cases found' : s'.transition? (.integer i) (.integer j) <;>
        rw [found, found'] at jump
    · rw [SystemData.guard, SystemData.guard, found, found']
    · cases jump
    · cases jump
    · obtain ⟨⟨guard, -⟩⟩ := jump
      rw [SystemData.guard, SystemData.guard, found, found']
      exact guard
  · have jump := h i j
    rw [SystemData.guard] at guarded
    cases found : s.transition? (.integer i) (.integer j) with
    | none => simp [found] at guarded
    | some t =>
        cases found' : s'.transition? (.integer i) (.integer j) with
        | none =>
            rw [found, found'] at jump
            cases jump
        | some t' =>
            rw [found, found'] at jump
            obtain ⟨⟨-, reset⟩⟩ := jump
            simp only [HybridSystem.reset, SystemData.resetWith, found, found']
            rcases reset with same | ⟨absent, m, hm, written⟩
            · rw [same, hmodes]
            · have position : (Datum.integer i).position = .ok (i : ℤ) := rfl
              have entry : entryAt s.modes (i : ℤ) = .ok m := by
                rw [entryAt, entryAt?_natCast, hm]
              simp only [absent, written, position, entry, ok_bind]

variable {s s' : HybridSystem K} (h : s.SameJumps s')

include h

theorem transitionSteps_of_sameJumps (templates : List (ValueTemplate K)) (T : K) (i : ℕ)
    (m : Mode K) (template : ValueTemplate K) (j : ℕ) :
    transitionSteps s' templates T i m template j =
      transitionSteps s templates T i m template j := by
  by_cases empty : s.guard (.integer i) (.integer j) = []
  · simp [transitionSteps, h.guard, empty]
  · simp only [transitionSteps, h.guard, h.reset i j empty, h.time]

theorem assemblySteps_of_sameJumps (templates : List (ValueTemplate K)) (T : K)
    (freeFinalTime : Bool) :
    assemblySteps s' templates T freeFinalTime = assemblySteps s templates T freeFinalTime := by
  have steps : transitionSteps s' templates T = transitionSteps s templates T := by
    funext i m template j
    exact transitionSteps_of_sameJumps h templates T i m template j
  simp only [assemblySteps, modeSteps, SystemData.modeCount, steps, h.time, h.modes]

theorem Problem.attempt_of_sameJumps (degree : RelaxationDegree) (settings : Settings) :
    Problem.attempt ⟨s', degree, settings⟩ = Problem.attempt ⟨s, degree, settings⟩ := by
  simp only [Problem.attempt, Problem.templates, Problem.initialProgram, assemble,
    assemblySteps_of_sameJumps h, h.time, h.modes]

end

/-! ## Resolved jumps -/

namespace StatedSystem

section

variable {K : Type} [Scalar K]

theorem toSymbol_ofSymbol (x : Symbol) :
    (Entries.ofSymbol x : Entries K).toSymbol = .ok x := by
  simp [Entries.toSymbol, Entries.ofSymbol, Entries.expressionOr, Entries.expression?]

theorem states_of_mapM {m : StatedMode K} {m' : Mode K}
    (h : m.mapM Entries.toSymbol (Entries.expressionOr .wrongType) = .ok m') {names : List Symbol}
    (hnames : m.states = names.map Entries.ofSymbol) : m'.states = names := by
  have resolved : m.states.mapM Entries.toSymbol = .ok names := by
    rw [hnames]
    refine mapM_eq_ok.mpr (List.forall₂_map_left_iff.mpr (List.forall₂_same.mpr ?_))
    exact fun x _ => toSymbol_ofSymbol x
  simp only [ModeData.mapM, resolved, ok_bind] at h
  simp only [bind_eq_ok] at h
  obtain ⟨_, -, _, -, _, -, _, -, _, -, _, -, _, -, _, -, h⟩ := h
  rw [← Except.ok.inj h]

theorem sameJumps_of_restates {s s' : StatedSystem K} (h : s.Restates s') (time : Symbol)
    {modes : List (Mode K)} (hmodes : s.modes.mapM
      (ModeData.mapM Entries.toSymbol (Entries.expressionOr .wrongType)) = .ok modes) :
    HybridSystem.SameJumps ⟨time, modes, s.transitions.map TransitionData.known⟩
      ⟨time, modes, s'.transitions.map TransitionData.known⟩ := by
  refine HybridSystem.sameJumps_of_matches rfl rfl (fun i j => ?_)
  rw [transition?_map_known, transition?_map_known]
  refine optionRel_map (h.jumps i j) ?_
  rintro t t' ⟨source, hsource, restates⟩
  refine ⟨by simp [TransitionData.known, restates.guard], ?_⟩
  rcases restates.reset with same | ⟨absent, names, hnames, written⟩
  · exact .inl (by simp [TransitionData.known, same])
  · obtain ⟨m, hm, resolved⟩ := exists_right_at (mapM_eq_ok.mp hmodes) hsource
    refine .inr ⟨by simp [TransitionData.known, absent], m, hm, ?_⟩
    rw [states_of_mapM resolved hnames, TransitionData.known, written, hnames]
    cases names with
    | nil => rfl
    | cons x names =>
        simp [Grid.ofColumn, Grid.map, Entries.known, Entries.ofSymbol, Entries.expression?]

end

theorem attempt_of_restates {s s' : StatedSystem Number} (h : s.Restates s')
    (hs : ∀ t ∈ s.transitions, t.IsKnown) (hs' : ∀ t ∈ s'.transitions, t.IsKnown)
    (degree : RelaxationDegree) (settings : Settings) :
    StatedProblem.attempt ⟨s', degree, settings⟩ =
      StatedProblem.attempt ⟨s, degree, settings⟩ := by
  simp only [StatedProblem.attempt, StatedProblem.problem, resolve_of_isKnown hs,
    resolve_of_isKnown hs', h.time, h.modes]
  cases s.time.toSymbol with
  | error f => rfl
  | ok time =>
      cases hmodes : s.modes.mapM
          (ModeData.mapM Entries.toSymbol (Entries.expressionOr .wrongType)) with
      | error f => rfl
      | ok modes =>
          exact Problem.attempt_of_sameJumps (sameJumps_of_restates h time hmodes) degree settings

theorem pose_map_attempt_of_restates {s s' : StatedSystem Number} (h : s.Restates s')
    (hs : s.validate = .ok ()) (hs' : s'.validate = .ok ()) (degree : Datum)
    (settings : Settings) :
    (StatedProblem.pose s' degree settings).map StatedProblem.attempt =
      (StatedProblem.pose s degree settings).map StatedProblem.attempt := by
  have supported : ProblemData.checkSupported s' settings = ProblemData.checkSupported s settings := by
    rw [ProblemData.checkSupported, ProblemData.checkSupported, h.modes]
  have same := attempt_of_restates h (isKnown_of_validate hs) (isKnown_of_validate hs')
  simp only [StatedProblem.pose, ProblemData.pose, hs, hs', ok_bind, supported]
  cases RelaxationDegree.ofDatum degree with
  | error f => rfl
  | ok degree =>
      cases ProblemData.checkSupported s settings with
      | error f => rfl
      | ok _ => exact congrArg Except.ok (same degree settings)

end StatedSystem

/-! ## Presentations of one system -/

theorem StatedSystem.restates_of_perm {K : Type} [Scalar K] {time : Entries K}
    {modes : List (StatedMode K)} {ts ts' : List (StatedTransition K)} (h : ts.Perm ts')
    (hs : (SystemData.ofParts time modes ts).IsJoined)
    (hs' : (SystemData.ofParts time modes ts').IsJoined) :
    StatedSystem.Restates (.ofParts time modes ts) (.ofParts time modes ts') := by
  refine ⟨rfl, rfl, fun i j => ?_⟩
  rw [SystemData.transition?_of_perm h hs hs' i j]
  cases found : (SystemData.ofParts time modes ts).transition? (.integer i) (.integer j) with
  | none => exact .none
  | some t =>
      obtain ⟨-, joins⟩ := hs.transition?_eq_some.mp found
      exact .some ⟨_, List.getElem?_eq_getElem (lt_of_modePosition? joins.1), rfl, .inl rfl⟩

/--
The presentation of a system does not matter.  Reordering the transitions changes neither whether it
is accepted nor, if it is, anything in its relaxation; and tables that hold an accepted system over
symbols describe an accepted system with the same relaxation.
-/
theorem attempt_of_presentations :
    (∀ (time : Entries Number) (modes : List (StatedMode Number))
      (ts ts' : List (StatedTransition Number)), ts.Perm ts' →
        (StatedSystem.validate (.ofParts time modes ts) = .ok () ↔
          StatedSystem.validate (.ofParts time modes ts') = .ok ()) ∧
        (StatedSystem.validate (.ofParts time modes ts) = .ok () → ∀ degree settings,
          (StatedProblem.pose (.ofParts time modes ts') degree settings).map
              StatedProblem.attempt =
            (StatedProblem.pose (.ofParts time modes ts) degree settings).map
              StatedProblem.attempt)) ∧
    ∀ (time : Symbol) (data : List (ModeEntries Number)) (modes : List (StatedMode Number))
      (ts : List (StatedTransition Number)), data.mapM StatedMode.ofEntries = .ok modes →
      (∀ m ∈ modes, ∃ names : List Symbol, m.states = names.map Entries.ofSymbol) →
      StatedSystem.validate (.ofParts (.ofSymbol time) modes ts) = .ok () →
      ∀ T : SystemTables Number, T.Holds data (.ofParts (.ofSymbol time) modes ts) →
        ∃ s', StatedSystem.ofTables T = .ok s' ∧ s'.validate = .ok () ∧ ∀ degree settings,
          (StatedProblem.pose s' degree settings).map StatedProblem.attempt =
            (StatedProblem.pose (.ofParts (.ofSymbol time) modes ts) degree settings).map
              StatedProblem.attempt := by
  refine ⟨fun time modes ts ts' h => ?_, fun time data modes ts hmodes hnames valid T hT => ?_⟩
  · have accepted : StatedSystem.validate (.ofParts time modes ts) = .ok () ↔
        StatedSystem.validate (.ofParts time modes ts') = .ok () := PartCheck.system_iff_of_perm h
    refine ⟨accepted, fun valid => ?_⟩
    have valid' := accepted.mp valid
    exact StatedSystem.pose_map_attempt_of_restates (StatedSystem.restates_of_perm h
      (PartCheck.isJoined_of_system valid) (PartCheck.isJoined_of_system valid')) valid valid'
  · obtain ⟨s', built, restates, pairs, nodup, all⟩ := hT.exists_ofTables hmodes
      (PartCheck.isJoined_of_system valid)
      (fun t ht => (SystemData.mem_transitions_ofParts.mp ht).2)
      (fun t ht => PartCheck.height_ne_zero valid ht)
      (fun m hm => ⟨PartCheck.states_ne_nil valid hm, hnames m hm⟩)
    have valid' := StatedSystem.validate_of_restates valid restates nodup all
    exact ⟨s', built, valid',
      StatedSystem.pose_map_attempt_of_restates restates valid valid'⟩

/-! ## A relay -/

def relayEntries (state : Symbol) : ModeEntries Number where
  states := .list [.ofSymbol state]
  controls := .absent
  drift := .absent
  input := .absent
  domain := .absent
  controlSet := .absent
  targetSet := .absent
  runningCost := .one .zero
  terminalCost := .one .zero
  initialState := .none
  name := none

def relayMode (state : Symbol) : StatedMode Number :=
  ⟨[.ofSymbol state], [], ⟨1, [[.one .zero]]⟩, ⟨0, [[]]⟩, [], [], [], .one .zero, .one .zero, none,
    none⟩

def relayTransitions : List (StatedTransition Number) :=
  [⟨.integer 0, .integer 1, [.ofSymbol (.named "x")], none⟩,
    ⟨.integer 1, .integer 0, [.ofSymbol (.named "y")], some (.ofColumn [.ofSymbol (.named "y")])⟩]

def relaySystem : StatedSystem Number :=
  .ofParts (.ofSymbol (.named "t")) [relayMode (.named "x"), relayMode (.named "y")]
    relayTransitions

def relayTables : SystemTables Number where
  time := .named "t"
  states := .list [.list [.ofSymbol (.named "x")], .list [.ofSymbol (.named "y")]]
  controls := .list [.absent, .absent]
  drift := .list [.absent, .absent]
  input := .list [.absent, .absent]
  domain := .list [.absent, .absent]
  controlSet := .list [.absent, .absent]
  targetSet := .list [.absent, .absent]
  runningCost := .list [.one .zero, .one .zero]
  terminalCost := .list [.one .zero, .one .zero]
  initialState := [.none, .none]
  guards := .list [.list [.absent, .ofSymbol (.named "x")], .list [.ofSymbol (.named "y"), .absent]]
  resets := .list [.list [.absent, .list [.ofSymbol (.named "x")]],
    .list [.ofSymbol (.named "y"), .absent]]
  names := none

theorem holds_relayTables :
    relayTables.Holds [relayEntries (.named "x"), relayEntries (.named "y")] relaySystem := by
  refine ⟨rfl, rfl, rfl, rfl, rfl, rfl, rfl, rfl, rfl, rfl, rfl, fun _ _ hd => ?_,
    ⟨_, rfl, rfl, fun i row hrow => ?_⟩,
    .inr ⟨by simp [relayTables], fun t ht i j source joins hsource => ?_⟩⟩
  · obtain rfl | rfl := List.mem_pair.mp (List.mem_of_getElem? hd) <;> rfl
  · match i, hrow with
    | 0, hrow =>
        obtain rfl := Option.some.inj hrow
        refine ⟨_, rfl, rfl, fun j item hitem => ?_⟩
        match j, hitem with
        | 0, hitem =>
            obtain rfl := Option.some.inj hitem
            rfl
        | 1, hitem =>
            obtain rfl := Option.some.inj hitem
            rfl
    | 1, hrow =>
        obtain rfl := Option.some.inj hrow
        refine ⟨_, rfl, rfl, fun j item hitem => ?_⟩
        match j, hitem with
        | 0, hitem =>
            obtain rfl := Option.some.inj hitem
            rfl
        | 1, hitem =>
            obtain rfl := Option.some.inj hitem
            rfl
  · obtain rfl | rfl := List.mem_pair.mp (SystemData.mem_transitions_ofParts.mp ht).1
    · obtain ⟨rfl, rfl⟩ : 0 = i ∧ 1 = j := ⟨Option.some.inj joins.1, Option.some.inj joins.2⟩
      obtain rfl := Option.some.inj hsource
      exact ⟨_, _, rfl, rfl, rfl⟩
    · obtain ⟨rfl, rfl⟩ : 1 = i ∧ 0 = j := ⟨Option.some.inj joins.1, Option.some.inj joins.2⟩
      obtain rfl := Option.some.inj hsource
      exact ⟨_, _, rfl, rfl, rfl⟩

theorem attempt_of_presentations_relaySystem :
    relaySystem.validate = .ok () ∧ StatedSystem.validate (.ofParts (.ofSymbol (.named "t"))
        [relayMode (.named "x"), relayMode (.named "y")] relayTransitions.reverse) = .ok () ∧
      ∃ s', StatedSystem.ofTables relayTables = .ok s' ∧ s'.validate = .ok () ∧
        (StatedProblem.pose s' (.integer 2) Settings.defaults).map StatedProblem.attempt =
          (StatedProblem.pose relaySystem (.integer 2) Settings.defaults).map
            StatedProblem.attempt := by
  have valid : relaySystem.validate = .ok () := by decide +kernel
  obtain ⟨reordered, -⟩ := attempt_of_presentations.1 (.ofSymbol (.named "t"))
    [relayMode (.named "x"), relayMode (.named "y")] relayTransitions relayTransitions.reverse
    (List.reverse_perm _).symm
  obtain ⟨s', built, valid', same⟩ := attempt_of_presentations.2 (.named "t")
    [relayEntries (.named "x"), relayEntries (.named "y")]
    [relayMode (.named "x"), relayMode (.named "y")] relayTransitions rfl
    (fun m hm => by obtain rfl | rfl := List.mem_pair.mp hm <;> exact ⟨[_], rfl⟩) valid relayTables
    holds_relayTables
  exact ⟨valid, reordered.mp valid, s', built, valid', same _ _⟩

end HybridRelaxation
