import Mathlib
import HybridRelaxation.Number.Mixed
import HybridRelaxation.Proofs.Relaxation.Objective
import HybridRelaxation.Proofs.Relaxation.Renaming

/-!
# Relaxations do not depend on names

A system and the system under new names are relaxed in lockstep.  Their steps certify the same
inequalities under the names of each mode, so each step adds statements that agree.  In exact
arithmetic the two relaxations then have the same matching equations, statement by statement, and
the same linear form of the objective.  In floating-point arithmetic they need not have: terms are
added up in the order of their names, and sums are rounded.
-/

namespace HybridRelaxation

open MvPolynomial (X)

/-! ## Steps -/

inductive AssemblyStep.IsRenamed : AssemblyStep Rat → AssemblyStep Rat → Prop
  | certify {f : String → String} {q q' : Inequality Rat}
      (distinct : (q.scope.map (Symbol.rename f)).Nodup) (h : q.IsRenamed f q') :
      IsRenamed (.certify q) (.certify q')
  | addToObjective {e e' : Expression Rat} (h : e.IsRenamed id e') :
      IsRenamed (.addToObjective e) (.addToObjective e')

section

variable {f : ℕ → String → String} {s : HybridSystem Rat} (hs : s.IsPolynomial)
  (hf : HybridSystem.IsRenaming f s) {degree : ℤ} {decisions : List Symbol}
  (hdecisions : ∀ u ∈ decisions, u.isNamed = false)

include hs hf hdecisions

section

variable {i : ℕ} {m : Mode Rat} (hm : s.modes[i]? = some m) {template template' : ValueTemplate Rat}
  (ht : template.Fits s.time degree decisions m)
  (ht' : template'.Fits s.time degree decisions (m.rename (f i)))
  (same : template'.decisions = template.decisions)

include hm ht ht' same

theorem isRenamed_terminalSteps {freeFinalTime : Bool}
    (hfinal : freeFinalTime = true → m.targetSet = []) :
    List.Forall₂ AssemblyStep.IsRenamed (terminalSteps freeFinalTime i m template)
      (terminalSteps freeFinalTime i (m.rename (f i)) template') := by
  have targets : (m.rename (f i)).targetSet = [] ↔ m.targetSet = [] := List.map_eq_nil_iff
  rw [terminalSteps_of_supported hfinal,
    terminalSteps_of_supported (fun hfree => targets.mpr (hfinal hfree))]
  by_cases hempty : m.targetSet = []
  · simp [hempty, targets]
  · rw [if_neg hempty, if_neg (mt targets.mp hempty)]
    have distinct := hf.distinct i m hm
    refine .cons (.certify ?_ (isRenamed_terminal (hf.time i m hm) hdecisions ht ht' same
      (hs.modes m (List.mem_of_getElem? hm)) distinct i)) .nil
    rw [List.cons_append, List.map_cons, List.map_append] at distinct
    exact (List.nodup_append.mp (List.nodup_cons.mp distinct).2).1

theorem isRenamed_objectiveSteps (hc : m.IsConsistent s.time) :
    List.Forall₂ AssemblyStep.IsRenamed (objectiveSteps s.time m template)
      (objectiveSteps s.time (m.rename (f i)) template') := by
  have states : (m.rename (f i)).initialState = m.initialState := rfl
  unfold objectiveSteps
  rw [states]
  cases hstate : m.initialState with
  | none => exact .nil
  | some state =>
      exact .cons (.addToObjective (isRenamed_initialValue (hf.time i m hm) hdecisions ht ht' same
        (hs.modes m (List.mem_of_getElem? hm)) (hf.distinct i m hm) hc hstate)) .nil

end

variable (hc : s.IsConsistent) {templates templates' : List (ValueTemplate Rat)}
  (ht : List.Forall₂ (ValueTemplate.Fits s.time degree decisions) s.modes templates)
  (ht' : List.Forall₂ (ValueTemplate.Fits s.time degree decisions) (s.rename f).modes templates')
  (same : List.Forall₂ (fun t t' => t'.decisions = t.decisions) templates templates')

include hc ht ht' same

theorem isRenamed_transitionSteps {i : ℕ} {m : Mode Rat} (hm : s.modes[i]? = some m)
    {here here' : ValueTemplate Rat} (hhere : here.Fits s.time degree decisions m)
    (hhere' : here'.Fits s.time degree decisions (m.rename (f i)))
    (hsame : here'.decisions = here.decisions) (j : ℕ) :
    List.Forall₂ AssemblyStep.IsRenamed (transitionSteps s templates horizon i m here j)
      (transitionSteps (s.rename f) templates' horizon i (m.rename (f i)) here' j) := by
  have renamed := HybridSystem.transition?_rename (f := f) (s := s) (.integer i) (.integer j)
  cases found : s.transition? (.integer i) (.integer j) with
  | none =>
      rw [found, Option.map_none] at renamed
      simp [transitionSteps, SystemData.guard, found, renamed]
  | some t =>
      obtain ⟨htransition, source, target, fits⟩ := fits_of_transition? hc found
      obtain rfl : source = m := Option.some.inj (fits.sourceMode.symm.trans hm)
      rw [found, Option.map_some, HybridSystem.rename_of_fits fits] at renamed
      have guards : (t.rename (f i)).guard = [] ↔ t.guard = [] := List.map_eq_nil_iff
      by_cases hguard : t.guard = []
      · simp [transitionSteps, guard_of_transition? found, guard_of_transition? renamed, hguard,
          guards]
      · have fits' := HybridSystem.fits_rename (f := f) fits
        obtain ⟨next, hnext, hfits⟩ := exists_right_at ht fits.targetMode
        obtain ⟨next', hnext', hfits'⟩ := exists_right_at ht' fits'.targetMode
        have hsame' := related_at same hnext hnext'
        obtain ⟨reset, entries, steps⟩ :=
          transitionSteps_of_fits hc htransition hguard fits here hnext
        obtain ⟨reset', entries', steps'⟩ := transitionSteps_of_fits
          (HybridSystem.isConsistent_rename hc hf) (HybridSystem.mem_transitions_rename htransition fits)
            (mt guards.mp hguard) fits' here' hnext'
        rw [steps, steps']
        refine .cons (.certify ?_ (isRenamed_transition hs hf hdecisions htransition fits hhere
          hhere' hfits hfits' hsame hsame' entries entries')) .nil
        have distinct := hf.distinct i source hm
        rw [List.map_append] at distinct
        exact (List.nodup_append.mp distinct).1

theorem isRenamed_assemblySteps {freeFinalTime : Bool}
    (hfinal : freeFinalTime = true → ∀ m ∈ s.modes, m.targetSet = []) :
    List.Forall₂ AssemblyStep.IsRenamed (assemblySteps s templates horizon freeFinalTime)
      (assemblySteps (s.rename f) templates' horizon freeFinalTime) := by
  have lengths : (s.rename f).modes.length = s.modes.length := HybridSystem.length_modes_rename
  refine forall₂_assemblySteps lengths ht.length_eq.symm (ht'.length_eq.symm.trans lengths)
    (fun i m m' here here' hm hm' hhere hhere' => ?_)
  obtain rfl : m.rename (f i) = m' := by
    rw [HybridSystem.getElem?_modes_rename, hm, Option.map_some] at hm'
    exact Option.some.inj hm'
  have fits := related_at ht hm hhere
  have fits' := related_at ht' hm' hhere'
  have hsame := related_at same hhere hhere'
  have hmem := List.mem_of_getElem? hm
  have distinct := hf.distinct i m hm
  exact forall₂_modeSteps lengths
    (.certify distinct (isRenamed_liouville (hf.time i m hm) hdecisions fits fits' hsame
      (hs.modes m hmem) (hc.modes m hmem) distinct i))
    (isRenamed_terminalSteps hs hf hdecisions hm fits fits' hsame (fun h => hfinal h m hmem))
    (isRenamed_transitionSteps hs hf hdecisions hc ht ht' same hm fits fits' hsame)
    (isRenamed_objectiveSteps hs hf hdecisions hm fits fits' hsame (hc.modes m hmem))

end

/-! ## Taking the steps -/

namespace Assembly

/-- Programs that mirror each other, and objectives that are the same polynomial. -/
structure Mirrors (a a' : Assembly Rat) : Prop where
  program : a.program.Mirrors a'.program
  objective : a.objective.IsRenamed id a'.objective

variable {a a' : Assembly Rat} (ha : a.program.IsRegular) (h : a.Mirrors a') (degree : ℤ)

include ha h

theorem Mirrors.certify {f : String → String} {q q' : Inequality Rat}
    (distinct : (q.scope.map (Symbol.rename f)).Nodup) (hq : q.IsRegular a.program.decisions)
    (renamed : q.IsRenamed f q') :
    ∃ b b', a.certify degree q = (b, .ok ()) ∧ a'.certify degree q' = (b', .ok ()) ∧
      b.Mirrors b' := by
  obtain ⟨p, p', ms, ms', result, result', mirrors⟩ := h.program.nonnegativeOn distinct hq.named
    renamed.constraints hq.within degree q.place.name ha renamed.polynomial hq.affine
  refine ⟨_, _, Prod.ext rfl ?_, Prod.ext rfl ?_, ⟨?_, ?_⟩⟩
  all_goals simp only [Assembly.certify, renamed.place, renamed.scope, result, result']
  · exact mirrors
  · exact h.objective

theorem Mirrors.takeAll {steps steps' : List (AssemblyStep Rat)}
    (hsteps : ∀ step ∈ steps, step.IsRegular a.program.decisions)
    (renamed : List.Forall₂ AssemblyStep.IsRenamed steps steps') :
    ∃ b b', a.takeAll degree steps = (b, .ok ()) ∧ a'.takeAll degree steps' = (b', .ok ()) ∧
      b.Mirrors b' := by
  induction renamed generalizing a a' with
  | nil => exact ⟨a, a', rfl, rfl, h⟩
  | @cons step step' steps steps' head _ ih =>
      have first := hsteps step (by simp)
      have tail : ∀ next ∈ steps, next.IsRegular a.program.decisions :=
        fun next hnext => hsteps next (by simp [hnext])
      cases head with
      | certify distinct head =>
          obtain ⟨b, b', hb, hb', mirrors⟩ := h.certify ha degree distinct first head
          obtain ⟨_, _, hspec, proceeds, -⟩ := certify_spec ha degree first
          obtain rfl := (Prod.mk.inj (hb.symm.trans hspec)).1
          obtain ⟨c, c', hc, hc', mirrors'⟩ := ih proceeds.regular mirrors
            (fun next hnext => (tail next hnext).extend proceeds.growth.decisions.subset)
          refine ⟨c, c', ?_, ?_, mirrors'⟩
          · exact takeAll_cons_eq_ok.mpr ⟨b, hb, hc⟩
          · exact takeAll_cons_eq_ok.mpr ⟨b', hb', hc'⟩
      | @addToObjective e e' head =>
          have added : Mirrors { a with objective := a.objective + e }
              { a' with objective := a'.objective + e' } :=
            ⟨h.program, h.objective.add head⟩
          exact ih ha added tail

end Assembly

/-! ## Relaxations -/

/-- The same bases and matching equations, statement by statement, and the same linear objective. -/
structure Relaxation.HasEquationsOf {K : Type} [Scalar K] (r r' : Relaxation K) : Prop where
  decisions : r.program.decisions = r'.program.decisions
  statements : List.Forall₂ (fun a a' => a.basis = a'.basis ∧
    ∃ m, a.matching r.program.index r.program.size = .ok m ∧
      a'.matching r'.program.index r'.program.size = .ok m)
    r.program.statements r'.program.statements
  objective : ∃ form, linearForm r.objective r.program.index = .ok form ∧
    linearForm r'.objective r'.program.index = .ok form

theorem linearForm_eq_of_isRenamed {e e' : Expression Rat} (h : e.IsRenamed id e') :
    linearForm e' = linearForm e := by
  have value : (e'.eval X : MvPolynomial Symbol ℚ) = e.eval X := by
    simpa using h.value
  funext index
  rw [linearForm, linearForm,
    Expression.expand_eq_of_eval_eq h.isPolynomial_right h.isPolynomial_left value]

namespace Problem

variable {p : Problem Rat} (hp : p.IsWellPosed) {f : ℕ → String → String}
  (hf : HybridSystem.IsRenaming f p.system)

include hp hf

theorem isWellPosed_rename : IsWellPosed { p with system := p.system.rename f } := by
  refine ⟨HybridSystem.isPolynomial_rename hp.polynomial hf,
    HybridSystem.isConsistent_rename hp.consistent hf, fun hfree m hm => ?_⟩
  obtain ⟨i, n, hn, rfl⟩ := HybridSystem.mem_modes_rename hm
  exact List.map_eq_nil_iff.mpr (hp.final hfree n (List.mem_of_getElem? hn))

theorem exists_build_rename (hwidth : ∀ m ∈ p.system.modes, m.drift.width = 1) :
    ∃ r r', p.build = .ok r ∧ build { p with system := p.system.rename f } = .ok r' ∧
      r.program.Mirrors r'.program ∧ r.objective.IsRenamed id r'.objective := by
  have hp' := isWellPosed_rename hp hf
  have start : p.initialProgram.IsRegular :=
    SquareProgram.isRegular_empty.withIndeterminates [p.system.time]
  have hwidth' : ∀ m ∈ (p.system.rename f).modes, m.drift.width = 1 := by
    intro m hm
    obtain ⟨i, n, hn, rfl⟩ := HybridSystem.mem_modes_rename hm
    exact hwidth n (List.mem_of_getElem? hn)
  have states : List.Forall₂ (fun (m m' : Mode Rat) => m'.states.length = m.states.length)
      p.system.modes (p.system.rename f).modes := by
    refine List.forall₂_iff_get.mpr
      ⟨HybridSystem.length_modes_rename.symm, fun i _ _ => ?_⟩
    simp [HybridSystem.rename, ModeData.rename]
  obtain ⟨q, templates, hregister, -, regular, statements, fits, -⟩ :=
    registerModes_spec hp.polynomial.modes hp.consistent.modes hwidth p.degree.value 0 start
  obtain ⟨q', templates', hregister', -, -, statements', fits', -⟩ :=
    registerModes_spec hp'.polynomial.modes hp'.consistent.modes hwidth' p.degree.value 0 start
  obtain ⟨decisions, same⟩ := decisions_of_registerModes states rfl hregister hregister'
  have named : ∀ u ∈ q.decisions, u.isNamed = false := fun _ hu => regular.isNamed_of_mem hu
  rw [decisions] at fits'
  have mirrors : (Assembly.start q).Mirrors (Assembly.start q') := by
    refine ⟨⟨decisions, ?_⟩, isRenamed_number id 0⟩
    simp only [Assembly.start, statements, statements']
    exact .nil
  obtain ⟨b, b', hb, hb', result⟩ := mirrors.takeAll regular p.degree.value
    (isRegular_assemblySteps hp.polynomial hp.consistent named fits hp.final)
    (isRenamed_assemblySteps hp.polynomial hf named hp.consistent fits fits' same hp.final)
  exact ⟨_, _, build_eq_ok hregister hb, build_eq_ok hregister' hb', result.program,
    result.objective⟩

omit hf in
theorem hasEquationsOf_of_mirrors {r r' : Relaxation Rat} (hr : p.build = .ok r)
    (hprogram : r.program.Mirrors r'.program) (hobjective : r.objective.IsRenamed id r'.objective) :
    r'.HasEquationsOf r := by
  obtain ⟨cs, relaxed⟩ := isRelaxedBy_of_build hp hr
  refine ⟨hprogram.decisions, ?_, ?_⟩
  · refine (forall₂_imp_of_mem hprogram.statements (fun a ha a' agrees => ?_)).flip
    have regular := relaxed.regular.statements a ha
    obtain ⟨m, hm⟩ := relaxed.regular.exists_matching ha
    refine ⟨agrees.basis, m, ?_, hm⟩
    rw [agrees.matching (isRegular_of_coefficients regular.polynomial regular.coefficients).distinct,
      hprogram.index, hprogram.size, hm]
  · obtain ⟨form, hform⟩ := exists_linearForm_objective hp relaxed
    refine ⟨form, ?_, hform⟩
    rw [linearForm_eq_of_isRenamed hobjective, hprogram.index, hform]

end Problem

/--
Names do not matter in exact arithmetic.  If each mode of an accepted polynomial system gets new
names, distinct within the mode and different from the time, the renamed system is accepted.  It has
a relaxation exactly if the original has one; and then the two have, statement by statement, the same
basis and the same matching equations, and the same linear form of the objective.
-/
theorem hasEquationsOf_rename {s : HybridSystem Rat} (hs : s.IsPolynomial)
    {f : ℕ → String → String} (hf : HybridSystem.IsRenaming f s) {degree : Datum}
    {settings : Settings} {p : Problem Rat} (hpose : Problem.pose s degree settings = .ok p) :
    ∃ p', Problem.pose (s.rename f) degree settings = .ok p' ∧
      (∀ r, p.build = .ok r → ∃ r', p'.build = .ok r' ∧ r'.HasEquationsOf r) ∧
        ∀ r', p'.build = .ok r' → ∃ r, p.build = .ok r ∧ r'.HasEquationsOf r := by
  obtain ⟨wellPosed, rfl, -⟩ := Problem.isWellPosed_of_pose hs hpose
  have wellPosed' := Problem.isWellPosed_rename wellPosed hf
  have posed := Problem.pose_of_valid hpose
    ((validate_eq_ok wellPosed'.polynomial).mpr wellPosed'.consistent) (fun m' hm' htarget => by
      obtain ⟨i, m, hm, rfl⟩ := HybridSystem.mem_modes_rename hm'
      exact ⟨m, List.mem_of_getElem? hm, mt List.map_eq_nil_iff.mpr htarget⟩)
  have relaxed (hwidth : ∀ m ∈ p.system.modes, m.drift.width = 1) :
      ∃ r r', p.build = .ok r ∧
        Problem.build { p with system := p.system.rename f } = .ok r' ∧ r'.HasEquationsOf r := by
    obtain ⟨r, r', built, built', program, objective⟩ :=
      Problem.exists_build_rename wellPosed hf hwidth
    exact ⟨r, r', built, built', Problem.hasEquationsOf_of_mirrors wellPosed built program objective⟩
  refine ⟨_, posed, fun r hr => ?_, fun r' hr' => ?_⟩
  · obtain ⟨_, r', built, built', same⟩ := relaxed (Problem.width_of_build hr)
    obtain rfl := Except.ok.inj (hr.symm.trans built)
    exact ⟨r', built', same⟩
  · have width := Problem.width_of_build hr'
    obtain ⟨r, _, built, built', same⟩ := relaxed (fun m hm => by
      obtain ⟨i, hi⟩ := List.mem_iff_getElem?.mp hm
      have renamed : (p.system.rename f).modes[i]? = some (m.rename (f i)) := by
        rw [HybridSystem.getElem?_modes_rename, hi, Option.map_some]
      rw [← width _ (List.mem_of_getElem? renamed)]
      exact (Grid.width_map _ _).symm)
    obtain rfl := Except.ok.inj (hr'.symm.trans built')
    exact ⟨r, built, same⟩

/-! ### Exchanged names -/

def exchangingMode (state : Option (List Rat)) : Mode Rat where
  states := [.named "x", .named "y"]
  controls := [.named "u"]
  drift := ⟨1, [[.ofSymbol (.named "y")], [.zero]]⟩
  input := ⟨1, [[.zero], [.number 1]]⟩
  domain := [.ofSymbol (.named "x")]
  controlSet := [.ofSymbol (.named "u")]
  targetSet := [.ofSymbol (.named "y")]
  runningCost := .ofSymbol (.named "x")
  terminalCost := .ofSymbol (.named "y")
  initialState := state
  name := none

def exchangingSystem : HybridSystem Rat where
  time := .named "t"
  modes := [exchangingMode (some [0, 1]), exchangingMode none]
  transitions := [⟨.integer 0, .integer 1, [.ofSymbol (.named "x")],
    some (.ofColumn [.ofSymbol (.named "y"), .ofSymbol (.named "x")])⟩]

def exchangedNames (i : ℕ) (name : String) : String :=
  match i, name with
  | 0, "x" => "y"
  | 0, "y" => "x"
  | 1, "x" => "a"
  | 1, "y" => "b"
  | _, _ => name

theorem isPolynomial_exchangingSystem : exchangingSystem.IsPolynomial := by
  have symbol (name : String) : (Expression.ofSymbol (.named name) : Expression Rat).IsPolynomial :=
    Expression.isPolynomial_ofSymbol _
  have mode (state : Option (List Rat)) : (exchangingMode state).IsPolynomial (.named "t") := by
    constructor <;> simp [exchangingMode, Grid.entries, Grid.IsRectangular, Symbol.isNamed, symbol]
  refine ⟨fun m hm => ?_, fun t ht => ?_⟩
  · rcases List.mem_pair.mp hm with rfl | rfl
    · exact mode _
    · exact mode _
  · rw [List.mem_singleton.mp ht]
    constructor <;> simp [Grid.entries, Grid.IsColumn, Grid.ofColumn, symbol, forall_and]

theorem isRenaming_exchangedNames :
    HybridSystem.IsRenaming exchangedNames exchangingSystem := by
  refine ⟨fun i m _ => ?_, fun i m hm => ?_⟩
  · simp [exchangingSystem, Symbol.rename, exchangedNames]
  · match i, hm with
    | 0, hm =>
        obtain rfl := Option.some.inj hm
        decide
    | 1, hm =>
        obtain rfl := Option.some.inj hm
        decide

theorem hasEquationsOf_rename_exchangingSystem : ∃ p r p' r',
    Problem.pose exchangingSystem (.integer 2) Settings.defaults = .ok p ∧ p.build = .ok r ∧
      Problem.pose (exchangingSystem.rename exchangedNames) (.integer 2) Settings.defaults =
        .ok p' ∧ p'.build = .ok r' ∧ r'.HasEquationsOf r := by
  have valid : HybridSystem.validate exchangingSystem = .ok () := by decide +kernel
  have posed : Problem.pose exchangingSystem (.integer 2) Settings.defaults =
      .ok ⟨exchangingSystem, ⟨2, false⟩, Settings.defaults⟩ :=
    Problem.pose_eq_ok.mpr ⟨valid, by simp [Settings.defaults], _, rfl, rfl⟩
  obtain ⟨wellPosed, -⟩ := Problem.isWellPosed_of_pose isPolynomial_exchangingSystem posed
  obtain ⟨r, -, built, -⟩ := Problem.exists_build wellPosed (fun m hm => by
    rcases List.mem_pair.mp hm with rfl | rfl <;> rfl)
  obtain ⟨p', posed', equations, -⟩ :=
    hasEquationsOf_rename isPolynomial_exchangingSystem isRenaming_exchangedNames posed
  obtain ⟨r', built', same⟩ := equations r built
  exact ⟨_, r, p', r', posed, built, posed', built', same⟩

/-! ### Rounded sums -/

section

variable {K : Type} [Scalar K]

theorem SquareSum.right_eq_of_matching {a a' : SquareSum K} {index index' : Symbol → Option ℤ}
    {columns columns' : ℤ} {m : Matching K} (h : a.matching index columns = .ok m)
    (h' : a'.matching index' columns' = .ok m) (e : Exponents) :
    (a.matchingRow index e).map MatchingRow.right =
      (a'.matchingRow index' e).map MatchingRow.right := by
  have listed {a a' : SquareSum K} {index index' : Symbol → Option ℤ} {columns columns' : ℤ}
      (h : a.matching index columns = .ok m) (h' : a'.matching index' columns' = .ok m)
      (he : e ∈ a.matchedExponents) : a.matchingRow index e = a'.matchingRow index' e := by
    obtain ⟨row, hrow, hok⟩ := exists_right_of_mem (matching_inversion h).1 he
    obtain ⟨e', -, hok'⟩ := exists_left_of_mem (matching_inversion h').1 hrow
    obtain rfl : e' = e := (exponents_of_matchingRow hok').symm.trans (exponents_of_matchingRow hok)
    rw [hok, hok']
  have unlisted {a : SquareSum K} (index : Symbol → Option ℤ) (he : e ∉ a.matchedExponents) :
      (a.matchingRow index e).map MatchingRow.right = .ok (Scalar.machine (Scalar.measured 0)) := by
    have absent : a.coefficientOf e = none := by
      rw [coefficientOf, Option.map_eq_none_iff, List.find?_eq_none]
      intro entry hentry heq
      have same : entry.1 = e := by simpa using heq
      exact he (mem_matchedExponents.mpr (.inl (same ▸ List.mem_map_of_mem hentry)))
    rw [matchingRow, absent]
    rfl
  by_cases he : e ∈ a.matchedExponents
  · rw [listed h h' he]
  · by_cases he' : e ∈ a'.matchedExponents
    · rw [listed h' h he']
    · rw [unlisted index he, unlisted index' he']

def Relaxation.rightAt (r : Relaxation K) (k : ℕ) (e : Exponents) : Option (Except Failure K) :=
  r.program.statements[k]?.map (fun a => (a.matchingRow r.program.index e).map MatchingRow.right)

theorem Relaxation.HasEquationsOf.rightAt {r r' : Relaxation K} (h : r.HasEquationsOf r') (k : ℕ)
    (e : Exponents) : r.rightAt k e = r'.rightAt k e := by
  rw [Relaxation.rightAt, Relaxation.rightAt]
  cases hk : r.program.statements[k]? with
  | none =>
      have hk' : r'.program.statements[k]? = none := by
        rw [List.getElem?_eq_none_iff] at hk ⊢
        rwa [← h.statements.length_eq]
      rw [hk']
      rfl
  | some a =>
      obtain ⟨a', hk', -, m, hm, hm'⟩ := exists_right_at h.statements hk
      rw [hk', Option.map_some, Option.map_some, SquareSum.right_eq_of_matching hm hm']

end

/-- A cost in which a coefficient of one is added to two that are far larger and cancel. -/
def roundedCost : Expression Number :=
  let t : Expression Number := .ofSymbol (.named "t")
  let x : Expression Number := .ofSymbol (.named "x")
  let huge : Expression Number := .number (.float (.ofInt (10 ^ 16)))
  let one : Expression Number := .number (.float (.ofInt 1))
  let opposite : Expression Number := .number (.float (.ofInt (-10 ^ 16)))
  .product [.sum [.number (.exact 1), t, x],
    .sum [.product [huge, t, x], .product [one, t], .product [opposite, x]]]

def roundedSystem : HybridSystem Number where
  time := .named "t"
  modes := [{
    states := [.named "x"]
    controls := []
    drift := ⟨1, [[.zero]]⟩
    input := ⟨0, [[]]⟩
    domain := []
    controlSet := []
    targetSet := []
    runningCost := roundedCost
    terminalCost := .zero
    initialState := some [.float (.ofInt 0)]
    name := none }]
  transitions := []

def earlierName (name : String) : String := if name = "x" then "a" else name

/--
In floating-point arithmetic the names matter.  The coefficient of the product of time and state is
one if the state sorts after the time, and zero under a name that sorts before it.
-/
theorem not_hasEquationsOf_rename_roundedSystem :
    HybridSystem.IsRenaming (fun _ => earlierName) roundedSystem ∧ ∃ p r p' r',
      Problem.pose roundedSystem (.integer 2) Settings.defaults = .ok p ∧ p.build = .ok r ∧
        Problem.pose (roundedSystem.rename (fun _ => earlierName)) (.integer 2)
          Settings.defaults = .ok p' ∧ p'.build = .ok r' ∧ ¬ r'.HasEquationsOf r := by
  have isRenaming : HybridSystem.IsRenaming (fun _ => earlierName) roundedSystem := by
    refine ⟨fun i m _ => by decide, fun i m hm => ?_⟩
    match i, hm with
    | 0, hm =>
        obtain rfl := Option.some.inj hm
        decide
  have posed {s : HybridSystem Number} (valid : s.validate = .ok ()) :
      Problem.pose s (.integer 2) Settings.defaults = .ok ⟨s, ⟨2, false⟩, Settings.defaults⟩ :=
    Problem.pose_eq_ok.mpr ⟨valid, by simp [Settings.defaults], _, rfl, rfl⟩
  have built : (Problem.build ⟨roundedSystem, ⟨2, false⟩, Settings.defaults⟩).map
      (fun r => r.rightAt 1 [1, 1]) = .ok (some (.ok (.float (.finite true 1)))) := by
    decide +kernel
  have built' : (Problem.build ⟨roundedSystem.rename (fun _ => earlierName), ⟨2, false⟩,
      Settings.defaults⟩).map (fun r => r.rightAt 1 [1, 1]) =
        .ok (some (.ok (.float (.finite false 0)))) := by
    decide +kernel
  obtain ⟨r, hr, right⟩ := map_eq_ok.mp built
  obtain ⟨r', hr', right'⟩ := map_eq_ok.mp built'
  refine ⟨isRenaming, _, r, _, r', posed (by decide +kernel), hr, posed (by decide +kernel), hr',
    fun same => ?_⟩
  have equal := same.rightAt 1 [1, 1]
  rw [right, right'] at equal
  simp at equal

end HybridRelaxation
