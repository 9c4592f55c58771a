import Mathlib
import HybridRelaxation.Proofs.Relaxation.Solved
import HybridRelaxation.Proofs.SquareSum.Completeness

/-!
# Feasible points with given value functions

Whether values of the templates belong to a feasible point is settled inequality by inequality: each
needs multipliers that leave a sum of squares.  Where all costs are sums of squares, zero is such a
value function of every mode, so the relaxation has an exact feasible point, whatever its degree is.
-/

namespace HybridRelaxation

open MvPolynomial (C X)

/-! ## Certified inequalities -/

/-- Sums of squares, within the degrees of the multipliers, that leave a sum of squares. -/
structure Inequality.IsCertified (degree : ℤ) (ψ : ℕ → ℝ) (q : Inequality Rat)
    (shares : List (MvPolynomial Symbol ℝ)) : Prop where
  squares : List.Forall₂ (fun g share => IsSumOfSquares q.scope share ∧
    SquareProgram.IsShare q.scope degree g share) q.constraints shares
  rest : IsSumOfSquares q.scope (solvedAt ψ q.polynomial - weightedShares shares q.constraints)

theorem exists_shares_of_sublist {scope : List Symbol} {degree : ℤ}
    {gs gs' : List (Expression Rat)} (h : gs.Sublist gs') {shares : List (MvPolynomial Symbol ℝ)}
    (hshares : List.Forall₂ (fun g share => IsSumOfSquares scope share ∧
      SquareProgram.IsShare scope degree g share) gs shares) :
    ∃ shares', List.Forall₂ (fun g share => IsSumOfSquares scope share ∧
        SquareProgram.IsShare scope degree g share) gs' shares' ∧
      weightedShares shares' gs' = weightedShares shares gs := by
  induction h generalizing shares with
  | slnil => exact ⟨shares, hshares, rfl⟩
  | cons g _ ih =>
      obtain ⟨shares', hshares', weighted⟩ := ih hshares
      refine ⟨0 :: shares', .cons ⟨isSumOfSquares_zero _, fun d _ => isOfDegree_zero⟩ hshares', ?_⟩
      rw [← weighted]
      simp [weightedShares]
  | cons_cons g _ ih =>
      cases hshares with
      | @cons _ share _ shares head tail =>
          obtain ⟨shares', hshares', weighted⟩ := ih tail
          refine ⟨share :: shares', .cons head hshares', ?_⟩
          simp only [weightedShares] at weighted
          simp [weightedShares, weighted]

theorem Inequality.exists_isCertified (degree : ℤ) {ψ : ℕ → ℝ} {q : Inequality Rat}
    (h : IsSumOfSquares q.scope (solvedAt ψ q.polynomial)) :
    ∃ shares, q.IsCertified degree ψ shares := by
  have none : List.Forall₂ (fun g share => IsSumOfSquares q.scope share ∧
      SquareProgram.IsShare q.scope degree g share) [] [] := .nil
  obtain ⟨shares, squares, weighted⟩ :=
    exists_shares_of_sublist (List.nil_sublist q.constraints) none
  refine ⟨shares, squares, ?_⟩
  rwa [weighted, show weightedShares [] [] = (0 : MvPolynomial Symbol ℝ) by simp [weightedShares],
    sub_zero]

theorem areShares_zero {A : Type} [CommRing A] (degree : ℤ) (qs : List (Inequality Rat)) :
    List.Forall₂ (AreShares degree) qs
      (qs.map (fun q => q.constraints.map (fun _ => (0 : MvPolynomial Symbol A)))) := by
  refine List.forall₂_map_right_iff.mpr (List.forall₂_same.mpr (fun q _ => ?_))
  exact List.forall₂_map_right_iff.mpr (List.forall₂_same.mpr (fun g _ d _ => isOfDegree_zero))

/-! ## Value functions of feasible points -/

namespace Problem

variable {p : Problem Rat} {r : Relaxation Rat} {cs : List SquareProgram.Certificate}

theorem IsRelaxedBy.isRegular_of_mem (hr : p.IsRelaxedBy r cs) (hp : p.IsWellPosed)
    {q : Inequality Rat} (hq : q ∈ certifiedBy
      (assemblySteps p.system r.templates horizon p.settings.freeFinalTime)) :
    q.IsRegular r.program.decisions :=
  isRegular_assemblySteps hp.polynomial hp.consistent (fun _ h => hr.regular.isNamed_of_mem h)
    hr.templates hp.final _ (mem_certifiedBy.mp hq)

theorem IsRelaxedBy.solvedAt_template (hr : p.IsRelaxedBy r cs) (hp : p.IsWellPosed)
    {template : ValueTemplate Rat} (ht : template ∈ r.templates) {φ ψ : ℕ → ℝ}
    (h : ∀ k < r.program.size, φ k = ψ k) :
    solvedAt φ template.value = solvedAt ψ template.value := by
  obtain ⟨m, hm, fits⟩ := exists_left_of_mem hr.templates ht
  exact hr.regular.solvedAt_congr h
    (fits.mem_affineSpan (fun _ _ => rfl) (fun s hs => X_mem_scopePolynomials hs))
    (named_places hp.polynomial hm)

theorem IsRelaxedBy.solvedAt_certified (hr : p.IsRelaxedBy r cs) (hp : p.IsWellPosed)
    {φ ψ : ℕ → ℝ} (h : ∀ template ∈ r.templates,
      solvedAt ψ template.value = solvedAt φ template.value) {q : Inequality Rat}
    (hq : q ∈ certifiedBy
      (assemblySteps p.system r.templates horizon p.settings.freeFinalTime)) :
    solvedAt ψ q.polynomial = solvedAt φ q.polynomial := by
  have named : ∀ t ∈ r.program.decisions, t.isNamed = false :=
    fun _ ht => hr.regular.isNamed_of_mem ht
  have same := agrees_certifiedBy (agrees_assemblySteps hp.polynomial hp.consistent named named
    hr.templates hr.templates (List.forall₂_same.mpr h) hp.final)
  exact (List.forall₂_same.mp same q hq).polynomial

/--
Polynomials of the degree for the modes are the value functions of a feasible point as soon as every
inequality between them is certified.
-/
theorem IsRelaxedBy.exists_feasiblePoint (hr : p.IsRelaxedBy r cs) (hp : p.IsWellPosed)
    {values : List (MvPolynomial Symbol ℝ)}
    (hvalues : List.Forall₂ (fun m v =>
      IsOfDegree (p.system.time :: m.states) p.degree.value v) p.system.modes values)
    (hcertified : ∀ ψ : ℕ → ℝ,
      List.Forall₂ (fun t v => solvedAt ψ t.value = v) r.templates values →
        ∀ q ∈ certifiedBy
          (assemblySteps p.system r.templates horizon p.settings.freeFinalTime),
            ∃ shares, q.IsCertified p.degree.value ψ shares) :
    ∃ point : FeasiblePoint r.program,
      List.Forall₂ (fun t v => point.solved t.value = v) r.templates values := by
  -- Zero multipliers serve to learn what the inequalities are.
  obtain ⟨ψ₀, templates, -⟩ := hr.assigns values _ hvalues (areShares_zero _ _)
  obtain ⟨shares, certified⟩ := exists_forall₂_right (hcertified ψ₀ templates)
  obtain ⟨ψ, solved, multipliers⟩ := hr.assigns values shares hvalues
    (certified.imp (fun _ _ h => h.squares.imp (fun _ _ share => share.2)))
  have same : ∀ template ∈ r.templates,
      solvedAt ψ template.value = solvedAt ψ₀ template.value := by
    intro template htemplate
    obtain ⟨k, hk⟩ := List.mem_iff_getElem?.mp htemplate
    obtain ⟨v, hv, value⟩ := exists_right_at solved hk
    rw [value, related_at templates hk hv]
  have grams : ∀ s ∈ r.program.statements,
      ∃ G : Matrix (Fin s.gramSize) (Fin s.gramSize) ℝ, G.PosSemidef ∧
        solvedAt ψ s.polynomial = s.quadratic (entriesOf G) := by
    intro s hs
    rw [hr.statements] at hs
    obtain ⟨c, hmem, hs⟩ := List.mem_flatMap.mp hs
    obtain ⟨k, hc⟩ := List.mem_iff_getElem?.mp hmem
    obtain ⟨q, hq, secured⟩ := exists_right_at hr.secured.flip hc
    obtain ⟨ws, hws, squares⟩ := exists_right_at certified hq
    have own := related_at multipliers hc hws
    have listed := List.mem_of_getElem? hq
    have regular := hr.isRegular_of_mem hp listed
    refine secured.exists_gram hr.regular own squares.squares ?_ s hs
    rw [secured.solvedAt_base own (fun g hg => solvedAt_of_mem regular.named (regular.within g hg) ψ),
      hr.solvedAt_certified hp same listed]
    exact squares.rest
  obtain ⟨point, agree⟩ := FeasiblePoint.exists_of_quadratic hr.regular ψ grams
  refine ⟨point, forall₂_imp_of_mem solved (fun t ht v hv => ?_)⟩
  exact (hr.solvedAt_template hp ht agree).trans hv

end Problem

/-! ## Costs that are sums of squares -/

theorem flowPolynomial_zero {A : Type} [CommRing A] [Algebra ℚ A] (time : Symbol) (m : Mode Rat) :
    m.flowPolynomial time (0 : MvPolynomial Symbol A) = 0 := by
  have zeros : ∀ (symbols : List Symbol) (ws : List (MvPolynomial Symbol A)),
      innerValue (symbols.map (fun s => partials A s 0)) ws = 0 := by
    intro symbols
    induction symbols with
    | nil => simp
    | cons s symbols ih =>
        intro ws
        cases ws with
        | nil => simp
        | cons w ws =>
            rw [List.map_cons, innerValue_cons, map_zero, zero_mul, zero_add]
            exact ih ws
  rw [ModeData.flowPolynomial, map_zero, zero_add]
  exact zeros m.states _

section

variable {p : Problem Rat} {r : Relaxation Rat} {cs : List SquareProgram.Certificate}
  (hp : p.IsWellPosed) (hr : p.IsRelaxedBy r cs)
  (hrunning : ∀ m ∈ p.system.modes,
    IsSumOfSquares (p.system.time :: m.states ++ m.controls) (m.runningCost.eval X))
  (hterminal : ∀ m ∈ p.system.modes, IsSumOfSquares m.states (m.terminalCost.eval X))

include hp hr hrunning hterminal

/-- Where the templates are zero, flow and final inequalities are about the costs alone. -/
theorem Problem.isSumOfSquares_certified {ψ : ℕ → ℝ}
    (hvalue : ∀ template ∈ r.templates, solvedAt ψ template.value = 0) :
    ∀ q ∈ certifiedBy (assemblySteps p.system r.templates horizon p.settings.freeFinalTime),
      IsSumOfSquares q.scope (solvedAt ψ q.polynomial) := by
  suffices ∀ step ∈ assemblySteps p.system r.templates horizon p.settings.freeFinalTime,
      ∀ q, step = .certify q → IsSumOfSquares q.scope (solvedAt ψ q.polynomial) from
    fun q hq => this _ (mem_certifiedBy.mp hq) q rfl
  have named : ∀ t ∈ r.program.decisions, t.isNamed = false :=
    fun t ht => hr.regular.isNamed_of_mem ht
  refine forall_assemblySteps hp.consistent hr.templates hp.final
    (fun i m hm template htemplate fits => ?_) (fun i m hm template htemplate fits => ?_)
    (fun t ht i j source target hfits here hhere next hnext _ fits reset entries => ?_)
    (fun _ _ _ _ _ _ _ _ h => by simp at h)
  · rintro q ⟨⟩
    rw [solvedAt_liouville ψ hp.polynomial hp.consistent hm fits, hvalue template htemplate,
      flowPolynomial_zero, zero_add]
    exact hrunning m hm
  · rintro q ⟨⟩
    rw [solvedAt_terminal ψ hp.polynomial hp.consistent named hm fits, hvalue template htemplate,
      map_zero, sub_zero]
    exact hterminal m hm
  · rintro q ⟨⟩
    rw [solvedAt_transition ψ hp.polynomial named ht hfits fits entries, hvalue here hhere,
      hvalue next hnext, map_zero, sub_zero]
    exact isSumOfSquares_zero _

theorem Problem.exists_feasiblePoint_zero :
    ∃ point : FeasiblePoint r.program, ∀ t ∈ r.templates, point.solved t.value = 0 := by
  have degrees : List.Forall₂ (fun (m : Mode Rat) (v : MvPolynomial Symbol ℝ) =>
      IsOfDegree (p.system.time :: m.states) p.degree.value v) p.system.modes
        (p.system.modes.map (fun _ => 0)) :=
    List.forall₂_map_right_iff.mpr (List.forall₂_same.mpr (fun m _ => isOfDegree_zero))
  have zeros {ψ : ℕ → ℝ} (h : List.Forall₂ (fun t v => solvedAt ψ t.value = v) r.templates
      (p.system.modes.map (fun _ => 0))) : ∀ t ∈ r.templates, solvedAt ψ t.value = 0 := by
    intro t ht
    obtain ⟨v, hv, value⟩ := exists_right_of_mem h ht
    obtain ⟨m, -, rfl⟩ := List.mem_map.mp hv
    exact value
  obtain ⟨point, solved⟩ := hr.exists_feasiblePoint hp degrees (fun ψ templates q hq =>
    q.exists_isCertified _ (isSumOfSquares_certified hp hr hrunning hterminal (zeros templates) q hq))
  exact ⟨point, zeros solved⟩

end

/-! ## A system that drives and parks -/

/-- The state grows by itself, and the control slows it down or speeds it up. -/
def drivingMode : Mode Rat where
  states := [.named "x"]
  controls := [.named "u"]
  drift := ⟨1, [[.ofSymbol (.named "x")]]⟩
  input := ⟨1, [[.number 1]]⟩
  domain := [.ofSymbol (.named "x")]
  controlSet := [.number 1 - .ofSymbol (.named "u") * .ofSymbol (.named "u")]
  targetSet := []
  runningCost := .ofSymbol (.named "u") * .ofSymbol (.named "u")
  terminalCost := .zero
  initialState := some [0]
  name := none

def parkedMode : Mode Rat where
  states := [.named "y"]
  controls := []
  drift := ⟨1, [[.zero]]⟩
  input := ⟨0, [[]]⟩
  domain := [.ofSymbol (.named "y")]
  controlSet := []
  targetSet := [.ofSymbol (.named "y")]
  runningCost := .zero
  terminalCost := .ofSymbol (.named "y") * .ofSymbol (.named "y")
  initialState := none
  name := none

/-- From one half on the mode can be left, with the square of the state. -/
def parkingJump : Transition Rat :=
  ⟨.integer 0, .integer 1, [.ofSymbol (.named "x") - .number (1 / 2)],
    some (.ofColumn [.ofSymbol (.named "x") * .ofSymbol (.named "x")])⟩

def parkingSystem : HybridSystem Rat :=
  ⟨.named "t", [drivingMode, parkedMode], [parkingJump]⟩

theorem isPolynomial_square (s : Symbol) :
    (.ofSymbol s * .ofSymbol s : Expression Rat).IsPolynomial :=
  Expression.isPolynomial_mul (Expression.isPolynomial_ofSymbol _) (Expression.isPolynomial_ofSymbol _)

theorem eval_square {R : Type*} [CommRing R] [Algebra ℚ R] (ρ : Symbol → R) (s : Symbol) :
    (.ofSymbol s * .ofSymbol s : Expression Rat).eval ρ = ρ s ^ 2 := by
  rw [Expression.eval_mul ρ (Expression.isPolynomial_ofSymbol _) (Expression.isPolynomial_ofSymbol _),
    Expression.eval_ofSymbol, sq]

theorem isPolynomial_drivingMode : drivingMode.IsPolynomial (.named "t") := by
  constructor <;>
    simp [drivingMode, Grid.entries, Grid.IsRectangular, Symbol.isNamed, isPolynomial_square,
      Expression.isPolynomial_sub]

theorem isPolynomial_parkedMode : parkedMode.IsPolynomial (.named "t") := by
  constructor <;>
    simp [parkedMode, Grid.entries, Grid.IsRectangular, Symbol.isNamed, isPolynomial_square]

theorem isPolynomial_parkingSystem : parkingSystem.IsPolynomial := by
  refine ⟨fun m hm => ?_, fun t ht => ?_⟩
  · rcases List.mem_pair.mp hm with rfl | rfl
    · exact isPolynomial_drivingMode
    · exact isPolynomial_parkedMode
  · rw [List.mem_singleton.mp ht]
    constructor <;>
      simp [parkingJump, Grid.ofColumn, Grid.entries, Grid.IsColumn, isPolynomial_square,
        Expression.isPolynomial_sub]

theorem validate_parkingSystem : parkingSystem.validate = .ok () := by
  decide +kernel

theorem width_drift_parkingSystem : ∀ m ∈ parkingSystem.modes, m.drift.width = 1 := by
  decide

theorem eq_of_initialState_parkingSystem {i : ℕ} {m : Mode Rat} {state : List Rat}
    (hm : parkingSystem.modes[i]? = some m) (hstate : m.initialState = some state) :
    i = 0 ∧ m = drivingMode ∧ state = [0] := by
  rcases i with _ | _ | i
  · obtain rfl : drivingMode = m := Option.some.inj hm
    exact ⟨rfl, rfl, (Option.some.inj hstate).symm⟩
  · obtain rfl : parkedMode = m := Option.some.inj hm
    simp [parkedMode] at hstate
  · simp [parkingSystem] at hm

theorem posed_parkingSystem {n : ℤ} (hn : 0 < n) :
    Problem.pose parkingSystem (.integer n) Settings.defaults =
      .ok ⟨parkingSystem, .ofPositive n, Settings.defaults⟩ :=
  Problem.pose_eq_ok.mpr
    ⟨validate_parkingSystem, by simp [Settings.defaults], _, if_pos hn, rfl⟩

theorem exists_relaxation_parkingSystem {n : ℤ} (hn : 0 < n) :
    ∃ p r, Problem.pose parkingSystem (.integer n) Settings.defaults = .ok p ∧ p.build = .ok r ∧
      Nonempty (FeasiblePoint r.program) := by
  have posed := posed_parkingSystem hn
  obtain ⟨wellPosed, -⟩ := Problem.isWellPosed_of_pose isPolynomial_parkingSystem posed
  obtain ⟨r, cs, built, relaxed⟩ := Problem.exists_build wellPosed width_drift_parkingSystem
  have squares {scope : List Symbol} {s : Symbol} (hs : s ∈ scope) :
      IsSumOfSquares scope ((.ofSymbol s * .ofSymbol s : Expression Rat).eval X) := by
    rw [eval_square]
    exact isSumOfSquares_sq (isOver_X hs)
  have running : ∀ m ∈ parkingSystem.modes,
      IsSumOfSquares (.named "t" :: m.states ++ m.controls) (m.runningCost.eval X) := by
    intro m hm
    rcases List.mem_pair.mp hm with rfl | rfl
    · exact squares (by simp [drivingMode])
    · exact isSumOfSquares_zero _
  have terminal : ∀ m ∈ parkingSystem.modes,
      IsSumOfSquares m.states (m.terminalCost.eval X) := by
    intro m hm
    rcases List.mem_pair.mp hm with rfl | rfl
    · exact isSumOfSquares_zero _
    · exact squares (by simp [parkedMode])
  obtain ⟨point, -⟩ := Problem.exists_feasiblePoint_zero wellPosed relaxed running terminal
  exact ⟨_, r, posed, built, ⟨point⟩⟩

end HybridRelaxation
