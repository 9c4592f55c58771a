import Mathlib
import HybridRelaxation.Proofs.Relaxation.Objective
import HybridRelaxation.Proofs.System.Execution

/-!
# Lower bounds

What a relaxation reports is a lower bound of what any executions cost, one from the initial state
of each mode that has one.
-/

namespace HybridRelaxation

open Polynomial (derivative)

/-- From each initial state there is an execution of the given cost. -/
def SystemData.Affords (s : HybridSystem Rat) (cost : ℕ → ℝ) : Prop :=
  ∀ (i : ℕ) (m : Mode Rat) (state : List Rat), s.modes[i]? = some m →
    m.initialState = some state →
      ∃ arcs, s.Executes arcs (cost i) ∧ StartsAt m i state arcs

/--
The relaxation is a lower bound.  At every exact feasible point the value function of a mode, at time
zero and the initial state, is at most the cost of every execution from there.  So the objective, and
the bound that is reported, are at most the sum of the costs of any executions, one from each initial
state.
-/
theorem le_cost_of_feasiblePoint {s : HybridSystem Rat} {degree : Datum} {settings : Settings}
    {p : Problem Rat} {r : Relaxation Rat} (hs : s.IsPolynomial)
    (hpose : Problem.pose s degree settings = .ok p) (hbuild : p.build = .ok r)
    (point : FeasiblePoint r.program) :
    (∀ (i : ℕ) (m : Mode Rat) (state : List Rat), s.modes[i]? = some m →
      m.initialState = some state → ∀ (arcs : List Arc) (cost : ℝ), s.Executes arcs cost →
        StartsAt m i state arcs → ∀ x : Symbol → ℝ, x s.time = 0 →
          m.states.map x = state.map (fun c : Rat => (c : ℝ)) →
            MvPolynomial.eval x (point.valueFunction r.templates i) ≤ cost) ∧
      ∀ cost : ℕ → ℝ, s.Affords cost →
        (∀ x : Symbol → ℝ, MvPolynomial.eval x (point.solved r.objective) ≤ s.initialSum cost) ∧
        ∀ (values : List Rat) (sol : Solution Rat), values.length = r.program.size →
          (∀ k, point.values k = (values.getD k 0 : ℝ)) →
            sol.values = Solution.valuesOf r.program values →
              ∃ b, Results.boundOf r sol = .ok b ∧ (b : ℝ) ≤ s.initialSum cost := by
  obtain ⟨wellPosed, rfl, -⟩ := Problem.isWellPosed_of_pose hs hpose
  obtain ⟨cs, relaxed⟩ := Problem.isRelaxedBy_of_build wellPosed hbuild
  have subsolution := Problem.isSubsolution_valueFunction wellPosed relaxed point
  refine ⟨fun i m state hm _ arcs cost executes starts x htime hstates =>
    subsolution.le_cost hs hm executes starts htime hstates, fun cost affords => ?_⟩
  have bound (x : Symbol → ℝ) :
      MvPolynomial.eval x (point.solved r.objective) ≤ p.system.initialSum cost := by
    refine Problem.objective_le_initialSum wellPosed relaxed point (fun i m state hm hstate => ?_) x
    obtain ⟨arcs, executes, starts⟩ := affords i m state hm hstate
    obtain ⟨a, rest, rfl, rfl, started, states⟩ := starts
    obtain ⟨-, time, -⟩ := subsolution.le_of_executes hs executes
    exact ⟨a.first, time.trans started, states, subsolution.le_cost hs hm executes
      ⟨a, rest, rfl, rfl, started, states⟩ (time.trans started) states⟩
  refine ⟨bound, fun values sol hlength hvalues hsol => ?_⟩
  obtain ⟨b, hb, value⟩ := Problem.boundOf_eq wellPosed relaxed hlength hsol
  refine ⟨b, hb, ?_⟩
  have same : point.values = fun k => (values.getD k 0 : ℝ) := funext hvalues
  rw [value (fun _ => 0), ← same, ← point.eval_solved]
  exact bound _

/-! ## An execution with a jump -/

/-- The control brakes such that the state is the time. -/
noncomputable def drivingArc : Arc where
  mode := 0
  start := 0
  stop := 1 / 2
  path := fun s => if s = .named "u" then 1 - Polynomial.X else Polynomial.X

noncomputable def parkedArc : Arc where
  mode := 1
  start := 1 / 2
  stop := 1
  path := fun s => if s = .named "y" then Polynomial.C (1 / 4) else Polynomial.X

theorem pointOn_drivingArc (t : ℝ) (s : Symbol) :
    pointOn drivingArc.path t s = if s = .named "u" then 1 - t else t := by
  simp only [pointOn, drivingArc]
  split <;> simp

theorem pointOn_parkedArc (t : ℝ) (s : Symbol) :
    pointOn parkedArc.path t s = if s = .named "y" then 1 / 4 else t := by
  simp only [pointOn, parkedArc]
  split <;> simp

theorem follows_drivingArc : drivingArc.Follows (.named "t") drivingMode where
  ordered := by norm_num [drivingArc]
  time_eq := rfl
  states t _ _ := by
    have slope : derivative (drivingArc.path (.named "x")) = 1 := Polynomial.derivative_X
    simp [drivingMode, ModeData.velocity, Grid.entries, pointOn_drivingArc, slope]
  domain t h₀ _ := by
    intro g hg
    rw [List.mem_singleton.mp hg, Expression.eval_ofSymbol, pointOn_drivingArc]
    exact h₀.le
  controlSet t h₀ h₁ := by
    intro g hg
    have before : t < 1 / 2 := h₁
    have after : 0 < t := h₀
    rw [List.mem_singleton.mp hg, Expression.eval_sub, eval_square, Expression.eval_number,
      pointOn_drivingArc, if_pos rfl, map_one]
    nlinarith

theorem follows_parkedArc : parkedArc.Follows (.named "t") parkedMode where
  ordered := by norm_num [parkedArc]
  time_eq := rfl
  states t _ _ := by simp [parkedMode, ModeData.velocity, Grid.entries, parkedArc]
  domain t _ _ := by
    intro g hg
    rw [List.mem_singleton.mp hg, Expression.eval_ofSymbol, pointOn_parkedArc]
    norm_num
  controlSet t _ _ := by
    intro g hg
    simp [parkedMode] at hg

theorem cost_drivingArc : drivingArc.cost drivingMode = 7 / 24 := by
  have paid (t : ℝ) : drivingMode.runningCost.eval (pointOn drivingArc.path t) = (1 - t) ^ 2 := by
    rw [show drivingMode.runningCost = .ofSymbol (.named "u") * .ofSymbol (.named "u") from rfl,
      eval_square, pointOn_drivingArc, if_pos rfl]
  simp only [Arc.cost, paid]
  rw [intervalIntegral.integral_comp_sub_left (fun t => t ^ 2), integral_pow]
  norm_num [drivingArc]

theorem executes_parkingSystem :
    parkingSystem.Executes [drivingArc, parkedArc] (7 / 24 + 1 / 16) := by
  have last : parkedArc.last (.named "y") = 1 / 4 := pointOn_parkedArc 1 _
  have parked : parkingSystem.Executes [parkedArc] (1 / 16) := by
    have paid : parkedArc.cost parkedMode + parkedMode.terminalCost.eval parkedArc.last = 1 / 16 := by
      rw [show parkedMode.terminalCost = .ofSymbol (.named "y") * .ofSymbol (.named "y") from rfl,
        eval_square, last]
      norm_num [Arc.cost, parkedMode]
    rw [← paid]
    refine .finish rfl follows_parkedArc rfl (by simp [parkedMode]) (fun g hg => ?_)
    rw [List.mem_singleton.mp hg, Expression.eval_ofSymbol, last]
    norm_num
  have reached : drivingArc.last (.named "x") = 1 / 2 := pointOn_drivingArc (1 / 2) _
  rw [← cost_drivingArc]
  refine .jump rfl follows_drivingArc (List.mem_singleton.mpr rfl) ⟨rfl, rfl, rfl, rfl⟩
    (by simp [parkingJump]) (fun g hg => ?_) ⟨rfl, ?_⟩ parked
  · rw [List.mem_singleton.mp hg, Expression.eval_sub, Expression.eval_ofSymbol, reached,
      Expression.eval_number]
    norm_num
  · refine .cons ?_ .nil
    rw [eval_square, reached]
    exact (pointOn_parkedArc (1 / 2) _).trans (by norm_num)

theorem le_cost_of_feasiblePoint_parkingSystem : ∃ p r,
    Problem.pose parkingSystem (.integer 2) Settings.defaults = .ok p ∧ p.build = .ok r ∧
      parkingSystem.Executes [drivingArc, parkedArc] (7 / 24 + 1 / 16) ∧
      StartsAt drivingMode 0 [0] [drivingArc, parkedArc] ∧
      ∃ point : FeasiblePoint r.program,
        MvPolynomial.eval (fun _ => 0) (point.valueFunction r.templates 0) ≤ 7 / 24 + 1 / 16 ∧
          MvPolynomial.eval (fun _ => 0) (point.solved r.objective) ≤ 7 / 24 + 1 / 16 := by
  obtain ⟨p, r, posed, built, ⟨point⟩⟩ := exists_relaxation_parkingSystem (n := 2) (by decide)
  have starts : StartsAt drivingMode 0 [0] [drivingArc, parkedArc] :=
    ⟨drivingArc, _, rfl, rfl, rfl, by
      simp [drivingMode, Arc.first, pointOn_drivingArc, show drivingArc.start = 0 from rfl]⟩
  obtain ⟨least, bound⟩ := le_cost_of_feasiblePoint isPolynomial_parkingSystem posed built point
  have affords : parkingSystem.Affords (fun _ => 7 / 24 + 1 / 16) := by
    intro i m state hm hstate
    obtain ⟨rfl, rfl, rfl⟩ := eq_of_initialState_parkingSystem hm hstate
    exact ⟨_, executes_parkingSystem, starts⟩
  refine ⟨p, r, posed, built, executes_parkingSystem, starts, point,
    least 0 drivingMode [0] rfl rfl _ _ executes_parkingSystem starts (fun _ => 0) rfl
      (by simp [drivingMode]), ?_⟩
  simpa [SystemData.initialSum, parkingSystem, drivingMode, parkedMode] using
    (bound _ affords).1 (fun _ => 0)

end HybridRelaxation
