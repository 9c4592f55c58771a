import Mathlib
import HybridRelaxation.Proofs.Flow.VectorField
import HybridRelaxation.Proofs.System.Consistency

/-!
# Subsolutions

Polynomials, one for each mode, are a subsolution of the optimal control problem of a system if the
value decreases no faster than the running cost is paid, is at most the terminal cost on the target
set at the final time, and is at most the value after a jump where a guard holds.
-/

namespace HybridRelaxation

open MvPolynomial (pderiv)

/-! ## Velocities -/

section

variable {R : Type*} [CommRing R]

theorem map_innerValue {S : Type*} [CommRing S] (f : R →+* S) (xs ys : List R) :
    f (innerValue xs ys) = innerValue (xs.map f) (ys.map f) := by
  induction xs generalizing ys with
  | nil => simp
  | cons x xs ih =>
      cases ys with
      | nil => simp
      | cons y ys => simp [ih]

variable [Algebra ℚ R]

/-- The velocity of the states: the drift and, weighted by the controls, the input columns. -/
def ModeData.velocity (m : Mode Rat) (ρ : Symbol → R) : List R :=
  List.zipWith (· + ·) (m.drift.entries.map (Expression.eval ρ))
    (m.input.rows.map (fun row => innerValue (row.map (Expression.eval ρ)) (m.controls.map ρ)))

theorem ModeData.map_velocity {S : Type*} [CommRing S] [Algebra ℚ S] (f : R →ₐ[ℚ] S)
    (m : Mode Rat) (ρ : Symbol → R) :
    (m.velocity ρ).map f = m.velocity (fun s => f (ρ s)) := by
  have values (es : List (Expression Rat)) :
      (es.map (Expression.eval ρ)).map f = es.map (Expression.eval (fun s => f (ρ s))) := by
    rw [List.map_map]
    exact List.map_congr_left (fun e _ => Expression.map_eval f ρ e)
  have rows : (m.input.rows.map (fun row =>
      innerValue (row.map (Expression.eval ρ)) (m.controls.map ρ))).map f =
        m.input.rows.map (fun row => innerValue (row.map (Expression.eval (fun s => f (ρ s))))
          (m.controls.map (fun s => f (ρ s)))) := by
    rw [List.map_map]
    refine List.map_congr_left (fun row _ => ?_)
    have product := map_innerValue (f : R →+* S) (row.map (Expression.eval ρ)) (m.controls.map ρ)
    rw [← values row]
    refine Eq.trans product ?_
    rw [List.map_map (f := ρ)]
    rfl
  rw [velocity, velocity, ← rows, ← values, List.map_zipWith]
  simp only [List.zipWith_map, map_add]

theorem ModeData.velocity_congr {time : Symbol} {m : Mode Rat} (hc : m.IsConsistent time)
    {ρ τ : Symbol → R} (hstates : ∀ s ∈ m.states, ρ s = τ s)
    (hcontrols : ∀ s ∈ m.controls, ρ s = τ s) : m.velocity ρ = m.velocity τ := by
  have drift : m.drift.entries.map (Expression.eval ρ) = m.drift.entries.map (Expression.eval τ) :=
    List.map_congr_left (fun e he =>
      Expression.eval_congr e (fun s hs => hstates s (hc.drift e he s hs)))
  have input : m.input.rows.map (List.map (Expression.eval ρ)) =
      m.input.rows.map (List.map (Expression.eval τ)) := by
    refine List.map_congr_left (fun row hrow => List.map_congr_left (fun e he => ?_))
    exact Expression.eval_congr e (fun s hs =>
      hstates s (hc.input e (List.mem_flatten.mpr ⟨row, hrow, he⟩) s hs))
  have controls : m.controls.map ρ = m.controls.map τ := List.map_congr_left hcontrols
  have rows := congrArg (List.map (fun row => innerValue row (m.controls.map ρ))) input
  rw [List.map_map, List.map_map] at rows
  rw [velocity, velocity, ← drift, ← controls]
  exact congrArg _ rows

end

/-! ## Inequalities -/

def AllHold (x : Symbol → ℝ) (gs : List (Expression Rat)) : Prop := ∀ g ∈ gs, 0 ≤ g.eval x

/-- The rate at which a value changes when the states move at their velocity. -/
noncomputable def ModeData.valueRate (time : Symbol) (m : Mode Rat) (v : MvPolynomial Symbol ℝ)
    (x : Symbol → ℝ) : ℝ :=
  MvPolynomial.eval x (pderiv time v) +
    innerValue (m.states.map (fun s => MvPolynomial.eval x (pderiv s v))) (m.velocity x)

/-- The jump keeps the time and takes the states of the target to the image of the state. -/
structure TransitionData.Lands (time : Symbol) (source target : Mode Rat) (t : Transition Rat)
    (x y : Symbol → ℝ) : Prop where
  time_eq : y time = x time
  states : List.Forall₂ (fun s e => y s = e.eval x) target.states (t.resetEntries source)

/-- The inequalities between the values of the modes and the costs of a system. -/
structure SystemData.IsSubsolution (s : HybridSystem Rat) (v : ℕ → MvPolynomial Symbol ℝ) :
    Prop where
  flow : ∀ (i : ℕ) (m : Mode Rat), s.modes[i]? = some m → ∀ x : Symbol → ℝ,
    0 ≤ x s.time → x s.time ≤ 1 → AllHold x m.domain → AllHold x m.controlSet →
      0 ≤ m.valueRate s.time (v i) x + m.runningCost.eval x
  final : ∀ (i : ℕ) (m : Mode Rat), s.modes[i]? = some m → m.targetSet ≠ [] →
    ∀ x : Symbol → ℝ, x s.time = 1 → AllHold x m.targetSet →
      MvPolynomial.eval x (v i) ≤ m.terminalCost.eval x
  jump : ∀ t ∈ s.transitions, t.guard ≠ [] → ∀ (i j : ℕ) (source target : Mode Rat),
    t.Connects s.modes i j source target → ∀ x y : Symbol → ℝ,
      0 ≤ x s.time → x s.time ≤ 1 → AllHold x t.guard → t.Lands s.time source target x y →
        MvPolynomial.eval x (v i) ≤ MvPolynomial.eval y (v j)
  local_states : ∀ (i : ℕ) (m : Mode Rat), s.modes[i]? = some m → ∀ x y : Symbol → ℝ,
    (∀ t ∈ s.time :: m.states, x t = y t) → MvPolynomial.eval x (v i) = MvPolynomial.eval y (v i)

end HybridRelaxation
