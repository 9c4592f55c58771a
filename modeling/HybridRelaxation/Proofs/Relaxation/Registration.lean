import HybridRelaxation.Proofs.Relaxation.Assembly

/-!
# What registrations keep

Whatever an assembly registers goes through two operations: a sum of squares of a polynomial is
stated, or one of a fresh polynomial.  So a property of programs that both keep also holds after all
steps of an assembly, those that fail included.
-/

namespace HybridRelaxation

variable {K : Type} [Scalar K] {allowed : List Symbol → Prop} {P : SquareProgram K → Prop}

/-- The property stays when a sum of squares over an allowed scope is stated. -/
structure SquareProgram.IsKept (allowed : List Symbol → Prop) (P : SquareProgram K → Prop) :
    Prop where
  withSquareSum : ∀ {p : SquareProgram K} {scope : List Symbol}, P p → allowed scope →
    ∀ (e : Expression K) (half : Option ℤ) (name : String),
      P (p.withSquareSum e scope half name).1
  newSquareSum : ∀ {p : SquareProgram K} {scope : List Symbol}, P p → allowed scope →
    ∀ (half : ℤ) (name : String), P (p.newSquareSum scope half name).1

namespace SquareProgram.IsKept

variable (h : IsKept allowed P) {p : SquareProgram K} {scope : List Symbol} (hp : P p)
  (hscope : allowed scope)

include h hp hscope

theorem registerMultipliers (rest : Expression K) (degree : ℤ) (name : String) (k : ℕ)
    (constraints : List (Expression K)) :
    P (p.registerMultipliers rest scope degree name k constraints).1 := by
  induction constraints generalizing p rest k with
  | nil => exact hp
  | cons g constraints ih =>
      unfold SquareProgram.registerMultipliers
      cases totalDegree g scope with
      | error f => exact hp
      | ok d =>
          have added := h.newSquareSum hp hscope (multiplierHalf degree d)
            (name ++ toString (k + 1))
          dsimp only
          cases hnew : p.newSquareSum scope (multiplierHalf degree d)
              (name ++ toString (k + 1)) with
          | mk q outcome =>
              rw [hnew] at added
              cases outcome with
              | error f => exact added
              | ok s => exact ih added (rest - s * g) (k + 1)

theorem nonnegativeOn (e : Expression K) (constraints : List (Expression K)) (degree : ℤ)
    (name : String) : P (p.nonnegativeOn e scope constraints degree name).1 := by
  have added := h.registerMultipliers hp hscope e degree name 0 constraints
  unfold SquareProgram.nonnegativeOn
  cases hweights : p.registerMultipliers e scope degree name 0 constraints with
  | mk q outcome =>
      rw [hweights] at added
      cases outcome with
      | error f => exact added
      | ok parts => exact h.withSquareSum added hscope parts.2 none (name ++ "0")

end SquareProgram.IsKept

def AssemblyStep.IsOver (allowed : List Symbol → Prop) : AssemblyStep K → Prop
  | .certify q => allowed q.scope
  | .abandon q _ => allowed q.scope
  | .addToObjective _ => True
  | .refuse _ => True

namespace SquareProgram.IsKept

variable (h : IsKept allowed P) {a : Assembly K} (ha : P a.program)

include h ha

theorem certify {q : Inequality K} (hq : allowed q.scope) (degree : ℤ) :
    P (a.certify degree q).1.program := by
  have added := h.nonnegativeOn ha hq q.polynomial q.constraints degree q.place.name
  unfold Assembly.certify
  cases hadded : a.program.nonnegativeOn q.polynomial q.scope q.constraints degree q.place.name with
  | mk program outcome =>
      rw [hadded] at added
      cases outcome <;> exact added

theorem take {step : AssemblyStep K} (hstep : step.IsOver allowed) (degree : ℤ) :
    P (a.take degree step).1.program := by
  cases step with
  | certify q => exact h.certify ha hstep degree
  | abandon q f =>
      exact h.registerMultipliers ha hstep q.polynomial degree q.place.name 0 q.constraints
  | addToObjective e => exact ha
  | refuse f => exact ha

theorem takeAll {steps : List (AssemblyStep K)} (hsteps : ∀ step ∈ steps, step.IsOver allowed)
    (degree : ℤ) : P (a.takeAll degree steps).1.program := by
  induction steps generalizing a with
  | nil => exact ha
  | cons step steps ih =>
      have taken := h.take ha (hsteps step (by simp)) degree
      unfold Assembly.takeAll
      cases hstep : a.take degree step with
      | mk a' outcome =>
          rw [hstep] at taken
          cases outcome with
          | error f => exact taken
          | ok u => exact ih taken (fun next hnext => hsteps next (by simp [hnext]))

end SquareProgram.IsKept

theorem Problem.kept_of_build {p : Problem K} {r : Relaxation K} (hbuild : p.build = .ok r)
    (h : SquareProgram.IsKept allowed P)
    (hsteps : ∀ step ∈ assemblySteps p.system r.templates horizon p.settings.freeFinalTime,
      step.IsOver allowed)
    (start : ∀ q, p.templates = (q, .ok r.templates) → P q) : P r.program := by
  obtain ⟨q, b, hregister, hassemble, hprogram, -⟩ := build_inversion hbuild
  have taken := h.takeAll (a := Assembly.start q) (start q hregister) hsteps p.degree.value
  have final : ((Assembly.start q).takeAll p.degree.value (assemblySteps p.system r.templates
      horizon p.settings.freeFinalTime)).1 = b := congrArg Prod.fst hassemble
  rwa [final, ← hprogram] at taken

end HybridRelaxation
