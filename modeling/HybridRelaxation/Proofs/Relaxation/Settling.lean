import Mathlib
import HybridRelaxation.Proofs.Relaxation.Registration

/-!
# Decisions are settled by solved polynomials

Every decision of a built program is a coefficient of a template or of a multiplier.  So values of
the decisions that solve all templates and all statements in the same way are the same values.
-/

namespace HybridRelaxation

section

variable {A : Type} [CommRing A] [Algebra ℚ A] {φ ψ : ℕ → A}

/-! ## Statements -/

/-- The values agree on all decisions as soon as they solve all statements in the same way. -/
def SquareProgram.IsSettled (φ ψ : ℕ → A) (p : SquareProgram Rat) : Prop :=
  (∀ s ∈ p.statements, solvedAt φ s.polynomial = solvedAt ψ s.polynomial) →
    ∀ k < p.size, φ k = ψ k

theorem SquareProgram.isKept_isSettled (φ ψ : ℕ → A) :
    IsKept (fun scope => scope.Nodup ∧ ∀ t ∈ scope, t.isNamed = true) (IsSettled φ ψ) := by
  constructor
  · intro p scope settled _ e half name
    unfold SquareProgram.withSquareSum
    cases statement e scope half name with
    | error f => exact settled
    | ok s => exact fun same => settled (fun t ht => same t (List.mem_append_left _ ht))
  · rintro p scope settled ⟨hscope, hnamed⟩ half name
    obtain ⟨s, hs, -, -, -, hpoly⟩ := p.newSquareSum_spec hscope half name
    rw [hs]
    intro same k hk
    rcases lt_or_ge k p.size with old | fresh
    · exact settled (fun t ht => same t (List.mem_append_left _ ht)) k old
    · have free := same s (by simp [withFreeSquareSum])
      rw [hpoly] at free
      refine values_eq_of_combination hnamed hscope free fresh ?_
      simpa [withFreeSquareSum, SquareProgram.newFreePolynomial, SquareProgram.size,
        freshDecisions] using hk

/-! ## Templates -/

theorem values_eq_of_registerModes {time : Symbol} {degree : ℤ} {p q : SquareProgram Rat}
    {index : ℕ} {modes : List (Mode Rat)} {templates : List (ValueTemplate Rat)}
    (hmodes : ∀ m ∈ modes, m.IsPolynomial time)
    (h : registerModes time degree horizon p index modes = (q, .ok templates))
    (hbefore : ∀ k < p.size, φ k = ψ k)
    (hsolved : ∀ t ∈ templates, solvedAt φ t.value = solvedAt ψ t.value) :
    ∀ k < q.size, φ k = ψ k := by
  induction modes generalizing p index templates with
  | nil =>
      obtain ⟨rfl, -⟩ := Prod.mk.inj h
      exact hbefore
  | cons m modes ih =>
      have hm := hmodes m (by simp)
      obtain ⟨p', template, others, hregister, hothers, rfl⟩ := registerModes_cons_eq_ok.mp h
      have registered := ValueTemplate.isRegistered_of_register hregister
      refine ih (fun n hn => hmodes n (by simp [hn])) hothers (fun k hk => ?_)
        (fun t ht => hsolved t (by simp [ht]))
      rcases lt_or_ge k p.size with old | fresh
      · exact hbefore k old
      · have free := hsolved template (by simp)
        rw [registered.value, registered.basis, registered.decisions] at free
        have size : p'.size =
            p.size + (monomials (K := Rat) (time :: m.states) degree 0).length := by
          simp [SquareProgram.size, registered.programDecisions, registered.decisions,
            SquareProgram.freshDecisions]
        exact values_eq_of_combination
          (fun t ht => hm.named t (List.mem_append_left _ ht))
          (List.nodup_append.mp hm.distinct).1 free fresh (size ▸ hk)

/-! ## Built programs -/

theorem Problem.values_eq_of_solved {p : Problem Rat} (hp : p.IsWellPosed) {r : Relaxation Rat}
    (hbuild : p.build = .ok r)
    (htemplates : ∀ t ∈ r.templates, solvedAt φ t.value = solvedAt ψ t.value)
    (hstatements : ∀ s ∈ r.program.statements,
      solvedAt φ s.polynomial = solvedAt ψ s.polynomial) :
    ∀ k < r.program.size, φ k = ψ k := by
  refine kept_of_build hbuild (SquareProgram.isKept_isSettled φ ψ) (fun step hstep => ?_)
    (fun q hregister _ => ?_) hstatements
  · obtain ⟨cs, hr⟩ := isRelaxedBy_of_build hp hbuild
    have regular := isRegular_assemblySteps hp.polynomial hp.consistent
      (fun _ ht => hr.regular.isNamed_of_mem ht) hr.templates hp.final step hstep
    cases step with
    | certify q => exact ⟨regular.distinct, regular.named⟩
    | abandon q f => exact regular.elim
    | addToObjective e => trivial
    | refuse f => trivial
  · refine values_eq_of_registerModes hp.polynomial.modes hregister (fun k hk => ?_) htemplates
    simp [initialProgram, SquareProgram.withIndeterminates, SquareProgram.empty,
      SquareProgram.size] at hk

end

end HybridRelaxation
