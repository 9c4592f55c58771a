import Mathlib
import HybridRelaxation.Proofs.Relaxation.Transfer

/-!
# The hierarchy of relaxations

A relaxation of higher degree has more multipliers and larger Gram matrices.  Every exact feasible
point of a relaxation extends to each relaxation of the same system with at least its degree, with
the same value functions and the same objective.  So the best bound never decreases with the degree.
-/

namespace HybridRelaxation

/-! ## Relaxations of the same system -/

namespace Problem

variable {p p' : Problem Rat} {r r' : Relaxation Rat} {cs cs' : List SquareProgram.Certificate}

section

variable (hp : p.IsWellPosed) (hr : p.IsRelaxedBy r cs) (hp' : p'.IsWellPosed)
  (hr' : p'.IsRelaxedBy r' cs') (hsystem : p'.system = p.system)
  (hfree : p'.settings.freeFinalTime = p.settings.freeFinalTime)

include hp hr hr' hsystem hfree in
/-- Templates with the same solutions ask for the same inequalities, whatever the degrees are. -/
theorem agrees_steps {φ ψ : ℕ → ℝ} (hsolved : List.Forall₂
    (fun t t' => solvedAt ψ t'.value = solvedAt φ t.value) r.templates r'.templates) :
    List.Forall₂ (AssemblyStep.Agrees φ ψ)
      (assemblySteps p.system r.templates horizon p.settings.freeFinalTime)
      (assemblySteps p'.system r'.templates horizon p'.settings.freeFinalTime) := by
  rw [hfree, hsystem]
  have templates := hr'.templates
  rw [hsystem] at templates
  exact agrees_assemblySteps hp.polynomial hp.consistent
    (fun _ h => hr.regular.isNamed_of_mem h) (fun _ h => hr'.regular.isNamed_of_mem h)
    hr.templates templates hsolved hp.final

variable (hdegree : p.degree.value ≤ p'.degree.value) (point : FeasiblePoint r.program)

include hp hr hp' hr' hsystem hfree hdegree

theorem exists_extension : ∃ point' : FeasiblePoint r'.program,
    List.Forall₂ (fun t t' => point'.solved t'.value = point.solved t.value) r.templates
      r'.templates ∧ point'.solved r'.objective = point.solved r.objective := by
  have scopes : List.Forall₂ (fun (m m' : Mode Rat) => p'.system.time :: m'.states =
      p.system.time :: m.states) p.system.modes p'.system.modes := by
    rw [hsystem]
    exact List.forall₂_same.mpr (fun _ _ => rfl)
  obtain ⟨point', templates⟩ := IsRelaxedBy.exists_transfer hp hr hp' hr' hdegree scopes point
    (fun ψ solved q' hq' => by
      have same := agrees_certifiedBy (agrees_steps hp hr hr' hsystem hfree solved)
      obtain ⟨q, hq, agrees⟩ := exists_left_of_mem same hq'
      exact ⟨q, hq, agrees.refines⟩)
  refine ⟨point', templates, ?_⟩
  have steps := agrees_steps hp hr hr' hsystem hfree templates
  rw [FeasiblePoint.solved, FeasiblePoint.solved, hr'.objective, hr.objective]
  exact solvedAt_foldl_addedBy steps rfl

end

end Problem

/-! ## Degrees -/

theorem RelaxationDegree.ofPositive_mono {d d' : ℤ} (h : d ≤ d') :
    (ofPositive d).value ≤ (ofPositive d').value := by
  unfold ofPositive
  split <;> split <;> dsimp only <;> omega

theorem Problem.pose_of_degree_le {s : HybridSystem Rat} {d d' : ℤ} (h : d ≤ d')
    {settings : Settings} {p : Problem Rat}
    (hpose : pose s (.integer d) settings = .ok p) :
    p = ⟨s, .ofPositive d, settings⟩ ∧
      pose s (.integer d') settings = .ok ⟨s, .ofPositive d', settings⟩ := by
  obtain ⟨valid, final, degree, hdegree, rfl⟩ := Problem.pose_eq_ok.mp hpose
  by_cases hd : 0 < d
  · obtain rfl : RelaxationDegree.ofPositive d = degree := by
      simpa [RelaxationDegree.ofDatum, hd] using hdegree
    exact ⟨rfl, Problem.pose_eq_ok.mpr ⟨valid, final, _, if_pos (hd.trans_le h), rfl⟩⟩
  · simp [RelaxationDegree.ofDatum, hd] at hdegree

/--
The hierarchy is nested.  A system that is relaxed in some degree is relaxed in every higher degree;
every exact feasible point extends to the higher degree, with the same value functions and the same
objective; and the best bound does not decrease.
-/
theorem exists_relaxation_of_degree_le {s : HybridSystem Rat} (hs : s.IsPolynomial) {d d' : ℤ}
    (h : d ≤ d') {settings : Settings} {p : Problem Rat}
    (hpose : Problem.pose s (.integer d) settings = .ok p) {r : Relaxation Rat}
    (hbuild : p.build = .ok r) : ∃ p' r',
      Problem.pose s (.integer d') settings = .ok p' ∧ p'.build = .ok r' ∧
      (∀ point : FeasiblePoint r.program, ∃ point' : FeasiblePoint r'.program,
        (∀ i, point'.valueFunction r'.templates i = point.valueFunction r.templates i) ∧
          point'.solved r'.objective = point.solved r.objective) ∧
      r.optimalBound ≤ r'.optimalBound := by
  obtain ⟨rfl, hpose'⟩ := Problem.pose_of_degree_le h hpose
  obtain ⟨wellPosed, -⟩ := Problem.isWellPosed_of_pose hs hpose
  obtain ⟨wellPosed', -⟩ := Problem.isWellPosed_of_pose hs hpose'
  obtain ⟨cs, relaxed⟩ := Problem.isRelaxedBy_of_build wellPosed hbuild
  have hwidth := Problem.width_of_build hbuild
  obtain ⟨r', cs', hbuild', relaxed'⟩ :=
    Problem.exists_build wellPosed' (fun m hm => hwidth m hm)
  have extended (point : FeasiblePoint r.program) : ∃ point' : FeasiblePoint r'.program,
      (∀ i, point'.valueFunction r'.templates i = point.valueFunction r.templates i) ∧
        point'.solved r'.objective = point.solved r.objective := by
    obtain ⟨point', templates, objective⟩ := Problem.exists_extension wellPosed relaxed wellPosed'
      relaxed' rfl rfl (RelaxationDegree.ofPositive_mono h) point
    exact ⟨point', FeasiblePoint.valueFunction_congr (.of_forall₂ templates), objective⟩
  exact ⟨_, r', hpose', hbuild', extended, Relaxation.CarriesOverTo.optimalBound_le extended⟩

theorem exists_relaxation_of_degree_le_parkingSystem : ∃ p r p' r',
    Problem.pose parkingSystem (.integer 2) Settings.defaults = .ok p ∧ p.build = .ok r ∧
      Problem.pose parkingSystem (.integer 4) Settings.defaults = .ok p' ∧ p'.build = .ok r' ∧
      r.optimalBound ≤ r'.optimalBound ∧ ∃ (point : FeasiblePoint r.program)
        (point' : FeasiblePoint r'.program), point'.solved r'.objective = point.solved r.objective ∧
          ∀ i, point'.valueFunction r'.templates i = point.valueFunction r.templates i := by
  obtain ⟨p, r, posed, built, ⟨point⟩⟩ := exists_relaxation_parkingSystem (n := 2) (by decide)
  obtain ⟨p', r', posed', built', extended, bound⟩ := exists_relaxation_of_degree_le
    isPolynomial_parkingSystem (show (2 : ℤ) ≤ 4 by decide) posed built
  obtain ⟨point', same, objective⟩ := extended point
  exact ⟨p, r, p', r', posed, built, posed', built', bound, point, point', objective, same⟩

end HybridRelaxation
