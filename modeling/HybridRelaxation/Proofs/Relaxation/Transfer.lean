import Mathlib
import HybridRelaxation.Proofs.Relaxation.Soundness

/-!
# Feasible points of other relaxations

A certificate at a feasible point of one relaxation serves every inequality on a smaller set, of the
same or of a higher degree, with zero multipliers for what was added.  So a feasible point carries
over to a relaxation that asks for no more.
-/

namespace HybridRelaxation

open MvPolynomial (C X)

/-! ## Inequalities on smaller sets -/

/-- The second inequality is on a smaller set, and its solved polynomial is the same. -/
structure Inequality.Refines (φ ψ : ℕ → ℝ) (q q' : Inequality Rat) : Prop where
  scope : q'.scope = q.scope
  constraints : q.constraints.Sublist q'.constraints
  polynomial : solvedAt ψ q'.polynomial = solvedAt φ q.polynomial

theorem Inequality.Agrees.refines {φ ψ : ℕ → ℝ} {q q' : Inequality Rat} (h : q.Agrees φ ψ q') :
    q.Refines φ ψ q' :=
  ⟨h.scope, h.constraints ▸ List.Sublist.refl _, h.polynomial⟩

/-! ## Certificates at feasible points -/

theorem FeasiblePoint.isSumOfSquares {p : SquareProgram Rat} (point : FeasiblePoint p)
    (hp : p.IsRegular) {s : SquareSum Rat} (hs : s ∈ p.statements) :
    IsSumOfSquares s.scope (point.solved s.polynomial) := by
  obtain ⟨G, hG, identity⟩ := point.exists_quadratic hp hs
  rw [identity]
  exact SquareSum.isSumOfSquares_quadratic (hp.statements s hs).natural hG

section

variable {A : Type} [CommRing A] [Algebra ℚ A] {p : SquareProgram Rat} (hp : p.IsRegular)
  {degree more : ℤ} (hdegree : degree ≤ more) (φ : ℕ → A)

include hp hdegree

theorem SquareProgram.IsMultiplier.isShare {scope : List Symbol}
    (hnamed : ∀ t ∈ scope, t.isNamed = true) {s : SquareSum Rat} {g : Expression Rat}
    (h : p.IsMultiplier scope degree s g) :
    SquareProgram.IsShare scope more g (solvedAt φ s.polynomial) := by
  obtain ⟨constraintDegree, symbols, found, -, hsymbols, shape⟩ := h.shape
  intro d hd
  obtain rfl := Except.ok.inj (found.symm.trans hd)
  have wider : 2 * SquareProgram.multiplierHalf degree constraintDegree ≤
      2 * SquareProgram.multiplierHalf more constraintDegree := by
    unfold SquareProgram.multiplierHalf
    omega
  rw [shape]
  exact (isOfDegree_combination hnamed φ _
    (fun t ht => hp.isNamed_of_mem (hsymbols t ht))).mono wider

theorem areShares_multipliers {decisions : List Symbol} {q : Inequality Rat}
    (hq : q.IsRegular decisions) {c : SquareProgram.Certificate} (hc : p.Secures degree q c) :
    AreShares more q (c.multipliers.map (fun s => solvedAt φ s.polynomial)) :=
  List.forall₂_map_right_iff.mpr
    (hc.weights.flip.imp (fun _ _ multiplier => multiplier.isShare hp hdegree φ hq.named))

end

noncomputable def FeasiblePoint.sharesOf {p : SquareProgram Rat} (point : FeasiblePoint p)
    (c : SquareProgram.Certificate) : List (MvPolynomial Symbol ℝ) :=
  c.multipliers.map (fun s => point.solved s.polynomial)

section

variable {p : SquareProgram Rat} (point : FeasiblePoint p) (hp : p.IsRegular)
  {degree degree' : ℤ} (hdegree : degree ≤ degree') {q : Inequality Rat}
  {decisions : List Symbol} (hq : q.IsRegular decisions) {c : SquareProgram.Certificate}
  (hc : p.Secures degree q c)

include hp hdegree hq hc

theorem isCertified_sharesOf : q.IsCertified degree' point.values (point.sharesOf c) := by
  have own : List.Forall₂ (fun s share => solvedAt point.values s.polynomial = share)
      c.multipliers (point.sharesOf c) := forall₂_self_map _ _
  have base := hc.solvedAt_base own
    (fun g hg => solvedAt_of_mem hq.named (hq.within g hg) point.values)
  refine ⟨?_, ?_⟩
  · refine List.forall₂_map_right_iff.mpr (hc.weights.flip.imp (fun g s multiplier => ⟨?_, ?_⟩))
    · rw [← multiplier.scope_eq]
      exact point.isSumOfSquares hp multiplier.mem
    · exact multiplier.isShare hp hdegree point.values hq.named
  · rw [← base, ← hc.base_scope]
    exact point.isSumOfSquares hp hc.base_mem

theorem exists_isCertified_of_refines {ψ : ℕ → ℝ} {q' : Inequality Rat}
    (h : q.Refines point.values ψ q') : ∃ shares, q'.IsCertified degree' ψ shares := by
  have certified := isCertified_sharesOf point hp hdegree hq hc
  obtain ⟨shares, squares, weighted⟩ := exists_shares_of_sublist h.constraints certified.squares
  refine ⟨shares, ?_, ?_⟩
  · rwa [h.scope]
  · rw [h.scope, h.polynomial, weighted]
    exact certified.rest

end

/-! ## Relaxed problems -/

namespace Problem

variable {p p' : Problem Rat} {r r' : Relaxation Rat} {cs cs' : List SquareProgram.Certificate}

theorem IsRelaxedBy.isOfDegree_templates (hr : p.IsRelaxedBy r cs) (hp : p.IsWellPosed) {A : Type}
    [CommRing A] [Algebra ℚ A] (φ : ℕ → A) :
    List.Forall₂ (fun m v => IsOfDegree (p.system.time :: m.states) p.degree.value v)
      p.system.modes (r.templates.map (fun t => solvedAt φ t.value)) := by
  refine List.forall₂_map_right_iff.mpr (forall₂_imp_of_mem hr.templates (fun m hm t fits => ?_))
  rw [fits.value]
  exact isOfDegree_combination (named_places hp.polynomial hm) φ _
    (fun s hs => hr.regular.isNamed_of_mem (fits.known s hs))

theorem IsRelaxedBy.exists_transfer (hp : p.IsWellPosed) (hr : p.IsRelaxedBy r cs)
    (hp' : p'.IsWellPosed) (hr' : p'.IsRelaxedBy r' cs')
    (hdegree : p.degree.value ≤ p'.degree.value)
    (hscopes : List.Forall₂ (fun m m' => p'.system.time :: m'.states = p.system.time :: m.states)
      p.system.modes p'.system.modes) (point : FeasiblePoint r.program)
    (hrefines : ∀ ψ : ℕ → ℝ, List.Forall₂ (fun t t' => solvedAt ψ t'.value = point.solved t.value)
        r.templates r'.templates →
      ∀ q' ∈ certifiedBy
        (assemblySteps p'.system r'.templates horizon p'.settings.freeFinalTime),
          ∃ q ∈ certifiedBy
            (assemblySteps p.system r.templates horizon p.settings.freeFinalTime),
              q.Refines point.values ψ q') :
    ∃ point' : FeasiblePoint r'.program,
      List.Forall₂ (fun t t' => point'.solved t'.value = point.solved t.value) r.templates
        r'.templates := by
  have degrees : List.Forall₂ (fun m' v =>
      IsOfDegree (p'.system.time :: m'.states) p'.degree.value v) p'.system.modes
        (r.templates.map (fun t => point.solved t.value)) := by
    refine (forall₂_comp hscopes.flip (hr.isOfDegree_templates hp point.values)).imp ?_
    rintro m' v ⟨m, scopes, bound⟩
    rw [scopes]
    exact bound.mono hdegree
  obtain ⟨point', solved⟩ := hr'.exists_feasiblePoint hp' degrees (fun ψ templates q' hq' => by
    obtain ⟨q, hq, refines⟩ :=
      hrefines ψ (List.forall₂_map_right_iff.mp templates).flip q' hq'
    obtain ⟨c, secured⟩ := hr.exists_certificate hq
    exact exists_isCertified_of_refines point hr.regular hdegree (hr.isRegular_of_mem hp hq)
      secured refines)
  exact ⟨point', (List.forall₂_map_right_iff.mp solved).flip⟩

end Problem

/-! ## Value functions -/

theorem FeasiblePoint.valueFunction_congr {p p' : SquareProgram Rat} {point : FeasiblePoint p}
    {point' : FeasiblePoint p'} {templates templates' : List (ValueTemplate Rat)}
    {τ : Equiv.Perm ℕ} (h : AreSolvedAlike point.values point'.values τ templates templates')
    (i : ℕ) :
    point'.valueFunction templates' (τ i) = point.valueFunction templates i := by
  have found := h.optionRel i
  rw [valueFunction, valueFunction]
  generalize templates[i]? = t, templates'[τ i]? = t' at found
  cases found with
  | none => rfl
  | some solved => exact solved

/-- The best bound of a relaxation: its objective is maximized over the exact feasible points. -/
noncomputable def Relaxation.optimalBound (r : Relaxation Rat) : EReal :=
  ⨆ point : FeasiblePoint r.program,
    ((MvPolynomial.eval (fun _ => 0) (point.solved r.objective) : ℝ) : EReal)

/-- Every feasible point has a counterpart with the same value functions and the same objective. -/
def Relaxation.CarriesOverTo (r r' : Relaxation Rat) : Prop :=
  ∀ point : FeasiblePoint r.program, ∃ point' : FeasiblePoint r'.program,
    (∀ i, point'.valueFunction r'.templates i = point.valueFunction r.templates i) ∧
      point'.solved r'.objective = point.solved r.objective

theorem Relaxation.CarriesOverTo.optimalBound_le {r r' : Relaxation Rat}
    (h : r.CarriesOverTo r') : r.optimalBound ≤ r'.optimalBound := by
  refine iSup_le (fun point => ?_)
  obtain ⟨point', -, objective⟩ := h point
  rw [← objective]
  exact le_iSup (fun point : FeasiblePoint r'.program =>
    ((MvPolynomial.eval (fun _ => 0) (point.solved r'.objective) : ℝ) : EReal)) point'

end HybridRelaxation
