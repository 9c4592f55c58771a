import Mathlib
import HybridRelaxation.Proofs.Relaxation.Objective
import HybridRelaxation.Proofs.Relaxation.Residuals
import HybridRelaxation.Proofs.Relaxation.Settling
import HybridRelaxation.Proofs.Relaxation.Transfer

/-!
# Relaxations with reordered inequalities

Two relaxations may ask for the same inequalities in another order, over templates in another order.
Their programs then number decisions and statements differently.  A feasible point of the one is
still known by its solved templates and its Gram matrices, and these make up a feasible point of the
other.  So there is a bijection between the feasible points that keeps all of them.
-/

namespace HybridRelaxation

open MvPolynomial (C X)

/-! ## Inequalities that stand for one another -/

/-- The same set, and the same polynomial wherever the templates are solved alike. -/
structure Inequality.StandsFor (ρ : Equiv.Perm ℕ) (templates templates' : List (ValueTemplate Rat))
    (q q' : Inequality Rat) : Prop where
  scope : q'.scope = q.scope
  constraints : q'.constraints = q.constraints
  polynomial : ∀ {A : Type} [CommRing A] [Algebra ℚ A] {φ ψ : ℕ → A},
    AreSolvedAlike φ ψ ρ templates templates' →
      solvedAt ψ q'.polynomial = solvedAt φ q.polynomial

theorem AreSolvedAlike.symm {A : Type} [CommRing A] [Algebra ℚ A] {φ ψ : ℕ → A}
    {ρ : Equiv.Perm ℕ} {templates templates' : List (ValueTemplate Rat)}
    (h : AreSolvedAlike φ ψ ρ templates templates') :
    AreSolvedAlike ψ φ ρ.symm templates' templates :=
  (Rearranges.symm h).imp (fun _ _ same => same.symm)

theorem Inequality.StandsFor.symm {ρ : Equiv.Perm ℕ}
    {templates templates' : List (ValueTemplate Rat)} {q q' : Inequality Rat}
    (h : q.StandsFor ρ templates templates' q') : q'.StandsFor ρ.symm templates' templates q :=
  ⟨h.scope.symm, h.constraints.symm, fun alike => (h.polynomial alike.symm).symm⟩

structure SquareSum.HasFormOf (s s' : SquareSum Rat) : Prop where
  scope : s'.scope = s.scope
  basis : s'.basis = s.basis

theorem SquareSum.HasFormOf.quadratic_eq {s s' : SquareSum Rat} (h : s.HasFormOf s')
    (g : ℕ → ℕ → ℝ) : s'.quadratic g = s.quadratic g := by
  simp only [quadratic, pairExponents, gramSize, h.scope, h.basis]

theorem SquareSum.HasFormOf.hasGram {s s' : SquareSum Rat} (h : s.HasFormOf s') {φ ψ : ℕ → ℝ}
    (hsolved : solvedAt ψ s'.polynomial = solvedAt φ s.polynomial)
    {g : Σ n : ℕ, Matrix (Fin n) (Fin n) ℝ} (hg : s.HasGram φ g) : s'.HasGram ψ g := by
  refine ⟨?_, hg.posSemidef, ?_⟩
  · rw [hg.size, gramSize, gramSize, h.basis]
  · rw [hsolved, hg.identity, h.quadratic_eq]

namespace Problem

abbrev inequalities (p : Problem Rat) (r : Relaxation Rat) : List (Inequality Rat) :=
  certifiedBy (assemblySteps p.system r.templates horizon p.settings.freeFinalTime)

structure HasRelaxation (p : Problem Rat) (r : Relaxation Rat)
    (cs : List SquareProgram.Certificate) : Prop where
  wellPosed : p.IsWellPosed
  built : p.build = .ok r
  relaxed : p.IsRelaxedBy r cs

/-- Two relaxations with the same modes and the same inequalities, each in an order of its own. -/
structure Reorders (ρ τ : Equiv.Perm ℕ) (p : Problem Rat) (r : Relaxation Rat)
    (cs : List SquareProgram.Certificate) (p' : Problem Rat) (r' : Relaxation Rat)
    (cs' : List SquareProgram.Certificate) : Prop where
  left : p.HasRelaxation r cs
  right : p'.HasRelaxation r' cs'
  time : p'.system.time = p.system.time
  degree : p'.degree.value = p.degree.value
  modes : Rearranges ρ (fun (m m' : Mode Rat) =>
    m'.states = m.states ∧ m'.initialState = m.initialState) p.system.modes p'.system.modes
  inequalities : Rearranges τ (Inequality.StandsFor ρ r.templates r'.templates)
    (p.inequalities r) (p'.inequalities r')

variable {ρ τ : Equiv.Perm ℕ} {p p' : Problem Rat} {r r' : Relaxation Rat}
  {cs cs' : List SquareProgram.Certificate}

theorem Reorders.symm (h : p.Reorders ρ τ r cs p' r' cs') :
    p'.Reorders ρ.symm τ.symm r' cs' p r cs :=
  ⟨h.right, h.left, h.time.symm, h.degree.symm,
    h.modes.symm.imp (fun _ _ same => ⟨same.1.symm, same.2.symm⟩),
    h.inequalities.symm.imp (fun _ _ same => same.symm)⟩

theorem HasRelaxation.secured (h : p.HasRelaxation r cs) :
    List.Forall₂ (fun q c => q.IsRegular r.program.decisions ∧
      r.program.Secures p.degree.value q c) (p.inequalities r) cs :=
  forall₂_imp_of_mem h.relaxed.secured
    (fun _ hq _ secures => ⟨h.relaxed.isRegular_of_mem h.wellPosed hq, secures⟩)

structure AreCertifiedBy (ρ : Equiv.Perm ℕ) (p : Problem Rat) (r : Relaxation Rat)
    (p' : Problem Rat) (r' : Relaxation Rat) (q q' : Inequality Rat)
    (c c' : SquareProgram.Certificate) : Prop where
  same : q.StandsFor ρ r.templates r'.templates q'
  left : q.IsRegular r.program.decisions ∧ r.program.Secures p.degree.value q c
  right : q'.IsRegular r'.program.decisions ∧ r'.program.Secures p'.degree.value q' c'

theorem Reorders.certificates (h : p.Reorders ρ τ r cs p' r' cs') :
    Rearranges τ (fun c c' => ∃ q q', p.AreCertifiedBy ρ r p' r' q q' c c') cs cs' :=
  (h.inequalities.transport h.left.secured h.right.secured).imp
    (fun _ _ ⟨q, q', same, left, right⟩ => ⟨q, q', same, left, right⟩)

/-! ## Values of the decisions -/

section

variable {A : Type} [CommRing A] [Algebra ℚ A]

theorem Reorders.exists_values (h : p.Reorders ρ τ r cs p' r' cs') (φ : ℕ → A) :
    ∃ ψ : ℕ → A, AreSolvedAlike φ ψ ρ r.templates r'.templates ∧
      Rearranges τ (fun c c' =>
        HasShares ψ c' (c.multipliers.map (fun s => solvedAt φ s.polynomial))) cs cs' := by
  have own : List.Forall₂ (fun q share => AreShares p.degree.value q share) (p.inequalities r)
      (cs.map (fun c => c.multipliers.map (fun s => solvedAt φ s.polynomial))) :=
    List.forall₂_map_right_iff.mpr (h.left.secured.imp (fun q c secured =>
      areShares_multipliers h.left.relaxed.regular le_rfl φ secured.1 secured.2))
  obtain ⟨values, hvalues, degrees⟩ :=
    h.modes.exists_beside (h.left.relaxed.isOfDegree_templates h.left.wellPosed φ)
  obtain ⟨shares, hshares, areShares⟩ := h.inequalities.exists_beside own
  obtain ⟨ψ, templates, multipliers⟩ := h.right.relaxed.assigns values shares
    (degrees.imp (fun m' v ⟨m, same, degree⟩ => by rwa [h.time, h.degree, same.1]))
    (areShares.imp (fun q' share ⟨q, same, areShares⟩ => by
      rw [AreShares, h.degree, same.scope, same.constraints]
      exact areShares))
  refine ⟨ψ, ?_, ?_⟩
  · refine (hvalues.transport (forall₂_self_map _ _).flip templates.flip).imp ?_
    rintro t t' ⟨_, _, rfl, rfl, solved⟩
    exact solved
  · refine (hshares.transport (forall₂_self_map _ _).flip multipliers.flip).imp ?_
    rintro c c' ⟨_, _, rfl, rfl, solved⟩
    exact solved

end

/-! ## Statements -/

section

variable {q q' : Inequality Rat} {c c' : SquareProgram.Certificate}
  (h : p.AreCertifiedBy ρ r p' r' q q' c c')

include h

theorem AreCertifiedBy.multipliers (hdegree : p'.degree.value = p.degree.value) :
    List.Forall₂ SquareSum.HasFormOf c.multipliers c'.multipliers := by
  have weights := h.right.2.weights
  rw [h.same.scope, h.same.constraints, hdegree] at weights
  refine (forall₂_comp h.left.2.weights weights.flip).imp ?_
  rintro s s' ⟨g, multiplier, multiplier'⟩
  obtain ⟨d, -, hd, basis, -⟩ := multiplier.shape
  obtain ⟨d', -, hd', basis', -⟩ := multiplier'.shape
  obtain rfl := Except.ok.inj (hd.symm.trans hd')
  exact ⟨multiplier'.scope_eq.trans multiplier.scope_eq.symm, basis'.trans basis.symm⟩

section

variable {A : Type} [CommRing A] [Algebra ℚ A] {φ ψ : ℕ → A}
  (hsolved : AreSolvedAlike φ ψ ρ r.templates r'.templates)
  (hshares : HasShares ψ c' (c.multipliers.map (fun s => solvedAt φ s.polynomial)))

include hsolved hshares

theorem AreCertifiedBy.solved_base :
    solvedAt ψ c'.base.polynomial = solvedAt φ c.base.polynomial := by
  have base := h.left.2.solvedAt_base (forall₂_self_map _ c.multipliers)
    (fun g hg => solvedAt_of_mem h.left.1.named (h.left.1.within g hg) φ)
  have base' := h.right.2.solvedAt_base hshares
    (fun g hg => solvedAt_of_mem h.right.1.named (h.right.1.within g hg) ψ)
  rw [base, base', h.same.polynomial hsolved, h.same.constraints]

theorem AreCertifiedBy.solved_statements :
    List.Forall₂ (fun s s' => solvedAt ψ s'.polynomial = solvedAt φ s.polynomial) c.statements
      c'.statements :=
  List.rel_append (List.forall₂_map_right_iff.mp hshares).flip
    (.cons (h.solved_base hsolved hshares) .nil)

end

end

section

variable (h : p.Reorders ρ τ r cs p' r' cs')

include h

/-- At generic values the base of the one certificate shows the degree of the other. -/
theorem Reorders.totalDegree_le {k : ℕ} {c c' : SquareProgram.Certificate}
    (hc : cs[k]? = some c) (hc' : cs'[τ k]? = some c') :
    c.base.coefficients.totalDegree ≤ c'.base.coefficients.totalDegree := by
  obtain ⟨q, q', certified⟩ := h.certificates.related hc hc'
  -- Values of the decisions that leave every coefficient of the base in place.
  obtain ⟨ψ, alike, shares⟩ := h.exists_values r.program.generic
  have solved := certified.solved_base alike (shares.related hc hc')
  have own := h.left.relaxed.regular
  have other := h.right.relaxed.regular
  have base := other.statements _ certified.right.2.base_mem
  refine own.totalDegree_le_of_generic certified.left.2.base_mem
    (isRegular_of_coefficients base.polynomial base.coefficients).totalDegree_nonneg ?_
  have bound := isOfDegree_of_coefficients base.polynomial base.distinct
    (decided ψ (fun _ => 0)) base.coefficients
  rwa [other.eval_scopePoint ψ certified.right.2.base_mem, solved, certified.right.2.base_scope,
    certified.same.scope, ← certified.left.2.base_scope] at bound

theorem Reorders.hasFormOf : Rearranges τ (fun c c' =>
    List.Forall₂ SquareSum.HasFormOf c.statements c'.statements) cs cs' := by
  refine h.certificates.imp_at (fun k c c' hc hc' => ?_)
  rintro ⟨q, q', certified⟩
  have scope : c'.base.scope = c.base.scope := by
    rw [certified.right.2.base_scope, certified.same.scope, certified.left.2.base_scope]
  have back : cs[τ.symm (τ k)]? = some c := by rwa [Equiv.symm_apply_apply]
  have degree := le_antisymm (h.totalDegree_le hc hc') (h.symm.totalDegree_le hc' back)
  refine List.rel_append (certified.multipliers h.degree) (.cons ⟨scope, ?_⟩ .nil)
  rw [certified.right.2.base_basis, certified.left.2.base_basis, degree, certified.same.scope]

end

/-! ## Gram matrices -/

theorem HasRelaxation.forall₂_slice (h : p.HasRelaxation r cs) {α : Type} {parts : List (List α)}
    (hparts : List.Forall₂ (fun c part => part.length = c.statements.length) cs parts) :
    List.Forall₂ (fun c part => slice parts.flatten c.offset c.stop = part) r.records parts := by
  obtain ⟨records, -⟩ := records_of_build h.wellPosed h.built
  have lengths : List.Forall₂ (fun c part => part.length = c.constraints.length + 1) r.records
      parts := by
    rw [records]
    refine (forall₂_comp (forall₂_recordsFrom _ _ _).flip (forall₂_comp h.secured hparts)).imp ?_
    rintro _ part ⟨q, ⟨k, rfl⟩, c, secured, length⟩
    rw [length, SquareProgram.Certificate.statements, List.length_append,
      secured.2.weights.length_eq]
    rfl
  have stops : List.Forall₂ (fun c part => c.stop = c.offset + (part.length : ℤ)) r.records
      parts := by
    refine forall₂_imp_of_mem lengths (fun c hc part length => ?_)
    obtain ⟨q, -, k, rfl⟩ := mem_recordsFrom (records ▸ hc)
    rw [ConstraintRecord.stop, ConstraintRecord.baseIndex, length, Nat.cast_add, ← add_assoc]
    rfl
  have tiles := tiles_recordsFrom (records ▸ lengths)
  rw [← records] at tiles
  have found : List.Forall₂ (fun c part => slice ([] ++ parts.flatten ++ []) c.offset c.stop = part)
      r.records parts := Tiles.forall₂_slice stops tiles
  rwa [List.nil_append, List.append_nil] at found

theorem HasRelaxation.statements (h : p.HasRelaxation r cs) : List.Forall₂
    (fun record c => slice r.program.statements record.offset record.stop = c.statements) r.records
      cs := by
  rw [h.relaxed.statements, List.flatMap_def]
  exact List.forall₂_map_right_iff.mp (h.forall₂_slice
    ((forall₂_self_map _ cs).imp (fun _ _ own => congrArg List.length own.symm)))

theorem HasRelaxation.exists_parts (h : p.HasRelaxation r cs) (x : FeasiblePoint r.program) :
    ∃ parts, x.grams = parts.flatten ∧
      List.Forall₂ (fun c part => List.Forall₂ (SquareSum.HasGram x.values) c.statements part) cs
        parts ∧
      List.Forall₂ (fun c part => slice x.grams c.offset c.stop = part) r.records parts := by
  have all := x.hasGram_grams h.relaxed.regular
  rw [h.relaxed.statements] at all
  obtain ⟨parts, grams, owned⟩ := exists_parts_of_flatMap all
  exact ⟨parts, grams, owned, grams ▸ h.forall₂_slice (owned.imp (fun _ _ part =>
    part.length_eq.symm))⟩

theorem HasRelaxation.grams_eq (h : p.HasRelaxation r cs) (x : FeasiblePoint r.program) :
    x.grams = r.records.flatMap (fun c => slice x.grams c.offset c.stop) := by
  obtain ⟨parts, grams, -, slices⟩ := h.exists_parts x
  have found : r.records.map (fun c => slice x.grams c.offset c.stop) = parts :=
    List.forall₂_eq_eq_eq ▸ List.forall₂_map_left_iff.mpr slices
  rw [List.flatMap_def, found, ← grams]

/-! ## Points -/

/-- The points solve the templates alike, and they have the same Gram matrices for each record. -/
structure Matches (ρ τ : Equiv.Perm ℕ) (r r' : Relaxation Rat) (x : FeasiblePoint r.program)
    (y : FeasiblePoint r'.program) : Prop where
  templates : AreSolvedAlike x.values y.values ρ r.templates r'.templates
  grams : Rearranges τ (fun c c' =>
    slice y.grams c'.offset c'.stop = slice x.grams c.offset c.stop) r.records r'.records

theorem Matches.symm {x : FeasiblePoint r.program} {y : FeasiblePoint r'.program}
    (h : Matches ρ τ r r' x y) : Matches ρ.symm τ.symm r' r y x :=
  ⟨h.templates.symm, h.grams.symm.imp (fun _ _ same => same.symm)⟩

section

variable (h : p.Reorders ρ τ r cs p' r' cs')

include h

theorem Reorders.carries_grams {φ ψ : ℕ → ℝ}
    (hsolved : AreSolvedAlike φ ψ ρ r.templates r'.templates)
    (hshares : Rearranges τ (fun c c' =>
      HasShares ψ c' (c.multipliers.map (fun s => solvedAt φ s.polynomial))) cs cs') :
    Rearranges τ (fun c c' => ∀ part, List.Forall₂ (SquareSum.HasGram φ) c.statements part →
      List.Forall₂ (SquareSum.HasGram ψ) c'.statements part) cs cs' := by
  refine h.hasFormOf.imp_at (fun k c c' hc hc' forms part grams => ?_)
  obtain ⟨q, q', certified⟩ := h.certificates.related hc hc'
  have solved := certified.solved_statements hsolved (hshares.related hc hc')
  have carried : List.Forall₂ (fun s s' => ∀ g, s.HasGram φ g → s'.HasGram ψ g) c.statements
      c'.statements :=
    List.forall₂_iff_zip.mpr ⟨forms.length_eq, fun hmem _ gram =>
      (List.forall₂_zip forms hmem).hasGram (List.forall₂_zip solved hmem) gram⟩
  exact (forall₂_comp carried.flip grams).imp (fun s' g ⟨s, carry, gram⟩ => carry g gram)

theorem Reorders.exists_match (x : FeasiblePoint r.program) :
    ∃ y : FeasiblePoint r'.program, Matches ρ τ r r' x y := by
  obtain ⟨parts, -, owned, slices⟩ := h.left.exists_parts x
  obtain ⟨ψ, alike, shares⟩ := h.exists_values x.values
  -- The matrices are kept, and put in the order of the other certificates.
  obtain ⟨parts', rearranged, beside⟩ := (h.carries_grams alike shares).exists_beside owned
  have owned' : List.Forall₂ (fun c' part =>
      List.Forall₂ (SquareSum.HasGram ψ) c'.statements part) cs' parts' :=
    beside.imp (fun c' part ⟨c, carry, own⟩ => carry part own)
  have all : List.Forall₂ (SquareSum.HasGram ψ) r'.program.statements parts'.flatten := by
    rw [h.right.relaxed.statements, ← List.flatMap_id]
    exact List.rel_flatMap owned' (fun _ _ own => own)
  obtain ⟨y, agree, grams⟩ := FeasiblePoint.exists_of_grams h.right.relaxed.regular ψ all
  have slices' := h.right.forall₂_slice (owned'.imp (fun _ _ own => own.length_eq.symm))
  refine ⟨y, ?_, ?_⟩
  · refine alike.imp_at (fun i t t' _ ht' solved => ?_)
    exact (h.right.relaxed.solvedAt_template h.right.wellPosed (List.mem_of_getElem? ht')
      agree).trans solved
  · refine (rearranged.transport slices.flip slices'.flip).imp ?_
    rintro c c' ⟨part, _, rfl, own, own'⟩
    rw [grams, own', own]

theorem Reorders.match_unique {x : FeasiblePoint r.program} {y z : FeasiblePoint r'.program}
    (hy : Matches ρ τ r r' x y) (hz : Matches ρ τ r r' x z) : y = z := by
  -- The matrices are settled by the records, and then the decisions by the solved polynomials.
  have grams : y.grams = z.grams := by
    rw [h.right.grams_eq y, h.right.grams_eq z]
    refine List.flatMap_congr (fun c' hc' => ?_)
    obtain ⟨k, hk⟩ := List.mem_iff_getElem?.mp hc'
    obtain ⟨c, hc, same⟩ := hy.grams.exists_left hk
    rw [same, hz.grams.related hc (by rwa [Equiv.apply_symm_apply])]
  refine FeasiblePoint.ext_values (values_eq_of_solved h.right.wellPosed h.right.built ?_ ?_) grams
  · intro t' ht'
    obtain ⟨k, hk⟩ := List.mem_iff_getElem?.mp ht'
    obtain ⟨t, ht, solved⟩ := hy.templates.exists_left hk
    rw [solved, hz.templates.related ht (by rwa [Equiv.apply_symm_apply])]
  · intro s hs
    obtain ⟨k, hk⟩ := List.mem_iff_getElem?.mp hs
    obtain ⟨g, hg, own⟩ := exists_right_at (y.hasGram_grams h.right.relaxed.regular) hk
    have other := related_at (z.hasGram_grams h.right.relaxed.regular) hk (grams ▸ hg)
    rw [own.identity, other.identity]

theorem Reorders.solved_statements {x : FeasiblePoint r.program} {y : FeasiblePoint r'.program}
    (hxy : Matches ρ τ r r' x y) : Rearranges τ (fun c c' =>
      List.Forall₂ (fun s s' => s.HasFormOf s' ∧ y.solved s'.polynomial = x.solved s.polynomial)
        (slice r.program.statements c.offset c.stop)
        (slice r'.program.statements c'.offset c'.stop)) r.records r'.records := by
  have forms := h.hasFormOf.transport h.left.statements.flip h.right.statements.flip
  refine forms.imp_at (fun k c c' hc hc' ⟨d, d', form, own, own'⟩ => ?_)
  rw [← own, ← own'] at form
  have grams := related_slice (x.hasGram_grams h.left.relaxed.regular) c.offset c.stop
  have grams' := related_slice (y.hasGram_grams h.right.relaxed.regular) c'.offset c'.stop
  rw [hxy.grams.related hc hc'] at grams'
  have both := forall₂_comp grams grams'.flip
  refine List.forall₂_iff_zip.mpr ⟨form.length_eq, fun hmem => ?_⟩
  have same := List.forall₂_zip form hmem
  obtain ⟨g, gram, gram'⟩ := List.forall₂_zip both hmem
  exact ⟨same, by rw [FeasiblePoint.solved, FeasiblePoint.solved, gram'.identity, gram.identity,
    same.quadratic_eq]⟩

/-- The points of the two relaxations correspond to one another. -/
theorem Reorders.exists_equiv :
    ∃ e : FeasiblePoint r.program ≃ FeasiblePoint r'.program, ∀ x, Matches ρ τ r r' x (e x) := by
  choose f hf using h.exists_match
  have bijective : Function.Bijective f := by
    refine ⟨fun x y same => ?_, fun z => ?_⟩
    · exact h.symm.match_unique (hf x).symm (same ▸ (hf y).symm)
    · obtain ⟨x, hx⟩ := h.symm.exists_match z
      exact ⟨x, h.match_unique (hf x) hx.symm⟩
  exact ⟨Equiv.ofBijective f bijective, hf⟩

end

end Problem

end HybridRelaxation
