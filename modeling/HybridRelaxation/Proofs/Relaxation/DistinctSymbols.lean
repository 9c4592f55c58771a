import Mathlib
import HybridRelaxation.Conic.Solution
import HybridRelaxation.Proofs.Polynomial.Collecting
import HybridRelaxation.Proofs.Relaxation.Bookkeeping
import HybridRelaxation.Proofs.Relaxation.Registration
import HybridRelaxation.Proofs.Relaxation.CertifiedValues

/-!
# Distinct indeterminates

Whether the time, the states and the controls of a mode are distinct is not checked.  Where they are,
every statement of the relaxation is about a polynomial ring in distinct variables: different vectors
of its basis, of its coefficients and of its equations stand for different monomials, and the
coefficients say all about its polynomial.  This holds for numbers of any kind.
-/

namespace HybridRelaxation

open MvPolynomial (X)

variable {K : Type} [Scalar K]

/-! ## What is stated -/

structure SquareSum.IsStated (s : SquareSum K) : Prop where
  coefficients : HybridRelaxation.coefficients s.polynomial s.scope = .ok s.coefficients
  basis : ∃ half, s.basis = exponents s.scope.length half 0

namespace SquareProgram

def StatesOver (allowed : List Symbol → Prop) (p : SquareProgram K) : Prop :=
  ∀ s ∈ p.statements, allowed s.scope ∧ s.IsStated

variable {allowed : List Symbol → Prop} {p : SquareProgram K} {scope : List Symbol}

theorem StatesOver.withSquareSum (h : p.StatesOver allowed) (hscope : allowed scope)
    (e : Expression K) (half : Option ℤ) (name : String) :
    (p.withSquareSum e scope half name).1.StatesOver allowed := by
  unfold SquareProgram.withSquareSum
  cases hs : statement e scope half name with
  | error f => exact h
  | ok s =>
      obtain ⟨m, hm, hs⟩ := bind_eq_ok.mp hs
      obtain rfl := Except.ok.inj hs
      intro t ht
      rcases List.mem_append.mp ht with ht | ht
      · exact h t ht
      · obtain rfl := List.mem_singleton.mp ht
        exact ⟨hscope, hm, _, rfl⟩

theorem StatesOver.newSquareSum (h : p.StatesOver allowed) (hscope : allowed scope) (half : ℤ)
    (name : String) : (p.newSquareSum scope half name).1.StatesOver allowed := by
  have free : (p.newFreePolynomial (monomials scope (2 * half) 0) name).1.StatesOver allowed := h
  unfold SquareProgram.newSquareSum
  cases hfree : p.newFreePolynomial (monomials scope (2 * half) 0) name with
  | mk q f =>
      rw [hfree] at free
      exact free.withSquareSum hscope f.polynomial (some half) name

theorem isKept_statesOver (allowed : List Symbol → Prop) :
    IsKept allowed (StatesOver allowed : SquareProgram K → Prop) :=
  ⟨StatesOver.withSquareSum, StatesOver.newSquareSum⟩

end SquareProgram

/-! ## What an assembly states -/

/-- The scope has indeterminates of a mode only, each as often as the mode has it. -/
def SystemData.IsScope (s : HybridSystem K) (scope : List Symbol) : Prop :=
  ∃ m ∈ s.modes, scope.Sublist (s.time :: m.states ++ m.controls)

theorem isOver_assemblySteps (s : HybridSystem K) (templates : List (ValueTemplate K)) (T : K)
    (freeFinalTime : Bool) :
    ∀ step ∈ assemblySteps s templates T freeFinalTime, step.IsOver s.IsScope := by
  intro step hstep
  obtain ⟨i, m, template, hm, -, hstep⟩ := mem_assemblySteps_iff.mp hstep
  have mode := List.mem_of_getElem? hm
  rcases List.mem_cons.mp hstep with rfl | hstep
  · exact ⟨m, mode, List.Sublist.refl _⟩
  rcases cases_of_mem_steps hstep with rfl | ⟨j, next, guard, reset, rfl⟩ | ⟨f, rfl⟩ | ⟨e, rfl⟩
  · exact ⟨m, mode, List.Sublist.cons _ (List.sublist_append_left _ _)⟩
  · exact ⟨m, mode, List.sublist_append_left _ _⟩
  · trivial
  · trivial

/-! ## What templates are over -/

def ValueTemplate.IsOver (time : Symbol) (degree : ℤ) (m : Mode K) (template : ValueTemplate K) :
    Prop :=
  template.basis = monomials (time :: m.states) degree 0

theorem isOver_of_registerModes {time : Symbol} {degree : ℤ} {T : K} {p q : SquareProgram K}
    {index : ℕ} {modes : List (Mode K)} {templates : List (ValueTemplate K)}
    (h : registerModes time degree T p index modes = (q, .ok templates)) :
    q.statements = p.statements ∧
      List.Forall₂ (ValueTemplate.IsOver time degree) modes templates := by
  induction modes generalizing p index templates with
  | nil =>
      obtain ⟨rfl, result⟩ := Prod.mk.inj h
      obtain rfl := Except.ok.inj result
      exact ⟨rfl, .nil⟩
  | cons m modes ih =>
      obtain ⟨p', template, others, hregister, hothers, rfl⟩ := registerModes_cons_eq_ok.mp h
      have registered := ValueTemplate.isRegistered_of_register hregister
      obtain ⟨statements, all⟩ := ih hothers
      exact ⟨statements.trans registered.statements, .cons registered.basis all⟩

/-! ## Distinct variables -/

theorem nodup_map_monomialPowers {scope : List Symbol} (hscope : scope.Nodup)
    {vectors : List Exponents} (hvectors : vectors.Nodup)
    (natural : ∀ v ∈ vectors, v.IsNatural scope.length) :
    (vectors.map (monomialPowers scope)).Nodup :=
  hvectors.map_on (fun v hv w hw => monomialPowers_injective hscope (natural v hv) (natural w hw))

theorem nodup_map_monomial {scope : List Symbol} (hscope : scope.Nodup)
    {vectors : List Exponents} (hvectors : vectors.Nodup)
    (natural : ∀ v ∈ vectors, v.IsNatural scope.length) :
    (vectors.map (monomial (K := Rat) scope)).Nodup := by
  refine hvectors.map_on (fun v hv w hw h => ?_)
  have value := congrArg (Expression.eval (X : Symbol → MvPolynomial Symbol ℚ)) h
  rw [eval_monomial X (natural v hv), eval_monomial X (natural w hw), monomialValue_X,
    monomialValue_X] at value
  exact monomialPowers_injective hscope (natural v hv) (natural w hw)
    (MvPolynomial.monomial_left_injective one_ne_zero value)

/--
A statement over distinct variables, in which different vectors stand for different monomials: in its
basis, among its coefficients, which say all about its polynomial, and among its equations.
-/
structure SquareSum.IsFaithful (s : SquareSum K) : Prop where
  scope : s.scope.Nodup
  natural : ∀ v ∈ s.basis, v.IsNatural s.scope.length
  basis : s.basis.Nodup ∧ (s.basis.map (monomialPowers s.scope)).Nodup
  collects : s.coefficients.Collects s.scope s.polynomial
  coefficients : ((s.coefficients.map Prod.fst).map (monomialPowers s.scope)).Nodup
  /-- One equation for each monomial of the polynomial or of the quadratic form. -/
  equations : ∀ (index : Symbol → Option ℤ) (columns : ℤ) (m : Matching K),
    s.matching index columns = .ok m →
      ((m.rows.map MatchingRow.exponents).map (monomialPowers s.scope)).Nodup ∧
      ∀ v, v ∈ m.rows.map MatchingRow.exponents ↔ v ∈ s.coefficients.map Prod.fst ∨
        ∃ pair ∈ trianglePairs s.gramSize, s.pairExponents pair = v

theorem SquareSum.IsStated.isFaithful {s : SquareSum K} (hs : s.IsStated)
    (hscope : s.scope.Nodup) : s.IsFaithful := by
  have collects := collects_of_coefficients hscope hs.coefficients
  obtain ⟨half, basis⟩ := hs.basis
  have natural : ∀ v ∈ s.basis, v.IsNatural s.scope.length := by
    intro v hv
    rw [basis] at hv
    exact (Exponents.mem_exponents.mp hv).1
  have distinct : s.basis.Nodup := basis ▸ Exponents.nodup_exponents _ _ _
  refine ⟨hscope, natural, ⟨distinct, nodup_map_monomialPowers hscope distinct natural⟩, collects,
    ?_, fun index columns m hm => ⟨?_, fun v => ?_⟩⟩
  · exact nodup_map_monomialPowers hscope collects.distinct collects.natural
  · rw [map_exponents_of_matching hm]
    exact nodup_map_monomialPowers hscope s.nodup_matchedExponents
      (fun v hv => isNatural_of_mem_matchedExponents natural collects.natural hv)
  · rw [map_exponents_of_matching hm, mem_matchedExponents]

/-- The time and the states and controls of each mode are distinct symbols. -/
def SystemData.HasDistinctSymbols (s : HybridSystem K) : Prop :=
  ∀ m ∈ s.modes, (s.time :: m.states ++ m.controls).Nodup

structure Relaxation.IsFaithful (r : Relaxation K) (s : HybridSystem K) : Prop where
  templates : List.Forall₂ (fun (m : Mode K) (template : ValueTemplate K) =>
    ∃ vectors : List Exponents, template.basis = vectors.map (monomial (s.time :: m.states)) ∧
      (∀ v ∈ vectors, v.IsNatural (s.time :: m.states).length) ∧
      vectors.Nodup ∧ (vectors.map (monomialPowers (s.time :: m.states))).Nodup)
    s.modes r.templates
  statements : ∀ t ∈ r.program.statements, t.IsFaithful

theorem Problem.isFaithful_of_build {p : Problem K} {r : Relaxation K} (h : p.build = .ok r)
    (hdistinct : p.system.HasDistinctSymbols) : r.IsFaithful p.system := by
  obtain ⟨q, b, hregister, -⟩ := build_inversion h
  obtain ⟨-, bases⟩ := isOver_of_registerModes hregister
  constructor
  · refine forall₂_imp_of_mem bases (fun m hm template hbasis => ?_)
    have scope : (p.system.time :: m.states).Nodup :=
      (List.nodup_append.mp (hdistinct m hm)).1
    have natural : ∀ v ∈ exponents (p.system.time :: m.states).length p.degree.value 0,
        v.IsNatural (p.system.time :: m.states).length :=
      fun v hv => (Exponents.mem_exponents.mp hv).1
    exact ⟨_, hbasis, natural, Exponents.nodup_exponents _ _ _,
      nodup_map_monomialPowers scope (Exponents.nodup_exponents _ _ _) natural⟩
  · intro t ht
    have all := Problem.kept_of_build h (SquareProgram.isKept_statesOver p.system.IsScope)
      (isOver_assemblySteps p.system r.templates horizon p.settings.freeFinalTime)
      (fun q hregister u hu => by
        rw [(isOver_of_registerModes hregister).1] at hu
        simp [initialProgram, SquareProgram.withIndeterminates, SquareProgram.empty] at hu)
    obtain ⟨⟨m, hm, sublist⟩, stated⟩ := all t ht
    exact stated.isFaithful ((hdistinct m hm).sublist sublist)

theorem SquareSum.IsFaithful.nodup_monomials {s : SquareSum Rat} (hs : s.IsFaithful)
    {index : Symbol → Option ℤ} {columns : ℤ} {m : Matching Rat}
    (hm : s.matching index columns = .ok m) :
    s.monomialBasis.Nodup ∧ (Solution.dualMonomials s m).Nodup := by
  refine ⟨nodup_map_monomial hs.scope hs.basis.1 hs.natural, ?_⟩
  have vectors := map_exponents_of_matching hm
  have nodup := nodup_map_monomial hs.scope s.nodup_matchedExponents
    (fun v hv => isNatural_of_mem_matchedExponents hs.natural hs.collects.natural hv)
  rwa [← vectors, List.map_map] at nodup

theorem Problem.exists_faithful_build {p : Problem Rat} (hp : p.IsWellPosed)
    (hwidth : ∀ m ∈ p.system.modes, m.drift.width = 1)
    (hdistinct : p.system.HasDistinctSymbols) :
    ∃ r, p.build = .ok r ∧ r.IsFaithful p.system ∧
      (∀ template ∈ r.templates, template.basis.Nodup) ∧
      ∀ t ∈ r.program.statements, t.monomialBasis.Nodup ∧
        (∃ m, t.matching r.program.index r.program.size = .ok m ∧
          (Solution.dualMonomials t m).Nodup) ∧
        ∀ e : Expression Rat, e.IsPolynomial → coefficients e t.scope = .ok t.coefficients →
          (e.eval X : MvPolynomial Symbol ℚ) = t.polynomial.eval X := by
  obtain ⟨r, cs, built, relaxed⟩ := exists_build hp hwidth
  have isFaithful := isFaithful_of_build built hdistinct
  refine ⟨r, built, isFaithful, fun template htemplate => ?_, fun t ht => ?_⟩
  · obtain ⟨m, hm, vectors, basis, natural, distinct, -⟩ :=
      exists_left_of_mem isFaithful.templates htemplate
    rw [basis]
    exact nodup_map_monomial (List.nodup_append.mp (hdistinct m hm)).1 distinct natural
  · have regular := relaxed.regular.statements t ht
    obtain ⟨m, hm⟩ := relaxed.regular.exists_matching ht
    obtain ⟨basis, rows⟩ := (isFaithful.statements t ht).nodup_monomials hm
    exact ⟨basis, ⟨m, hm, rows⟩, fun e he same => (eval_of_coefficients X he same).symm.trans
      (eval_of_coefficients X regular.polynomial regular.coefficients)⟩

/-! ## The relaxations of systems -/

/--
Where the time, the states and the controls of each mode are distinct, whatever is built for the
system is over distinct variables.  With rational data the relaxation is built, all monomials of its
bases and equations are different expressions, and the coefficients of a statement are those of its
polynomial only.
-/
theorem isFaithful_of_hasDistinctSymbols :
    (∀ {K : Type} [Scalar K] (s : HybridSystem K) (degree : Datum) (settings : Settings)
        (p : Problem K) (r : Relaxation K), s.HasDistinctSymbols →
        Problem.pose s degree settings = .ok p → p.build = .ok r → r.IsFaithful s) ∧
      ∀ (s : HybridSystem Rat) (degree : Datum) (settings : Settings) (p : Problem Rat),
        s.IsPolynomial → (∀ m ∈ s.modes, m.drift.width = 1) → s.HasDistinctSymbols →
        Problem.pose s degree settings = .ok p → ∃ r, p.build = .ok r ∧ r.IsFaithful s ∧
          (∀ template ∈ r.templates, template.basis.Nodup) ∧
          ∀ t ∈ r.program.statements, t.monomialBasis.Nodup ∧
            (∃ m, t.matching r.program.index r.program.size = .ok m ∧
              (Solution.dualMonomials t m).Nodup) ∧
            ∀ e : Expression Rat, e.IsPolynomial → coefficients e t.scope = .ok t.coefficients →
              (e.eval X : MvPolynomial Symbol ℚ) = t.polynomial.eval X := by
  constructor
  · intro K _ s degree settings p r hdistinct hpose hbuild
    obtain ⟨-, -, n, -, rfl⟩ := Problem.pose_eq_ok.mp hpose
    exact Problem.isFaithful_of_build hbuild hdistinct
  · intro s degree settings p hs hwidth hdistinct hpose
    obtain ⟨wellPosed, rfl, -⟩ := Problem.isWellPosed_of_pose hs hpose
    exact Problem.exists_faithful_build wellPosed hwidth hdistinct

theorem hasDistinctSymbols_parkingSystem : parkingSystem.HasDistinctSymbols := by
  intro m hm
  rcases List.mem_pair.mp hm with rfl | rfl <;> decide

theorem isFaithful_of_hasDistinctSymbols_parkingSystem : ∃ p r,
    Problem.pose parkingSystem (.integer 2) Settings.defaults = .ok p ∧ p.build = .ok r ∧
      r.IsFaithful parkingSystem ∧ ∀ t ∈ r.program.statements, t.monomialBasis.Nodup := by
  obtain ⟨p, r, posed, built, -⟩ := exists_relaxation_parkingSystem (n := 2) (by decide)
  obtain ⟨r', built', -, -, statements⟩ := isFaithful_of_hasDistinctSymbols.2 parkingSystem _ _ p
    isPolynomial_parkingSystem width_drift_parkingSystem hasDistinctSymbols_parkingSystem posed
  obtain rfl := Except.ok.inj (built.symm.trans built')
  exact ⟨p, r, posed, built, isFaithful_of_hasDistinctSymbols.1 parkingSystem _ _ p r
    hasDistinctSymbols_parkingSystem posed built, fun t ht => (statements t ht).1⟩

def sharingMode : Mode Rat where
  states := [.named "x"]
  controls := [.named "x"]
  drift := ⟨1, [[.zero]]⟩
  input := ⟨1, [[.zero]]⟩
  domain := []
  controlSet := []
  targetSet := []
  runningCost := .zero
  terminalCost := .zero
  initialState := none
  name := none

def sharingSystem : HybridSystem Rat :=
  ⟨.named "t", [sharingMode], []⟩

/-- A system with a symbol of two meanings is valid, and its relaxation has a monomial twice. -/
theorem not_hasDistinctSymbols_sharingSystem : sharingSystem.validate = .ok () ∧
    ¬ sharingSystem.HasDistinctSymbols ∧ ∃ p r,
      Problem.pose sharingSystem (.integer 2) Settings.defaults = .ok p ∧ p.build = .ok r ∧
        ∃ t ∈ r.program.statements, ¬ t.scope.Nodup ∧ ¬ t.monomialBasis.Nodup := by
  have checked : (do
      let p ← Problem.pose sharingSystem (.integer 2) Settings.defaults
      let r ← p.build
      .ok (decide (∃ t ∈ r.program.statements, ¬ t.scope.Nodup ∧ ¬ t.monomialBasis.Nodup))) =
      (.ok true : Except Failure Bool) := by
    decide +kernel
  obtain ⟨p, posed, checked⟩ := bind_eq_ok.mp checked
  obtain ⟨r, built, checked⟩ := bind_eq_ok.mp checked
  refine ⟨(Problem.pose_eq_ok.mp posed).1, fun distinct => ?_, p, r, posed, built,
    of_decide_eq_true (Except.ok.inj checked)⟩
  have := distinct sharingMode (by simp [sharingSystem])
  revert this
  decide

end HybridRelaxation
