import Mathlib
import HybridRelaxation.Proofs.Polynomial.GradedOrder
import HybridRelaxation.Proofs.Polynomial.Renaming
import HybridRelaxation.Proofs.SquareSum.Nonnegativity

/-!
# Programs under new names

Two statements agree if they have the same basis and, in whatever order, the same coefficients; then
they have the same matching equations.  Two programs mirror each other if they have the same
decisions and their statements agree one by one.  Certifying a polynomial on a set, in one program
under the old names and in the other under the new, makes the programs go on mirroring each other.
-/

namespace HybridRelaxation

open MvPolynomial (X)

/-! ## Statements that agree -/

namespace SquareSum

/-- The same basis, and the same coefficients in whatever order. -/
structure Agrees (s s' : SquareSum Rat) : Prop where
  basis : s'.basis = s.basis
  coefficients : s.coefficients.Perm s'.coefficients

section

variable {s s' : SquareSum Rat} (h : s.Agrees s')

include h

theorem Agrees.pairExponents : s'.pairExponents = s.pairExponents := by
  funext pair
  rw [SquareSum.pairExponents, SquareSum.pairExponents, h.basis]

theorem Agrees.gramSize : s'.gramSize = s.gramSize := by
  rw [SquareSum.gramSize, SquareSum.gramSize, h.basis]

theorem Agrees.gramEntries : s'.gramEntries = s.gramEntries := by
  funext e
  rw [SquareSum.gramEntries, SquareSum.gramEntries, h.gramSize, h.pairExponents]

theorem Agrees.matchedExponents : s'.matchedExponents = s.matchedExponents := by
  rw [SquareSum.matchedExponents, SquareSum.matchedExponents, h.gramSize, h.pairExponents]
  exact sortGraded_eq_of_perm (perm_eraseDups ((h.coefficients.symm.map _).append_right _))

variable (distinct : (s.coefficients.map Prod.fst).Nodup)

include distinct

theorem Agrees.coefficientOf : s'.coefficientOf = s.coefficientOf := by
  funext e
  have distinct' := (h.coefficients.map Prod.fst).nodup_iff.mp distinct
  rw [SquareSum.coefficientOf, SquareSum.coefficientOf]
  congr 1
  ext t
  rw [find?_key_eq_some distinct, find?_key_eq_some distinct', h.coefficients.mem_iff]

theorem Agrees.matching (index : Symbol → Option ℤ) (columns : ℤ) :
    s'.matching index columns = s.matching index columns := by
  have rows : s'.matchingRow index = s.matchingRow index := by
    funext e
    rw [SquareSum.matchingRow, SquareSum.matchingRow, h.coefficientOf distinct, h.gramEntries]
  rw [SquareSum.matching, SquareSum.matching, h.matchedExponents, h.gramSize, rows]

end

end SquareSum

theorem SquareSum.IsRegular.perm_coefficients {s s' : SquareSum Rat} (hs : s.IsRegular)
    (hs' : s'.IsRegular) {f : String → String} (h : s.polynomial.IsRenamed f s'.polynomial)
    (hscope : s'.scope = s.scope.map (Symbol.rename f))
    (hnamed : ∀ t ∈ s.scope, t.isNamed = true) {decisions : List Symbol}
    (hdecisions : ∀ t ∈ decisions, t.isNamed = false)
    (haffine : s.polynomial.eval X ∈ affineSpan s.scope decisions) :
    s.coefficients.Perm s'.coefficients := by
  have distinct := hs'.distinct
  have listed := hs'.coefficients
  rw [hscope] at distinct listed
  exact perm_of_isRenamed h distinct hnamed hdecisions haffine hs.coefficients listed

/-! ## Programs that mirror each other -/

namespace SquareProgram

/-- The same decisions, and statements that agree one by one. -/
structure Mirrors (p p' : SquareProgram Rat) : Prop where
  decisions : p'.decisions = p.decisions
  statements : List.Forall₂ SquareSum.Agrees p.statements p'.statements

variable {p p' : SquareProgram Rat}

theorem Mirrors.size (h : p.Mirrors p') : p'.size = p.size := by
  rw [SquareProgram.size, SquareProgram.size, h.decisions]

theorem Mirrors.index (h : p.Mirrors p') : p'.index = p.index := by
  funext s
  cases s with
  | named name => rfl
  | decision position label => rw [SquareProgram.index, SquareProgram.index, h.decisions]

theorem Mirrors.addStatement (h : p.Mirrors p') {s s' : SquareSum Rat} (hs : s.Agrees s') :
    Mirrors { p with statements := p.statements ++ [s] }
      { p' with statements := p'.statements ++ [s'] } :=
  ⟨h.decisions, List.rel_append h.statements (.cons hs .nil)⟩

theorem isRenamed_combination (f : String → String) {symbols : List Symbol}
    (hsymbols : ∀ s ∈ symbols, s.isNamed = false) (scope : List Symbol) (degree : ℤ) :
    (combination symbols (monomials scope degree 0)).IsRenamed f
      (combination symbols (monomials (scope.map (Symbol.rename f)) degree 0)) := by
  refine ⟨(combination_monomials_spec (fun _ => (0 : ℚ)) scope degree symbols).1,
    (combination_monomials_spec (fun _ => (0 : ℚ)) _ degree symbols).1, ?_⟩
  rw [(combination_monomials_spec _ _ degree symbols).2,
    (combination_monomials_spec _ _ degree symbols).2, List.length_map]
  congr 1
  refine List.ext_getElem (by simp) (fun k hk _ => ?_)
  have hlength : k < symbols.length := by
    rw [List.length_zipWith] at hk
    omega
  simp only [List.getElem_zipWith, monomialValue_rename,
    Symbol.rename_of_not_isNamed f (hsymbols _ (List.getElem_mem hlength))]

/-! ## Certificates -/

section

variable {f : String → String} {scope : List Symbol}
  (hscope : (scope.map (Symbol.rename f)).Nodup) (hnamed : ∀ t ∈ scope, t.isNamed = true)

include hscope hnamed

theorem totalDegree_of_isRenamed {g g' : Expression Rat} (h : g.IsRenamed f g')
    (hwithin : g.eval X ∈ scopePolynomials scope) :
    totalDegree g' (scope.map (Symbol.rename f)) = totalDegree g scope := by
  obtain ⟨m, hm, -⟩ := exists_coefficients.{0} h.isPolynomial_left scope
  obtain ⟨m', hm', -⟩ := exists_coefficients.{0} h.isPolynomial_right (scope.map (Symbol.rename f))
  have none : ∀ t ∈ ([] : List Symbol), t.isNamed = false := by simp
  have same := perm_of_isRenamed h hscope hnamed none (mem_affineSpan_of_mem hwithin) hm hm'
  rw [totalDegree, totalDegree, hm, hm']
  exact congrArg Except.ok (CoefficientMap.totalDegree_eq_of_perm same).symm

theorem Mirrors.newSquareSum (h : p.Mirrors p') (half : ℤ) (name : String) :
    ∃ s s', p.newSquareSum scope half name =
        (p.withFreeSquareSum scope half name s, .ok s.polynomial) ∧
      p'.newSquareSum (scope.map (Symbol.rename f)) half name =
        (p'.withFreeSquareSum (scope.map (Symbol.rename f)) half name s', .ok s'.polynomial) ∧
      s.polynomial.IsRenamed f s'.polynomial ∧
      (p.withFreeSquareSum scope half name s).Mirrors
        (p'.withFreeSquareSum (scope.map (Symbol.rename f)) half name s') := by
  obtain ⟨s, hs, regular, hs_scope, hbasis, hpoly⟩ :=
    p.newSquareSum_spec (hscope.of_map _) half name
  obtain ⟨s', hs', regular', hs_scope', hbasis', hpoly'⟩ := p'.newSquareSum_spec hscope half name
  have lengths : (monomials (K := Rat) (scope.map (Symbol.rename f)) (2 * half) 0).length =
      (monomials (K := Rat) scope (2 * half) 0).length := by
    simp [monomials]
  rw [h.size, lengths] at hpoly'
  have renamed : s.polynomial.IsRenamed f s'.polynomial := by
    rw [hpoly, hpoly']
    exact isRenamed_combination f (fun _ => isNamed_of_mem_freshDecisions) scope (2 * half)
  have affine : s.polynomial.eval X ∈ affineSpan s.scope
      (freshDecisions name p.size (monomials (K := Rat) scope (2 * half) 0).length) := by
    rw [hpoly, hs_scope]
    exact combination_mem_affineSpan (fun _ ht => ⟨ht, rfl⟩)
      (fun _ ht => X_mem_scopePolynomials ht) (2 * half)
  have agrees : s.Agrees s' :=
    ⟨by rw [hbasis, hbasis', List.length_map], regular.perm_coefficients regular' renamed
      (by rw [hs_scope, hs_scope']) (by rwa [hs_scope])
      (fun _ => isNamed_of_mem_freshDecisions) affine⟩
  refine ⟨s, s', hs, hs', renamed, ?_, List.rel_append h.statements (.cons agrees .nil)⟩
  simp only [withFreeSquareSum, SquareProgram.newFreePolynomial, h.decisions, h.size, lengths]

theorem Mirrors.registerMultipliers {constraints constraints' : List (Expression Rat)}
    (hconstraints : List.Forall₂ (Expression.IsRenamed f) constraints constraints')
    (hwithin : ∀ g ∈ constraints, g.eval X ∈ scopePolynomials scope) (degree : ℤ) (name : String)
    (k : ℕ) (h : p.Mirrors p') {rest rest' : Expression Rat} (hrest : rest.IsRenamed f rest') :
    ∃ q q' ms ms' last last',
      p.registerMultipliers rest scope degree name k constraints = (q, .ok (ms, last)) ∧
      p'.registerMultipliers rest' (scope.map (Symbol.rename f)) degree name k constraints' =
        (q', .ok (ms', last')) ∧
      q.Mirrors q' ∧ last.IsRenamed f last' := by
  induction hconstraints generalizing p p' rest rest' k with
  | nil => exact ⟨p, p', [], [], rest, rest', rfl, rfl, h, hrest⟩
  | @cons g g' constraints constraints' hg tail ih =>
      have inside := hwithin g (by simp)
      have degrees := totalDegree_of_isRenamed hscope hnamed hg inside
      obtain ⟨m, hm, -⟩ := exists_coefficients.{0} hg.isPolynomial_left scope
      have degree_ok : totalDegree g scope = .ok m.totalDegree := by
        rw [totalDegree, hm]
        rfl
      rw [degree_ok] at degrees
      obtain ⟨s, s', hs, hs', renamed, mirrors⟩ := h.newSquareSum hscope hnamed
        (multiplierHalf degree m.totalDegree) (name ++ toString (k + 1))
      obtain ⟨q, q', ms, ms', last, last', hq, hq', mirrors', hlast⟩ :=
        ih (fun g hg => hwithin g (by simp [hg])) (k + 1) mirrors (hrest.sub (renamed.mul hg))
      refine ⟨q, q', s.polynomial :: ms, s'.polynomial :: ms', last, last', ?_, ?_, mirrors',
        hlast⟩
      · exact registerMultipliers_cons_eq_ok.mpr ⟨_, _, _, _, degree_ok, hs, hq, rfl⟩
      · exact registerMultipliers_cons_eq_ok.mpr ⟨_, _, _, _, degrees, hs', hq', rfl⟩

theorem Mirrors.nonnegativeOn {constraints constraints' : List (Expression Rat)}
    (hconstraints : List.Forall₂ (Expression.IsRenamed f) constraints constraints')
    (hwithin : ∀ g ∈ constraints, g.eval X ∈ scopePolynomials scope) (degree : ℤ) (name : String)
    (h : p.Mirrors p') (hp : p.IsRegular) {e e' : Expression Rat} (he : e.IsRenamed f e')
    (haffine : e.eval X ∈ affineSpan scope p.decisions) :
    ∃ q q' ms ms', p.nonnegativeOn e scope constraints degree name = (q, .ok ms) ∧
      p'.nonnegativeOn e' (scope.map (Symbol.rename f)) constraints' degree name =
        (q', .ok ms') ∧
      q.Mirrors q' := by
  have polynomial : ∀ g ∈ constraints, g.IsPolynomial := fun g hg => by
    obtain ⟨g', -, renamed⟩ := exists_right_of_mem hconstraints hg
    exact renamed.isPolynomial_left
  obtain ⟨q, q', ms, ms', last, last', hq, hq', mirrors, hlast⟩ :=
    h.registerMultipliers hscope hnamed hconstraints hwithin degree name 0 he
  obtain ⟨_, added, _, hregistered, -, regular, -, -, -, -, affine, -⟩ :=
    registerMultipliers_spec (hscope.of_map _) hnamed polynomial hwithin degree name 0 hp
      he.isPolynomial_left haffine
  obtain ⟨rfl, result⟩ := Prod.mk.inj (hq.symm.trans hregistered)
  obtain ⟨-, rfl⟩ := Prod.mk.inj (Except.ok.inj result)
  obtain ⟨s, hs, sregular, hpoly, hs_scope, hbasis⟩ :=
    exists_statement hlast.isPolynomial_left (hscope.of_map _) none (name ++ "0")
  obtain ⟨s', hs', sregular', hpoly', hs_scope', hbasis'⟩ :=
    exists_statement hlast.isPolynomial_right hscope none (name ++ "0")
  have same := sregular.perm_coefficients sregular' (by rwa [hpoly, hpoly'])
    (by rw [hs_scope, hs_scope']) (by rwa [hs_scope]) (fun _ => regular.isNamed_of_mem)
    (by rwa [hpoly, hs_scope])
  have agrees : s.Agrees s' := by
    refine ⟨?_, same⟩
    rw [hbasis, hbasis', CoefficientMap.totalDegree_eq_of_perm same, List.length_map]
  refine ⟨_, _, ms, ms', ?_, ?_, mirrors.addStatement agrees⟩
  · exact nonnegativeOn_eq_ok.mpr ⟨q, last, _, hq, withSquareSum_eq_ok.mpr ⟨s, hs, rfl, rfl⟩⟩
  · exact nonnegativeOn_eq_ok.mpr ⟨q', last', _, hq', withSquareSum_eq_ok.mpr ⟨s', hs', rfl, rfl⟩⟩

end

end SquareProgram

end HybridRelaxation
